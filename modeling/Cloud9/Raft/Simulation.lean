import Cloud9.Raft.NodeCalls
import Cloud9.Raft.Refinement

/-!
# Every action continues the history

One theorem per action of `Cloud9.Raft.Action`: if the history agrees with the node before the
action, then it can be continued to one that agrees with the node after it (`Setting.Next`).
Elections use `Inv.fresh`: a candidate with a quorum is the only leader of its term. Appends use
the closed form of the append loop.

Main result: `Setting.simulate`.
-/

namespace Cloud9

open World

theorem Leader.termAt_of_currentTerm {core : Core} (hplain : core.log.Plain)
    (hle : ∀ e ∈ core.log.entries, e.term ≤ core.term)
    (h : (currentTermCommitIndex core).isSome = true) :
    core.log.termAt core.commitIndex = core.term := by
  unfold currentTermCommitIndex at h
  rcases hc : core.commitIndex with _ | i
  · simp [hc, currentTermIndexFrom] at h
  -- The scan never goes below its first index: no entry is of a later term.
  · have hterm : core.log.termAt (i + 1) ≤ core.term := by
      rw [hplain.termAt, Log.entryTerm_succ]
      rcases hi : core.log.entries[i]? with _ | e
      · exact Nat.zero_le _
      · exact hle e (List.mem_of_getElem? hi)
    rw [hc, currentTermIndexFrom] at h
    split_ifs at h with h₁ h₂
    · exact h₁
    · cases h
    · omega

theorem ConfigChange.apply_transitionTarget {change : ConfigChange} {current : Configuration}
    (h : change.validate current .singleServer = .ok ()) :
    (change.apply current .singleServer).transitionTarget = none := by
  cases current with
  | joint old new learners => cases h
  | simple voters learners =>
    obtain ⟨voters', learners', happly, -⟩ := apply_adjacent h
    rw [happly]
    rfl

namespace Setting

section Facts

variable {P : Setting} {w : History}

theorem PositiveTerms.tlog (hinv : w.Inv P.system) (T : ℕ) : Log.PositiveTerms (w.tlog T) := by
  intro e he
  obtain ⟨i, hi⟩ := List.mem_iff_getElem?.1 he
  have hroot := hinv.tlog_rooted T i e hi
  have hmem : (w.tlog T).take (i + 1) ≠ [] := by
    have := (List.getElem?_eq_some_iff.1 hi).1
    simp only [ne_eq, List.take_eq_nil_iff, Nat.succ_ne_zero, false_or]
    rintro h0
    simp [h0] at this
  have hlead : w.leader e.term ≠ none := fun hnone => by
    have hnil : w.tlog e.term = [] := hinv.leader_none hnone
    rw [system_term, hnil, List.prefix_nil] at hroot
    exact hmem hroot
  obtain ⟨x, hx⟩ := Option.ne_none_iff_exists'.1 hlead
  exact hinv.cand_pos (hinv.leader_cand hx)

/-- An entry of a rooted log is in the log of the leader of its term. -/
theorem mem_tlog {l : List Entry} (hl : Rooted P.system w l) {e : Entry} (he : e ∈ l) :
    e ∈ w.tlog e.term := by
  obtain ⟨i, hi⟩ := List.mem_iff_getElem?.1 he
  refine (hl i e hi).subset (List.mem_of_getElem? (i := i) ?_)
  rw [List.getElem?_take_of_lt (Nat.lt_succ_self i), hi]

theorem PositiveTerms.log (hinv : w.Inv P.system) (id : NodeId) :
    Log.PositiveTerms (w.log id) := fun e he =>
  PositiveTerms.tlog hinv _ e (mem_tlog (hinv.log_rooted id) he)

/-- **Log matching.** -/
theorem matching_of_rooted {l l' : List Entry} (hl : Rooted P.system w l)
    (hl' : Rooted P.system w l') : Log.Matching l l' := by
  intro i e e' he he' hterm
  exact Rooted.matching hl hl' he he' hterm

/-- One leader's log changes. -/
theorem LogsOk.update (h : LogsOk P w) {w' : History} {T₀ : ℕ} {l : List Entry}
    (htlog : w'.tlog = Function.update w.tlog T₀ l) (hidx : Log.Indexed l)
    (hsimple : ∀ e ∈ l, ∀ cfg, e.payload = .config cfg →
      cfg.transitionTarget = none ∧ P.change) :
    LogsOk P w' where
  indexed T := by
    rw [htlog]
    rcases eq_or_ne T T₀ with rfl | hT
    · rwa [Function.update_self]
    · rw [Function.update_of_ne hT]
      exact h.indexed T
  simple {T e cfg} he hcfg := by
    rw [htlog] at he
    rcases eq_or_ne T T₀ with rfl | hT
    · rw [Function.update_self] at he
      exact hsimple e he cfg hcfg
    · rw [Function.update_of_ne hT] at he
      exact h.simple he hcfg

namespace NodeRel

variable {id : NodeId} {v : View} (h : P.NodeRel w id v)
include h

theorem core_id : v.core.id = id := by
  rw [Core.id, h.config, P.config_id]

theorem effectiveConfig : v.core.effectiveConfig = configOf P.boot (w.log id) := by
  rw [Core.effectiveConfig_eq h.plain, h.log, h.boot, configOf]

theorem lastIndex : v.core.log.lastIndex = (w.log id).length := by
  rw [h.plain.lastIndex, h.log]

/-- A node's role can be forgotten. -/
theorem passive : P.NodeRel w id ⟨v.core, .passive⟩ :=
  ⟨h.config, h.boot, h.plain, h.term, h.log, h.vote, trivial, h.commit⟩

end NodeRel

end Facts

section Actions

variable {P : Setting} {w : History} (hinv : w.Inv P.system) (hlogs : LogsOk P w) {id : NodeId}
include hinv hlogs

/-- The history stays as it is. -/
theorem next_same {v' : View} {ms : List Message} (hnode : P.NodeRel w id v')
    (hms : ∀ m ∈ ms, P.MsgRel w m) : P.Next w w id v' ms :=
  ⟨Frame.refl w id, hinv, hlogs, hnode, hms⟩

/-! ## Elections -/

theorem next_adopt {v : View} (hrel : P.NodeRel w id v) {T : ℕ} (hT : v.core.term < T) :
    P.Next w (w.adopt id T) id ⟨(v.core.maybeUpdateTerm T).2, .passive⟩ [] := by
  have hlt : w.cur id < T := hrel.term ▸ hT
  have hcore : (v.core.maybeUpdateTerm T).2 =
      { v.core with persistent := { v.core.persistent with term := T, votedFor := none } } := by
    rw [Core.maybeUpdateTerm, if_pos (show T > v.core.persistent.term from hT)]
  have hcur : (w.adopt id T).cur id = T := Function.update_self ..
  have hle : w.Le (w.adopt id T) := adopt_le hlt
  refine ⟨⟨hle, fun j hj => Function.update_of_ne hj .., fun _ _ => rfl, fun _ _ => rfl,
    fun _ _ _ h => h⟩, hinv.adopt hlt, ⟨hlogs.indexed, hlogs.simple⟩, ?_, by simp⟩
  rw [hcore]
  refine ⟨hrel.config, hrel.boot, hrel.plain, hcur.symm, hrel.log, ?_, trivial, fun hs => ?_⟩
  · show none = w.vote id ((w.adopt id T).cur id)
    rw [hcur]
    rcases hv : w.vote id T with _ | c
    · rfl
    · exact absurd (hinv.vote_le hv) (by omega)
  · exact (hrel.commit hs).mono hinv hle (hle.cur id) List.prefix_rfl

omit hlogs in
theorem vote_succ_cur : w.vote id (w.cur id + 1) = none := by
  rcases hv : w.vote id (w.cur id + 1) with _ | c
  · rfl
  · exact absurd (hinv.vote_le hv) (by omega)

omit hlogs in
theorem leader_succ_cur : w.leader (w.cur id + 1) ≠ some id := fun hl =>
  absurd (hinv.cand_le (hinv.leader_cand hl)) (by omega)

omit hinv hlogs in
theorem campaign_cur : (w.campaign id).cur id = w.cur id + 1 := Function.update_self ..

omit hinv hlogs in
theorem campaign_cand_self : (w.campaign id).cand id (w.cur id + 1) = some (w.log id) :=
  if_pos ⟨rfl, rfl⟩

omit hlogs in
/-- A history in which `id` stands for election in the next term: the node's state agrees with
it, whoever the node voted for. -/
theorem next_candidate {v : View} (hrel : P.NodeRel w id v) {w' : History}
    (hf : Frame (w.campaign id) w' id) (hinv' : w'.Inv P.system) (hlogs' : LogsOk P w')
    (hcur : w'.cur id = w.cur id + 1) (hlog : w'.log id = w.log id)
    (hlead : w'.leader (w.cur id + 1) ≠ some id) (votes : OrdSet NodeId) (ms : List Message)
    (hvote : v.core.startElection.persistent.votedFor = w'.vote id (w.cur id + 1))
    (hvotes : ∀ voter ∈ votes, w'.vote voter (w.cur id + 1) = some id)
    (hms : ∀ m ∈ ms, ∃ peer, m = v.core.startElection.message peer
      (.voteRequest ⟨v.core.log.lastIndex, v.core.log.lastTerm⟩)) :
    P.Next w w' id ⟨v.core.startElection, .candidate votes⟩ ms := by
  have hcand : w'.cand id (w.cur id + 1) = some (w.log id) := hf.le.cand campaign_cand_self
  have hframe : Frame w w' id := Frame.trans ⟨campaign_le hinv id,
    fun j hj => Function.update_of_ne hj .., fun _ _ => rfl, fun _ _ => rfl, fun _ _ _ h => h⟩ hf
  refine ⟨hframe, hinv', hlogs', ⟨hrel.config, hrel.boot, hrel.plain, ?_, hrel.log.trans hlog.symm,
    by rw [hcur]; exact hvote, ?_, fun hs => ?_⟩, fun m hm => ?_⟩
  · rw [hcur, ← hrel.term]
    rfl
  · simp only [RoleRel, hcur, hlog]
    exact ⟨hcand, hlead, hvotes⟩
  · rw [hlog]
    exact (hrel.commit hs).mono hinv hframe.le (hframe.le.cur id) List.prefix_rfl
  · obtain ⟨peer, rfl⟩ := hms m hm
    refine ⟨w.log id, ?_, hrel.lastIndex, ?_⟩
    · have hterm : v.core.startElection.term = w.cur id + 1 := by
        rw [← hrel.term]
        rfl
      show w'.cand v.core.id v.core.startElection.term = _
      rw [hrel.core_id, hterm, hcand]
    · rw [hrel.plain.lastTerm, hrel.log]
      exact (lastTerm_eq P.boot _).symm

theorem next_campaign {v : View} (hrel : P.NodeRel w id v) (votes : OrdSet NodeId)
    (ms : List Message)
    (hvotes : ∀ voter ∈ votes, voter = v.core.id ∧ v.core.isVoter = true)
    (hms : ∀ m ∈ ms, ∃ peer, m = v.core.startElection.message peer
      (.voteRequest ⟨v.core.log.lastIndex, v.core.log.lastTerm⟩)) :
    ∃ w', P.Next w w' id ⟨v.core.startElection, .candidate votes⟩ ms := by
  have hnone : (w.campaign id).vote id ((w.campaign id).cur id) = none := by
    rw [campaign_cur]
    exact vote_succ_cur hinv
  cases hv : v.core.isVoter with
  | false =>
    refine ⟨w.campaign id, next_candidate hinv hrel (Frame.refl _ id) (hinv.campaign id)
      ⟨hlogs.indexed, hlogs.simple⟩ campaign_cur rfl (leader_succ_cur hinv) votes ms ?_
      (fun voter hvoter => ?_) hms⟩
    · simp only [Core.startElection, hv]
      exact (vote_succ_cur hinv).symm
    · rw [hv] at hvotes
      exact absurd (hvotes voter hvoter).2 Bool.false_ne_true
  -- A voter votes for itself.
  | true =>
    have hcand : (w.campaign id).cand id ((w.campaign id).cur id) = some (w.log id) := by
      rw [campaign_cur]
      exact campaign_cand_self
    have hself : ((w.campaign id).castVote id id).vote id (w.cur id + 1) = some id := by
      rw [← campaign_cur]
      exact if_pos ⟨rfl, rfl⟩
    have hframe : Frame (w.campaign id) ((w.campaign id).castVote id id) id :=
      ⟨castVote_le hnone, fun _ _ => rfl, fun _ _ => rfl,
        fun j hj => funext fun T => if_neg fun h => hj h.1, fun _ _ _ h => h⟩
    refine ⟨(w.campaign id).castVote id id, next_candidate hinv hrel hframe
      ((hinv.campaign id).castVote hnone hcand (.inr ⟨rfl, le_rfl⟩))
      ⟨hlogs.indexed, hlogs.simple⟩ campaign_cur rfl (leader_succ_cur hinv) votes ms ?_
      (fun voter hvoter => ?_) hms⟩
    · simp only [Core.startElection, hv, if_true, hself]
      exact congrArg some hrel.core_id
    · rw [(hvotes voter hvoter).1, hrel.core_id]
      exact hself

/-- A vote for a candidate whose request was delivered. -/
theorem next_grant {core : Core} (hrel : P.NodeRel w id ⟨core, .passive⟩) {candidate : NodeId}
    {req : VoteRequest}
    (hmsg : P.MsgRel w ⟨candidate, core.id, core.term, .voteRequest req⟩)
    (hcan : core.canVoteFor candidate = true)
    (hlog : core.logIsUpToDate req.lastLogTerm req.lastLogIndex = true) :
    ∃ w', P.Next w w' id ⟨core.voteFor candidate, .passive⟩
      [core.message candidate (.voteResponse ⟨true⟩)] := by
  obtain ⟨B, hB, hlen, hlast⟩ := hmsg
  rw [show core.term = w.cur id from hrel.term] at hB
  have hup : UpToDate P.system (w.log id) B := by
    have hour : core.persistent.log.lastTerm = lastTerm P.system (w.log id) := by
      rw [show core.persistent.log.lastTerm = _ from hrel.plain.lastTerm, hrel.log]
      exact (lastTerm_eq P.boot _).symm
    have hidx : core.persistent.log.lastIndex = (w.log id).length := hrel.lastIndex
    simpa [Core.logIsUpToDate, UpToDate, hour, hidx, hlen, hlast] using hlog
  have hvoted : core.persistent.votedFor = w.vote id (w.cur id) := hrel.vote
  have hreply : ∀ w' : History, w'.vote id (w.cur id) = some candidate →
      ∀ m ∈ [core.message candidate (.voteResponse ⟨true⟩)], P.MsgRel w' m := by
    intro w' hv m hm
    rw [List.mem_singleton.1 hm]
    intro _
    show w'.vote core.id core.term = some candidate
    rw [hrel.core_id, show core.term = w.cur id from hrel.term, hv]
  rcases hv : w.vote id (w.cur id) with _ | c
  · have hself : (w.castVote id candidate).vote id (w.cur id) = some candidate :=
      if_pos ⟨rfl, rfl⟩
    have hle : w.Le (w.castVote id candidate) := castVote_le hv
    refine ⟨w.castVote id candidate, ⟨hle, fun _ _ => rfl, fun _ _ => rfl,
      fun j hj => funext fun T => if_neg fun h => hj h.1, fun _ _ _ h => h⟩,
      hinv.castVote hv hB hup, ⟨hlogs.indexed, hlogs.simple⟩, ?_, hreply _ hself⟩
    exact ⟨hrel.config, hrel.boot, hrel.plain, hrel.term, hrel.log, hself.symm, trivial,
      fun hs => (hrel.commit hs).mono hinv hle le_rfl List.prefix_rfl⟩
  -- The vote was given before; it is only repeated.
  · have hc : c = candidate := by
      simpa [Core.canVoteFor, hvoted, hv] using hcan
    rw [hc] at hv
    exact ⟨w, next_same hinv hlogs ⟨hrel.config, hrel.boot, hrel.plain, hrel.term, hrel.log,
      hv.symm, trivial, hrel.commit⟩ (hreply w hv)⟩

theorem next_count {core : Core} {votes : OrdSet NodeId}
    (hrel : P.NodeRel w id ⟨core, .candidate votes⟩) {voter : NodeId}
    (hmsg : P.MsgRel w ⟨voter, core.id, core.term, .voteResponse ⟨true⟩⟩) :
    P.Next w w id ⟨core, .candidate (votes.insert voter)⟩ [] := by
  obtain ⟨hcand, hlead, hvotes⟩ := hrel.role
  have hvote : w.vote voter (w.cur id) = some id := by
    have := hmsg rfl
    rwa [hrel.core_id, show core.term = w.cur id from hrel.term] at this
  refine next_same hinv hlogs { hrel with role := ⟨hcand, hlead, fun x hx => ?_⟩ } (by simp)
  rcases OrdSet.mem_insert.1 hx with rfl | hx
  · exact hvote
  · exact hvotes x hx

/-- **A candidate with a quorum becomes the leader.** -/
theorem next_win {core : Core} {votes : OrdSet NodeId}
    (hrel : P.NodeRel w id ⟨core, .candidate votes⟩)
    (hq : core.effectiveConfig.hasQuorum votes.contains = true) :
    ∃ w', P.Next w w' id ⟨core, .leader fun _ => 0⟩ [] := by
  obtain ⟨hcand, hlead, hvotes⟩ := hrel.role
  have hQ : P.system.quorum (w.log id) {x | x ∈ votes} := by
    refine ⟨votes.contains, ?_, fun x hx => OrdSet.contains_eq_true.1 hx⟩
    rw [← hrel.effectiveConfig]
    exact hq
  have hnone : w.leader (w.cur id) = none := by
    by_contra hsome
    obtain ⟨y, hy⟩ := Option.ne_none_iff_exists'.1 hsome
    exact hlead ((hinv.fresh hy hcand hQ hvotes) ▸ hy)
  have hle := win_le (Q := {x | x ∈ votes}) hinv hnone
  have hleader : (w.win id {x | x ∈ votes}).leader (w.cur id) = some id :=
    Function.update_self ..
  refine ⟨w.win id {x | x ∈ votes}, ⟨hle, fun _ _ => rfl, fun _ _ => rfl, fun _ _ => rfl, ?_⟩,
    hinv.win hcand hnone hQ hvotes, hlogs.update rfl (hrel.log ▸ hrel.plain.indexed)
      fun e he cfg => hlogs.simple (mem_tlog (hinv.log_rooted id) he), ?_, by simp⟩
  · intro j T hj hl
    by_cases hT : T = w.cur id
    · rw [hT, hleader] at hl
      exact absurd (Option.some.inj hl).symm hj
    · exact (Function.update_of_ne hT ..).symm.trans hl
  · refine { hrel with
      role := ⟨hleader, fun hs => ⟨fun _ => Nat.zero_le _, .inl ?_⟩⟩
      commit := fun hs => (hrel.commit hs).mono hinv hle le_rfl List.prefix_rfl }
    show core.commitIndex ≤ (Function.update w.base (w.cur id) (w.log id) (w.cur id)).length
    rw [Function.update_self]
    exact (hrel.commit hs).length_le

/-! ## Replication -/

section Leader

variable {core : Core} {mi : NodeId → ℕ} (hrel : P.NodeRel w id ⟨core, .leader mi⟩)
include hrel

omit hlogs in
theorem leader_log : w.log id = w.tlog (w.cur id) := hinv.held hrel.role.1 rfl

theorem next_send (peer : NodeId) {next : ℕ} (stop : ℕ) (hnext : 0 < next) :
    P.Next w w id ⟨core, .leader mi⟩ [core.message peer (.appendRequest ⟨next - 1,
      core.log.termAt (next - 1), core.log.slice next stop, core.commitIndex⟩)] := by
  have hterm : core.term = w.cur id := hrel.term
  have hlog := leader_log hinv hrel
  refine next_same hinv hlogs hrel fun m hm => ?_
  rw [List.mem_singleton.1 hm]
  refine ⟨?_, ?_, fun hs => ?_⟩
  · show w.leader core.term = some core.id
    rw [hterm, hrel.core_id]
    exact hrel.role.1
  · show Follower.Window (w.tlog core.term) _
    rw [hterm, ← hlog, ← hrel.log]
    exact Follower.window_slice hrel.plain hnext stop core.commitIndex
  · show Covered P.system w core.term (w.tlog core.term) core.commitIndex
    rw [hterm, ← hlog]
    exact hrel.commit hs

theorem next_ack {peer : NodeId} {index : ℕ}
    (hmsg : P.MsgRel w ⟨peer, core.id, core.term, .appendResponse ⟨true, index⟩⟩) :
    P.Next w w id ⟨core, .leader (Function.update mi peer index)⟩ [] := by
  obtain ⟨hlead, hstrong⟩ := hrel.role
  refine next_same hinv hlogs { hrel with
    role := ⟨hlead, fun hs => ⟨fun voter => ?_, (hstrong hs).2⟩⟩ } (by simp)
  rcases eq_or_ne voter peer with rfl | hne
  · have := hmsg rfl hs
    rwa [Function.update_self, ← show core.term = w.cur id from hrel.term]
  · rw [Function.update_of_ne hne]
    exact (hstrong hs).1 voter

/-- The leader counts what it has on disk itself. -/
theorem next_disk {index : ℕ} (hidx : index ≤ core.log.lastIndex) :
    P.Next w (w.accept id (w.log id) index) id
      ⟨core, .leader (Function.update mi core.id index)⟩ [] := by
  obtain ⟨hlead, hstrong⟩ := hrel.role
  have hlog := leader_log hinv hrel
  have hlen : index ≤ (w.log id).length := hrel.lastIndex ▸ hidx
  have hsame : (w.accept id (w.log id) index).log = w.log := Function.update_eq_self ..
  have hle : w.Le (w.accept id (w.log id) index) := accept_le
  refine ⟨⟨hle, fun _ _ => rfl, fun j _ => congrFun hsame j, fun _ _ => rfl, fun _ _ _ h => h⟩,
    hinv.accept hlead (.inl rfl) (fun p hp _ => hp) (by rw [← hlog]; exact hlen)
      (by rw [← hlog]; exact List.take_prefix _ _),
    ⟨hlogs.indexed, hlogs.simple⟩, ?_, by simp⟩
  refine { hrel with
    log := hrel.log.trans (congrFun hsame id).symm
    role := ⟨hlead, fun hs => ⟨fun voter => ?_, ?_⟩⟩
    commit := fun hs => ?_ }
  · rw [hrel.core_id]
    rcases eq_or_ne voter id with rfl | hne
    · rw [Function.update_self]
      exact (le_max_right _ _).trans (if_pos ⟨rfl, rfl⟩).ge
    · rw [Function.update_of_ne hne]
      exact ((hstrong hs).1 voter).trans (hle.ack voter _)
  · exact (hstrong hs).2.imp_right fun ⟨m, hm⟩ => ⟨m, hm.mono hinv hle⟩
  · rw [congrFun hsame id]
    exact (hrel.commit hs).mono hinv hle le_rfl List.prefix_rfl

omit hlogs in
/-- An entry of the leader's own term is beyond what it started from. -/
theorem base_length_lt {index : ℕ} (hterm : core.log.termAt index = core.term) :
    (w.base (w.cur id)).length < index := by
  have hat : core.log.termAt index = Log.entryTerm core.log.entries index :=
    hrel.plain.termAt index
  rw [hat, hrel.log, show core.term = w.cur id from hrel.term, leader_log hinv hrel] at hterm
  have hpos := hinv.cand_pos (hinv.leader_cand hrel.role.1)
  rcases index with _ | i
  · rw [Log.entryTerm_zero] at hterm
    omega
  · rcases hi : (w.tlog (w.cur id))[i]? with _ | e
    · rw [Log.entryTerm_succ, hi] at hterm
      simp only [Option.map_none, Option.getD_none] at hterm
      omega
    · rw [Log.entryTerm_of_getElem? hi] at hterm
      by_contra hle
      have hb : (w.base (w.cur id))[i]? = some e := by
        rw [List.getElem?_eq_getElem (by omega), ← hi,
          (hinv.base_prefix (w.cur id)).getElem?_eq_some (List.getElem?_eq_getElem (by omega))]
      have := hinv.term_base_lt hb
      rw [system_term] at this
      omega

/-- **A leader commits** an entry of its term that a quorum has acknowledged. -/
theorem next_commit {index : ℕ} (hle : index ≤ core.log.lastIndex)
    (hterm : core.log.termAt index = core.term)
    (hq : core.effectiveConfig.hasQuorum (fun voter => decide (mi voter ≥ index)) = true) :
    P.Next w w id ⟨core.setCommitIndex index, .leader mi⟩ [] := by
  obtain ⟨hlead, hstrong⟩ := hrel.role
  have hlog := leader_log hinv hrel
  have hlen : index ≤ (w.tlog (w.cur id)).length := by
    rw [← hlog, ← hrel.lastIndex]
    exact hle
  have hchosen : P.strong → w.Chosen P.system (w.cur id) index (w.tlog (w.cur id)).length := by
    intro hs
    refine ⟨base_length_lt hinv hrel hterm, hlen, le_rfl, {x | index ≤ w.ack x (w.cur id)},
      ⟨fun voter => decide (mi voter ≥ index), ?_,
        fun x hx => Nat.le_trans (of_decide_eq_true hx) ((hstrong hs).1 x)⟩, fun x hx => hx⟩
    rw [List.take_length, ← hlog, ← hrel.effectiveConfig]
    exact hq
  refine next_same hinv hlogs { hrel with
    role := ⟨hlead, fun hs => ⟨(hstrong hs).1, .inr ⟨_, hchosen hs⟩⟩⟩
    commit := fun hs => .inr ⟨w.cur id, index, _, le_rfl, hchosen hs, le_rfl, ?_⟩ } (by simp)
  rw [hlog]
  exact List.take_prefix _ _

omit hlogs in
/-- What one entry more in the leader's log changes. -/
theorem next_append (payload : EntryPayload)
    (hlogs' : LogsOk P (w.append id ⟨core.term, core.log.lastIndex + 1, payload⟩))
    (hinv' : (w.append id ⟨core.term, core.log.lastIndex + 1, payload⟩).Inv P.system) :
    ∃ w', P.Next w w' id ⟨Leader.appendEntry core payload, .leader mi⟩ [] := by
  obtain ⟨hlead, hstrong⟩ := hrel.role
  have hle := append_le (w := w) (x := id) (e := ⟨core.term, core.log.lastIndex + 1, payload⟩)
  have hlog : (w.append id ⟨core.term, core.log.lastIndex + 1, payload⟩).log id =
      w.log id ++ [⟨core.term, core.log.lastIndex + 1, payload⟩] := Function.update_self ..
  refine ⟨_, ⟨hle, fun _ _ => rfl, fun j hj => Function.update_of_ne hj .., fun _ _ => rfl,
    fun _ _ _ h => h⟩, hinv', hlogs', ?_, by simp⟩
  refine { hrel with
    plain := hrel.plain.append (by rw [← hrel.plain.lastIndex])
    log := ?_
    role := ⟨hlead, fun hs => ⟨(hstrong hs).1, ?_⟩⟩
    commit := fun hs => ?_ }
  · rw [hlog, ← hrel.log]
    rfl
  · exact (hstrong hs).2.imp_right fun ⟨m, hm⟩ => ⟨m, hm.mono hinv hle⟩
  · rw [hlog]
    exact (hrel.commit hs).mono hinv hle le_rfl (List.prefix_append _ _)

omit hinv in
theorem logsOk_append (hinv : w.Inv P.system) (payload : EntryPayload)
    (hsimple : ∀ cfg, payload = .config cfg → cfg.transitionTarget = none ∧ P.change) :
    LogsOk P (w.append id ⟨core.term, core.log.lastIndex + 1, payload⟩) := by
  have hlog := leader_log hinv hrel
  refine hlogs.update rfl ((hlogs.indexed _).concat ?_) fun e he cfg hcfg => ?_
  · show core.log.lastIndex + 1 = _
    rw [← hlog, ← hrel.lastIndex]
  · rcases List.mem_append.1 he with he | he
    · exact hlogs.simple he hcfg
    · rw [List.mem_singleton.1 he] at hcfg
      exact hsimple cfg hcfg

theorem next_appendCommand (cmd : Command) :
    ∃ w', P.Next w w' id ⟨Leader.appendEntry core (.command cmd), .leader mi⟩ [] := by
  have hconfig : ¬P.system.isConfig ⟨core.term, core.log.lastIndex + 1, .command cmd⟩ := by
    simp [system, raftSystem, EntryPayload.isConfig]
  refine next_append hinv hrel (.command cmd)
    (logsOk_append hlogs hrel hinv _ fun cfg h => by cases h)
    (hinv.append hrel.role.1 hrel.term (fun h => absurd h hconfig) fun Q Q' hQ hQ' => ?_)
  rw [P.system.quorum_concat hconfig] at hQ'
  exact P.system.meet hQ hQ'

omit hlogs in
/-- The leader has committed an entry of its term, and there is no configuration above it. -/
theorem chosen_of_currentTerm (hs : P.strong)
    (hcommitted : (Leader.currentTermCommitIndex core).isSome = true)
    (hpending : core.hasPendingConfig = false) :
    ∃ c, w.Chosen P.system (w.cur id) c (w.tlog (w.cur id)).length ∧
      ∀ j e, c ≤ j → (w.tlog (w.cur id))[j]? = some e → ¬P.system.isConfig e := by
  have hlog := leader_log hinv hrel
  have hle : ∀ e ∈ core.log.entries, e.term ≤ core.term := fun e he => by
    rw [show core.term = w.cur id from hrel.term]
    exact hinv.log_le id e (hrel.log ▸ he)
  have hbase := base_length_lt hinv hrel
    (Leader.termAt_of_currentTerm hrel.plain hle hcommitted)
  rcases (hrel.role.2 hs).2 with hno | ⟨m, hm⟩
  · exact absurd hno (Nat.not_le.2 hbase)
  have hconfig : ∀ j e, core.commitIndex ≤ j → (w.tlog (w.cur id))[j]? = some e →
      ¬P.system.isConfig e := by
    intro j e hj he
    have hmem : core.log.entries[j]? = some e := by
      rw [show core.log.entries = w.log id from hrel.log, hlog, he]
    have hidx := hrel.plain.indexed.index_eq hmem
    exact Core.not_config_of_not_pending hpending (List.mem_of_getElem? hmem) (by omega)
  -- The quorum of the committed entry is one of the configuration now in effect.
  obtain ⟨Q, hQ, hack⟩ := hm.quorum
  refine ⟨core.commitIndex, ⟨hm.own, hm.le.trans hm.length, le_rfl, Q, ?_, hack⟩, hconfig⟩
  exact (quorum_take hm.length fun j e hj _ => hconfig j e (hm.le.trans hj)).2 hQ

/-- **A leader changes the configuration** by one server. -/
theorem next_appendChange {change : ConfigChange} (hchange : P.change)
    (hcommitted : (Leader.currentTermCommitIndex core).isSome = true)
    (hvalid : change.validate core.effectiveConfig core.config.membershipMode = .ok ())
    (hpending : core.hasPendingConfig = false) :
    ∃ w', P.Next w w' id ⟨Leader.appendEntry core (.config
      (change.apply core.effectiveConfig core.config.membershipMode)), .leader mi⟩ [] := by
  have hlog := leader_log hinv hrel
  have hmode : core.config.membershipMode = .singleServer := by
    rw [show core.config = P.config id from hrel.config]
    exact P.single_of_change hchange id
  rw [hmode] at hvalid ⊢
  refine next_append hinv hrel _ (logsOk_append hlogs hrel hinv _ fun cfg hcfg => ?_)
    (hinv.append hrel.role.1 hrel.term (fun _ => chosen_of_currentTerm hinv hrel
      (P.strong_of_change hchange) hcommitted hpending) ?_)
  · cases hcfg
    exact ⟨ConfigChange.apply_transitionTarget hvalid, hchange⟩
  · rintro Q Q' ⟨f, hf, hQ⟩ ⟨g, hg, hQ'⟩
    rw [← hlog, ← hrel.effectiveConfig] at hf
    rw [configOf, Log.lastConfig_concat] at hg
    obtain ⟨x, hfx, hgx⟩ := ConfigChange.apply_hasQuorum_inter hvalid hf hg
    exact ⟨x, hQ x hfx, hQ' x hgx⟩

end Leader

section Accept

variable {sent : List Message} {core : Core} (hrel : P.NodeRel w id ⟨core, .passive⟩)
  (hsent : ∀ m ∈ sent, P.MsgRel w m) {sender : NodeId} {req : AppendRequest}
  (hmem : ⟨sender, core.id, core.term, .appendRequest req⟩ ∈ sent)
  (hprev : Follower.prevMatches core req = true)
include hrel hsent hmem hprev

/-- The log of the node after it accepted the request. -/
theorem accept_log : (Follower.acceptAppend core req).log = { core.log with
      entries := Follower.merged (w.tlog (w.cur id)) (w.log id)
        (Follower.comparedEnd core.log req) } := by
  have hterm : core.term = w.cur id := hrel.term
  have hlog : core.log.entries = w.log id := hrel.log
  have hwin : Follower.Window (w.tlog (w.cur id)) req := hterm ▸ (hsent _ hmem).2.1
  rw [Follower.acceptAppend_log, ← hlog]
  exact Follower.accepted_entries (hlogs.indexed _) (PositiveTerms.tlog hinv _) hrel.plain
    (hlog ▸ PositiveTerms.log hinv id)
    (hlog ▸ matching_of_rooted (hinv.log_rooted id) (hinv.tlog_rooted _)) hwin hprev

/-- After a verified request the node holds a part of the leader's log. -/
theorem accept_prefix
    (hv : Follower.verified sent core.log ⟨sender, core.id, core.term, .appendRequest req⟩ = true) :
    Follower.merged (w.tlog (w.cur id)) (w.log id) (Follower.comparedEnd core.log req) <+:
      w.tlog (w.cur id) := by
  have hterm : core.term = w.cur id := hrel.term
  have hlog : core.log.entries = w.log id := hrel.log
  have hwin : Follower.Window (w.tlog (w.cur id)) req := hterm ▸ (hsent _ hmem).2.1
  rw [← hlog]
  refine Follower.verified_prefix (hlogs.indexed _) (PositiveTerms.tlog hinv _) hrel.plain
    (hlog ▸ PositiveTerms.log hinv id)
    (hlog ▸ matching_of_rooted (hinv.log_rooted id) (hinv.tlog_rooted _)) hwin hprev
    (fun m hm hmterm req' hreq => ?_) hv
  have := hsent m hm
  simp only [MsgRel, hreq, hmterm, hterm] at this
  exact this.2.1

/-- **A follower accepts an append request.** What it acknowledges is recorded only in a strong
setting. -/
theorem next_accept (hok : P.strong → Follower.verified sent core.log
      ⟨sender, core.id, core.term, .appendRequest req⟩ = true) :
    ∃ w', P.Next w w' id ⟨Follower.acceptAppend core req, .passive⟩
      [core.message sender (.appendResponse
        ⟨true, (Follower.acceptAppend core req).log.lastIndex⟩)] := by
  classical
  have hterm : core.term = w.cur id := hrel.term
  obtain ⟨hlead, -, hcov⟩ := hsent _ hmem
  simp only [hterm] at hlead hcov
  have hne : w.leader (w.cur id) ≠ none := by rw [hlead]; exact Option.some_ne_none _
  have hnewlog := accept_log hinv hlogs hrel hsent hmem hprev
  have hpre := fun hs => accept_prefix hinv hlogs hrel hsent hmem hprev (hok hs)
  generalize hl : Follower.merged (w.tlog (w.cur id)) (w.log id)
    (Follower.comparedEnd core.log req) = l at hnewlog hpre
  have hcommon : ∀ p, p <+: w.log id → p <+: w.tlog (w.cur id) → p <+: l := fun p hp hp' =>
    hl ▸ Follower.prefix_merged hp hp'
  have hcases : l = w.log id ∨ l <+: w.tlog (w.cur id) := hl ▸ Follower.merged_cases ..
  have hplain : (Follower.acceptAppend core req).log.Plain := by
    rw [hnewlog]
    refine hrel.plain.withEntries
      (hcases.elim (fun h => ?_) fun h => (hlogs.indexed _).of_isPrefix h)
    rw [h, ← hrel.log]
    exact hrel.plain.indexed
  have hentries : (Follower.acceptAppend core req).log.entries = l := by rw [hnewlog]
  have hlast : (Follower.acceptAppend core req).log.lastIndex = l.length := by
    rw [hplain.lastIndex, hentries]
  -- The part that the node acknowledges.
  obtain ⟨k, hk, hack, hkl⟩ : ∃ k, k ≤ (w.tlog (w.cur id)).length ∧
      (w.tlog (w.cur id)).take k <+: l ∧ (P.strong → k = l.length) := by
    by_cases hs : P.strong
    · refine ⟨l.length, (hpre hs).length_le, ?_, fun _ => rfl⟩
      rw [(hpre hs).take_eq le_rfl, List.take_length]
    · exact ⟨0, Nat.zero_le _, by simp, fun h => absurd h hs⟩
  have hle : w.Le (w.accept id l k) := accept_le
  have hself : (w.accept id l k).log id = l := Function.update_self ..
  have hpers := Follower.acceptAppend_persistent core req
  refine ⟨w.accept id l k, ⟨hle, fun _ _ => rfl, fun j hj => Function.update_of_ne hj ..,
    fun _ _ => rfl, fun _ _ _ h => h⟩, hinv.accept hlead hcases hcommon hk hack,
    ⟨hlogs.indexed, hlogs.simple⟩, ⟨?_, ?_, hplain, ?_, hentries.trans hself.symm, ?_, trivial,
    fun hs => ?_⟩, fun m hm => ?_⟩
  · exact (Follower.acceptAppend_config core req).trans hrel.config
  · simp only [hpers]
    exact hrel.boot
  · simp only [Core.term, hpers]
    exact hrel.term
  · simp only [hpers]
    exact hrel.vote
  -- The commit index follows the leader's, within the part that the leader holds too.
  · rw [hself]
    show Covered P.system _ (w.cur id) l (Follower.acceptAppend core req).commitIndex
    refine Covered.mono hinv ?_ hle le_rfl List.prefix_rfl
    rw [Follower.acceptAppend_commitIndex, ← Follower.acceptAppend_log, hlast]
    split_ifs
    · exact ((hcov hs).anti (Nat.min_le_left _ _)).of_isPrefix (hpre hs) (Nat.min_le_right _ _)
    · exact hinv.covered_accept (hrel.commit hs) hne hcommon
  · rw [List.mem_singleton.1 hm]
    intro _ hs
    show (Follower.acceptAppend core req).log.lastIndex ≤ (w.accept id l k).ack core.id core.term
    rw [hlast, hrel.core_id, hterm, ← hkl hs]
    exact (le_max_right _ _).trans (if_pos ⟨rfl, rfl⟩).ge

end Accept

/-! ## All actions -/

theorem next_of_action {sent : List Message} (hsent : ∀ m ∈ sent, P.MsgRel w m) {v v' : View}
    {ms : List Message} (hrel : P.NodeRel w id v) (ha : Action (P.env sent) v v' ms) :
    ∃ w', P.Next w w' id v' ms := by
  cases ha with
  | noise _ _ h => exact ⟨w, next_same hinv hlogs hrel fun m hm => .of_noise (h m hm)⟩
  | demote => exact ⟨w, next_same hinv hlogs hrel.passive (by simp)⟩
  | adopt _ T h => exact ⟨_, next_adopt hinv hlogs hrel h⟩
  | campaign _ votes _ hvotes hms => exact next_campaign hinv hlogs hrel votes ms hvotes hms
  | grant core candidate req hmem hcan hlog =>
    exact next_grant hinv hlogs hrel (hsent _ hmem) hcan hlog
  | count core votes voter hmem => exact ⟨w, next_count hinv hlogs hrel (hsent _ hmem)⟩
  | win core votes hq => exact next_win hinv hlogs hrel hq
  | send core mi peer next stop hnext => exact ⟨w, next_send hinv hlogs hrel peer stop hnext⟩
  | accept core sender req hmem hok hprev =>
    exact next_accept hinv hlogs hrel hsent hmem hprev hok
  | appendCommand core mi cmd => exact next_appendCommand hinv hlogs hrel cmd
  | appendChange core mi change hok hvalid hpending =>
    exact next_appendChange hinv hlogs hrel hok.1 hok.2 hvalid hpending
  -- No leader's log holds a joint configuration.
  | appendTarget core mi idx e cfg target hidx hget hcfg htarget =>
    have he : e ∈ w.log id := by
      rw [show core.log.get idx = _ from hrel.plain.get idx, Log.entryAt, hrel.log] at hget
      split_ifs at hget
      exact List.mem_of_getElem? hget
    rw [(hlogs.simple (mem_tlog (hinv.log_rooted id) he) hcfg).1] at htarget
    cases htarget
  | ack core mi peer index hmem => exact ⟨w, next_ack hinv hlogs hrel (hsent _ hmem)⟩
  | disk core mi index h => exact ⟨_, next_disk hinv hlogs hrel h⟩
  | commit core mi index hlt hle hterm hq =>
    exact ⟨w, next_commit hinv hlogs hrel hle hterm hq⟩
  | restart =>
    exact ⟨w, next_same hinv hlogs ⟨hrel.config, hrel.boot, hrel.plain, hrel.term, hrel.log,
      hrel.vote, trivial, fun _ => .inl rfl⟩ (by simp)⟩

end Actions

end Setting

end Cloud9
