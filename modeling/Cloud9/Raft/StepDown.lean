import Cloud9.Raft.JointChange
import Cloud9.Raft.MatchIndex

/-!
# When a leader's own commits depose it

`Leader.process_committed_configs` walks over the configuration entries that were just committed and
stops at the first one that does not have the leader as a voter. A leader whose commit index lags,
for example after a restart, meets the configurations of its past there: one in which it was only a
learner makes it step down, whatever came after (`deposed_by_the_past`).

Only the newest configuration should decide. It does if all the others above the commit index have
the leader as a voter and are not joint, and no other node is known to hold more than the leader's
log (`Leader.Secure`). A leader elected in such a state stays in it, whatever it is called with, as
long as nobody acknowledges more than its log (`own_commits_keep`).
-/

namespace Cloud9

namespace Leader

/-! ## The newest configuration -/

theorem configEntry_eq (core : Core) (idx : ℕ) : configEntry core idx =
    if idx ≤ core.log.snapshotIndex then none
    else Log.entryConfig core.log.entries (idx - core.log.snapshotIndex) := by
  rw [configEntry, core.log.get_eq]
  split_ifs with h
  · rfl
  · rw [Log.entryConfig, Log.entryAt, if_neg (by omega)]

theorem configEntry_le {core : Core} (hcont : core.log.Contiguous) {idx : ℕ} {cfg : Configuration}
    (h : configEntry core idx = some cfg) : idx ≤ core.log.lastIndex := by
  obtain ⟨e, he, -⟩ := Option.bind_eq_some_iff.1 h
  exact hcont.le_lastIndex he

theorem configEntry_eq_none {core : Core} (hcont : core.log.Contiguous) {idx : ℕ}
    (h : core.log.lastIndex < idx) : configEntry core idx = none := by
  refine Option.eq_none_iff_forall_ne_some.2 fun cfg hcfg => ?_
  have := configEntry_le hcont hcfg
  omega

theorem lastIndex_appendEntry (core : Core) (payload : EntryPayload) :
    (appendEntry core payload).log.lastIndex = core.log.lastIndex + 1 :=
  Log.lastIndex_append ..

theorem configEntry_appendEntry {core : Core} (hcont : core.log.Contiguous) (payload : EntryPayload)
    (idx : ℕ) : configEntry (appendEntry core payload) idx =
      if idx = core.log.lastIndex + 1 then payload.asConfig else configEntry core idx := by
  have hcont' : (appendEntry core payload).log.Contiguous := hcont.append rfl
  have hlast := lastIndex_appendEntry core payload
  split_ifs with hidx
  · rw [hidx]
    exact congrArg (Option.bind · _) (hcont.get_append_self _)
  · rcases Nat.lt_or_ge core.log.lastIndex idx with hlt | hle
    · rw [configEntry_eq_none hcont' (by omega), configEntry_eq_none hcont hlt]
    · exact congrArg (Option.bind · _) ((hcont.agree_append _ (Nat.le_refl _)).get hle)

/-- From a configuration entry without a later one on, this is the configuration. -/
theorem configAt_of_newest {core : Core} {idx k : ℕ} {cfg : Configuration}
    (h : configEntry core idx = some cfg)
    (hlater : ∀ later, idx < later → configEntry core later = none) (hk : idx ≤ k) :
    core.configAt k = cfg := by
  rw [configEntry_eq] at h
  split_ifs at h with hidx
  have hbounds := Log.entryConfig_bounds h
  have hnewest : Log.Newest (core.log.entries.take (k - core.log.snapshotIndex))
      (idx - core.log.snapshotIndex) cfg := by
    have htake : ∀ i, i ≤ k - core.log.snapshotIndex → Log.entryConfig
        (core.log.entries.take (k - core.log.snapshotIndex)) i =
          Log.entryConfig core.log.entries i := by
      intro i hi
      unfold Log.entryConfig Log.entryAt
      split_ifs with h0
      · rfl
      · rw [List.getElem?_take_of_lt (by omega)]
    refine ⟨by rw [htake _ (by omega), h], fun later hlt => ?_⟩
    rcases Nat.lt_or_ge (k - core.log.snapshotIndex) later with hgt | hle
    · exact Log.entryConfig_eq_none_of_lt (by rw [List.length_take]; omega)
    · have hnone := hlater (core.log.snapshotIndex + later) (by omega)
      rw [configEntry_eq, if_neg (by omega), Nat.add_sub_cancel_left] at hnone
      rw [htake _ hle, hnone]
  have hlast := Log.lastConfig_eq_some_iff.2 ⟨_, hnewest⟩
  have hlog : core.log.configAt k = some cfg := by
    rw [Log.configAt, if_neg (by omega), Log.toVecIndex, if_neg (by omega)]
    simp only [Option.map_some, Option.getD_some]
    rw [← List.take_eq_take_min, Nat.sub_add_cancel (by omega), hlast, Option.some_or]
  rw [Core.configAt]
  show (core.log.configAt k).getD _ = cfg
  rw [hlog, Option.getD_some]

/-! ## Who stays -/

/-- A voter of the effective configuration has what is committed. -/
theorem exists_voter_of_committable {l : Leader} {core : Core} {k : ℕ}
    (h : l.committable core k = true) :
    ∃ id, core.effectiveConfig.isVoter id = true ∧ k ≤ l.matchIndex.index id := by
  simp only [committable, Bool.and_eq_true] at h
  obtain ⟨id, hvoter, hid, -⟩ := Configuration.hasQuorum_inter h.2 h.2
  exact ⟨id, hvoter, of_decide_eq_true hid⟩

/-- With at most one configuration above the commit index, a simple one at the very end that no
other node has yet, the leader stays: it can commit this configuration only as one of its voters. -/
theorem maybeCommitLoop_tail {l : Leader} {core : Core}
    (hend : ∀ idx cfg, core.commitIndex < idx → configEntry core idx = some cfg →
      idx = core.log.lastIndex ∧ cfg = core.effectiveConfig ∧ cfg.transitionTarget = none)
    (hmatch : ∀ id, id ≠ core.id → l.matchIndex.index id < core.log.lastIndex)
    (fuel : ℕ) (effects : Effects) : (maybeCommitLoop fuel l core effects).2.2.2 = false := by
  cases fuel with
  | zero => rfl
  | succ fuel =>
    obtain ⟨k, hadv, hk⟩ := l.advanceCommitIndex_spec core
    unfold maybeCommitLoop
    simp only [hadv]
    split_ifs with hsame
    · rfl
    obtain ⟨hlt, hle, hcommit⟩ := hk.resolve_left hsame
    rcases l.processCommittedConfigs_split core k with
      ⟨hr, -⟩ | ⟨idx, cfg, hlo, hhi, hcfg, hstop⟩
    · rw [hr]
    · obtain ⟨hidx, hcfg', htarget⟩ := hend idx cfg hlo hcfg
      obtain ⟨id, hvoter, hid⟩ := exists_voter_of_committable hcommit
      have hself : id = core.id := by
        by_contra hne
        have := hmatch id hne
        omega
      rw [hself, ← hcfg'] at hvoter
      rcases hstop with ⟨hno, -⟩ | ⟨-, target, hjoint, -⟩
      · exact Bool.noConfusion (hvoter.symm.trans hno)
      · rw [htarget] at hjoint
        cases hjoint

/-- Above the commit index every configuration but the newest is simple and has the leader as a
voter. -/
def Settled (core : Core) : Prop :=
  ∀ idx later, core.commitIndex < idx → idx < later → configEntry core later ≠ none →
    passes core idx

theorem Settled.mono {core : Core} (h : Settled core) {k : ℕ} (hk : core.commitIndex ≤ k) :
    Settled (core.setCommitIndex k) :=
  fun idx later hlo => h idx later (Nat.lt_of_le_of_lt hk hlo)

theorem Settled.alike {core core' : Core} (h : Settled core) (hcore : core.Alike core') :
    Settled core' := by
  have hid : core'.id = core.id := congrArg Config.id hcore.config
  have hentry : ∀ idx, configEntry core' idx = configEntry core idx := by
    intro idx
    rw [configEntry, hcore.log, configEntry]
  intro idx later hlo hlt hsome
  rw [hcore.commitIndex] at hlo
  rw [hentry] at hsome
  simp only [passes, hentry, hid]
  exact h idx later hlo hlt hsome

theorem Settled.appendCommand {core : Core} (h : Settled core) (hcont : core.log.Contiguous)
    (cmd : Command) : Settled (appendEntry core (.command cmd)) := by
  intro idx later hlo hlt hsome cfg hcfg
  rw [configEntry_appendEntry hcont] at hsome hcfg
  split_ifs at hsome with hlater
  · exact absurd rfl hsome
  · split_ifs at hcfg
    · cases hcfg
    · exact h idx later hlo hlt hsome cfg hcfg

/-- An entry may be appended when there is no configuration above the commit index. -/
theorem settled_appendEntry {core : Core} (hcont : core.log.Contiguous)
    (hnone : ∀ idx, core.commitIndex < idx → configEntry core idx = none) (payload : EntryPayload) :
    Settled (appendEntry core payload) := by
  intro idx later hlo hlt hsome cfg hcfg
  rw [configEntry_appendEntry hcont] at hsome hcfg
  have hlater : later = core.log.lastIndex + 1 := by
    by_contra hne
    rw [if_neg hne] at hsome
    exact hsome (hnone later (Nat.lt_trans hlo hlt))
  rw [if_neg (by omega), hnone idx hlo] at hcfg
  cases hcfg

theorem configEntry_of_not_pending {core : Core} (hcont : core.log.Contiguous)
    (h : core.hasPendingConfig = false) :
    ∀ idx, core.commitIndex < idx → configEntry core idx = none := by
  intro idx hlo
  refine Option.eq_none_iff_forall_ne_some.2 fun cfg hcfg => ?_
  obtain ⟨e, he, hpayload⟩ := Option.bind_eq_some_iff.1 hcfg
  have hindex := hcont.get_index he
  rw [Log.get_eq] at he
  split_ifs at he
  refine Core.not_config_of_not_pending h (List.mem_of_getElem? he) (by omega) ?_
  cases hp : e.payload with
  | command cmd =>
    rw [hp] at hpayload
    cases hpayload
  | config cfg => rfl

/-- What `Settled` says of a configuration that the commit loop does not pass over. -/
theorem Settled.newest {core : Core} (h : Settled core) {idx : ℕ} (hlo : core.commitIndex < idx)
    {cfg : Configuration} (hcfg : configEntry core idx = some cfg)
    (hstop : cfg.isVoter core.id = false ∨ cfg.transitionTarget.isSome = true) :
    ∀ later, idx < later → configEntry core later = none := by
  intro later hlater
  by_contra hsome
  obtain ⟨hvoter, htarget⟩ := h idx later hlo hlater hsome cfg hcfg
  rcases hstop with hno | hjoint
  · exact Bool.noConfusion (hvoter.symm.trans hno)
  · rw [htarget] at hjoint
    cases hjoint

/-- What follows once the target of the newest configuration has been appended. -/
theorem maybeCommitLoop_target (l : Leader) (core : Core) (hcont : core.log.Contiguous)
    (hmatch : ∀ id, id ≠ core.id → l.matchIndex.index id ≤ core.log.lastIndex)
    {target : Configuration} (htarget : target.transitionTarget = none)
    (hnone : ∀ idx, core.commitIndex < idx → configEntry core idx = none)
    (fuel : ℕ) (effects : Effects) :
    (maybeCommitLoop fuel (l.appendTransitionTarget core target).1
      (l.appendTransitionTarget core target).2.1 effects).2.2.2 = false := by
  have hlast : (l.appendTransitionTarget core target).2.1.log.lastIndex =
      core.log.lastIndex + 1 := lastIndex_appendEntry core (.config target)
  have hentry : ∀ idx, configEntry (l.appendTransitionTarget core target).2.1 idx =
      if idx = core.log.lastIndex + 1 then some target else configEntry core idx :=
    configEntry_appendEntry hcont (.config target)
  refine maybeCommitLoop_tail (fun idx cfg hlo hcfg => ?_) (fun id hid => ?_) fuel effects
  · rw [hentry] at hcfg
    split_ifs at hcfg with hidx
    · cases hcfg
      refine ⟨hidx.trans hlast.symm, ?_, htarget⟩
      refine (configAt_of_newest ((hentry idx).trans (if_pos hidx)) (fun later hlt => ?_)
        (Nat.le_of_eq (hidx.trans hlast.symm))).symm
      rw [hentry, if_neg (by omega), configEntry_eq_none hcont (by omega)]
    · rw [hnone idx hlo] at hcfg
      cases hcfg
  · rw [hlast, l.appendTransitionTarget_index core target hid]
    exact Nat.lt_succ_of_le (hmatch id hid)

/-- What `maybe_commit` says about stepping down: no voter of the effective configuration has to,
and who has to is no voter of the newest committed configuration. -/
def ReportsRight (core : Core) (r : Leader × Core × Effects × Bool) : Prop :=
  (core.effectiveConfig.isVoter core.id = true → r.2.2.2 = false) ∧
    (r.2.2.2 = true → (r.2.1.configAt r.2.1.commitIndex).isVoter core.id = false)

theorem ReportsRight.of_stays {core : Core} {r : Leader × Core × Effects × Bool}
    (h : r.2.2.2 = false) : ReportsRight core r :=
  ⟨fun _ => h, fun h' => Bool.noConfusion (h.symm.trans h')⟩

/-- A contiguous log, `Settled`, and no other node is known to hold more than it. -/
structure Secure (l : Leader) (core : Core) : Prop where
  contiguous : core.log.Contiguous
  settled : Settled core
  matched : ∀ id, id ≠ core.id → l.matchIndex.index id ≤ core.log.lastIndex

/-- **Only the newest configuration deposes a secure leader.** -/
theorem Secure.reportsRight {l : Leader} {core : Core} (h : l.Secure core) :
    ReportsRight core (l.maybeCommit core) := by
  obtain ⟨k, hadv, hk⟩ := l.advanceCommitIndex_spec core
  unfold maybeCommit maybeCommitLoop
  simp only [hadv]
  split_ifs with hsame
  · exact .of_stays rfl
  obtain ⟨hlt, hle, -⟩ := hk.resolve_left hsame
  rcases l.processCommittedConfigs_split core k with
    ⟨hr, -⟩ | ⟨idx, cfg, hlo, hhi, hcfg, ⟨hno, hr⟩ | ⟨-, target, hjoint, hr⟩⟩
  · rw [hr]
    exact .of_stays rfl
  · rw [hr]
    have hnewest := h.settled.newest hlo hcfg (.inl hno)
    have hat : ∀ i, idx ≤ i → core.configAt i = cfg :=
      fun i hi => configAt_of_newest hcfg hnewest hi
    have heff : core.effectiveConfig = cfg := hat _ (Nat.le_trans hhi hle)
    refine ⟨fun hvoter => ?_, fun _ => ?_⟩
    · rw [heff] at hvoter
      exact Bool.noConfusion (hvoter.symm.trans hno)
    · exact (congrArg (Configuration.isVoter · core.id) (hat k hhi)).trans hno
  · rw [hr]
    have hnewest := h.settled.newest hlo hcfg (.inr (by rw [hjoint]; rfl))
    refine .of_stays (maybeCommitLoop_target l (core.setCommitIndex k) h.contiguous h.matched
      (Configuration.transitionTarget_target hjoint) (fun i hi => ?_) _ _)
    exact hnewest i (Nat.lt_of_le_of_lt hhi hi)

/-! ## Secure leaders stay secure -/

namespace Secure

variable {l l' : Leader} {core core' : Core}

/-- Nothing has been appended, committed or acknowledged. -/
theorem alike (h : l.Secure core) (hcore : core.Alike core')
    (hmatch : l'.matchIndex = l.matchIndex) : l'.Secure core' := by
  have hid : core'.id = core.id := congrArg Config.id hcore.config
  refine ⟨by rw [hcore.log]; exact h.contiguous, h.settled.alike hcore, fun id hne => ?_⟩
  rw [hmatch, hcore.log]
  exact h.matched id (hid ▸ hne)

theorem maybeCommit (h : l.Secure core) :
    (l.maybeCommit core).1.Secure (l.maybeCommit core).2.1 := by
  let I : Core → Prop := fun core' => core'.log.Contiguous ∧ Settled core' ∧
    core.log.lastIndex ≤ core'.log.lastIndex
  have hI : I (l.maybeCommit core).2.1 := by
    refine maybeCommit_rule (I := I) (Q := fun core' _ => I core')
      (fun core k hI hk _ _ => ⟨hI.1, hI.2.1.mono hk, hI.2.2⟩)
      (fun core k hI hk _ => ⟨hI.1, hI.2.1.mono hk, hI.2.2⟩) ?_ l
      ⟨h.contiguous, h.settled, Nat.le_refl _⟩
    rintro core' k idx target ⟨hcont, hsettled, hgrown⟩ hlo hhi - htarget
    obtain ⟨cfg, hcfg, hjoint⟩ := Option.bind_eq_some_iff.1 htarget
    have hnewest := hsettled.newest hlo hcfg (.inr (by rw [hjoint]; rfl))
    refine ⟨hcont.append rfl, @settled_appendEntry (core'.setCommitIndex k) hcont
      (fun i hi => hnewest i (Nat.lt_of_le_of_lt hhi hi)) _, ?_⟩
    calc core.log.lastIndex ≤ core'.log.lastIndex + 1 := Nat.le_succ_of_le hgrown
      _ = _ := (lastIndex_appendEntry ..).symm
  refine ⟨hI.1, hI.2.1, fun id hid => ?_⟩
  have hid' : id ≠ core.id := by
    rw [Core.id, l.maybeCommit_config core] at hid
    exact hid
  rw [l.maybeCommit_index core hid']
  exact Nat.le_trans (h.matched id hid') hI.2.2

end Secure

/-! ## Calls of `maybe_commit` -/

/-- The calls of `maybe_commit` in a call of the API: the leader as the handler has updated it, and
its core. -/
inductive CommitCall (l : Leader) (core : Core) : ApiCall → Leader → Core → Prop
  | disk (index : ℕ) (h : l.matchIndex.index core.id < index) :
    CommitCall l core (.event (.diskWriteComplete index))
      { l with matchIndex := l.matchIndex.insert core.id index } core
  | acked (msg : Message) (resp : AppendResponse) (hterm : msg.term = core.term)
      (hp : msg.payload = .appendResponse resp)
      (hmember : core.effectiveConfig.isMember msg.from = true) (hsuccess : resp.success = true) :
    CommitCall l core (.event (.message msg)) { l with
      matchIndex := l.matchIndex.insert msg.from resp.lastLogIndex
      nextIndex := if core.config.pipelining then l.nextIndex
        else l.nextIndex.insert msg.from (resp.lastLogIndex + 1) } core
  | installed (msg : Message) (resp : InstallSnapshotResponse) (hterm : msg.term = core.term)
      (hp : msg.payload = .installSnapshotResponse resp)
      (hmember : core.effectiveConfig.isMember msg.from = true) (hsuccess : resp.success = true)
      (hnew : l.matchIndex.index msg.from < resp.lastIncludedIndex) :
    CommitCall l core (.event (.message msg)) { l with
      matchIndex := l.matchIndex.insert msg.from resp.lastIncludedIndex
      nextIndex := l.nextIndex.insert msg.from (resp.lastIncludedIndex + 1) } core
  | command (cmd : Command) :
    CommitCall l core (.propose cmd) (l.recordOwnMatch (appendEntry core (.command cmd))
      (core.log.lastIndex + 1)) (appendEntry core (.command cmd))
  | change (change : ConfigChange) (core' : Core)
      (hcheck : l.checkConfigChange core change = .ok ())
      (hcore : core' = appendEntry core
        (.config (change.apply core.effectiveConfig core.config.membershipMode))) :
    CommitCall l core (.proposeConfigChange change)
      ((l.recordOwnMatch core' (core.log.lastIndex + 1)).reinitProgress core') core'

theorem publish_leader {l l₂ : Leader} {core : Core} (h : (l.publish core).1.role = .leader l₂) :
    (l.publish core).1.core = (l.maybeCommit core).2.1 ∧
      l₂.matchIndex = (l.maybeCommit core).1.matchIndex := by
  simp only [publish] at h ⊢
  cases hdown : (l.maybeCommit core).2.2.2 with
  | true =>
    rw [hdown] at h
    cases h
  | false =>
    rw [hdown] at h
    cases h
    exact ⟨rfl, broadcastAppend_matchIndex _ _⟩

/-- A call that finds the leader in office and leaves it there runs `maybe_commit` in one of the
ways listed, or it leaves the log, the commit index and the progress alone. -/
theorem call_commits {l l₂ : Leader} {core : Core} {call : ApiCall} {r : RaftNode × Effects}
    (hcall : RaftNode.call ⟨core, .leader l⟩ call = some r) (hl₂ : r.1.role = .leader l₂) :
    core.Alike r.1.core ∧ l₂.matchIndex = l.matchIndex ∨
      ∃ l' core', CommitCall l core call l' core' ∧ r.1.core = (l'.maybeCommit core').2.1 ∧
        l₂.matchIndex = (l'.maybeCommit core').1.matchIndex := by
  cases RaftNode.call_leader hcall with
  | command cmd => exact .inr ⟨_, _, .command cmd, publish_leader hl₂⟩
  | change change core' hcheck hcore =>
    exact .inr ⟨_, _, .change change core' hcheck hcore, publish_leader hl₂⟩
  | quiet _ l' applied _ _ hmatch _ =>
    cases hl₂
    exact .inl ⟨⟨rfl, rfl, rfl, rfl⟩, hmatch⟩
  | event event =>
    obtain ⟨rfl, hcore⟩ := RaftNode.stepEvent_leader hl₂
    rw [hcore]
    have hstep := l.step_stepped core event
    generalize l.step core event = s at hstep
    cases hstep with
    | quiet _ _ ticks _ _ hmatch _ => exact .inl ⟨⟨rfl, rfl, rfl, rfl⟩, hmatch⟩
    | heartbeat l' ticks _ _ hmatch _ =>
      exact .inl ⟨⟨rfl, rfl, rfl, rfl⟩, (broadcastAppend_matchIndex _ _).trans hmatch⟩
    | adopt msg leader hterm =>
      exact .inl ⟨(Core.Steady.maybeUpdateTerm core msg.term).toAlike, rfl⟩
    | disk index h => exact .inr ⟨_, _, .disk index h, rfl, rfl⟩
    | acked msg resp hterm hp hmember hsuccess =>
      exact .inr ⟨_, _, .acked msg resp hterm hp hmember hsuccess, rfl, rfl⟩
    | retried msg resp l' _ _ _ _ hl' =>
      rw [hl']
      exact .inl ⟨.refl core, sendAppendTo_matchIndex _ _ _⟩
    | installed msg resp hterm hp hmember hsuccess hnew =>
      exact .inr ⟨_, _, .installed msg resp hterm hp hmember hsuccess hnew, rfl, rfl⟩

/-- A success of the leader's term names an index of its log. -/
def acksWithin (core : Core) : ApiCall → Bool
  | .event (.message msg) => msg.reported.all fun index =>
    decide (msg.term = core.term → index ≤ core.log.lastIndex)
  | _ => true

namespace Secure

variable {l l' l₂ : Leader} {core core' : Core} {call : ApiCall}

theorem insert (h : l.Secure core) {id : NodeId} {index : ℕ}
    (hle : id ≠ core.id → index ≤ core.log.lastIndex)
    (hmatch : l'.matchIndex = l.matchIndex.insert id index) : l'.Secure core := by
  refine ⟨h.contiguous, h.settled, fun id' hid' => ?_⟩
  rw [hmatch, index_insert]
  rcases eq_or_ne id' id with rfl | hne
  · rw [Function.update_self]
    exact hle hid'
  · rw [Function.update_of_ne hne]
    exact h.matched id' hid'

/-- The leader's own progress does not matter. -/
theorem recordOwnMatch (h : l.Secure core) (index : ℕ) :
    (l.recordOwnMatch core index).Secure core := by
  unfold Leader.recordOwnMatch
  split_ifs
  · exact h
  · exact h.insert (fun hne => absurd rfl hne) rfl

/-- A log that has grown by one entry. -/
theorem appendEntry (h : l.Secure core) {payload : EntryPayload}
    (hsettled : Settled (appendEntry core payload)) : l.Secure (appendEntry core payload) := by
  refine ⟨h.contiguous.append rfl, hsettled, fun id hid => ?_⟩
  calc l.matchIndex.index id ≤ core.log.lastIndex + 1 := Nat.le_succ_of_le (h.matched id hid)
    _ = _ := (lastIndex_appendEntry ..).symm

theorem reinitProgress (h : l.Secure core) : (l.reinitProgress core).Secure core := by
  refine ⟨h.contiguous, h.settled, fun id hid => ?_⟩
  rw [l.reinitProgress_index core hid]
  exact h.matched id hid

/-- **A secure leader is secure whenever it runs `maybe_commit`.** -/
theorem commitCall (h : l.Secure core) (hok : acksWithin core call = true)
    (hcall : CommitCall l core call l' core') : l'.Secure core' := by
  cases hcall with
  | disk index => exact h.insert (fun hne => absurd rfl hne) rfl
  | acked msg resp hterm hp hmember hsuccess =>
    simp only [acksWithin, Message.reported, hp, hsuccess, if_true, Option.all_some,
      decide_eq_true_eq] at hok
    exact h.insert (fun _ => hok hterm) rfl
  | installed msg resp hterm hp hmember hsuccess =>
    simp only [acksWithin, Message.reported, hp, hsuccess, if_true, Option.all_some,
      decide_eq_true_eq] at hok
    exact h.insert (fun _ => hok hterm) rfl
  | command cmd =>
    exact (h.appendEntry (h.settled.appendCommand h.contiguous cmd)).recordOwnMatch _
  | change change core' hcheck hcore =>
    subst hcore
    have hnone := configEntry_of_not_pending h.contiguous (checkConfigChange_ok hcheck).2.2
    have hsettled := settled_appendEntry h.contiguous hnone
    exact ((h.appendEntry (hsettled _)).recordOwnMatch _).reinitProgress

/-- **One call** to a secure leader that stays in office. -/
theorem step (h : l.Secure core) (hok : acksWithin core call = true) {r : RaftNode × Effects}
    (hcall : RaftNode.call ⟨core, .leader l⟩ call = some r) (hl₂ : r.1.role = .leader l₂) :
    l₂.Secure r.1.core := by
  rcases call_commits hcall hl₂ with ⟨halike, hmatch⟩ | ⟨l', core', hcommit, hcore, hmatch⟩
  · exact h.alike halike hmatch
  · rw [hcore]
    exact (h.commitCall hok hcommit).maybeCommit.alike (.refl _) hmatch

end Secure

/-- A new leader knows nothing of the others yet. -/
theorem initial_index (core : Core) {id : NodeId} (hid : id ≠ core.id) :
    (initial core).matchIndex.index id = 0 := by
  have hzero : (core.effectiveConfig.allNodes.foldl (fun m id => m.insert id 0)
      IndexMap.empty).index = fun _ => 0 := index_foldl_insert_zero _ _ rfl
  unfold initial
  dsimp only
  split_ifs
  · rw [hzero]
  · rw [index_insert, Function.update_of_ne hid, hzero]

theorem secure_new {core : Core} (hcont : core.log.Contiguous) (hsettled : Settled core) :
    (Leader.new core).1.Secure core := by
  refine ⟨hcont, hsettled, fun id hid => ?_⟩
  rw [Leader.new, broadcastAppend_matchIndex, initial_index core hid]
  exact Nat.zero_le _

end Leader

/-! ## Leaders in runs -/

namespace RaftNode

theorem becomeCandidate_elected {core : Core} {effects : Effects} {l : Leader}
    (h : (becomeCandidate core effects).1.role = .leader l) :
    l = (Leader.new (becomeCandidate core effects).1.core).1 := by
  unfold becomeCandidate at h ⊢
  dsimp only at h ⊢
  split_ifs at h ⊢
  cases h
  rfl

/-- A transition of a node that does not lead to the leadership starts it. -/
theorem applyTransition_elected {n : RaftNode} (hn : n.isLeader = false) {transition : Transition}
    {l : Leader} (h : (n.applyTransition transition).1.role = .leader l) :
    l = (Leader.new (n.applyTransition transition).1.core).1 := by
  cases transition with
  | stay =>
    have hlead := isLeader_iff.2 ⟨l, h⟩
    rw [show (n.applyTransition .stay).1 = n from rfl, hn] at hlead
    cases hlead
  | toFollower => cases h
  | toFollowerAfterContact => cases h
  | toPreCandidate =>
    simp only [applyTransition] at h ⊢
    split_ifs at h ⊢
    exact becomeCandidate_elected h
  | toCandidate => exact becomeCandidate_elected h
  | toLeader =>
    cases h
    rfl

theorem stepEvent_elected {n : RaftNode} (hn : n.isLeader = false) {event : Event} {l : Leader}
    (h : (n.stepEvent event).1.role = .leader l) :
    l = (Leader.new (n.stepEvent event).1.core).1 := by
  obtain ⟨core, role⟩ := n
  cases role with
  | leader l => cases hn
  | _ => exact applyTransition_elected (by rfl) h

end RaftNode

/-- The call of the API that an input makes; a restart makes none. -/
def Input.apiCall : Input → Option ApiCall
  | .tick _ => some (.event .tick)
  | .deliver msg => some (.event (.message msg))
  | .diskWriteComplete _ index => some (.event (.diskWriteComplete index))
  | .propose _ cmd => some (.propose cmd)
  | .proposeConfigChange _ change => some (.proposeConfigChange change)
  | .requestReadIndex _ => some .requestReadIndex
  | .transferLeadership _ target => some (.transferLeadership target)
  | .advance _ appliedTo => some (.advance appliedTo)
  | .restart _ => none

/-- Every configuration above the commit index but the latest is simple and has the node as a
voter. -/
def Core.votesAbove (core : Core) : Bool :=
  (List.range' (core.commitIndex + 1) (core.log.lastIndex - core.commitIndex)).all fun idx =>
    ((Leader.configEntry core idx).all fun cfg =>
      cfg.isVoter core.id && cfg.transitionTarget.isNone) ||
    decide (core.pendingConfigIndex = some idx)

theorem Core.settled_of_votesAbove {core : Core} (hplain : core.log.Plain)
    (h : core.votesAbove = true) : Leader.Settled core := by
  intro idx later hlo hlt hsome cfg hcfg
  have hle := Leader.configEntry_le hplain.contiguous hcfg
  have hall := List.all_eq_true.1 h idx (by rw [List.mem_range'_1]; omega)
  rw [hcfg, Option.all_some, Bool.or_eq_true, Bool.and_eq_true, Option.isNone_iff_eq_none,
    decide_eq_true_eq] at hall
  refine hall.resolve_right fun hpending => hsome ?_
  obtain ⟨-, _, hnewest⟩ := hplain.pendingConfigIndex_eq_some_iff.1 hpending
  rw [Leader.configEntry_eq, hplain.snapshotIndex, if_neg (by omega), Nat.sub_zero]
  exact hnewest.2 later hlt

namespace Cluster

variable {c c' : Cluster}

/-- A node is elected only if all configurations above its commit index but the latest are simple
and have it as a voter, and to a leader nobody acknowledges more than its log. -/
def keepsVoters (c : Cluster) (input : Input) : Bool :=
  (!c.elects input || (c.nodes input.node).core.votesAbove) &&
    (!(c.nodes input.node).isLeader ||
      input.apiCall.all (Leader.acksWithin (c.nodes input.node).core))

theorem call_apiCall {input : Input} {r : RaftNode × Effects} (hr : c.call input = some r)
    (hlead : r.1.isLeader = true) : ∃ call, input.apiCall = some call ∧
      (c.nodes input.node).call call = some r := by
  cases input with
  | deliver msg =>
    simp only [Cluster.call] at hr
    split_ifs at hr
    exact ⟨_, rfl, hr⟩
  | diskWriteComplete id index =>
    simp only [Cluster.call] at hr
    split_ifs at hr
    exact ⟨_, rfl, hr⟩
  | restart id =>
    cases hr
    cases hlead
  | _ => exact ⟨_, rfl, hr⟩

/-- **One input** leaves a leader secure. -/
theorem call_secure (hshaped : c.Shaped) {input : Input} {r : RaftNode × Effects}
    (hr : c.call input = some r) (hok : c.keepsVoters input = true)
    (h : ∀ l, (c.nodes input.node).role = .leader l → l.Secure (c.nodes input.node).core)
    {l₂ : Leader} (hl₂ : r.1.role = .leader l₂) : l₂.Secure r.1.core := by
  have hlead := RaftNode.isLeader_iff.2 ⟨l₂, hl₂⟩
  obtain ⟨call, hinput, hcall⟩ := call_apiCall hr hlead
  obtain ⟨helects, hacks⟩ := Bool.and_eq_true_iff.1 hok
  cases hn : (c.nodes input.node).isLeader with
  | true =>
    obtain ⟨l, hl⟩ := RaftNode.isLeader_iff.1 hn
    rw [hn, hinput] at hacks
    generalize c.nodes input.node = n at h hl hacks hcall
    obtain ⟨core, role⟩ := n
    cases hl
    exact (h l rfl).step hacks hcall hl₂
  | false =>
    have halike := (call_leader hr hlead).1 hn
    rw [elects, hn, hr, Option.any_some, hlead] at helects
    have hplain : (c.nodes input.node).core.log.Plain := (hshaped.nodes input.node).plain
    have hnew : l₂ = (Leader.new r.1.core).1 := by
      rcases RaftNode.call_other hn hcall with ⟨event, rfl⟩ | ⟨applied, hr₁, -⟩
      · cases hcall
        exact RaftNode.stepEvent_elected hn hl₂
      · rw [hr₁] at hlead
        exact absurd hlead (ne_true_of_eq_false hn)
    have hcont : r.1.core.log.Contiguous := by
      rw [halike.log]
      exact hplain.contiguous
    rw [hnew]
    exact Leader.secure_new hcont ((Core.settled_of_votesAbove hplain helects).alike halike)

theorem secure_run {configs : NodeId → Config} {voters : List NodeId} {inputs : List Input}
    (hrun : (init configs voters).run keepsVoters inputs = some c) {id : NodeId} {l : Leader}
    (hl : (c.nodes id).role = .leader l) : l.Secure (c.nodes id).core := by
  let I : Cluster → Prop := fun c =>
    c.Shaped ∧ ∀ id l, (c.nodes id).role = .leader l → l.Secure (c.nodes id).core
  have hinit : I (init configs voters) := ⟨shaped_init configs voters, fun id l hl => by cases hl⟩
  refine (runWhile_invariant ?_ hinit hrun).2 id l hl
  rintro c input c' ⟨hshaped, hI⟩ hok hstep
  refine ⟨hshaped.step hstep, fun id l hl => ?_⟩
  obtain ⟨r, hr, rfl⟩ := step_eq_some.1 hstep
  simp only [apply] at hl ⊢
  rcases eq_or_ne id input.node with rfl | hid
  · rw [Function.update_self] at hl ⊢
    exact call_secure hshaped hr hok (hI input.node) hl
  · rw [Function.update_of_ne hid] at hl ⊢
    exact hI id l hl

end Cluster

/-- **A leader is deposed only by the newest configuration**, in runs in which nodes are elected
only if above their commit index all other configurations are simple and have them as voters, and in
which nobody acknowledges more than the leader's log: every `maybe_commit` that a leader runs,
whatever it is called with, reports right. -/
theorem own_commits_keep (configs : NodeId → Config) (voters : List NodeId) {inputs : List Input}
    {c : Cluster} (hrun : (Cluster.init configs voters).run Cluster.keepsVoters inputs = some c)
    {id : NodeId} {l : Leader} (hl : (c.nodes id).role = .leader l) {call : ApiCall}
    (hok : Leader.acksWithin (c.nodes id).core call = true) {l' : Leader} {core : Core}
    (hcall : l.CommitCall (c.nodes id).core call l' core) :
    Leader.ReportsRight core (l'.maybeCommit core) :=
  ((Cluster.secure_run hrun hl).commitCall hok hcall).reportsRight

/-- Node 0 is elected by node 1 and starts to remove itself; both other nodes have its removal, and
the acknowledgement of node 1 has arrived. -/
def removeSelf : List Move :=
  [.input (.tick 0), .relay 0 1, .relay 1 0, .input (.proposeConfigChange 0 (.removeVoter 0)),
    .relay 0 1, .relay 0 2, .relay 1 0]

open Leader in
/-- With the acknowledgement of node 2 its own removal is committed, and node 0 has to step down. -/
theorem own_commits_keep_removed : ∃ inputs c l, trio.run Cluster.keepsVoters inputs = some c ∧
    (c.nodes 0).role = .leader l ∧
      let r := { l with matchIndex := l.matchIndex.insert 2 1 }.maybeCommit (c.nodes 0).core
      ReportsRight (c.nodes 0).core r ∧ r.2.2.2 = true ∧ r.2.1.commitIndex = 1 := by
  have hplay : (trio.play Cluster.keepsVoters removeSelf).any (fun c => (c.nodes 0).leads fun l =>
      let ack : Message := ⟨2, 0, (c.nodes 0).core.term, .appendResponse ⟨true, 1⟩⟩
      let r := { l with matchIndex := l.matchIndex.insert 2 1 }.maybeCommit (c.nodes 0).core
      decide ((c.nodes 0).core.effectiveConfig.isMember 2 = true ∧
        (c.nodes 0).core.config.pipelining = true ∧
        acksWithin (c.nodes 0).core (.event (.message ack)) = true ∧ r.2.2.2 = true ∧
        r.2.1.commitIndex = 1)) = true := by
    decide +kernel
  obtain ⟨inputs, c, hrun, hleads⟩ := Cluster.exists_run_of_play hplay
  obtain ⟨l, hl, hfacts⟩ := RaftNode.exists_of_leads hleads
  obtain ⟨hmember, hpipelining, hacks, hdown, hcommit⟩ := of_decide_eq_true hfacts
  have hcall := CommitCall.acked (l := l) ⟨2, 0, (c.nodes 0).core.term, .appendResponse ⟨true, 1⟩⟩
    ⟨true, 1⟩ rfl rfl hmember rfl
  rw [if_pos hpipelining] at hcall
  exact ⟨inputs, c, l, hrun, hl, own_commits_keep _ _ hrun hl hacks hcall, hdown, hcommit⟩

/-- Node 0 joins voters 1 and 2 as a learner and is made a voter, with both changes in its log. It
restarts, wins an election and proposes a command, which node 2 acknowledges. -/
def promoteAndRestart : List Move :=
  [.input (.tick 1), .relay 1 2, .relay 2 1,
    .input (.proposeConfigChange 1 (.addLearner 0)), .relay 1 2, .relay 2 1,
    .relay 1 0, .relay 0 1, .relay 1 0, .relay 0 1,
    .input (.proposeConfigChange 1 (.addVoter 0)), .relay 1 2, .relay 2 1, .relay 1 0, .relay 0 1,
    .input (.restart 0), .input (.tick 2), .input (.tick 0), .input (.tick 0), .relay 0 2,
    .relay 0 2, .relay 2 0, .input (.propose 0 [9]), .relay 0 2]

open Leader in
/-- **The past deposes a leader**: node 0 leads and is a voter of its effective configuration. With
the acknowledgement that is on its way it commits the command, and with it the two configurations
before. The first, in which it was a learner, makes it step down, although it is a voter of the
newest committed one. -/
theorem deposed_by_the_past : ∃ inputs c l,
    (Cluster.init (fun _ => quickConfig) [1, 2]).run (fun _ _ => true) inputs = some c ∧
      (c.nodes 0).role = .leader l ∧ (c.nodes 0).core.effectiveConfig.isVoter 0 = true ∧
      let ack : Message := ⟨2, 0, (c.nodes 0).term, .appendResponse ⟨true, 3⟩⟩
      let r := { l with matchIndex := l.matchIndex.insert 2 3 }.maybeCommit (c.nodes 0).core
      ack ∈ c.sent ∧ ((c.nodes 0).step ack).1.isLeader = false ∧ r.2.2.2 = true ∧
        (r.2.1.configAt r.2.1.commitIndex).isVoter 0 = true := by
  have hplay : ((Cluster.init (fun _ => quickConfig) [1, 2]).play (fun _ _ => true)
      promoteAndRestart).any (fun c => (c.nodes 0).leads fun l =>
        let ack : Message := ⟨2, 0, (c.nodes 0).term, .appendResponse ⟨true, 3⟩⟩
        let r := { l with matchIndex := l.matchIndex.insert 2 3 }.maybeCommit (c.nodes 0).core
        decide ((c.nodes 0).core.effectiveConfig.isVoter 0 = true ∧ ack ∈ c.sent ∧
          ((c.nodes 0).step ack).1.isLeader = false ∧ r.2.2.2 = true ∧
          (r.2.1.configAt r.2.1.commitIndex).isVoter 0 = true)) = true := by
    decide +kernel
  obtain ⟨inputs, c, hrun, hleads⟩ := Cluster.exists_run_of_play hplay
  obtain ⟨l, hl, hfacts⟩ := RaftNode.exists_of_leads hleads
  exact ⟨inputs, c, l, hrun, hl, of_decide_eq_true hfacts⟩

end Cloud9
