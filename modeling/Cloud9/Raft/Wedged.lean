import Cloud9.Raft.Admission
import Cloud9.Raft.Reach

/-!
# A node that can only refuse

A restarted node has commit index 0, so that everything in its log counts as uncommitted. If that is
more than a leader may have uncommitted, the leader takes no proposal; but only an entry of its own
term could move its commit index.

`View.Stuck` describes such a node: its log is part of a list `L` of entries of earlier terms, and
nothing is committed. Requests between such nodes carry entries of `L` and the commit index 0
(`Message.Idle`), so that nothing else ever gets into the logs: an event leaves a node stuck and
makes it send idle messages only (`RaftNode.stepEvent_stuck`), and a proposal is refused
(`RaftNode.Stuck.propose_refused`).
-/

namespace Cloud9

open Log

/-- Nothing is committed, and the log is part of `L`. Who campaigns or leads does so in a later term
than those of its log. -/
structure View.Stuck (L : List Entry) (v : View) : Prop where
  plain : v.core.log.Plain
  log : v.core.log.entries <+: L
  commit : v.core.commitIndex = 0
  past : ∀ e ∈ v.core.log.entries, e.term ≤ v.core.term
  ahead : v.role ≠ .passive → ∀ e ∈ v.core.log.entries, e.term < v.core.term

/-- A message without a snapshot. An append request carries a window of `L` of earlier terms, and
commits nothing. -/
def Message.Idle (L : List Entry) (m : Message) : Prop :=
  m.payload.isSnapshot = false ∧ ∀ req, m.payload = .appendRequest req →
    req.leaderCommit = 0 ∧ Follower.Window L req ∧ ∀ e ∈ req.entries, e.term < m.term

namespace Message

variable {L : List Entry} {m : Message}

theorem idle_of_not_append (hsnap : m.payload.isSnapshot = false)
    (h : m.payload.isAppendRequest = false) : m.Idle L := by
  refine ⟨hsnap, fun req hreq => ?_⟩
  rw [hreq] at h
  cases h

theorem idle_of_noise (h : m.payload.isNoise = true) : m.Idle L := by
  cases hp : m.payload with
  | appendRequest req => rw [hp] at h; cases h
  | installSnapshotRequest req => rw [hp] at h; cases h
  | installSnapshotResponse resp => rw [hp] at h; cases h
  | _ => exact idle_of_not_append (by rw [hp]; rfl) (by rw [hp]; rfl)

end Message

/-! ## Actions -/

theorem Leader.length_lt_appendEntry (core : Core) (payload : EntryPayload) :
    core.log.entries.length < (appendEntry core payload).log.entries.length := by
  show _ < (core.log.entries ++ [_]).length
  rw [List.length_append, List.length_singleton]
  exact Nat.lt_succ_self _

/-- An environment in which nothing is appended to a follower's log. -/
def idleEnv (sent : List Message) : Env := ⟨sent, fun _ _ => False, fun _ => False⟩

namespace View

variable {L : List Entry} {v v' : View} {ms ms' : List Message} {sent : List Message}

/-- The node is stuck with `k` entries and has sent nothing that matters, or has more than `k`
entries. -/
def StuckAt (L : List Entry) (k : ℕ) (v : View) (ms : List Message) : Prop :=
  v.Stuck L ∧ v.core.log.entries.length = k ∧ (∀ m ∈ ms, m.Idle L) ∨
    k < v.core.log.entries.length

theorem Stuck.termAt_ne (h : v.Stuck L) (hrole : v.role ≠ .passive) {i : ℕ} (hpos : 0 < i)
    (hi : i ≤ v.core.log.lastIndex) : v.core.log.termAt i ≠ v.core.term := by
  rw [h.plain.lastIndex] at hi
  obtain ⟨j, rfl⟩ : ∃ j, i = j + 1 := ⟨i - 1, by omega⟩
  have hget : v.core.log.entries[j]? = some (v.core.log.entries.get ⟨j, hi⟩) :=
    List.getElem?_eq_getElem hi
  rw [h.plain.termAt, entryTerm_of_getElem? hget]
  exact Nat.ne_of_lt (h.ahead hrole _ (List.mem_of_getElem? hget))

/-- The core changes, but not its log and commit index, and its term does not fall. -/
theorem Stuck.keep (h : v.Stuck L) (hlog : v'.core.log = v.core.log)
    (hcommit : v'.core.commitIndex = v.core.commitIndex) (hterm : v.core.term ≤ v'.core.term)
    (hrole : v'.role ≠ .passive → v.role ≠ .passive ∨ v.core.term < v'.core.term) :
    v'.Stuck L where
  plain := hlog ▸ h.plain
  log := hlog ▸ h.log
  commit := hcommit.trans h.commit
  past e he := Nat.le_trans (h.past e (hlog ▸ he)) hterm
  ahead hne e he := by
    rw [hlog] at he
    rcases hrole hne with hold | hlt
    · exact Nat.lt_of_lt_of_le (h.ahead hold e he) hterm
    · exact Nat.lt_of_le_of_lt (h.past e he) hlt

/-- **One action** leaves a stuck node stuck, or appends to its log. -/
theorem Stuck.action (h : v.Stuck L) (ha : Action (idleEnv sent) v v' ms') :
    v'.StuckAt L v.core.log.entries.length ms' := by
  have hnone : ∀ m ∈ ([] : List Message), m.Idle L := fun _ hmem => absurd hmem List.not_mem_nil
  cases ha with
  | noise _ _ hms => exact .inl ⟨h, rfl, fun m hm => Message.idle_of_noise (hms m hm)⟩
  | demote => exact .inl ⟨h.keep rfl rfl (Nat.le_refl _) fun hne => absurd rfl hne, rfl, hnone⟩
  | adopt _ term hterm =>
    have hup : v.core.maybeUpdateTerm term = (true, { v.core with persistent :=
        { v.core.persistent with term := term, votedFor := none } }) := if_pos hterm
    rw [hup]
    exact .inl ⟨h.keep rfl rfl (Nat.le_of_lt hterm) fun hne => absurd rfl hne, rfl, hnone⟩
  | campaign _ votes _ _ hms =>
    refine .inl ⟨h.keep rfl rfl (Nat.le_succ _) fun _ => .inr (Nat.lt_succ_self _), rfl, ?_⟩
    intro m hm
    obtain ⟨peer, rfl⟩ := hms m hm
    exact Message.idle_of_not_append rfl rfl
  | grant core candidate req =>
    refine .inl ⟨h.keep rfl rfl (Nat.le_refl _) fun hne => absurd rfl hne, rfl, ?_⟩
    exact List.forall_mem_singleton.2 (Message.idle_of_not_append rfl rfl)
  | count core votes voter =>
    exact .inl ⟨h.keep rfl rfl (Nat.le_refl _) fun _ => .inl RoleView.noConfusion, rfl, hnone⟩
  | win core votes =>
    exact .inl ⟨h.keep rfl rfl (Nat.le_refl _) fun _ => .inl RoleView.noConfusion, rfl, hnone⟩
  | send core mi peer next stop hnext =>
    refine .inl ⟨h, rfl, List.forall_mem_singleton.2 ⟨rfl, fun req hreq => ?_⟩⟩
    cases hreq
    have hwin := Follower.window_slice h.plain hnext stop core.commitIndex
    exact ⟨h.commit, hwin.mono h.log, fun e he => h.ahead RoleView.noConfusion e (hwin.mem he)⟩
  | accept core sender req _ hok => exact hok.elim
  | appendCommand core mi cmd => exact .inr (Leader.length_lt_appendEntry _ _)
  | appendChange core mi change => exact .inr (Leader.length_lt_appendEntry _ _)
  | appendTarget core mi idx e cfg target => exact .inr (Leader.length_lt_appendEntry _ _)
  | ack core mi peer index =>
    exact .inl ⟨h.keep rfl rfl (Nat.le_refl _) fun _ => .inl RoleView.noConfusion, rfl, hnone⟩
  | disk core mi index =>
    exact .inl ⟨h.keep rfl rfl (Nat.le_refl _) fun _ => .inl RoleView.noConfusion, rfl, hnone⟩
  | commit core mi index hlt hle hterm =>
    exact absurd hterm (h.termAt_ne RoleView.noConfusion (Nat.zero_lt_of_lt hlt) hle)
  | restart =>
    exact .inl ⟨⟨h.plain, h.log, rfl, h.past, fun hne => absurd rfl hne⟩, rfl, hnone⟩

/-- A log that has grown stays so. -/
theorem length_action (ha : Action (idleEnv sent) v v' ms') :
    v.core.log.entries.length ≤ v'.core.log.entries.length := by
  cases ha with
  | adopt _ term hterm => rw [Core.maybeUpdateTerm_log]
  | accept core sender req _ hok => exact hok.elim
  | appendCommand core mi cmd => exact Nat.le_of_lt (Leader.length_lt_appendEntry _ _)
  | appendChange core mi change => exact Nat.le_of_lt (Leader.length_lt_appendEntry _ _)
  | appendTarget core mi idx e cfg target => exact Nat.le_of_lt (Leader.length_lt_appendEntry _ _)
  | _ => exact Nat.le_refl _

/-- **A sequence of actions.** -/
theorem Stuck.trace (h : v.Stuck L) (ht : Trace (Action (idleEnv sent)) v v' ms) :
    v'.StuckAt L v.core.log.entries.length ms := by
  refine Trace.accumulate (I := StuckAt L v.core.log.entries.length) ?_ ?_ ht
    (.inl ⟨h, rfl, fun _ hmem => absurd hmem List.not_mem_nil⟩)
  · rintro u u' ms ms' (⟨hu, hlen, hms⟩ | hlt) ha
    · rcases hu.action ha with ⟨hu', hlen', hms'⟩ | hlt'
      · exact .inl ⟨hu', hlen'.trans hlen, fun m hm =>
          (List.mem_append.1 hm).elim (hms m) (hms' m)⟩
      · exact .inr (hlen ▸ hlt')
    · exact .inr (Nat.lt_of_lt_of_le hlt (length_action ha))
  · rintro u ms ms' (⟨hu, hlen, hms⟩ | hlt) hsub
    · exact .inl ⟨hu, hlen, fun m hm => hms m (hsub hm)⟩
    · exact .inr hlt

end View

/-! ## Events -/

/-- A follower answers an append request of its term or a later one in the request's term. -/
theorem Follower.step_append (f : Follower) {core : Core} {msg : Message} {req : AppendRequest}
    (hreq : msg.payload = .appendRequest req) (hterm : core.term ≤ msg.term) :
    (f.step core (.message msg)).2.1.term = msg.term ∧
      (f.step core (.message msg)).2.2.transition = .stay ∧
      (f.step core (.message msg)).2.2.effects.All fun m =>
        ∃ resp, m.payload = .appendResponse resp := by
  have hadopt : (f.adoptTerm core msg).2.2.term = msg.term := by
    unfold adoptTerm
    split_ifs with hlt
    · simp only [hreq]
      exact congrArg Persistent.term (congrArg Core.persistent
        (congrArg Prod.snd (if_pos hlt : core.maybeUpdateTerm msg.term = _)))
    · exact Nat.le_antisymm hterm (Nat.not_lt.1 hlt)
  have hguard : ¬((Payload.appendRequest req).isVoteOrPreVoteRequest &&
      f.recentlyHeardFromLeader core) = true := by
    simp [Payload.isVoteOrPreVoteRequest]
  simp only [step, handleMessage, dispatch, hreq]
  rw [if_neg hguard]
  generalize f.adoptTerm core msg = adopted at hadopt
  obtain ⟨updated, f₁, core₁⟩ := adopted
  rw [if_neg (by rw [hadopt]; exact Nat.lt_irrefl _)]
  have hanswer : ∀ (effects : Effects) (core : Core) (resp : AppendResponse),
      effects.messages = [] →
      (effects.withMessage (core.message msg.from (.appendResponse resp))).All
        fun m => ∃ resp, m.payload = .appendResponse resp := by
    intro effects core resp hnone m hm
    simp only [Effects.withMessage, hnone, List.nil_append, List.mem_singleton] at hm
    exact ⟨resp, by rw [hm]; rfl⟩
  unfold handleAppendRequest
  dsimp only
  split
  · refine ⟨?_, rfl, ?_⟩
    · show Persistent.term _ = _
      rw [acceptAppend_persistent]
      exact hadopt
    · split <;> split <;> exact hanswer _ _ _ rfl
  · refine ⟨hadopt, rfl, ?_⟩
    split <;> exact hanswer _ _ _ rfl

/-! ## Accepted requests -/

namespace Follower

variable {L : List Entry}

/-- A log that is part of `L` stays so. -/
theorem isPrefix_merged {g : List Entry} (hg : g <+: L) (k : ℕ) :
    merged L g k <+: L ∧ g.length ≤ (merged L g k).length := by
  unfold merged
  split_ifs with h
  · exact ⟨hg, Nat.le_refl _⟩
  · refine ⟨List.take_prefix _ _, ?_⟩
    rcases List.prefix_or_prefix_of_prefix hg <| List.take_prefix k L with hle | hle
    · exact hle.length_le
    · exact absurd hle h

theorem mem_merged {g es : List Entry} {p : ℕ} (hp : L.take p <+: g) (hes : es <+: L.drop p)
    {e : Entry} (he : e ∈ merged L g (p + es.length)) : e ∈ g ∨ e ∈ es := by
  unfold merged at he
  split_ifs at he
  · exact .inl he
  · rw [List.take_add, ← List.prefix_iff_eq_take.1 hes] at he
    exact (List.mem_append.1 he).imp_left fun hold => hp.subset hold

/-- What is new in the log comes from the request. -/
theorem mem_accepted {core : Core} {req : AppendRequest} (hpos : PositiveTerms L)
    (hplain : core.log.Plain) (hpart : core.log.entries <+: L) (hwin : Window L req)
    (hprev : prevMatches core req = true) {e : Entry}
    (he : e ∈ merged L core.log.entries (comparedEnd core.log req)) :
    e ∈ core.log.entries ∨ e ∈ req.entries := by
  rcases accepted_cases hpos hplain (hpos.of_isPrefix hpart) (Matching.of_isPrefix hpart) hwin
    hprev with ⟨hp, hes, hend, -⟩ | ⟨-, hend⟩
  · rw [hend] at he
    exact mem_merged hp hes he
  · rw [hend, merged, if_pos (by simp)] at he
    exact .inl he

end Follower

/-- The log and the bootstrap configuration stay. -/
theorem Core.Fixed.keep {boot : Configuration} {core core' : Core} (h : core.Fixed boot)
    (hlog : core'.log = core.log)
    (hboot : core'.persistent.bootstrapConfig = core.persistent.bootstrapConfig) :
    core'.Fixed boot :=
  ⟨hlog ▸ h.plain, hlog ▸ h.commands, hboot.trans h.boot⟩

namespace RaftNode

variable {boot : Configuration} {L : List Entry} {n : RaftNode}

/-- The node is stuck, with a log of commands. -/
structure Stuck (boot : Configuration) (L : List Entry) (n : RaftNode) : Prop where
  view : n.view.Stuck L
  fixed : n.core.Fixed boot

/-- Without an accepted append request, only the commit index of a leader could move. -/
theorem Stuck.log_eq (h : n.Stuck boot L) {event : Event}
    (hsnap : ∀ msg, event = .message msg → msg.payload.isSnapshot = false)
    (hno : ∀ msg, event = .message msg → n.acceptsAppend msg = false) :
    (n.stepEvent event).1.core.log = n.core.log ∧
      (n.stepEvent event).1.core.persistent.bootstrapConfig =
        n.core.persistent.bootstrapConfig := by
  cases n.stepEvent_core event with
  | steady hs => exact ⟨hs.log, hs.boot⟩
  | commit _ l hs =>
    rw [l.maybeCommit_of_fixed h.fixed] at hs
    have hsame : (l.advanceCommitIndex n.core).persistent = n.core.persistent := by
      unfold Leader.advanceCommitIndex
      split <;> rfl
    exact ⟨hs.log.trans (congrArg Persistent.log hsame),
      hs.boot.trans (congrArg Persistent.bootstrapConfig hsame)⟩
  | accept msg req hev _ hacc =>
    rw [hno msg hev] at hacc
    cases hacc
  | snapshot msg hev hyes =>
    rw [hsnap msg hev] at hyes
    cases hyes

section

variable {sent : List Message} {event : Event} (h : n.Stuck boot L) (hsent : ∀ m ∈ sent, m.Idle L)
  (hevent : event = .tick ∨ ∃ msg, event = .message msg ∧ msg ∈ sent ∧ msg.to = n.core.id)
include h hsent hevent

/-- Any event but an accepted append request. -/
theorem Stuck.quiet (hno : ∀ msg, event = .message msg → n.acceptsAppend msg = false) :
    (n.stepEvent event).1.Stuck boot L ∧ (n.stepEvent event).2.All (Message.Idle L) ∧
      (n.stepEvent event).1.core.log = n.core.log := by
  have hmsg : ∀ msg, event = .message msg → msg ∈ sent ∧ msg.to = n.core.id := by
    rintro msg rfl
    rcases hevent with htick | ⟨msg', heq, hmem, hto⟩
    · cases htick
    · cases heq
      exact ⟨hmem, hto⟩
  have hsnap : ∀ msg, event = .message msg → msg.payload.isSnapshot = false :=
    fun msg hev => (hsent msg (hmsg msg hev).1).1
  obtain ⟨hlog, hboot⟩ := h.log_eq hsnap hno
  have hok : EventOk (idleEnv sent) n event := by
    refine ⟨fun msg hev => ⟨(hmsg msg hev).1, (hmsg msg hev).2, hsnap msg hev, fun hacc => ?_⟩,
      fun index hev => ?_⟩
    · rw [hno msg hev] at hacc
      cases hacc
    · rcases hevent with rfl | ⟨msg, rfl, -⟩
      · cases hev
      · cases hev
  have hcall := n.stepEvent_call h.view.plain hok
  rcases h.view.trace hcall.trace with ⟨hstuck, -, hms⟩ | hlt
  · exact ⟨⟨hstuck, h.fixed.keep hlog hboot⟩, hms, hlog⟩
  · have hlen : (n.stepEvent event).1.view.core.log.entries.length =
        n.view.core.log.entries.length := congrArg (fun log : Log => log.entries.length) hlog
    exact absurd hlt (by rw [hlen]; exact Nat.lt_irrefl _)

end

section

variable (hL : Indexed L) (hpos : PositiveTerms L)
  (hcommands : ∀ e ∈ L, ∀ cfg, e.payload ≠ .config cfg)
include hL hpos hcommands

/-- A follower's step on an append request that it accepts. -/
theorem Stuck.core_accept {f : Follower} {core : Core} (h : Stuck boot L ⟨core, .follower f⟩)
    {msg : Message} {req : AppendRequest} (hidle : msg.Idle L)
    (hreq : msg.payload = .appendRequest req) (hterm : core.term ≤ msg.term)
    (hprev : Follower.prevMatches core req = true) {core' : Core}
    (hsteady : core.Steady core' ∨ (Follower.acceptAppend core req).Steady core')
    (hterm' : core'.term = msg.term) :
    (⟨core'.erase, .passive⟩ : View).Stuck L ∧ core'.Fixed boot ∧
      core.log.entries.length ≤ core'.log.entries.length := by
  obtain ⟨hcommit, hwin, hterms⟩ := hidle.2 req hreq
  rcases hsteady with hs | hs
  · exact ⟨h.view.keep hs.log hs.commitIndex (hterm.trans (Nat.le_of_eq hterm'.symm))
      fun hne => absurd rfl hne, h.fixed.keep hs.log hs.boot, Nat.le_of_eq (by rw [hs.log])⟩
  · have hplain : core.log.Plain := h.view.plain
    have hpart : core.log.entries <+: L := h.view.log
    have hlog := Follower.accepted_entries hL hpos hplain (hpos.of_isPrefix hpart)
      (Matching.of_isPrefix hpart) hwin hprev
    rw [← Follower.acceptAppend_log, ← hs.log] at hlog
    obtain ⟨hinside, hlen⟩ := Follower.isPrefix_merged hpart (Follower.comparedEnd core.log req)
    have hentries : core'.log.entries =
        Follower.merged L core.log.entries (Follower.comparedEnd core.log req) := by rw [hlog]
    have hnew : core'.log.Plain := by
      rw [hlog]
      exact hplain.withEntries (hL.of_isPrefix hinside)
    have hzero : core'.commitIndex = 0 := by
      have hcommitted := Follower.acceptAppend_commitIndex core req
      rw [hcommit, if_neg (Nat.not_lt_zero _)] at hcommitted
      exact (hs.commitIndex.trans hcommitted).trans h.view.commit
    have hboot : core'.persistent.bootstrapConfig = boot := by
      rw [hs.boot, Follower.acceptAppend_persistent]
      exact h.fixed.boot
    rw [← hentries] at hinside hlen
    refine ⟨⟨hnew, hinside, hzero, fun e he => ?_, fun hne => absurd rfl hne⟩,
      ⟨hnew, fun e he => hcommands e (hinside.subset he), hboot⟩, hlen⟩
    -- an old entry is of a term the node has seen, a new one is older than the request
    have he : e ∈ core'.log.entries := he
    rw [hentries] at he
    show e.term ≤ core'.term
    rw [hterm']
    rcases Follower.mem_accepted hpos hplain hpart hwin hprev he with hold | hnew
    · exact (h.view.past e hold).trans hterm
    · exact Nat.le_of_lt (hterms e hnew)

/-- **An accepted append request** puts entries of `L` into the log. -/
theorem Stuck.accept (h : n.Stuck boot L) {msg : Message} (hidle : msg.Idle L)
    (hacc : n.acceptsAppend msg = true) : (n.stepEvent (.message msg)).1.Stuck boot L ∧
      (n.stepEvent (.message msg)).2.All (Message.Idle L) ∧
      n.core.log.entries.length ≤ (n.stepEvent (.message msg)).1.core.log.entries.length := by
  obtain ⟨core, role⟩ := n
  cases role with
  | follower f =>
    cases hreq : msg.payload with
    | appendRequest req =>
      simp only [acceptsAppend, hreq, Bool.and_eq_true, decide_eq_true_eq] at hacc
      obtain ⟨hterm, hstay, hms⟩ := f.step_append hreq hacc.1
      have hsteady : core.Steady (f.step core (.message msg)).2.1 ∨
          (Follower.acceptAppend core req).Steady (f.step core (.message msg)).2.1 := by
        rcases f.step_handles core (.message msg) with hs | ⟨msg', heq, -, hs | ⟨-, hrest⟩⟩
        · exact .inl hs
        · exact .inl hs
        · cases heq
          rcases hrest with ⟨req', hreq', -, hs⟩ | hsnap
          · cases hreq.symm.trans hreq'
            exact .inr hs
          · rw [hidle.1] at hsnap
            cases hsnap
      obtain ⟨hview, hfixed, hlen⟩ :=
        h.core_accept hL hpos hcommands hidle hreq hacc.1 hacc.2 hsteady hterm
      simp only [stepEvent, roleStep, hstay, applyTransition]
      refine ⟨⟨hview, hfixed⟩, ?_, hlen⟩
      rw [Effects.merge_none]
      intro m hm
      obtain ⟨resp, hresp⟩ := hms m hm
      exact Message.idle_of_not_append (by rw [hresp]; rfl) (by rw [hresp]; rfl)
    | _ =>
      simp only [acceptsAppend, hreq] at hacc
      cases hacc
  | _ => cases hacc

/-- **An event** leaves a node stuck, and what it sends is idle. -/
theorem stepEvent_stuck {sent : List Message} {event : Event} (h : n.Stuck boot L)
    (hsent : ∀ m ∈ sent, m.Idle L)
    (hevent : event = .tick ∨ ∃ msg, event = .message msg ∧ msg ∈ sent ∧ msg.to = n.core.id) :
    (n.stepEvent event).1.Stuck boot L ∧ (n.stepEvent event).2.All (Message.Idle L) ∧
      n.core.log.entries.length ≤ (n.stepEvent event).1.core.log.entries.length := by
  by_cases hacc : ∃ msg, event = .message msg ∧ n.acceptsAppend msg = true
  · obtain ⟨msg, rfl, hacc⟩ := hacc
    rcases hevent with htick | ⟨msg', heq, hmem, -⟩
    · cases htick
    · cases heq
      exact h.accept hL hpos hcommands (hsent msg hmem) hacc
  · have hno : ∀ msg, event = .message msg → n.acceptsAppend msg = false := fun msg hev =>
      Bool.eq_false_iff.2 fun hyes => hacc ⟨msg, hev, hyes⟩
    obtain ⟨hstuck, hms, hlog⟩ := h.quiet hsent hevent hno
    exact ⟨hstuck, hms, Nat.le_of_eq (by rw [hlog])⟩

end

/-! ## Proposals -/

/-- **A proposal is refused**: the whole log counts as uncommitted. -/
theorem Stuck.propose_refused (h : n.Stuck boot L)
    (hlimit : n.core.config.maxUncommittedEntries ≤ n.core.log.entries.length) (cmd : Command) :
    ∃ e, n.propose cmd = some (n, .error e) ∧ (n.isLeader = true → e = .throttled) := by
  have hcommit : n.core.commitIndex = 0 := h.view.commit
  have huncommitted : n.core.uncommitted = some n.core.log.entries := by
    have hplain : n.core.log.Plain := h.view.plain
    have hfirst : wrappingAdd 0 1 = 1 := rfl
    rw [Core.uncommitted, hcommit, if_pos (Nat.zero_le _), hfirst,
      Log.slice?_eq hplain.contiguous.lastIndex, hplain.slice Nat.one_pos, hplain.lastIndex,
      List.take_length]
    rfl
  have hexceeded : n.core.proposalLimitExceeded cmd = some true :=
    (n.core.proposalLimitExceeded_iff cmd).2 ⟨_, huncommitted, .inl hlimit⟩
  obtain ⟨core, role⟩ := n
  cases role with
  | leader l =>
    refine ⟨.throttled, ?_, fun _ => rfl⟩
    simp only [propose]
    rw [hexceeded]
  | _ => exact ⟨_, rfl, fun hlead => by cases hlead⟩

end RaftNode

end Cloud9
