import Cloud9.Lib.Run
import Cloud9.Raft.Contiguous
import Cloud9.Raft.Leadership

/-!
# One node under arbitrary messages

What a node can rely on when nothing is known about the messages it receives: its log stays
contiguous, its commit index stays inside the log and never falls, and what it has committed stays
in the log or is covered by a snapshot.

The roles other than the follower never remove an entry, and a snapshot is installed only where it
covers or keeps what is committed. The follower's append loop, however, takes the indices and terms
of a request as they are. So the invariant holds as long as accepted append requests are orderly
(`node_invariants`), and not beyond (`arbitrary_append_breaks`). Indices and terms are naturals here
and `u64` in the source, so a run also has to stay where the next ones are no overflow.
-/

namespace Cloud9

/-- The log is contiguous, and the commit index is between the snapshot and the last entry. -/
structure Core.Intact (core : Core) : Prop where
  contiguous : core.log.Contiguous
  snapshot : core.log.snapshotIndex ≤ core.commitIndex
  commit : core.commitIndex ≤ core.log.lastIndex

/-- The commit index has not fallen, and no committed entry was removed or replaced except by a
snapshot. -/
structure Core.KeepsCommitted (core core' : Core) : Prop where
  commitIndex : core.commitIndex ≤ core'.commitIndex
  entries : ∀ {i : ℕ} {e : Entry}, i ≤ core.commitIndex → core.log.get i = some e →
    core'.log.get i = some e ∨ i ≤ core'.log.snapshotIndex

/-- An intact core that keeps what another one has committed. -/
def Core.Continues (core core' : Core) : Prop := core'.Intact ∧ core.KeepsCommitted core'

namespace Core.Continues

variable {core core' core'' : Core}

theorem refl (h : core.Intact) : core.Continues core :=
  ⟨h, Nat.le_refl _, fun _ he => .inl he⟩

theorem steady (h : core.Continues core') (hs : core'.Steady core'') : core.Continues core'' := by
  refine ⟨⟨?_, ?_, ?_⟩, ?_, ?_⟩
  · rw [hs.log]
    exact h.1.contiguous
  · rw [hs.log, hs.commitIndex]
    exact h.1.snapshot
  · rw [hs.log, hs.commitIndex]
    exact h.1.commit
  · rw [hs.commitIndex]
    exact h.2.commitIndex
  · rw [hs.log]
    exact h.2.entries

theorem setCommitIndex (h : core.Continues core') {k : ℕ} (hk : core'.commitIndex ≤ k)
    (hlast : k = core'.commitIndex ∨ k ≤ core'.log.lastIndex) :
    core.Continues (core'.setCommitIndex k) := by
  refine ⟨⟨h.1.contiguous, Nat.le_trans h.1.snapshot hk, ?_⟩, Nat.le_trans h.2.commitIndex hk,
    h.2.entries⟩
  rcases hlast with rfl | hlast
  · exact h.1.commit
  · exact hlast

theorem appendEntry (h : core.Continues core') (payload : EntryPayload) :
    core.Continues (Leader.appendEntry core' payload) := by
  have hcont := h.1.contiguous.append
    (e := ⟨core'.term, core'.log.lastIndex + 1, payload⟩) rfl
  refine ⟨⟨hcont, h.1.snapshot, ?_⟩, h.2.commitIndex, fun hi he => ?_⟩
  · have hlast : (Leader.appendEntry core' payload).log.lastIndex = core'.log.lastIndex + 1 :=
      Log.lastIndex_append _ _
    rw [hlast]
    exact Nat.le_succ_of_le h.1.commit
  · exact (h.2.entries hi he).imp (fun hget => Log.get_append hget _) fun hle => hle

/-- A leader's commit keeps what is committed. -/
theorem maybeCommit (h : core.Continues core') (l : Leader) :
    core.Continues (l.maybeCommit core').2.1 :=
  Leader.maybeCommit_rule (I := core.Continues) (Q := fun core' _ => core.Continues core')
    (fun _ _ hI hk hlast _ => hI.setCommitIndex hk hlast)
    (fun _ _ hI hk hlast => hI.setCommitIndex hk hlast)
    (fun _ _ _ _ hI hidx hle hlast _ =>
      (hI.setCommitIndex (Nat.le_of_lt (Nat.lt_of_lt_of_le hidx hle)) (.inr hlast)).appendEntry _)
    l h

end Core.Continues

theorem Leader.maybeCommit_contiguous (l : Leader) {core : Core} (h : core.log.Contiguous) :
    (l.maybeCommit core).2.1.log.Contiguous :=
  maybeCommit_rule (I := fun core => core.log.Contiguous) (Q := fun core _ => core.log.Contiguous)
    (fun _ _ h _ _ _ => h) (fun _ _ h _ _ => h) (fun _ _ _ _ h _ _ _ _ => h.append rfl) l h

theorem Leader.maybeCommit_config (l : Leader) (core : Core) :
    (l.maybeCommit core).2.1.config = core.config :=
  maybeCommit_rule (I := fun core' => core'.config = core.config)
    (Q := fun core' _ => core'.config = core.config) (fun _ _ h _ _ _ => h) (fun _ _ h _ _ => h)
    (fun _ _ _ _ h _ _ _ _ => h) l rfl

namespace Follower

/-! ## Append requests -/

/-- No entry of the request conflicts with a committed one. -/
def sparesCommitted (core : Core) (req : AppendRequest) : Bool :=
  req.entries.all fun e => decide (core.commitIndex < e.index) || !entryConflicts core.log e

theorem acceptAppend_continues {core : Core} (h : core.Intact) {req : AppendRequest}
    (hgap : gapless core.log.lastIndex req.entries = true)
    (hspares : sparesCommitted core req = true) : core.Continues (acceptAppend core req) := by
  have hconf : ∀ e ∈ req.entries, e.index ≤ core.commitIndex →
      entryConflicts core.log e = false := by
    intro e he hle
    have := List.all_eq_true.1 hspares e he
    simpa [Nat.not_lt.2 hle] using this
  have hloop := appendEntries_loopResult h.contiguous h.snapshot h.commit hgap hconf
  have hcommit := acceptAppend_commitIndex core req
  refine ⟨⟨?_, ?_, ?_⟩, ?_, ?_⟩
  · rw [acceptAppend_log]
    exact hloop.contiguous
  · have := h.snapshot
    have := hloop.le
    rw [acceptAppend_log, hloop.agree.snapshotIndex, hcommit]
    split <;> omega
  · have := hloop.le
    rw [acceptAppend_log, hcommit]
    split <;> omega
  · have := hloop.le
    rw [hcommit]
    split <;> omega
  · intro i e hi he
    rw [acceptAppend_log, hloop.agree.get hi]
    exact .inl he

/-! ## Snapshots -/

/-- The core after a snapshot is installed. -/
def acceptSnapshot (core : Core) (req : InstallSnapshotRequest) : Core :=
  { core.setLog (core.log.installSnapshot req.lastIncludedIndex req.lastIncludedTerm
      req.configuration) with
    commitIndex := max core.commitIndex req.lastIncludedIndex
    lastApplied := max core.lastApplied req.lastIncludedIndex }

/-- The snapshot is newer than the one there is, and does not end before a committed entry unless
the log goes on from it. -/
def Installs (core : Core) (req : InstallSnapshotRequest) : Prop :=
  core.log.snapshotIndex < req.lastIncludedIndex ∧
    (req.lastIncludedIndex < core.commitIndex →
      core.log.snapshotMatchesPrefix req.lastIncludedIndex req.lastIncludedTerm = true)

/-- A snapshot that cannot be installed is refused and changes nothing. -/
theorem handleInstallSnapshot_cases (f : Follower) (core : Core) (sender : NodeId)
    (req : InstallSnapshotRequest) :
    let answer := fun success => [core.message sender
      (.installSnapshotResponse ⟨success, req.lastIncludedIndex⟩)]
    (core.Steady (f.handleInstallSnapshot core sender req).2.1 ∧
      (f.handleInstallSnapshot core sender req).2.2.effects.messages = answer false) ∨
    Installs core req ∧
      (acceptSnapshot core req).Steady (f.handleInstallSnapshot core sender req).2.1 ∧
      (f.handleInstallSnapshot core sender req).2.2.effects.messages = answer true := by
  intro answer
  unfold handleInstallSnapshot
  dsimp only
  split_ifs with hold hcommitted
  · exact .inl ⟨.randomElectionTimeout core, rfl⟩
  · exact .inl ⟨.randomElectionTimeout core, rfl⟩
  · refine .inr ⟨⟨Nat.lt_of_not_le hold, fun hlt => ?_⟩, ⟨⟨rfl, rfl, rfl, rfl⟩, rfl⟩, rfl⟩
    by_contra hmatch
    have hmatch : (!core.log.snapshotMatchesPrefix req.lastIncludedIndex
        req.lastIncludedTerm) = true := by simpa using hmatch
    exact hcommitted ⟨hlt, hmatch⟩

theorem acceptSnapshot_steady {core core' : Core} (h : core.Steady core')
    (req : InstallSnapshotRequest) :
    (acceptSnapshot core req).Steady (acceptSnapshot core' req) := by
  have hlog : (acceptSnapshot core' req).log = (acceptSnapshot core req).log := by
    simp only [acceptSnapshot, Core.setLog, Core.log] at *
    rw [show core'.persistent.log = core.persistent.log from h.log]
  have hcommit :
      (acceptSnapshot core' req).commitIndex = (acceptSnapshot core req).commitIndex := by
    simp only [acceptSnapshot, h.commitIndex]
  have happlied :
      (acceptSnapshot core' req).lastApplied = (acceptSnapshot core req).lastApplied := by
    simp only [acceptSnapshot, h.lastApplied]
  exact ⟨⟨h.config, hlog, h.boot, hcommit⟩, happlied⟩

/-- What a message about snapshots does to a follower's core. -/
theorem step_snapshot (f : Follower) (core : Core) {msg : Message}
    (hsnap : msg.payload.isSnapshot = true) :
    core.Steady (f.step core (.message msg)).2.1 ∨ ∃ req,
      Installs core req ∧ (acceptSnapshot core req).Steady (f.step core (.message msg)).2.1 := by
  simp only [step, handleMessage]
  split
  · exact .inl (.refl core)
  · split
    · exact .inl (.refl core)
    · have hadopt := f.adoptTerm_steady core msg
      split
      · exact .inl hadopt
      · unfold dispatch
        split
        case h_4 req hreq =>
          rcases handleInstallSnapshot_cases (f.adoptTerm core msg).2.1 (f.adoptTerm core msg).2.2
              msg.from req with ⟨hsteady, -⟩ | ⟨hinst, hsteady, -⟩
          · exact .inl (hadopt.trans hsteady)
          · refine .inr ⟨req, ?_, (acceptSnapshot_steady hadopt req).trans hsteady⟩
            unfold Installs at hinst ⊢
            rwa [hadopt.log, hadopt.commitIndex] at hinst
        case h_5 => exact .inl hadopt
        case h_6 => exact .inl hadopt
        all_goals simp_all [Payload.isSnapshot]

theorem acceptSnapshot_commit {core : Core} (hcont : core.log.Contiguous)
    (hcommit : core.commitIndex ≤ core.log.lastIndex) {req : InstallSnapshotRequest}
    (hinst : Installs core req) :
    (acceptSnapshot core req).commitIndex ≤ (acceptSnapshot core req).log.lastIndex := by
  show max core.commitIndex req.lastIncludedIndex ≤ (core.log.installSnapshot req.lastIncludedIndex
    req.lastIncludedTerm req.configuration).lastIndex
  cases hmatch : core.log.snapshotMatchesPrefix req.lastIncludedIndex req.lastIncludedTerm with
  | true =>
    rw [(hcont.installSnapshot_matches hmatch req.configuration).1]
    omega
  | false =>
    rw [Log.Contiguous.installSnapshot_differs hmatch]
    have : ¬req.lastIncludedIndex < core.commitIndex := fun hlt => by
      rw [hinst.2 hlt] at hmatch
      cases hmatch
    omega

theorem acceptSnapshot_get {core : Core} (hcont : core.log.Contiguous)
    {req : InstallSnapshotRequest} (hinst : Installs core req) {i : ℕ}
    (hlo : req.lastIncludedIndex < i) (hhi : i ≤ core.commitIndex) :
    (acceptSnapshot core req).log.get i = core.log.get i :=
  (hcont.installSnapshot_matches (hinst.2 (by omega)) req.configuration).2 hlo

theorem acceptSnapshot_continues {core : Core} (h : core.Intact) {req : InstallSnapshotRequest}
    (hinst : Installs core req) : core.Continues (acceptSnapshot core req) := by
  have hsnap : (acceptSnapshot core req).log.snapshotIndex = req.lastIncludedIndex :=
    Log.Contiguous.installSnapshot_snapshotIndex hinst.1 _ _
  have hcont : (acceptSnapshot core req).log.Contiguous :=
    h.contiguous.installSnapshot hinst.1 _ _
  refine ⟨⟨hcont, ?_, acceptSnapshot_commit h.contiguous h.commit hinst⟩, Nat.le_max_left _ _,
    fun {i e} hi he => ?_⟩
  · exact Nat.le_trans (Nat.le_of_eq hsnap) (Nat.le_max_right _ _)
  · by_cases hcovered : i ≤ req.lastIncludedIndex
    · exact .inr (Nat.le_trans hcovered (Nat.le_of_eq hsnap.symm))
    · exact .inl ((acceptSnapshot_get h.contiguous hinst (by omega) hi).trans he)

end Follower

/-! ## Events -/

namespace RaftNode

/-- An append request is refused, or its entries skip no index. -/
def gapless (n : RaftNode) : Event → Bool
  | .message msg =>
    match msg.payload with
    | .appendRequest req =>
      !n.acceptsAppend msg || Follower.gapless n.core.log.lastIndex req.entries
    | _ => true
  | _ => true

/-- An append request is refused, or its entries conflict with no committed one. -/
def sparesCommitted (n : RaftNode) : Event → Bool
  | .message msg =>
    match msg.payload with
    | .appendRequest req => !n.acceptsAppend msg || Follower.sparesCommitted n.core req
    | _ => true
  | _ => true

/-- The next index and the next term are `u64`, so that neither sum wraps around in the source. -/
def inRange (n : RaftNode) : Bool :=
  decide (n.core.log.lastIndex + 1 < 2 ^ 64 ∧ n.term + 1 < 2 ^ 64)

/-- The event leaves the log contiguous and spares what is committed, and the node stays in
range. -/
def orderly (n : RaftNode) (event : Event) : Bool :=
  n.gapless event && n.sparesCommitted event && (n.stepEvent event).1.inRange

/-- Feed events to a node, each of which must be allowed in the state it meets. -/
def runEvents (ok : RaftNode → Event → Bool) (n : RaftNode) (events : List Event) :
    Option RaftNode :=
  runWhile (fun n event => some (n.stepEvent event).1) ok n events

theorem stepEvent_installs (n : RaftNode) {msg : Message}
    (hsnap : msg.payload.isSnapshot = true) :
    n.core.Steady (n.step msg).1.core ∨
      (∃ l : Leader, (l.maybeCommit n.core).2.1.Steady (n.step msg).1.core) ∨
      ∃ req, Follower.Installs n.core req ∧
        (Follower.acceptSnapshot n.core req).Steady (n.step msg).1.core := by
  have htrans := applyTransition_steady (n.roleStep (.message msg)).1
    (n.roleStep (.message msg)).2.transition
  obtain ⟨core, role⟩ := n
  cases role with
  | preCandidate p => exact .inl ((p.step_steady core (.message msg)).trans htrans)
  | candidate c => exact .inl ((c.step_steady core (.message msg)).trans htrans)
  | follower f =>
    rcases f.step_snapshot core hsnap with hsteady | ⟨req, hinst, hsteady⟩
    · exact .inl (hsteady.trans htrans)
    · exact .inr (.inr ⟨req, hinst, hsteady.trans htrans⟩)
  | leader l =>
    obtain ⟨-, hsteady | ⟨l', hcore, -⟩⟩ := l.step_kept core (.message msg)
    · exact .inl (hsteady.trans htrans)
    · refine .inr (.inl ⟨l', ?_⟩)
      rw [← hcore]
      exact htrans

theorem stepEvent_config (n : RaftNode) (event : Event) :
    (n.stepEvent event).1.core.config = n.core.config := by
  cases n.stepEvent_core event with
  | steady hs => exact hs.config
  | commit _ l hs => exact hs.config.trans (l.maybeCommit_config n.core)
  | accept msg req _ _ _ hs => exact hs.config.trans (Follower.acceptAppend_config n.core req)
  | snapshot msg hev hsnap =>
    subst hev
    rcases n.stepEvent_installs hsnap with hs | ⟨l, hs⟩ | ⟨req, -, hs⟩
    · exact hs.config
    · exact hs.config.trans (l.maybeCommit_config n.core)
    · exact hs.config

/-- **One event.** -/
theorem stepEvent_continues {n : RaftNode} (h : n.core.Intact) {event : Event}
    (hgap : n.gapless event = true) (hspares : n.sparesCommitted event = true) :
    n.core.Continues (n.stepEvent event).1.core := by
  cases n.stepEvent_core event with
  | steady hs => exact (Core.Continues.refl h).steady hs
  | commit _ l hs => exact ((Core.Continues.refl h).maybeCommit l).steady hs
  | accept msg req hev hreq hacc hs =>
    subst hev
    simp only [gapless, sparesCommitted, hreq, hacc, Bool.not_true, Bool.false_or] at hgap hspares
    exact (Follower.acceptAppend_continues h hgap hspares).steady hs
  | snapshot msg hev hsnap =>
    subst hev
    rcases n.stepEvent_installs hsnap with hs | ⟨l, hs⟩ | ⟨req, hinst, hs⟩
    · exact (Core.Continues.refl h).steady hs
    · exact ((Core.Continues.refl h).maybeCommit l).steady hs
    · exact (Follower.acceptSnapshot_continues h hinst).steady hs

theorem settle_steady (core : Core) (l : Leader) (down : Bool) :
    core.Steady (settle core l down).core := by
  cases down with
  | true => exact .randomElectionTimeout _
  | false => exact .refl _

/-- An accepted proposal appends its entry and commits what it can; a refused one does nothing. -/
theorem propose_core {n n' : RaftNode} {cmd : Command} {r : Except ProposeError (ℕ × Effects)}
    (h : n.propose cmd = some (n', r)) :
    (∃ e, r = .error e ∧ n' = n) ∨
      ∃ effects, r = .ok (n.core.log.lastIndex + 1, effects) ∧ ∃ l : Leader,
        (l.maybeCommit (Leader.appendEntry n.core (.command cmd))).2.1.Steady n'.core := by
  cases propose_cases h with
  | refused e => exact .inl ⟨_, rfl, rfl⟩
  | accepted l core core' hcore =>
    subst hcore
    exact .inr ⟨_, rfl, l.recordOwnMatch (Leader.appendEntry core (.command cmd))
      (core.log.lastIndex + 1), settle_steady _ _ _⟩

theorem propose_continues {n n' : RaftNode} (h : n.core.Intact) {cmd : Command}
    {r : Except ProposeError (ℕ × Effects)} (hp : n.propose cmd = some (n', r)) :
    n.core.Continues n'.core := by
  rcases propose_core hp with ⟨e, -, rfl⟩ | ⟨effects, -, l, hs⟩
  · exact .refl h
  · exact (((Core.Continues.refl h).appendEntry (.command cmd)).maybeCommit l).steady hs

/-! ## Contiguous logs -/

theorem stepEvent_contiguous {n : RaftNode} (h : n.core.log.Contiguous)
    (hsnap : n.core.log.snapshotIndex = 0) {event : Event} (hgap : n.gapless event = true) :
    (n.stepEvent event).1.core.log.Contiguous := by
  cases n.stepEvent_core event with
  | steady hs =>
    rw [hs.log]
    exact h
  | commit _ l hs =>
    rw [hs.log]
    exact l.maybeCommit_contiguous h
  | accept msg req hev hreq hacc hs =>
    subst hev
    simp only [gapless, hreq, hacc, Bool.not_true, Bool.false_or] at hgap
    rw [hs.log, Follower.acceptAppend_log]
    exact (Follower.appendEntries_loopResult_zero h hsnap hgap).contiguous
  | snapshot msg hev hmsg =>
    subst hev
    rcases n.stepEvent_installs hmsg with hs | ⟨l, hs⟩ | ⟨req, hinst, hs⟩
    · rw [show (n.stepEvent (.message msg)).1.core.log = _ from hs.log]
      exact h
    · rw [show (n.stepEvent (.message msg)).1.core.log = _ from hs.log]
      exact l.maybeCommit_contiguous h
    · rw [show (n.stepEvent (.message msg)).1.core.log = _ from hs.log]
      exact h.installSnapshot hinst.1 _ _

theorem propose_contiguous {n n' : RaftNode} (h : n.core.log.Contiguous) {cmd : Command}
    {r : Except ProposeError (ℕ × Effects)} (hp : n.propose cmd = some (n', r)) :
    n'.core.log.Contiguous := by
  rcases propose_core hp with ⟨e, -, rfl⟩ | ⟨effects, -, l, hs⟩
  · exact h
  · rw [hs.log]
    exact l.maybeCommit_contiguous (h.append rfl)

theorem new_intact (config : Config) (voters : List NodeId) : (new config voters).core.Intact :=
  ⟨.empty, Nat.le_refl _, Nat.le_refl _⟩

end RaftNode

/-- **A node under arbitrary events.** As long as the append requests it accepts skip no index and
conflict with no committed entry, and its indices and terms do not overflow, its log is contiguous,
its commit index is inside the log and never falls, and what is committed stays or is covered by a
snapshot. -/
theorem node_invariants {config : Config} {voters : List NodeId} {events : List Event}
    {n : RaftNode} {event : Event}
    (hrun : (RaftNode.new config voters).runEvents RaftNode.orderly events = some n)
    (hok : n.orderly event = true) :
    n.core.Intact ∧ (n.stepEvent event).1.core.Intact ∧
      n.core.KeepsCommitted (n.stepEvent event).1.core := by
  have hstep : ∀ {n : RaftNode} {event : Event}, n.core.Intact → n.orderly event = true →
      n.core.Continues (n.stepEvent event).1.core := by
    intro n event h hok
    rw [RaftNode.orderly, Bool.and_eq_true, Bool.and_eq_true] at hok
    exact RaftNode.stepEvent_continues h hok.1.1 hok.1.2
  have h : n.core.Intact := by
    refine runWhile_invariant (I := fun n => n.core.Intact) ?_ (RaftNode.new_intact config voters)
      hrun
    intro n event n' h hok hn'
    cases hn'
    exact (hstep h hok).1
  exact ⟨h, hstep h hok⟩

/-- An append request from node 1 to node 0 that starts at the beginning of the log. -/
def appendFrom (term : ℕ) (entries : List Entry) (leaderCommit : ℕ) : Event :=
  .message ⟨1, 0, term, .appendRequest ⟨0, 0, entries, leaderCommit⟩⟩

/-- Two entries of term 1, both committed. -/
def committedPair : Event :=
  appendFrom 1 [⟨1, 1, .command [1]⟩, ⟨1, 2, .command [2]⟩] 2

/-- A node takes two committed entries, then a snapshot of the first of them. -/
theorem node_invariants_snapshot :
    let n := ((RaftNode.new (Config.new 0) [0, 1, 2]).stepEvent committedPair).1
    let event := Event.message ⟨1, 0, 1, .installSnapshotRequest ⟨1, 1, .simpleOf [0, 1, 2]⟩⟩
    (n.stepEvent event).1.core.Intact ∧ n.core.KeepsCommitted (n.stepEvent event).1.core ∧
      n.commitIndex = 2 ∧ (n.stepEvent event).1.core.log.snapshotIndex = 1 := by
  intro n event
  have hrun : (RaftNode.new (Config.new 0) [0, 1, 2]).runEvents RaftNode.orderly [committedPair] =
      some n := by
    refine runWhile_cons.2 ⟨by decide +kernel, n, rfl, rfl⟩
  obtain ⟨-, hintact, hkeeps⟩ := @node_invariants _ _ _ _ event hrun (by decide +kernel)
  exact ⟨hintact, hkeeps, by decide +kernel, by decide +kernel⟩

/-- **Arbitrary append requests break every part of the invariant**: entries that skip an index
leave a gap in the log, and an entry of another term cuts off committed ones. Then the commit index
is beyond the log, or falls back to its end. -/
theorem arbitrary_append_breaks :
    let reaches := fun events n =>
      (RaftNode.new (Config.new 0) [0, 1, 2]).runEvents (fun _ _ => true) events = some n
    (∃ events n, reaches events n ∧ ¬n.core.log.Contiguous) ∧
    (∃ events n, reaches events n ∧ ¬n.commitIndex ≤ n.core.log.lastIndex) ∧
    ∃ events n event, reaches events n ∧ ¬n.commitIndex ≤ (n.stepEvent event).1.commitIndex ∧
      ∃ i e, i ≤ n.commitIndex ∧ n.core.log.get i = some e ∧
        ¬((n.stepEvent event).1.core.log.get i = some e ∨
          i ≤ (n.stepEvent event).1.core.log.snapshotIndex) := by
  intro reaches
  let n := ((RaftNode.new (Config.new 0) [0, 1, 2]).stepEvent committedPair).1
  refine ⟨⟨[appendFrom 1 [⟨1, 5, .command [1]⟩] 0], _, rfl, fun hcont => ?_⟩,
    ⟨[committedPair, appendFrom 2 [⟨2, 1, .command [3]⟩] 0], _, rfl, by decide +kernel⟩,
    ⟨[committedPair], n, appendFrom 2 [⟨2, 1, .command [3]⟩] 3, rfl, by decide +kernel, 1,
      ⟨1, 1, .command [1]⟩, ?_⟩⟩
  · have hindex := hcont 0 ⟨1, 5, .command [1]⟩ (by decide +kernel)
    exact absurd hindex (by decide +kernel)
  · exact ⟨by decide +kernel, by decide +kernel, by decide +kernel⟩

end Cloud9
