import Mathlib.Data.Finset.Lattice.Fold
import Mathlib.Order.Lattice.Nat
import Cloud9.Raft.Intact
import Cloud9.Raft.Safety
import Cloud9.Raft.Tenure

/-!
# The progress of one follower

`match_index` of a follower is written by two handlers. The one for snapshot responses ignores what
is not ahead of it. The one for append responses stores the index of every success, so an old answer
that arrives late takes the progress back (`progress_regresses`).

If the successes of append requests arrive in order, that is none of them names less than a response
that was handled before it, then `match_index` is the highest index reported so far. It never
decreases, and which order it was does not matter (`progress_in_order`).
-/

namespace Cloud9

namespace Message

/-- The index that a successful response reports. -/
def reported (msg : Message) : Option ℕ :=
  match msg.payload with
  | .appendResponse resp => if resp.success then some resp.lastLogIndex else none
  | .installSnapshotResponse resp => if resp.success then some resp.lastIncludedIndex else none
  | _ => none

def isResponse (msg : Message) : Bool :=
  match msg.payload with
  | .appendResponse _ | .installSnapshotResponse _ => true
  | _ => false

end Message

/-- The highest index reported in `msgs`, and at least `start`. -/
def highest (start : ℕ) (msgs : List Message) : ℕ :=
  max start ((msgs.filterMap Message.reported).toFinset.sup id)

/-- No success of an append request names less than `best` or than a response before it. -/
def inOrder : ℕ → List Message → Bool
  | _, [] => true
  | best, msg :: msgs =>
    (match msg.payload with
      | .appendResponse resp => !resp.success || decide (best ≤ resp.lastLogIndex)
      | _ => true) && inOrder (highest best [msg]) msgs

theorem highest_nil (start : ℕ) : highest start [] = start := Nat.max_zero start

theorem highest_append (start : ℕ) (msgs msgs' : List Message) :
    highest start (msgs ++ msgs') = highest (highest start msgs) msgs' := by
  simp only [highest, List.filterMap_append, List.toFinset_append, Finset.sup_union]
  exact (max_assoc _ _ _).symm

theorem le_highest (start : ℕ) (msgs : List Message) : start ≤ highest start msgs :=
  Nat.le_max_left _ _

theorem highest_congr (start : ℕ) {msgs msgs' : List Message} (h : ∀ m, m ∈ msgs ↔ m ∈ msgs') :
    highest start msgs = highest start msgs' := by
  have hset : (msgs.filterMap Message.reported).toFinset =
      (msgs'.filterMap Message.reported).toFinset := by
    ext k
    simp only [List.mem_toFinset, List.mem_filterMap, h]
  rw [highest, hset, highest]

theorem inOrder_append {best : ℕ} {msgs msgs' : List Message}
    (h : inOrder best (msgs ++ msgs') = true) : inOrder best msgs = true := by
  induction msgs generalizing best with
  | nil => rfl
  | cons msg msgs ih =>
    simp only [List.cons_append, inOrder, Bool.and_eq_true] at h ⊢
    exact ⟨h.1, ih h.2⟩

/-! ## One response -/

namespace Leader

/-- New progress entries are for the others only. -/
theorem reinitProgress_index (l : Leader) (core : Core) {id : NodeId} (hid : id ≠ core.id) :
    (l.reinitProgress core).matchIndex.index id = l.matchIndex.index id := by
  unfold reinitProgress
  dsimp only
  split_ifs
  · rw [index_foldl_orInsert]
  · rw [index_insert, Function.update_of_ne hid, index_foldl_orInsert]

theorem appendTransitionTarget_index (l : Leader) (core : Core) (target : Configuration)
    {id : NodeId} (hid : id ≠ core.id) :
    (l.appendTransitionTarget core target).1.matchIndex.index id = l.matchIndex.index id := by
  have hid' : id ≠ (appendEntry core (.config target)).id := hid
  unfold appendTransitionTarget
  dsimp only
  rw [broadcastAppend_matchIndex, reinitProgress_index _ _ hid']

/-- Committing leaves the progress of the others alone. -/
theorem maybeCommit_index (l : Leader) (core : Core) {id : NodeId} (hid : id ≠ core.id) :
    (l.maybeCommit core).1.matchIndex.index id = l.matchIndex.index id := by
  have h := maybeCommit_induct (I := fun l' core' _ =>
    core'.id = core.id ∧ l'.matchIndex.index id = l.matchIndex.index id)
    (fun _ _ _ _ h _ _ => h) (fun _ _ _ _ h => h) ?_ l ⟨rfl, rfl⟩
  · exact h.2
  · intro l' core' _ target h
    refine ⟨h.1, (l'.appendTransitionTarget_index core' target ?_).trans h.2⟩
    rw [h.1]
    exact hid

/-- **One response of a member.** -/
theorem step_response (l : Leader) {core : Core} {msg : Message} (hid : msg.from ≠ core.id)
    (hterm : msg.term = core.term) (hmember : core.effectiveConfig.isMember msg.from = true)
    (hresp : msg.isResponse = true)
    (hord : inOrder (l.matchIndex.index msg.from) [msg] = true) :
    (l.step core (.message msg)).1.matchIndex.index msg.from =
      highest (l.matchIndex.index msg.from) [msg] := by
  obtain ⟨sender, target, term, payload⟩ := msg
  dsimp only at hid hterm hmember hord ⊢
  subst hterm
  have hcommit : ∀ l' : Leader, (afterCommit (l'.maybeCommit core)).1.matchIndex.index sender =
      l'.matchIndex.index sender := fun l' => l'.maybeCommit_index core hid
  cases payload with
  | appendResponse resp =>
    obtain ⟨success, last⟩ := resp
    simp only [step, handleMessage, dispatch, gt_iff_lt, Nat.lt_irrefl, if_false,
      handleAppendResponse, hmember, Bool.not_true, Bool.false_eq_true]
    cases success with
    | true =>
      simp only [inOrder, Bool.not_true, Bool.false_or, Bool.and_true, decide_eq_true_eq] at hord
      simp only [if_true, hcommit, index_insert, Function.update_self, highest,
        List.filterMap_cons, List.filterMap_nil, Message.reported]
      simpa using hord
    | false =>
      simp only [Bool.false_eq_true, if_false, sendAppendTo_matchIndex, highest,
        List.filterMap_cons, List.filterMap_nil, Message.reported]
      simp
  | installSnapshotResponse resp =>
    obtain ⟨success, last⟩ := resp
    simp only [step, handleMessage, dispatch, gt_iff_lt, Nat.lt_irrefl, if_false,
      handleInstallSnapshotResponse, hmember, Bool.not_true, Bool.or_false]
    cases success with
    | true =>
      simp only [Bool.not_true, Bool.false_eq_true, if_false, highest, List.filterMap_cons,
        List.filterMap_nil, Message.reported, if_true]
      split_ifs with hold
      · simpa using hold
      · simp only [hcommit, index_insert, Function.update_self]
        simpa using Nat.le_of_not_le hold
    | false =>
      simp only [Bool.not_false, if_true, highest, List.filterMap_cons, List.filterMap_nil,
        Message.reported, Bool.false_eq_true, if_false]
      simp
  | _ => cases hresp

end Leader

namespace RaftNode

/-- A node that still leads has made the leader's step. -/
theorem stepEvent_leader {l l' : Leader} {core : Core} {event : Event}
    (h : (stepEvent ⟨core, .leader l⟩ event).1.role = .leader l') :
    l' = (l.step core event).1 ∧
      (stepEvent ⟨core, .leader l⟩ event).1.core = (l.step core event).2.1 := by
  simp only [stepEvent, roleStep] at h ⊢
  obtain ⟨htr | ⟨leader, htr⟩, -⟩ := l.step_kept core event
  · simp only [htr, applyTransition] at h ⊢
    cases h
    exact ⟨rfl, trivial⟩
  · simp only [htr, applyTransition] at h
    cases h

/-- The node leads, and the message is a response of its term from the member `id`. -/
def hears (id : NodeId) (n : RaftNode) (msg : Message) : Bool :=
  n.isLeader && n.core.effectiveConfig.isMember id &&
    decide (msg.from = id ∧ msg.term = n.core.term) && msg.isResponse

/-- Deliver responses of `id` to a leader. -/
def hear (n : RaftNode) (id : NodeId) (msgs : List Message) : Option RaftNode :=
  runWhile (fun n msg => some (n.step msg).1) (hears id) n msgs

theorem hear_highest {id : NodeId} {msgs : List Message} : ∀ {n n' : RaftNode} {l l' : Leader},
    n.role = .leader l → id ≠ n.core.id → inOrder (l.matchIndex.index id) msgs = true →
    n.hear id msgs = some n' → n'.role = .leader l' →
    l'.matchIndex.index id = highest (l.matchIndex.index id) msgs := by
  induction msgs with
  | nil =>
    intro n n' l l' hl _ _ hrun hl'
    cases hrun
    rw [hl] at hl'
    cases hl'
    exact (highest_nil _).symm
  | cons msg msgs ih =>
    intro n n' l l' hl hid hord hrun hl'
    obtain ⟨hok, n₁, hstep, hrest⟩ := runWhile_cons.1 hrun
    cases hstep
    obtain ⟨core, role⟩ := n
    cases hl
    simp only [hears, Bool.and_eq_true, decide_eq_true_eq] at hok
    obtain ⟨⟨⟨-, hmember⟩, rfl, hterm⟩, hresp⟩ := hok
    -- The node leads after this response, also when it was the last one.
    obtain ⟨l₁, hl₁⟩ : ∃ l₁, (step ⟨core, .leader l⟩ msg).1.role = .leader l₁ := by
      cases msgs with
      | nil =>
        cases hrest
        exact ⟨l', hl'⟩
      | cons msg' msgs =>
        have hlead := (runWhile_cons.1 hrest).1
        simp only [hears, Bool.and_eq_true] at hlead
        exact isLeader_iff.1 hlead.1.1.1
    have hone : inOrder (l.matchIndex.index msg.from) [msg] = true ∧
        inOrder (highest (l.matchIndex.index msg.from) [msg]) msgs = true := by
      simp only [inOrder, Bool.and_eq_true] at hord ⊢
      exact ⟨⟨hord.1, trivial⟩, hord.2⟩
    have hmatch := l.step_response hid hterm hmember hresp hone.1
    rw [← (stepEvent_leader hl₁).1] at hmatch
    have hid₁ : msg.from ≠ (step ⟨core, .leader l⟩ msg).1.core.id := by
      rw [Core.id, step, stepEvent_config]
      exact hid
    have hend := ih hl₁ hid₁ (by rw [hmatch]; exact hone.2) hrest hl'
    rw [hend, hmatch, ← highest_append, List.singleton_append]

end RaftNode

/-- **Progress never regresses while the acknowledgements arrive in order.** Responses of one term
from one member reach a leader, in an order in which no success of an append request names less than
a response before it, or than the progress at the start. Then `match_index` of this node does not
decrease from one state to a later one, and the same responses in any other such order, with or
without duplicates, lead to the same value. -/
theorem progress_in_order {n : RaftNode} {l : Leader} (hl : n.role = .leader l) {id : NodeId}
    (hid : id ≠ n.core.id) {msgs : List Message}
    (hord : inOrder (l.matchIndex.index id) msgs = true) {n₂ : RaftNode} {l₂ : Leader}
    (hrun : n.hear id msgs = some n₂) (hl₂ : n₂.role = .leader l₂) :
    (∀ earlier n₁ l₁, earlier <+: msgs → n.hear id earlier = some n₁ → n₁.role = .leader l₁ →
        l₁.matchIndex.index id ≤ l₂.matchIndex.index id) ∧
      ∀ msgs' n' l', (∀ m, m ∈ msgs' ↔ m ∈ msgs) → inOrder (l.matchIndex.index id) msgs' = true →
        n.hear id msgs' = some n' → n'.role = .leader l' →
        l'.matchIndex.index id = l₂.matchIndex.index id := by
  have hend := RaftNode.hear_highest hl hid hord hrun hl₂
  refine ⟨fun earlier n₁ l₁ hpre hrun₁ hl₁ => ?_, fun msgs' n' l' hsame hord' hrun' hl' => ?_⟩
  · obtain ⟨later, rfl⟩ := hpre
    rw [hend, RaftNode.hear_highest hl hid (inOrder_append hord) hrun₁ hl₁, highest_append]
    exact le_highest _ _
  · rw [hend, RaftNode.hear_highest hl hid hord' hrun' hl', highest_congr _ hsame]

/-- What the leader knows of a node. -/
def RaftNode.progressOf (n : RaftNode) (id : NodeId) : Option ℕ :=
  match n.role with
  | .leader l => some (l.matchIndex.index id)
  | _ => none

/-- A refusal, two acknowledgements, one of them twice, and a snapshot response that is not new. -/
theorem progress_in_order_mixed :
    let core := Core.restore { Config.new 0 with parallelDiskWrite := false }
      { Core.initialPersistent [0, 1, 2] with
        term := 1, log := ⟨[⟨1, 1, .command [1]⟩, ⟨1, 2, .command [2]⟩], 0, 0, none⟩ }
    let n := (RaftNode.becomeLeader core Effects.none).1
    let one : Message := ⟨1, 0, 1, .appendResponse ⟨true, 1⟩⟩
    let two : Message := ⟨1, 0, 1, .appendResponse ⟨true, 2⟩⟩
    let refusal : Message := ⟨1, 0, 1, .appendResponse ⟨false, 0⟩⟩
    let snapshot : Message := ⟨1, 0, 1, .installSnapshotResponse ⟨true, 1⟩⟩
    ∃ n' l' n'' l'', n.hear 1 [refusal, one, two, two, snapshot] = some n' ∧ n'.role = .leader l' ∧
      n.hear 1 [snapshot, one, two, refusal] = some n'' ∧ n''.role = .leader l'' ∧
      l''.matchIndex.index 1 = l'.matchIndex.index 1 := by
  have hsame : ∀ a b c d m : Message, m ∈ [d, a, b, c] ↔ m ∈ [c, a, b, b, d] := by
    intro a b c d m
    simp only [List.mem_cons, List.not_mem_nil, or_false]
    tauto
  intro core n one two refusal snapshot
  have hrun : (n.hear 1 [refusal, one, two, two, snapshot]).any RaftNode.isLeader = true := by
    decide +kernel
  have hrun' : (n.hear 1 [snapshot, one, two, refusal]).any RaftNode.isLeader = true := by
    decide +kernel
  obtain ⟨n', hn', hlead'⟩ := (Option.any_eq_true _ _).1 hrun
  obtain ⟨n'', hn'', hlead''⟩ := (Option.any_eq_true _ _).1 hrun'
  obtain ⟨l', hl'⟩ := RaftNode.isLeader_iff.1 hlead'
  obtain ⟨l'', hl''⟩ := RaftNode.isLeader_iff.1 hlead''
  exact ⟨n', l', n'', l'', hn', hl', hn'', hl'',
    (progress_in_order rfl (by decide +kernel) (by decide +kernel) hn' hl').2 _ _ _
      (hsame one two refusal snapshot) (by decide +kernel) hn'' hl''⟩

/-- Node 0 leads and sends two commands to node 1 one after the other; node 1 acknowledges both. -/
def twoAcks : List Input :=
  electZero ++ [.propose 0 [1], .propose 0 [2],
    .deliver ⟨0, 1, 1, .appendRequest ⟨0, 0, [⟨1, 1, .command [1]⟩], 0⟩⟩,
    .deliver ⟨0, 1, 1, .appendRequest ⟨1, 1, [⟨1, 2, .command [2]⟩], 0⟩⟩]

/-- **A late acknowledgement takes the progress back**: in the order of sending `match_index` ends
at 2, in the other order it is 2 first and ends at 1. -/
theorem progress_regresses :
    let run := fun inputs => (trio.run (fun _ input => input.isBasic) (twoAcks ++ inputs)).map
      fun c => (c.nodes 0).progressOf 1
    let one := Input.deliver ⟨1, 0, 1, .appendResponse ⟨true, 1⟩⟩
    let two := Input.deliver ⟨1, 0, 1, .appendResponse ⟨true, 2⟩⟩
    run [one, two] = some (some 2) ∧ run [two] = some (some 2) ∧
      run [two, one] = some (some 1) := by
  decide +kernel

end Cloud9
