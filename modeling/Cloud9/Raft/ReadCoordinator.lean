import Cloud9.Lib.ListPrefix
import Cloud9.Lib.Run
import Cloud9.Raft.Event

/-!
# The read-index coordinator

`ReadIndexCoordinator` collects the reads that wait for a heartbeat round. A round is begun, the
acknowledgements of voters are recorded, and with a quorum of them all waiting reads are completed.

An acknowledgement does not say which round it answers, and a read takes the number of the round
that is going on when it is requested. So a read that comes in the middle of a round is completed by
it (`stale_read`). If no acknowledgement is recorded between a request and the next round, every
read that is returned was confirmed by a round of its own, provided that the node is itself a voter
(`reads_confirmed`). That a read is returned at most once, and with its own index, needs no
condition (`reads_once`).
-/

namespace Cloud9

/-- A read that waits for a heartbeat round. -/
structure PendingRead where
  id : ℕ
  readIndex : ℕ
  /-- The round the read waits for. -/
  round : ℕ

structure ReadIndexResult where
  id : ℕ
  readIndex : ℕ
  deriving DecidableEq

def PendingRead.result (p : PendingRead) : ReadIndexResult := ⟨p.id, p.readIndex⟩

structure ReadIndexCoordinator where
  voters : List NodeId
  me : NodeId
  nextReadId : ℕ
  currentRound : ℕ
  /-- Nodes that have acknowledged the current round. -/
  roundAcks : List NodeId
  /-- The waiting reads in the order of their ids. -/
  pending : List PendingRead
  completed : List ReadIndexResult

namespace ReadIndexCoordinator

def new (me : NodeId) (voters : List NodeId) : ReadIndexCoordinator where
  voters := voters
  me := me
  nextReadId := 0
  currentRound := 0
  roundAcks := []
  pending := []
  completed := []

/-- Ids are handed out in increasing order, so a new read comes last. -/
def requestRead (c : ReadIndexCoordinator) (readIndex : ℕ) : ReadIndexCoordinator × ℕ :=
  ({ c with
    nextReadId := c.nextReadId + 1
    pending := c.pending ++ [⟨c.nextReadId, readIndex, c.currentRound⟩] }, c.nextReadId)

/-- With a quorum of acknowledgements, complete the reads of this and of earlier rounds. -/
def checkQuorum (c : ReadIndexCoordinator) : ReadIndexCoordinator :=
  let quorum := c.voters.length / 2 + 1
  if c.roundAcks.length ≥ quorum then
    { c with
      pending := c.pending.filter fun p => !decide (p.round ≤ c.currentRound)
      completed := c.completed ++
        (c.pending.filter fun p => decide (p.round ≤ c.currentRound)).map PendingRead.result }
  else c

/-- The node itself counts as an acknowledgement, voter or not. -/
def beginHeartbeatRound (c : ReadIndexCoordinator) : ReadIndexCoordinator :=
  let round := c.currentRound + 1
  checkQuorum { c with
    currentRound := round
    roundAcks := [c.me]
    pending := c.pending.map fun p => { p with round := round } }

def recordAck (c : ReadIndexCoordinator) (sender : NodeId) : ReadIndexCoordinator :=
  if !c.roundAcks.contains sender && c.voters.contains sender then
    checkQuorum { c with roundAcks := c.roundAcks ++ [sender] }
  else c

/-- The next completed read, if there is one. -/
def pollCompleted (c : ReadIndexCoordinator) : ReadIndexCoordinator × Option ReadIndexResult :=
  match c.completed with
  | [] => (c, none)
  | r :: rest => ({ c with completed := rest }, some r)

/-- Drop all waiting reads, and say how many there were. -/
def clear (c : ReadIndexCoordinator) : ReadIndexCoordinator × ℕ :=
  ({ c with pending := [], roundAcks := [] }, c.pending.length)

end ReadIndexCoordinator

/-! ## Sessions -/

/-- A call to the coordinator. -/
inductive ReadCall where
  | requestRead (readIndex : ℕ)
  | beginHeartbeatRound
  | recordAck (sender : NodeId)
  | pollCompleted
  | clear

/-- What a call was, with its result. -/
inductive ReadEvent where
  | requested (id readIndex : ℕ)
  | round
  | acked (sender : NodeId)
  | returned (result : ReadIndexResult)
  | nothing
  | cleared (dropped : ℕ)
  deriving DecidableEq

namespace ReadIndexCoordinator

def step (c : ReadIndexCoordinator) : ReadCall → ReadIndexCoordinator × ReadEvent
  | .requestRead readIndex =>
    let (c, id) := c.requestRead readIndex
    (c, .requested id readIndex)
  | .beginHeartbeatRound => (c.beginHeartbeatRound, .round)
  | .recordAck sender => (c.recordAck sender, .acked sender)
  | .pollCompleted =>
    match c.pollCompleted with
    | (c, some r) => (c, .returned r)
    | (c, none) => (c, .nothing)
  | .clear =>
    let (c, dropped) := c.clear
    (c, .cleared dropped)

/-- Make calls to a coordinator, each allowed by what happened before, and note what happens. -/
def session (ok : List ReadEvent → ReadCall → Bool) (c : ReadIndexCoordinator)
    (calls : List ReadCall) : Option (ReadIndexCoordinator × List ReadEvent) :=
  runWhile (fun s call => some ((s.1.step call).1, s.2 ++ [(s.1.step call).2]))
    (fun s call => ok s.2 call) (c, []) calls

end ReadIndexCoordinator

/-- A read was requested, and since then neither was a round begun nor were the reads dropped. -/
def unannounced (past : List ReadEvent) : Bool :=
  past.foldl (fun b event => match event with
    | .requested .. => true
    | .round | .cleared _ => false
    | _ => b) false

/-- No acknowledgement is recorded between a request and the next round. -/
def acksFollowRounds (past : List ReadEvent) : ReadCall → Bool
  | .recordAck _ => !unannounced past
  | _ => true

/-- After its request a round was begun, and since then voters have acknowledged which make a
majority, the node itself included. -/
def ConfirmedRead (voters : List NodeId) (me : NodeId) (past : List ReadEvent)
    (r : ReadIndexResult) : Prop :=
  ∃ before after acks, past = before ++ .round :: after ∧
    .requested r.id r.readIndex ∈ before ∧ acks.Nodup ∧ acks ⊆ voters ∧
    (∀ v ∈ acks, v = me ∨ .acked v ∈ after) ∧ voters.length / 2 + 1 ≤ acks.length

/-- The read was not returned before, and this is the index it was requested with. -/
def ReturnedOnce (past : List ReadEvent) (r : ReadIndexResult) : Prop :=
  (∀ r', .returned r' ∈ past → r'.id ≠ r.id) ∧
    .requested r.id r.readIndex ∈ past ∧ ∀ k, .requested r.id k ∈ past → k = r.readIndex

/-! ## Each read once -/

/-- The reads that were returned. -/
def returnedOf (past : List ReadEvent) : List ReadIndexResult :=
  past.filterMap fun event => match event with
    | .returned r => some r
    | _ => none

theorem mem_returnedOf {past : List ReadEvent} {r : ReadIndexResult} :
    r ∈ returnedOf past ↔ .returned r ∈ past := by
  unfold returnedOf
  rw [List.mem_filterMap]
  constructor
  · rintro ⟨event, hmem, heq⟩
    cases event with
    | returned r' =>
      cases heq
      exact hmem
    | _ => cases heq
  · exact fun h => ⟨_, h, rfl⟩

namespace ReadIndexCoordinator

/-- All reads that are known: returned, completed, or waiting. -/
def known (c : ReadIndexCoordinator) (past : List ReadEvent) : List ReadIndexResult :=
  returnedOf past ++ c.completed ++ c.pending.map PendingRead.result

/-- The known reads were requested, each of them once. -/
structure Ledger (c : ReadIndexCoordinator) (past : List ReadEvent) : Prop where
  ids : ((c.known past).map ReadIndexResult.id).Nodup
  requested : ∀ r ∈ c.known past, .requested r.id r.readIndex ∈ past
  bound : ∀ id k, .requested id k ∈ past → id < c.nextReadId
  unique : ∀ id k k', .requested id k ∈ past → .requested id k' ∈ past → k = k'

theorem new_ledger (me : NodeId) (voters : List NodeId) : (new me voters).Ledger [] :=
  ⟨List.nodup_nil, nofun, nofun, nofun⟩

/-- Completing reads only moves them. -/
theorem known_checkQuorum (c : ReadIndexCoordinator) (past : List ReadEvent) :
    (c.checkQuorum.known past).Perm (c.known past) := by
  unfold checkQuorum
  dsimp only
  split_ifs
  · unfold known
    dsimp only
    rw [← List.append_assoc, List.append_assoc _ (List.map _ _), ← List.map_append]
    refine List.Perm.append_left _ (List.Perm.map _ ?_)
    exact List.filter_append_perm (fun p : PendingRead => decide (p.round ≤ c.currentRound)) _
  · exact .refl _

theorem checkQuorum_nextReadId (c : ReadIndexCoordinator) :
    c.checkQuorum.nextReadId = c.nextReadId := by
  unfold checkQuorum
  dsimp only
  split_ifs <;> rfl

/-- A call that requests nothing keeps the ledger, if it makes no new reads known. -/
theorem Ledger.quiet {c c' : ReadIndexCoordinator} {past : List ReadEvent} {event : ReadEvent}
    (h : c.Ledger past) (hevent : ∀ id k, event ≠ .requested id k)
    (hids : ((c'.known (past ++ [event])).map ReadIndexResult.id).Nodup)
    (hsub : c'.known (past ++ [event]) ⊆ c.known past) (hnext : c'.nextReadId = c.nextReadId) :
    c'.Ledger (past ++ [event]) := by
  have hold : ∀ id k, .requested id k ∈ past ++ [event] → .requested id k ∈ past := by
    intro id k hmem
    rcases List.mem_append.1 hmem with hmem | hmem
    · exact hmem
    · exact absurd (List.mem_singleton.1 hmem).symm (hevent id k)
  refine ⟨hids, fun r hr => List.mem_append_left _ (h.requested r (hsub hr)), ?_, ?_⟩
  · intro id k hmem
    rw [hnext]
    exact h.bound id k (hold id k hmem)
  · exact fun id k k' hk hk' => h.unique id k k' (hold id k hk) (hold id k' hk')

theorem Ledger.of_perm {c c' : ReadIndexCoordinator} {past : List ReadEvent} {event : ReadEvent}
    (h : c.Ledger past) (hevent : ∀ id k, event ≠ .requested id k)
    (hperm : (c'.known (past ++ [event])).Perm (c.known past))
    (hnext : c'.nextReadId = c.nextReadId) : c'.Ledger (past ++ [event]) :=
  h.quiet hevent ((hperm.map _).nodup_iff.2 h.ids) hperm.subset hnext

theorem known_concat (c : ReadIndexCoordinator) (past : List ReadEvent) (event : ReadEvent)
    (hevent : ∀ r, event ≠ .returned r) : c.known (past ++ [event]) = c.known past := by
  have hnone : returnedOf [event] = [] := by
    cases event with
    | returned r => exact absurd rfl (hevent r)
    | _ => rfl
  unfold known
  rw [returnedOf, List.filterMap_append, ← returnedOf, ← returnedOf, hnone, List.append_nil]

theorem Ledger.requestRead {c : ReadIndexCoordinator} {past : List ReadEvent}
    (h : c.Ledger past) (readIndex : ℕ) :
    (c.requestRead readIndex).1.Ledger (past ++ [.requested c.nextReadId readIndex]) := by
  have hknown : (c.requestRead readIndex).1.known (past ++ [.requested c.nextReadId readIndex]) =
      c.known past ++ [⟨c.nextReadId, readIndex⟩] := by
    rw [known_concat _ past (.requested _ _) nofun]
    simp only [ReadIndexCoordinator.requestRead, known, List.map_append, List.map_cons,
      List.map_nil, PendingRead.result, List.append_assoc]
  have hfresh : ∀ r ∈ c.known past, r.id < c.nextReadId :=
    fun r hr => h.bound r.id r.readIndex (h.requested r hr)
  have hcases : ∀ id k, .requested id k ∈ past ++ [.requested c.nextReadId readIndex] →
      .requested id k ∈ past ∧ id < c.nextReadId ∨ id = c.nextReadId ∧ k = readIndex := by
    intro id k hmem
    rcases List.mem_append.1 hmem with hmem | hmem
    · exact .inl ⟨hmem, h.bound id k hmem⟩
    · cases List.mem_singleton.1 hmem
      exact .inr ⟨rfl, rfl⟩
  refine ⟨?_, ?_, ?_, ?_⟩
  · rw [hknown, List.map_append, List.map_singleton, List.nodup_append]
    refine ⟨h.ids, List.nodup_singleton _, fun id hid id' hid' => ?_⟩
    obtain ⟨r, hr, rfl⟩ := List.mem_map.1 hid
    rw [List.mem_singleton.1 hid']
    exact Nat.ne_of_lt (hfresh r hr)
  · intro r hr
    rw [hknown] at hr
    rcases List.mem_append.1 hr with hr | hr
    · exact List.mem_append_left _ (h.requested r hr)
    · rw [List.mem_singleton.1 hr]
      exact List.mem_append_right _ List.mem_cons_self
  · intro id k hmem
    show id < c.nextReadId + 1
    rcases hcases id k hmem with ⟨-, hlt⟩ | ⟨rfl, -⟩ <;> omega
  · intro id k k' hk hk'
    rcases hcases id k hk with ⟨hk, hlt⟩ | ⟨rfl, rfl⟩ <;>
      rcases hcases _ k' hk' with ⟨hk', hlt'⟩ | ⟨heq, rfl⟩
    · exact h.unique id k k' hk hk'
    · omega
    · omega
    · rfl

theorem Ledger.beginHeartbeatRound {c : ReadIndexCoordinator} {past : List ReadEvent}
    (h : c.Ledger past) : c.beginHeartbeatRound.Ledger (past ++ [.round]) := by
  refine h.of_perm nofun ?_ (checkQuorum_nextReadId _)
  rw [known_concat _ past .round nofun]
  refine (known_checkQuorum _ past).trans (.of_eq ?_)
  simp only [known, List.map_map]
  rfl

theorem Ledger.recordAck {c : ReadIndexCoordinator} {past : List ReadEvent} (h : c.Ledger past)
    (sender : NodeId) : (c.recordAck sender).Ledger (past ++ [.acked sender]) := by
  unfold ReadIndexCoordinator.recordAck
  split_ifs
  · refine h.of_perm nofun ?_ (checkQuorum_nextReadId _)
    rw [known_concat _ past (.acked sender) nofun]
    exact known_checkQuorum _ past
  · exact h.of_perm nofun (.of_eq (known_concat c past (.acked sender) nofun)) rfl

theorem Ledger.clear {c : ReadIndexCoordinator} {past : List ReadEvent} (h : c.Ledger past) :
    c.clear.1.Ledger (past ++ [.cleared c.clear.2]) := by
  have hknown := known_concat c.clear.1 past (.cleared c.clear.2) nofun
  refine h.quiet nofun ?_ ?_ rfl <;> rw [hknown]
  · refine h.ids.sublist (List.Sublist.map _ ?_)
    exact List.Sublist.append_left (List.nil_sublist _) _
  · exact List.append_subset.2 ⟨List.subset_append_left _ _, List.nil_subset _⟩

/-- **One call**: the ledger is kept, and a read that is returned is returned for the first time. -/
theorem Ledger.step {c : ReadIndexCoordinator} {past : List ReadEvent} (h : c.Ledger past)
    (call : ReadCall) : (c.step call).1.Ledger (past ++ [(c.step call).2]) ∧
      ∀ r, (c.step call).2 = .returned r → ReturnedOnce past r := by
  cases call with
  | requestRead readIndex => exact ⟨h.requestRead readIndex, nofun⟩
  | beginHeartbeatRound => exact ⟨h.beginHeartbeatRound, nofun⟩
  | recordAck sender => exact ⟨h.recordAck sender, nofun⟩
  | clear => exact ⟨h.clear, nofun⟩
  | pollCompleted =>
    simp only [ReadIndexCoordinator.step, pollCompleted]
    cases hc : c.completed with
    | nil => exact ⟨h.of_perm nofun (.of_eq (known_concat c past .nothing nofun)) rfl, nofun⟩
    | cons r rest =>
      have hknown : c.known past =
          returnedOf past ++ (r :: rest) ++ c.pending.map PendingRead.result := by
        rw [known, hc]
      refine ⟨h.of_perm nofun (.of_eq ?_) rfl, fun r' heq => ?_⟩
      · rw [hknown, known, returnedOf, List.filterMap_append, ← returnedOf]
        simp only [List.filterMap_cons, List.filterMap_nil, List.append_assoc, List.cons_append,
          List.nil_append]
      · cases heq
        have hmem : r ∈ c.known past := by
          rw [hknown]
          simp
        have hids := h.ids
        rw [hknown, List.append_assoc, List.map_append, List.nodup_append] at hids
        refine ⟨fun r' hr' heq => ?_, h.requested r hmem,
          fun k hk => h.unique r.id k r.readIndex hk (h.requested r hmem)⟩
        exact hids.2.2 r'.id (List.mem_map_of_mem (mem_returnedOf.2 hr')) r.id (by simp) heq

end ReadIndexCoordinator

/-- **A read is returned at most once, and with its own index**, whatever the calls. -/
theorem reads_once (me : NodeId) (voters : List NodeId) {ok : List ReadEvent → ReadCall → Bool}
    {calls : List ReadCall} {c : ReadIndexCoordinator} {events : List ReadEvent}
    (hrun : (ReadIndexCoordinator.new me voters).session ok calls = some (c, events)) :
    c.Ledger events ∧
      events.Justified fun past event => ∀ r, event = .returned r → ReturnedOnce past r := by
  refine runWhile_invariant (I := fun s : ReadIndexCoordinator × List ReadEvent =>
    s.1.Ledger s.2 ∧ s.2.Justified fun past event => ∀ r, event = .returned r → ReturnedOnce past r)
    ?_ ⟨ReadIndexCoordinator.new_ledger me voters, .nil⟩ hrun
  intro s call s' h _ hstep
  cases hstep
  obtain ⟨hledger, honce⟩ := h.1.step call
  exact ⟨hledger, h.2.concat honce⟩

/-! ## Confirmed reads -/

theorem unannounced_concat (past : List ReadEvent) (event : ReadEvent) :
    unannounced (past ++ [event]) = match event with
      | .requested .. => true
      | .round | .cleared _ => false
      | _ => unannounced past := by
  rw [unannounced, List.foldl_append]
  rfl

theorem ConfirmedRead.concat {voters : List NodeId} {me : NodeId} {past : List ReadEvent}
    {r : ReadIndexResult} (h : ConfirmedRead voters me past r) (event : ReadEvent) :
    ConfirmedRead voters me (past ++ [event]) r := by
  obtain ⟨before, after, acks, rfl, hreq, hnodup, hsub, hacks, hcount⟩ := h
  exact ⟨before, after ++ [event], acks, by rw [List.append_assoc, List.cons_append], hreq, hnodup,
    hsub, fun v hv => (hacks v hv).imp_right (List.mem_append_left _), hcount⟩

namespace ReadIndexCoordinator

/-- The waiting reads were requested before a round, and the acknowledgements are from after it. -/
def Announced (c : ReadIndexCoordinator) (past : List ReadEvent) : Prop :=
  ∃ before after, past = before ++ .round :: after ∧
    (∀ p ∈ c.pending, .requested p.id p.readIndex ∈ before) ∧
    ∀ v ∈ c.roundAcks, v = c.me ∨ .acked v ∈ after

/-- The acknowledgements are of different voters, what is completed is confirmed, and what waits is
announced unless it was only just requested. -/
structure Confirms (voters : List NodeId) (me : NodeId) (c : ReadIndexCoordinator)
    (past : List ReadEvent) : Prop where
  voters_eq : c.voters = voters
  me_eq : c.me = me
  acks : c.roundAcks.Nodup
  acks_voters : c.roundAcks ⊆ voters
  completed : ∀ r ∈ c.completed, ConfirmedRead voters me past r
  pending : unannounced past = false → c.pending ≠ [] → c.Announced past

variable {voters : List NodeId} {me : NodeId} {c : ReadIndexCoordinator} {past : List ReadEvent}

theorem Announced.concat (h : c.Announced past) (event : ReadEvent) :
    c.Announced (past ++ [event]) := by
  obtain ⟨before, after, rfl, hreq, hacks⟩ := h
  exact ⟨before, after ++ [event], by rw [List.append_assoc, List.cons_append], hreq,
    fun v hv => (hacks v hv).imp_right (List.mem_append_left _)⟩

/-- The quorum test completes announced reads only. -/
theorem Confirms.checkQuorum (h : Confirms voters me c past)
    (hann : c.pending ≠ [] → c.Announced past) : Confirms voters me c.checkQuorum past := by
  unfold ReadIndexCoordinator.checkQuorum
  dsimp only
  split_ifs with hquorum
  · refine ⟨h.voters_eq, h.me_eq, h.acks, h.acks_voters, fun r hr => ?_, fun hun hne => ?_⟩
    · rcases List.mem_append.1 hr with hr | hr
      · exact h.completed r hr
      · obtain ⟨p, hp, rfl⟩ := List.mem_map.1 hr
        have hp := (List.mem_filter.1 hp).1
        obtain ⟨before, after, hpast, hreq, hacks⟩ := hann (List.ne_nil_of_mem hp)
        rw [h.voters_eq] at hquorum
        rw [h.me_eq] at hacks
        exact ⟨before, after, c.roundAcks, hpast, hreq p hp, h.acks, h.acks_voters, hacks, hquorum⟩
    · obtain ⟨p, hp⟩ := List.exists_mem_of_ne_nil _ hne
      obtain ⟨before, after, hpast, hreq, hacks⟩ :=
        hann (List.ne_nil_of_mem (List.mem_filter.1 hp).1)
      exact ⟨before, after, hpast, fun p hp => hreq p (List.mem_filter.1 hp).1, hacks⟩
  · exact h

/-- A call that leaves acknowledgements and waiting reads alone, except that reads may be
dropped. -/
theorem Confirms.quiet (h : Confirms voters me c past) {event : ReadEvent}
    (hun : unannounced (past ++ [event]) = unannounced past) :
    Confirms voters me c (past ++ [event]) where
  voters_eq := h.voters_eq
  me_eq := h.me_eq
  acks := h.acks
  acks_voters := h.acks_voters
  completed r hr := (h.completed r hr).concat event
  pending hfalse hne := (h.pending (hun.symm.trans hfalse) hne).concat event

theorem Confirms.beginHeartbeatRound (h : Confirms voters me c past) (hledger : c.Ledger past)
    (hme : me ∈ voters) : Confirms voters me c.beginHeartbeatRound (past ++ [.round]) := by
  have hann : Announced { c with
      currentRound := c.currentRound + 1
      roundAcks := [c.me]
      pending := c.pending.map fun p => { p with round := c.currentRound + 1 } }
      (past ++ [.round]) := by
    refine ⟨past, [], rfl, fun p hp => ?_, fun v hv => .inl (List.mem_singleton.1 hv)⟩
    obtain ⟨q, hq, rfl⟩ := List.mem_map.1 hp
    exact hledger.requested q.result (List.mem_append_right _ (List.mem_map.2 ⟨q, hq, rfl⟩))
  refine Confirms.checkQuorum ⟨h.voters_eq, h.me_eq, List.nodup_singleton _, ?_,
    fun r hr => (h.completed r hr).concat _, fun _ _ => hann⟩ fun _ => hann
  rw [h.me_eq]
  exact List.cons_subset.2 ⟨hme, List.nil_subset _⟩

theorem Confirms.recordAck (h : Confirms voters me c past) (hun : unannounced past = false)
    (sender : NodeId) : Confirms voters me (c.recordAck sender) (past ++ [.acked sender]) := by
  have hsame := unannounced_concat past (.acked sender)
  unfold ReadIndexCoordinator.recordAck
  split_ifs with hnew
  · simp only [Bool.and_eq_true, Bool.not_eq_true', List.contains_eq_mem, decide_eq_false_iff_not,
      decide_eq_true_eq] at hnew
    have hann : c.pending ≠ [] → Announced { c with roundAcks := c.roundAcks ++ [sender] }
        (past ++ [.acked sender]) := by
      intro hne
      obtain ⟨before, after, rfl, hreq, hacks⟩ := h.pending hun hne
      refine ⟨before, after ++ [.acked sender], by rw [List.append_assoc, List.cons_append], hreq,
        fun v hv => ?_⟩
      rcases List.mem_append.1 hv with hv | hv
      · exact (hacks v hv).imp_right (List.mem_append_left _)
      · rw [List.mem_singleton.1 hv]
        exact .inr (List.mem_append_right _ List.mem_cons_self)
    refine Confirms.checkQuorum ⟨h.voters_eq, h.me_eq, ?_, ?_,
      fun r hr => (h.completed r hr).concat _, fun _ => hann⟩ hann
    · exact List.nodup_append.2 ⟨h.acks, List.nodup_singleton _, fun v hv v' hv' heq =>
        hnew.1 (by rw [← List.mem_singleton.1 hv', ← heq]; exact hv)⟩
    · refine List.append_subset.2 ⟨h.acks_voters, List.cons_subset.2 ⟨?_, List.nil_subset _⟩⟩
      rw [← h.voters_eq]
      exact hnew.2
  · exact h.quiet hsame

/-- **One call**, if acknowledgements follow rounds: a read that is returned is confirmed. -/
theorem Confirms.step (h : Confirms voters me c past) (hledger : c.Ledger past)
    (hme : me ∈ voters) {call : ReadCall} (hok : acksFollowRounds past call = true) :
    Confirms voters me (c.step call).1 (past ++ [(c.step call).2]) ∧
      ∀ r, (c.step call).2 = .returned r → ConfirmedRead voters me past r := by
  cases call with
  | requestRead readIndex =>
    refine ⟨⟨h.voters_eq, h.me_eq, h.acks, h.acks_voters,
      fun r hr => (h.completed r hr).concat _, fun hun => ?_⟩, nofun⟩
    exact Bool.noConfusion ((unannounced_concat past (.requested _ _)).symm.trans hun)
  | beginHeartbeatRound => exact ⟨h.beginHeartbeatRound hledger hme, nofun⟩
  | recordAck sender => exact ⟨h.recordAck (by simpa [acksFollowRounds] using hok) sender, nofun⟩
  | pollCompleted =>
    simp only [ReadIndexCoordinator.step, pollCompleted]
    cases hc : c.completed with
    | nil => exact ⟨h.quiet (unannounced_concat past .nothing), nofun⟩
    | cons r rest =>
      have hq := h.quiet (unannounced_concat past (.returned r))
      have hmem : ∀ r' ∈ rest, r' ∈ c.completed := fun r' hr' => by
        rw [hc]
        exact List.mem_cons_of_mem r hr'
      refine ⟨⟨hq.voters_eq, hq.me_eq, hq.acks, hq.acks_voters,
        fun r' hr' => hq.completed r' (hmem r' hr'), hq.pending⟩, fun r' heq => ?_⟩
      cases heq
      exact h.completed r (by rw [hc]; exact List.mem_cons_self)
  | clear =>
    exact ⟨⟨h.voters_eq, h.me_eq, List.nodup_nil, List.nil_subset _,
      fun r hr => (h.completed r hr).concat _, fun _ hne => absurd rfl hne⟩, nofun⟩

end ReadIndexCoordinator

/-- **Reads are confirmed by a round of their own**, if the node is a voter and no acknowledgement
is recorded between a request and the next round. Whenever a read is returned, a round was begun
after its request, since when a majority of the voters has acknowledged, and the read is returned
for the first time and with the index it was requested with. -/
theorem reads_confirmed {me : NodeId} {voters : List NodeId} (hme : me ∈ voters)
    {calls : List ReadCall} {c : ReadIndexCoordinator} {events : List ReadEvent}
    (hrun : (ReadIndexCoordinator.new me voters).session acksFollowRounds calls =
      some (c, events)) :
    events.Justified fun past event => ∀ r, event = .returned r →
      ConfirmedRead voters me past r ∧ ReturnedOnce past r := by
  have hconfirms : ReadIndexCoordinator.Confirms voters me (.new me voters) [] :=
    ⟨rfl, rfl, List.nodup_nil, List.nil_subset _, nofun, fun _ hne => absurd rfl hne⟩
  have h := runWhile_invariant (I := fun s : ReadIndexCoordinator × List ReadEvent =>
    s.1.Ledger s.2 ∧ s.1.Confirms voters me s.2 ∧ s.2.Justified fun past event => ∀ r,
      event = .returned r → ConfirmedRead voters me past r ∧ ReturnedOnce past r)
    ?_ ⟨ReadIndexCoordinator.new_ledger me voters, hconfirms, .nil⟩ hrun
  · exact h.2.2
  · intro s call s' h hok hstep
    cases hstep
    obtain ⟨hledger', honce⟩ := h.1.step call
    obtain ⟨hconfirms', hconfirmed⟩ := h.2.1.step h.1 hme hok
    exact ⟨hledger', hconfirms', h.2.2.concat fun r heq => ⟨hconfirmed r heq, honce r heq⟩⟩

/-- Two reads, the second of which comes when the round of the first has its quorum. -/
theorem reads_confirmed_two :
    let calls := [.requestRead 5, .beginHeartbeatRound, .recordAck 1, .requestRead 7,
      .pollCompleted, .beginHeartbeatRound, .recordAck 2, .pollCompleted]
    ∃ c events, (ReadIndexCoordinator.new 0 [0, 1, 2]).session acksFollowRounds calls =
        some (c, events) ∧ .returned ⟨0, 5⟩ ∈ events ∧ .returned ⟨1, 7⟩ ∈ events ∧
      events.Justified fun past event => ∀ r, event = .returned r →
        ConfirmedRead [0, 1, 2] 0 past r ∧ ReturnedOnce past r := by
  intro calls
  have hrun : ((ReadIndexCoordinator.new 0 [0, 1, 2]).session acksFollowRounds calls).any
      (fun s => decide (.returned ⟨0, 5⟩ ∈ s.2 ∧ .returned ⟨1, 7⟩ ∈ s.2)) = true := by decide
  obtain ⟨⟨c, events⟩, hs, hmem⟩ := (Option.any_eq_true _ _).1 hrun
  obtain ⟨hfirst, hsecond⟩ := of_decide_eq_true hmem
  exact ⟨c, events, hs, hfirst, hsecond, reads_confirmed (by decide) hs⟩

/-- **A read is completed by a round that was begun before it**: requested in the middle of a round,
it is returned with the next acknowledgement, and no round was begun since. -/
theorem stale_read :
    let past : List ReadEvent := [.round, .requested 0 5, .acked 1]
    ((ReadIndexCoordinator.new 0 [0, 1, 2]).session (fun _ _ => true)
        [.beginHeartbeatRound, .requestRead 5, .recordAck 1, .pollCompleted]).map Prod.snd =
      some (past ++ [.returned ⟨0, 5⟩]) ∧ ¬ConfirmedRead [0, 1, 2] 0 past ⟨0, 5⟩ := by
  refine ⟨by decide, ?_⟩
  rintro ⟨before, after, acks, heq, hreq, -⟩
  cases before with
  | nil => cases hreq
  | cons event before =>
    have htail : .round ∈ [ReadEvent.requested 0 5, .acked 1] := by
      rw [(List.cons.inj heq).2]
      exact List.mem_append_right _ List.mem_cons_self
    exact absurd htail (by decide)

end Cloud9
