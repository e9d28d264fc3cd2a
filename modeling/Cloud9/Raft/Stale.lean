import Cloud9.Raft.Intact

/-!
# Messages of an older term

Each of the four roles has its own check for messages of an older term, before or after other early
returns. Pre-votes apart, such a message should be inert: the node stays as it is and at most
refuses (`RaftNode.Inert`).

Candidates and leaders do that. A pre-candidate does not look at the term of a message that is not
above its own, so an old `AppendRequest` makes it a follower and an old `TimeoutNow` starts an
election. A follower answers an old `ReadIndexRequest` as it answers one of its own term, and the
response has no field that says otherwise. These three are the only exceptions
(`stale_message_inert`).
-/

namespace Cloud9

namespace Payload

def isPreVote : Payload → Bool
  | .preVoteRequest _ | .preVoteResponse _ => true
  | _ => false

/-- What a pre-candidate acts on without looking at the term. -/
def isUnchecked : Payload → Bool
  | .appendRequest _ | .timeoutNow => true
  | _ => false

def isReadIndexRequest : Payload → Bool
  | .readIndexRequest _ => true
  | _ => false

/-- A rejection. A read-index response is none: it has no field to refuse with, and a leader that
waits for one counts it. -/
def isRefusal : Payload → Bool
  | .voteResponse resp => !resp.granted
  | .appendResponse resp => !resp.success
  | _ => false

end Payload

namespace RaftNode

def isPreCandidate (n : RaftNode) : Bool :=
  match n.role with
  | .preCandidate _ => true
  | _ => false

def isFollower (n : RaftNode) : Bool :=
  match n.role with
  | .follower _ => true
  | _ => false

/-- Nothing is asked of the environment but to send at most one refusal, of the node's term, to the
sender of the message. -/
structure Refuses (n : RaftNode) (msg : Message) (effects : Effects) : Prop where
  persist : effects.persist = false
  sendSnapshots : effects.sendSnapshots = []
  messages : effects.messages = [] ∨ ∃ payload : Payload, payload.isRefusal = true ∧
    effects.messages = [⟨n.id, msg.from, n.term, payload⟩]

/-- The message changes nothing: not the term, the vote, the log or the commit index, not the role
with its votes or its progress, not the leader. It is at most refused. -/
structure Inert (n : RaftNode) (msg : Message) : Prop where
  term : (n.step msg).1.term = n.term
  votedFor : (n.step msg).1.core.persistent.votedFor = n.core.persistent.votedFor
  log : (n.step msg).1.core.log = n.core.log
  commitIndex : (n.step msg).1.commitIndex = n.commitIndex
  role : (n.step msg).1.role = n.role
  leader : (n.step msg).1.leader = n.leader
  refuses : n.Refuses msg (n.step msg).2

/-- A node that stays as it is has to refuse. -/
theorem inert_iff_of_stay {n : RaftNode} {msg : Message} {effects : Effects}
    (h : n.roleStep (.message msg) = (n, .stay effects)) : n.Inert msg ↔ n.Refuses msg effects := by
  have hstep : n.step msg = (n, effects) := by
    simp only [step, stepEvent, h, StepResult.stay, applyTransition, Effects.merge_none]
  constructor
  · intro hinert
    have hrefuses := hinert.refuses
    rwa [hstep] at hrefuses
  · intro hrefuses
    refine ⟨?_, ?_, ?_, ?_, ?_, ?_, ?_⟩ <;> rw [hstep]
    exact hrefuses

theorem Inert.of_stay {n : RaftNode} {msg : Message} (effects : Effects)
    (h : n.roleStep (.message msg) = (n, .stay effects)) (hr : n.Refuses msg effects) :
    n.Inert msg := (inert_iff_of_stay h).2 hr

/-! ## The refusals of the roles -/

theorem Refuses.none {n : RaftNode} {msg : Message} : n.Refuses msg Effects.none :=
  ⟨rfl, rfl, .inl rfl⟩

theorem Refuses.answer {n : RaftNode} {msg : Message} {payload : Payload}
    (h : payload.isRefusal = true) :
    n.Refuses msg (Effects.none.withMessage (n.core.message msg.from payload)) :=
  ⟨rfl, rfl, .inr ⟨payload, h, rfl⟩⟩

theorem Refuses.denyVote {n : RaftNode} {msg : Message} (h : msg.payload.isPreVote = false) :
    n.Refuses msg (n.core.denyVote msg) := by
  unfold Core.denyVote
  split
  · next heq =>
    rw [heq] at h
    cases h
  · exact .answer rfl
  · exact .none

theorem Refuses.rejectStale {n : RaftNode} {msg : Message} :
    n.Refuses msg (n.core.rejectStale msg) := by
  unfold Core.rejectStale
  split
  · exact .answer rfl
  · exact .answer rfl
  · exact .none

/-- A follower refuses everything but a read-index request. -/
theorem refuses_follower_iff {n : RaftNode} {msg : Message} :
    n.Refuses msg (Follower.rejectStale n.core msg) ↔ msg.payload.isReadIndexRequest = false := by
  unfold Follower.rejectStale
  cases hp : msg.payload with
  | readIndexRequest req =>
    refine iff_of_false (fun h => ?_) fun h => by cases h
    rcases h.messages with hnone | ⟨payload, hrefusal, heq⟩
    · cases hnone
    · -- the one message is the answer to an accepted request
      obtain rfl : payload = .readIndexResponse ⟨req.id, req.readIndex⟩ :=
        (congrArg Message.payload (List.cons.inj heq).1).symm
      cases hrefusal
  | _ => exact iff_of_true .rejectStale rfl

/-! ## The roles -/

variable {n : RaftNode} {msg : Message}

theorem inert_follower_iff {f : Follower} (hrole : n.role = .follower f)
    (hterm : msg.term < n.term) (hvote : msg.payload.isPreVote = false) :
    n.Inert msg ↔ msg.payload.isReadIndexRequest = false := by
  obtain ⟨core, role⟩ := n
  cases hrole
  have hle : ¬msg.term > core.term := Nat.not_lt.2 (Nat.le_of_lt hterm)
  have hlt : msg.term < core.term := hterm
  cases hguard : (msg.payload.isVoteOrPreVoteRequest && f.recentlyHeardFromLeader core) with
  | true =>
    refine iff_of_true (.of_stay (core.denyVote msg) ?_ (.denyVote hvote)) ?_
    · simp only [roleStep, Follower.step, Follower.handleMessage, hguard, if_true,
        Follower.rejectDueToActiveLeader]
    · cases hp : msg.payload with
      | readIndexRequest req =>
        rw [hp] at hguard
        cases hguard
      | _ => rfl
  | false =>
    have hstep : roleStep ⟨core, .follower f⟩ (.message msg) =
        (⟨core, .follower f⟩, .stay (Follower.rejectStale core msg)) := by
      simp only [roleStep, Follower.step, Follower.handleMessage, hguard, Bool.false_eq_true,
        if_false]
      split
      · next heq =>
        rw [heq] at hvote
        cases hvote
      · simp only [Follower.adoptTerm, hle, if_false, hlt, if_true]
    rw [inert_iff_of_stay hstep]
    exact refuses_follower_iff (n := ⟨core, .follower f⟩)

theorem inert_candidate {c : Candidate} (hrole : n.role = .candidate c) (hterm : msg.term < n.term)
    (hvote : msg.payload.isPreVote = false) : n.Inert msg := by
  obtain ⟨core, role⟩ := n
  cases hrole
  have hle : ¬msg.term > core.term := Nat.not_lt.2 (Nat.le_of_lt hterm)
  have hlt : msg.term < core.term := hterm
  cases hguard : (msg.payload.isVoteOrPreVoteRequest && c.recentlyHeardFromLeader core) with
  | true =>
    refine .of_stay (core.denyVote msg) ?_ (.denyVote hvote)
    simp only [roleStep, Candidate.step, Candidate.handleMessage, hguard, if_true]
  | false =>
    refine .of_stay (core.rejectStale msg) ?_ .rejectStale
    simp only [roleStep, Candidate.step, Candidate.handleMessage, hguard, Bool.false_eq_true,
      if_false]
    split
    · next heq =>
      rw [heq] at hvote
      cases hvote
    · simp only [hle, if_false, hlt, if_true]

theorem inert_leader {l : Leader} (hrole : n.role = .leader l) (hterm : msg.term < n.term)
    (hvote : msg.payload.isPreVote = false) : n.Inert msg := by
  obtain ⟨core, role⟩ := n
  cases hrole
  have hle : ¬msg.term > core.term := Nat.not_lt.2 (Nat.le_of_lt hterm)
  have hlt : msg.term < core.term := hterm
  refine .of_stay (core.rejectStale msg) ?_ .rejectStale
  simp only [roleStep, Leader.step, Leader.handleMessage]
  split
  · next heq =>
    rw [heq] at hvote
    cases hvote
  · simp only [hle, if_false, hlt, if_true]

theorem not_inert_of_role (h : (n.step msg).1.isPreCandidate ≠ n.isPreCandidate) :
    ¬n.Inert msg := by
  intro hinert
  rw [isPreCandidate, hinert.role] at h
  exact h rfl

theorem not_preCandidate_becomeCandidate (core : Core) (effects : Effects) :
    (becomeCandidate core effects).1.isPreCandidate = false := by
  unfold becomeCandidate
  dsimp only
  split_ifs <;> rfl

theorem inert_preCandidate_iff {p : PreCandidate} (hrole : n.role = .preCandidate p)
    (hterm : msg.term < n.term) (hvote : msg.payload.isPreVote = false) :
    n.Inert msg ↔ msg.payload.isUnchecked = false := by
  obtain ⟨core, role⟩ := n
  cases hrole
  have hle : ¬msg.term > core.term := Nat.not_lt.2 (Nat.le_of_lt hterm)
  have hstep : msg.payload.isVoteOrPreVoteRequest = false →
      roleStep ⟨core, .preCandidate p⟩ (.message msg) =
        (⟨(p.dispatch core msg).2.1, .preCandidate (p.dispatch core msg).1⟩,
          (p.dispatch core msg).2.2) := by
    intro hnot
    simp only [roleStep, PreCandidate.step, PreCandidate.handleMessage, hnot, Bool.false_and,
      Bool.false_eq_true, if_false, hle]
  cases hp : msg.payload with
  | preVoteRequest req =>
    rw [hp] at hvote
    cases hvote
  | preVoteResponse resp =>
    rw [hp] at hvote
    cases hvote
  | voteRequest req =>
    refine iff_of_true ?_ rfl
    cases hguard : p.recentlyHeardFromLeader core with
    | true =>
      refine .of_stay (core.denyVote msg) ?_ (.denyVote hvote)
      simp only [roleStep, PreCandidate.step, PreCandidate.handleMessage, hp, hguard,
        Payload.isVoteOrPreVoteRequest, Bool.and_true, if_true]
    | false =>
      refine .of_stay (Effects.none.withMessage (core.message msg.from (.voteResponse ⟨false⟩))) ?_
        (.answer rfl)
      simp only [roleStep, PreCandidate.step, PreCandidate.handleMessage, hguard, Bool.and_false,
        Bool.false_eq_true, if_false, hle, PreCandidate.dispatch, hp,
        PreCandidate.handleVoteRequest]
  | appendRequest req =>
    refine iff_of_false (not_inert_of_role ?_) fun h => by cases h
    rw [hp] at hstep
    simp only [step, stepEvent, hstep rfl, PreCandidate.dispatch, hp,
      PreCandidate.handleAppendRequest, StepResult.toFollowerAfterContact, applyTransition]
    exact fun h => by cases h
  | timeoutNow =>
    refine iff_of_false (not_inert_of_role ?_) fun h => by cases h
    rw [hp] at hstep
    simp only [step, stepEvent, hstep rfl, PreCandidate.dispatch, hp, StepResult.toCandidate,
      applyTransition, not_preCandidate_becomeCandidate]
    exact fun h => by cases h
  | _ =>
    refine iff_of_true ?_ rfl
    rw [hp] at hstep
    refine .of_stay Effects.none ?_ .none
    rw [hstep rfl, PreCandidate.dispatch, hp]
    rfl

end RaftNode

/-- **When messages of an older term are inert.** For every node and every message of an older term
that is no pre-vote: it is inert iff it is no append request and no request to start an election
that meets a pre-candidate, and no read-index request that meets a follower. -/
theorem stale_message_inert (n : RaftNode) (msg : Message) (hterm : msg.term < n.term)
    (hvote : msg.payload.isPreVote = false) :
    n.Inert msg ↔ (n.isPreCandidate = false ∨ msg.payload.isUnchecked = false) ∧
      (n.isFollower = false ∨ msg.payload.isReadIndexRequest = false) := by
  cases hrole : n.role with
  | follower f =>
    rw [RaftNode.inert_follower_iff hrole hterm hvote, RaftNode.isPreCandidate,
      RaftNode.isFollower, hrole]
    simp
  | preCandidate p =>
    rw [RaftNode.inert_preCandidate_iff hrole hterm hvote, RaftNode.isPreCandidate,
      RaftNode.isFollower, hrole]
    simp
  | candidate c =>
    rw [RaftNode.isPreCandidate, RaftNode.isFollower, hrole]
    exact iff_of_true (RaftNode.inert_candidate hrole hterm hvote) ⟨.inl rfl, .inl rfl⟩
  | leader l =>
    rw [RaftNode.isPreCandidate, RaftNode.isFollower, hrole]
    exact iff_of_true (RaftNode.inert_leader hrole hterm hvote) ⟨.inl rfl, .inl rfl⟩

/-- A node that starts a pre-vote in term 1: it takes a heartbeat of term 1 and times out. -/
def preVoting : Option RaftNode :=
  (RaftNode.new { Config.new 0 with electionTimeout := ⟨1, 2, Nat.one_lt_two⟩ } [0, 1, 2]).runEvents
    (fun _ _ => true) [.message ⟨1, 0, 1, .appendRequest ⟨0, 0, [], 0⟩⟩, .tick]

/-- A pre-candidate of term 1 refuses a vote request of term 0. -/
theorem stale_message_inert_vote : ∃ n, preVoting = some n ∧ n.term = 1 ∧
    n.Inert ⟨2, 0, 0, .voteRequest ⟨0, 0⟩⟩ := by
  have hrun : preVoting.any (fun n => decide (n.term = 1)) = true := by decide +kernel
  obtain ⟨n, hn, hterm⟩ := (Option.any_eq_true _ _).1 hrun
  have hterm : n.term = 1 := of_decide_eq_true hterm
  refine ⟨n, hn, hterm, (stale_message_inert n _ ?_ rfl).2 ⟨.inr rfl, .inr rfl⟩⟩
  rw [hterm]
  exact Nat.one_pos

/-- A follower of node 1 in term 1. -/
def following : RaftNode :=
  ((RaftNode.new (Config.new 0) [0, 1, 2]).step ⟨1, 0, 1, .appendRequest ⟨0, 0, [], 0⟩⟩).1

/-- **Old messages are acted on.** A pre-candidate of term 1 starts the election of term 2 at a
`TimeoutNow` of term 0, and follows the sender of an `AppendRequest` of term 0. A follower of term 1
answers a `ReadIndexRequest` of term 0 with the very message that answers one of term 1. -/
theorem stale_message_acts : (∃ n, preVoting = some n ∧ n.term = 1 ∧
    (n.step ⟨2, 0, 0, .timeoutNow⟩).1.term = 2 ∧
    (n.step ⟨2, 0, 0, .timeoutNow⟩).1.core.persistent.votedFor ≠ n.core.persistent.votedFor ∧
    n.leader = none ∧ n.isPreCandidate = true ∧
    (n.step ⟨2, 0, 0, .appendRequest ⟨0, 0, [], 0⟩⟩).1.leader = some 2 ∧
    (n.step ⟨2, 0, 0, .appendRequest ⟨0, 0, [], 0⟩⟩).1.isPreCandidate = false) ∧
    following.term = 1 ∧ following.isFollower = true ∧
    (following.step ⟨1, 0, 0, .readIndexRequest ⟨1, 0⟩⟩).2.messages =
      [⟨0, 1, 1, .readIndexResponse ⟨1, 0⟩⟩] ∧
    (following.step ⟨1, 0, 1, .readIndexRequest ⟨1, 0⟩⟩).2.messages =
      [⟨0, 1, 1, .readIndexResponse ⟨1, 0⟩⟩] := by
  have hrun : preVoting.any (fun n => decide (n.term = 1 ∧
      (n.step ⟨2, 0, 0, .timeoutNow⟩).1.term = 2 ∧
      (n.step ⟨2, 0, 0, .timeoutNow⟩).1.core.persistent.votedFor ≠ n.core.persistent.votedFor ∧
      n.leader = none ∧ n.isPreCandidate = true ∧
      (n.step ⟨2, 0, 0, .appendRequest ⟨0, 0, [], 0⟩⟩).1.leader = some 2 ∧
      (n.step ⟨2, 0, 0, .appendRequest ⟨0, 0, [], 0⟩⟩).1.isPreCandidate = false)) = true := by
    decide +kernel
  obtain ⟨n, hn, hfacts⟩ := (Option.any_eq_true _ _).1 hrun
  refine ⟨⟨n, hn, of_decide_eq_true hfacts⟩, ?_⟩
  decide +kernel

end Cloud9
