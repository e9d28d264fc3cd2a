import Cloud9.Raft.Core

/-!
# Candidate roles

`precandidate.rs` and `candidate.rs`: the pre-vote round, which leaves the term alone, and the
election proper.
-/

namespace Cloud9

structure PreCandidate where
  /-- Peers that granted their pre-vote, the node itself included. -/
  preVotes : OrdSet NodeId
  electionDeadline : ℕ
  lastContactTick : ℕ

namespace PreCandidate

/-- Start a pre-election: the term stays, peers are asked for the next one. -/
def new (core : Core) : PreCandidate × Core × Effects :=
  let (timeout, core) := core.randomElectionTimeout
  let precandidate : PreCandidate :=
    { preVotes := if core.isVoter then OrdSet.empty.insert core.id else OrdSet.empty
      electionDeadline := core.ticks + timeout
      lastContactTick := core.ticks - core.config.electionTimeout.min }
  let config := core.effectiveConfig
  if config.voterCount = 1 ∧ config.isVoter core.id then (precandidate, core, Effects.none)
  else
    let req : PreVoteRequest := ⟨core.term + 1, core.log.lastIndex, core.log.lastTerm⟩
    let messages := (config.voterPeers core.id).map fun peer =>
      core.message peer (.preVoteRequest req)
    (precandidate, core, Effects.none.withMessages messages)

def hasQuorum (p : PreCandidate) (core : Core) : Bool :=
  core.effectiveConfig.hasQuorum p.preVotes.contains

def recentlyHeardFromLeader (p : PreCandidate) (core : Core) : Bool :=
  decide (core.ticks - p.lastContactTick < core.config.electionTimeout.min)

def handleTick (p : PreCandidate) (core : Core) : PreCandidate × Core × StepResult :=
  let core := { core with ticks := core.ticks + 1 }
  if p.recentlyHeardFromLeader core then
    let (timeout, core) := core.randomElectionTimeout
    ({ p with electionDeadline := core.ticks + timeout }, core, .none)
  else if core.ticks ≥ p.electionDeadline then (p, core, .toPrecandidate Effects.none)
  else (p, core, .none)

def handlePrevoteResponse (p : PreCandidate) (core : Core) (sender : NodeId)
    (resp : PreVoteResponse) : PreCandidate × Core × StepResult :=
  if resp.term > core.term then
    (p, (core.maybeUpdateTerm resp.term).2, .toFollower none Effects.none.withPersist)
  else if resp.term < core.term then (p, core, .none)
  else if !resp.granted then (p, core, .none)
  else
    let p := { p with preVotes := p.preVotes.insert sender }
    if p.hasQuorum core then (p, core, .toCandidate Effects.none) else (p, core, .none)

def handleAppendRequest (p : PreCandidate) (core : Core) (sender : NodeId) :
    PreCandidate × Core × StepResult :=
  ({ p with lastContactTick := core.ticks }, core,
    .toFollowerAfterContact (some sender) Effects.none)

def handlePrevoteRequest (core : Core) (sender : NodeId) (msgTerm : ℕ) (req : PreVoteRequest) :
    StepResult := .stay (core.prevoteReply sender msgTerm req)

def handleVoteRequest (core : Core) (sender : NodeId) : StepResult :=
  .stay (Effects.none.withMessage (core.message sender (.voteResponse ⟨false⟩)))

/-- Messages of an older term are not filtered out here. -/
def dispatch (p : PreCandidate) (core : Core) (msg : Message) : PreCandidate × Core × StepResult :=
  match msg.payload with
  | .preVoteResponse resp => p.handlePrevoteResponse core msg.from resp
  | .appendRequest _ => p.handleAppendRequest core msg.from
  | .preVoteRequest req => (p, core, handlePrevoteRequest core msg.from msg.term req)
  | .voteRequest _ => (p, core, handleVoteRequest core msg.from)
  | .timeoutNow => (p, core, .toCandidate Effects.none)
  | _ => (p, core, .none)

def handleMessage (p : PreCandidate) (core : Core) (msg : Message) :
    PreCandidate × Core × StepResult :=
  if msg.payload.isVoteOrPreVoteRequest && p.recentlyHeardFromLeader core then
    (p, core, .stay (core.denyVote msg))
  else if msg.term > core.term then
    let leader := if msg.payload.isAppendRequest then some msg.from else none
    (p, (core.maybeUpdateTerm msg.term).2, .toFollower leader Effects.none.withPersist)
  else p.dispatch core msg

def step (p : PreCandidate) (core : Core) (event : Event) : PreCandidate × Core × StepResult :=
  match event with
  | .tick => p.handleTick core
  | .diskWriteComplete _ => (p, core, .none)
  | .message msg => p.handleMessage core msg

end PreCandidate

structure Candidate where
  /-- Peers that granted their vote, the node itself included. -/
  votes : OrdSet NodeId
  electionDeadline : ℕ
  lastContactTick : ℕ

namespace Candidate

/-- Start an election: next term, own vote if the node is a voter, requests to the voters. -/
def new (core : Core) : Candidate × Core × Effects :=
  let core := core.startElection
  let (timeout, core) := core.randomElectionTimeout
  let candidate : Candidate :=
    { votes := if core.isVoter then OrdSet.empty.insert core.id else OrdSet.empty
      electionDeadline := core.ticks + timeout
      lastContactTick := core.ticks - core.config.electionTimeout.min }
  let config := core.effectiveConfig
  if config.voterCount = 1 ∧ config.isVoter core.id then
    (candidate, core, Effects.none.withPersist)
  else
    let req : VoteRequest := ⟨core.log.lastIndex, core.log.lastTerm⟩
    let messages := (config.voterPeers core.id).map fun peer => core.message peer (.voteRequest req)
    (candidate, core, Effects.none.withPersist.withMessages messages)

def hasQuorum (c : Candidate) (core : Core) : Bool :=
  core.effectiveConfig.hasQuorum c.votes.contains

def recentlyHeardFromLeader (c : Candidate) (core : Core) : Bool :=
  decide (core.ticks - c.lastContactTick < core.config.electionTimeout.min)

def handleTick (c : Candidate) (core : Core) : Candidate × Core × StepResult :=
  let core := { core with ticks := core.ticks + 1 }
  if c.recentlyHeardFromLeader core then
    let (timeout, core) := core.randomElectionTimeout
    ({ c with electionDeadline := core.ticks + timeout }, core, .none)
  else if core.ticks ≥ c.electionDeadline then (c, core, .toCandidate Effects.none)
  else (c, core, .none)

def handleVoteResponse (c : Candidate) (core : Core) (sender : NodeId) (resp : VoteResponse) :
    Candidate × Core × StepResult :=
  if !resp.granted then (c, core, .none)
  else
    let c := { c with votes := c.votes.insert sender }
    if c.hasQuorum core then (c, core, .toLeader Effects.none) else (c, core, .none)

def handleAppendRequest (c : Candidate) (core : Core) (sender : NodeId) :
    Candidate × Core × StepResult :=
  ({ c with lastContactTick := core.ticks }, core,
    .toFollowerAfterContact (some sender) Effects.none)

def handleVoteRequest (core : Core) (sender : NodeId) : StepResult :=
  .stay (Effects.none.withMessage (core.message sender (.voteResponse ⟨false⟩)))

def handlePrevoteRequest (core : Core) (sender : NodeId) (msgTerm : ℕ) (req : PreVoteRequest) :
    Effects := core.prevoteReply sender msgTerm req

def dispatch (c : Candidate) (core : Core) (msg : Message) : Candidate × Core × StepResult :=
  match msg.payload with
  | .voteResponse resp => c.handleVoteResponse core msg.from resp
  | .appendRequest _ => c.handleAppendRequest core msg.from
  | .voteRequest _ => (c, core, handleVoteRequest core msg.from)
  | .timeoutNow => (c, core, .toCandidate Effects.none)
  | _ => (c, core, .none)

def handleMessage (c : Candidate) (core : Core) (msg : Message) : Candidate × Core × StepResult :=
  if msg.payload.isVoteOrPreVoteRequest && c.recentlyHeardFromLeader core then
    (c, core, .stay (core.denyVote msg))
  else match msg.payload with
    | .preVoteRequest req => (c, core, .stay (handlePrevoteRequest core msg.from msg.term req))
    | _ =>
      if msg.term > core.term then
        let leader := if msg.payload.isAppendRequest then some msg.from else none
        (c, (core.maybeUpdateTerm msg.term).2, .toFollower leader Effects.none.withPersist)
      else if msg.term < core.term then (c, core, .stay (core.rejectStale msg))
      else c.dispatch core msg

def step (c : Candidate) (core : Core) (event : Event) : Candidate × Core × StepResult :=
  match event with
  | .tick => c.handleTick core
  | .diskWriteComplete _ => (c, core, .none)
  | .message msg => c.handleMessage core msg

end Candidate

end Cloud9
