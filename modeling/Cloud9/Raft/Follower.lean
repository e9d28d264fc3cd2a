import Cloud9.Raft.Core

/-!
# Follower role

`follower.rs`. A method that mutates the role and the core returns the new role, the new core
and its result. `Follower.step` is cut as the source's comments cut it: the guard against
disruptive elections and the pre-vote first, then the term update (`adoptTerm`), then the
handler of the message (`dispatch`).
-/

namespace Cloud9

structure Follower where
  /-- Known leader for this term. -/
  leader : Option NodeId
  electionDeadline : ℕ
  /-- Tick of the last contact with a leader. -/
  lastContactTick : Option ℕ

namespace Follower

def new (core : Core) (leader : Option NodeId) : Follower × Core :=
  let (timeout, core) := core.randomElectionTimeout
  (⟨leader, core.ticks + timeout, none⟩, core)

def afterLeaderContact (core : Core) (leader : Option NodeId) : Follower × Core :=
  let (follower, core) := new core leader
  ({ follower with lastContactTick := some core.ticks }, core)

def resetDeadline (f : Follower) (core : Core) : Follower × Core :=
  let (timeout, core) := core.randomElectionTimeout
  ({ f with electionDeadline := core.ticks + timeout }, core)

def recordContact (f : Follower) (core : Core) : Follower :=
  { f with lastContactTick := some core.ticks }

def recentlyHeardFromLeader (f : Follower) (core : Core) : Bool :=
  match f.leader, f.lastContactTick with
  | some _, some t => decide (core.ticks - t < core.config.electionTimeout.min)
  | _, _ => false

def handleTick (f : Follower) (core : Core) : Follower × Core × StepResult :=
  let core := { core with ticks := core.ticks + 1 }
  if core.ticks ≥ f.electionDeadline then
    if core.config.prevote then (f, core, .toPrecandidate Effects.none)
    else (f, core, .toCandidate Effects.none)
  else (f, core, .none)

def handleVoteRequest (f : Follower) (core : Core) (sender : NodeId) (req : VoteRequest) :
    Follower × Core × StepResult :=
  let dominated := core.logIsUpToDate req.lastLogTerm req.lastLogIndex
  let candidateIsVoter := core.effectiveConfig.isVoter sender
  let canVote := core.canVoteFor sender
  let granted := candidateIsVoter && canVote && dominated
  if granted then
    let (f, core) := f.resetDeadline (core.voteFor sender)
    (f, core, .stay (Effects.none.withPersist.withMessage
      (core.message sender (.voteResponse ⟨true⟩))))
  else
    (f, core, .stay (Effects.none.withMessage (core.message sender (.voteResponse ⟨false⟩))))

/-- One turn of the append loop: cut a conflicting suffix, append what is beyond the end. The
flag records whether anything was appended. -/
def appendEntry (acc : Log × Bool) (entry : Entry) : Log × Bool :=
  let existingTerm := acc.1.termAt entry.index
  let log := if existingTerm ≠ 0 ∧ existingTerm ≠ entry.term
    then acc.1.truncateAfter (entry.index - 1) else acc.1
  if entry.index > log.lastIndex then (log.append entry, true) else (log, acc.2)

def appendEntries (log : Log) (entries : List Entry) : Log × Bool :=
  entries.foldl appendEntry (log, false)

/-- The consistency check. -/
def prevMatches (core : Core) (req : AppendRequest) : Bool :=
  !(decide (req.prevLogIndex > 0) && decide (core.log.termAt req.prevLogIndex ≠ req.prevLogTerm))

/-- The core after the append loop and the commit update. -/
def acceptAppend (core : Core) (req : AppendRequest) : Core :=
  let core := core.setLog (appendEntries core.log req.entries).1
  if req.leaderCommit > core.commitIndex then
    core.setCommitIndex (min req.leaderCommit core.log.lastIndex)
  else core

def handleAppendRequest (f : Follower) (core : Core) (sender : NodeId) (req : AppendRequest) :
    Follower × Core × StepResult :=
  let f := { f with leader := some sender }.recordContact core
  let (f, core) := f.resetDeadline core
  if prevMatches core req then
    let persist := (appendEntries core.log req.entries).2
    let core := acceptAppend core req
    let effects := if persist then Effects.none.withPersist else Effects.none
    (f, core, .stay (effects.withMessage
      (core.message sender (.appendResponse ⟨true, core.log.lastIndex⟩))))
  else
    (f, core, .stay (Effects.none.withMessage
      (core.message sender (.appendResponse ⟨false, core.log.lastIndex⟩))))

def handleReadIndexRequest (f : Follower) (core : Core) (sender : NodeId)
    (req : ReadIndexRequest) : Follower × Core × StepResult :=
  let f := { f with leader := some sender }.recordContact core
  let (f, core) := f.resetDeadline core
  (f, core, .stay (Effects.none.withMessage
    (core.message sender (.readIndexResponse ⟨req.id, req.readIndex⟩))))

def handleInstallSnapshot (f : Follower) (core : Core) (sender : NodeId)
    (req : InstallSnapshotRequest) : Follower × Core × StepResult :=
  let f := { f with leader := some sender }.recordContact core
  let (f, core) := f.resetDeadline core
  let reject := StepResult.stay (Effects.none.withMessage
    (core.message sender (.installSnapshotResponse ⟨false, req.lastIncludedIndex⟩)))
  if req.lastIncludedIndex ≤ core.log.snapshotIndex then (f, core, reject)
  else if req.lastIncludedIndex < core.commitIndex
      ∧ !core.log.snapshotMatchesPrefix req.lastIncludedIndex req.lastIncludedTerm then
    (f, core, reject)
  else
    let core := core.setLog
      (core.log.installSnapshot req.lastIncludedIndex req.lastIncludedTerm req.configuration)
    let core := { core with
      commitIndex := max core.commitIndex req.lastIncludedIndex
      lastApplied := max core.lastApplied req.lastIncludedIndex }
    (f, core, .stay (Effects.none.withPersist.withMessage
      (core.message sender (.installSnapshotResponse ⟨true, req.lastIncludedIndex⟩))))

/-- As the other roles, but a stale read-index request is answered as if it were accepted. -/
def rejectStale (core : Core) (msg : Message) : Effects :=
  match msg.payload with
  | .readIndexRequest req => Effects.none.withMessage
      (core.message msg.from (.readIndexResponse ⟨req.id, req.readIndex⟩))
  | _ => core.rejectStale msg

def rejectDueToActiveLeader (core : Core) (msg : Message) : Effects := core.denyVote msg

def handlePrevoteRequest (core : Core) (sender : NodeId) (msgTerm : ℕ) (req : PreVoteRequest) :
    Effects := core.prevoteReply sender msgTerm req

/-- A higher term is adopted and the deadline reset; an append or read-index request also names
the leader. -/
def adoptTerm (f : Follower) (core : Core) (msg : Message) : Bool × Follower × Core :=
  if msg.term > core.term then
    let (updated, core) := core.maybeUpdateTerm msg.term
    let (f, core) := f.resetDeadline core
    match msg.payload with
    | .appendRequest _ | .readIndexRequest _ =>
      (updated, { f with leader := some msg.from }, core)
    | _ => (updated, f, core)
  else (false, f, core)

/-- The handler of a message of the current term. -/
def dispatch (f : Follower) (core : Core) (msg : Message) : Follower × Core × StepResult :=
  match msg.payload with
  | .voteRequest req => f.handleVoteRequest core msg.from req
  | .appendRequest req => f.handleAppendRequest core msg.from req
  | .readIndexRequest req => f.handleReadIndexRequest core msg.from req
  | .installSnapshotRequest req => f.handleInstallSnapshot core msg.from req
  | .timeoutNow => (f, core, .toCandidate Effects.none)
  | _ => (f, core, .none)

def handleMessage (f : Follower) (core : Core) (msg : Message) : Follower × Core × StepResult :=
  if msg.payload.isVoteOrPreVoteRequest && f.recentlyHeardFromLeader core then
    (f, core, .stay (rejectDueToActiveLeader core msg))
  else match msg.payload with
    | .preVoteRequest req => (f, core, .stay (handlePrevoteRequest core msg.from msg.term req))
    | _ =>
      let (termUpdated, f, core) := f.adoptTerm core msg
      if msg.term < core.term then (f, core, .stay (rejectStale core msg))
      else
        let (f, core, result) := f.dispatch core msg
        (f, core, ⟨result.transition,
          if termUpdated then result.effects.withPersist else result.effects⟩)

def step (f : Follower) (core : Core) (event : Event) : Follower × Core × StepResult :=
  match event with
  | .tick => f.handleTick core
  | .diskWriteComplete _ => (f, core, .none)
  | .message msg => f.handleMessage core msg

end Follower

end Cloud9
