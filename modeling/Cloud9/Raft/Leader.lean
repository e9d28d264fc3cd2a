import Mathlib.Logic.Function.Basic
import Cloud9.Raft.Core

/-!
# Leader role

`leader.rs`: replication, commitment, configuration changes, leadership transfer and read-index
rounds. A `BTreeMap<NodeId, LogIndex>` is a partial function.

The loop of `maybe_commit` runs on fuel. A turn that continues leaves one joint entry fewer above
the commit index, so the length of the log is enough.
-/

namespace Cloud9

abbrev IndexMap := NodeId → Option ℕ

namespace IndexMap

def empty : IndexMap := fun _ => none

def insert (m : IndexMap) (id : NodeId) (v : ℕ) : IndexMap := Function.update m id (some v)

/-- `entry(id).or_insert(v)`. -/
def orInsert (m : IndexMap) (id : NodeId) (v : ℕ) : IndexMap :=
  if (m id).isNone then m.insert id v else m

/-- `get(id).copied().unwrap_or(0)`. -/
def index (m : IndexMap) (id : NodeId) : ℕ := (m id).getD 0

end IndexMap

inductive ReadIndexError where
  | notLeader (leaderHint : Option NodeId)
  | currentTermNotCommitted
  | readInProgress (readIndex : ℕ)
  deriving DecidableEq

inductive TransferError where
  | notLeader
  | targetNotVoter
  | targetLagging (matchIndex lastIndex : ℕ)
  | targetIsSelf
  deriving DecidableEq

structure PendingReadIndex where
  id : ℕ
  readIndex : ℕ
  configuration : Configuration
  acks : OrdSet NodeId

structure Leader where
  /-- Next log index to send to each peer. -/
  nextIndex : IndexMap
  /-- Highest log index known to be replicated on each peer. -/
  matchIndex : IndexMap
  heartbeatDeadline : ℕ
  sentIndex : IndexMap
  nextReadId : ℕ
  pendingReadIndex : Option PendingReadIndex
  /-- Highest read index confirmed by a quorum. -/
  confirmedReadIndex : ℕ

namespace Leader

/-! ## Sending -/

def sendAppendTo (l : Leader) (core : Core) (peer : NodeId) : Leader × Effects :=
  let next := (l.nextIndex peer).getD 1
  let snapshotIndex := core.log.snapshotIndex
  if next ≤ snapshotIndex then
    (l, Effects.none.withSendSnapshot
      ⟨peer, snapshotIndex, core.log.snapshotTerm, core.configAt snapshotIndex⟩)
  else
    let prevIndex := next - 1
    let prevTerm := if prevIndex ≤ snapshotIndex ∧ prevIndex > 0 then core.log.snapshotTerm
      else core.log.termAt prevIndex
    let stop := min (next + core.config.maxEntriesPerMsg) (core.log.lastIndex + 1)
    let entries := core.log.slice next stop
    let sentUpTo := (entries.getLast?.map fun e => e.index + 1).getD next
    let l := if core.config.pipelining && decide (sentUpTo > next)
      then { l with nextIndex := l.nextIndex.insert peer sentUpTo } else l
    (l, Effects.none.withMessage (core.message peer
      (.appendRequest ⟨prevIndex, prevTerm, entries, core.commitIndex⟩)))

def broadcastAppend (l : Leader) (core : Core) : Leader × Effects :=
  (core.effectiveConfig.replicationPeers core.id).foldl
    (fun (l, eff) peer =>
      let (l, e) := l.sendAppendTo core peer
      (l, eff.merge e))
    (l, Effects.none)

/-- The progress a new leader starts from: sending resumes at the end of its log. -/
def initial (core : Core) : Leader :=
  let lastIndex := core.log.lastIndex
  let nodes := core.effectiveConfig.allNodes
  let matchIndex := nodes.foldl (fun m id => m.insert id 0) IndexMap.empty
  { nextIndex := nodes.foldl (fun m id => m.insert id (lastIndex + 1)) IndexMap.empty
    matchIndex := if core.config.parallelDiskWrite then matchIndex
      else matchIndex.insert core.id lastIndex
    heartbeatDeadline := core.ticks + core.config.heartbeatInterval
    sentIndex := nodes.foldl (fun m id => m.insert id 0) IndexMap.empty
    nextReadId := 1
    pendingReadIndex := none
    confirmedReadIndex := 0 }

/-- A new leader sends its first heartbeats at once. -/
def new (core : Core) : Leader × Effects := (initial core).broadcastAppend core

/-- Progress entries for nodes that have none yet. -/
def reinitProgress (l : Leader) (core : Core) : Leader :=
  let lastIndex := core.log.lastIndex
  let nodes := core.effectiveConfig.allNodes
  let matchIndex := nodes.foldl (fun m id => m.orInsert id 0) l.matchIndex
  { l with
    nextIndex := nodes.foldl (fun m id => m.orInsert id (lastIndex + 1)) l.nextIndex
    matchIndex := if core.config.parallelDiskWrite then matchIndex
      else matchIndex.insert core.id lastIndex
    sentIndex := nodes.foldl (fun m id => m.orInsert id 0) l.sentIndex }

/-! ## Committing -/

/-- What the quorum test of `advance_commit_index` asks of one index. -/
def committable (l : Leader) (core : Core) (candidate : ℕ) : Bool :=
  decide (core.log.termAt candidate = core.term)
    && core.effectiveConfig.hasQuorum fun voter => decide (l.matchIndex.index voter ≥ candidate)

/-- The indices above the commit index, highest first. -/
def commitCandidates (core : Core) : List ℕ :=
  (List.range' (core.commitIndex + 1) (core.log.lastIndex - core.commitIndex)).reverse

/-- The commit index moves to the highest entry of the current term that has a quorum. -/
def advanceCommitIndex (l : Leader) (core : Core) : Core :=
  match (commitCandidates core).find? (l.committable core) with
  | some candidate => core.setCommitIndex candidate
  | none => core

/-- Result of processing committed configuration entries. -/
inductive ConfigCommitResult where
  | continue (effects : Effects)
  | stepDown (effects : Effects)
  | done

/-- The scan of `try_auto_transfer`: the first caught-up voter, else the best one so far. -/
def bestTarget (l : Leader) (core : Core) (best : Option (NodeId × ℕ)) :
    List NodeId → Option (NodeId × ℕ)
  | [] => best
  | voter :: rest =>
    if voter = core.id then bestTarget l core best rest
    else
      let matchIdx := l.matchIndex.index voter
      if matchIdx ≥ core.log.lastIndex then some (voter, matchIdx)
      else match best with
        | none => bestTarget l core (some (voter, matchIdx)) rest
        | some (_, bestIdx) =>
          if matchIdx > bestIdx then bestTarget l core (some (voter, matchIdx)) rest
          else bestTarget l core best rest

def tryAutoTransfer (l : Leader) (core : Core) (newConfig : Configuration) : Effects :=
  match l.bestTarget core none newConfig.voters with
  | some (target, matchIdx) =>
    if matchIdx ≥ core.log.lastIndex then
      Effects.none.withMessage (core.message target .timeoutNow)
    else Effects.none
  | none => Effects.none

/-- An entry of the current term at the end of the log. -/
def appendEntry (core : Core) (payload : EntryPayload) : Core :=
  core.setLog (core.log.append ⟨core.term, core.log.lastIndex + 1, payload⟩)

def appendTransitionTarget (l : Leader) (core : Core) (target : Configuration) :
    Leader × Core × Effects :=
  let core := appendEntry core (.config target)
  let l := l.reinitProgress core
  let (l, effects) := l.broadcastAppend core
  (l, core, effects.withPersist)

/-- The loop of `process_committed_configs` over the newly committed indices. -/
def processConfigs (l : Leader) (core : Core) : List ℕ → Leader × Core × ConfigCommitResult
  | [] => (l, core, .done)
  | idx :: rest =>
    match (core.log.get idx).bind fun e => e.payload.asConfig with
    | none => processConfigs l core rest
    | some cfg =>
      if !cfg.isVoter core.id then (l, core, .stepDown (l.tryAutoTransfer core cfg))
      else match cfg.transitionTarget with
        | some target =>
          let (l, core, effects) := l.appendTransitionTarget core target
          (l, core, .continue effects)
        | none => processConfigs l core rest

def processCommittedConfigs (l : Leader) (core : Core) (oldCommit : ℕ) :
    Leader × Core × ConfigCommitResult :=
  l.processConfigs core (List.range' (oldCommit + 1) (core.commitIndex - oldCommit))

def maybeCommitLoop : ℕ → Leader → Core → Effects → Leader × Core × Effects × Bool
  | 0, l, core, effects => (l, core, effects, false)
  | fuel + 1, l, core, effects =>
    let oldCommit := core.commitIndex
    let core := l.advanceCommitIndex core
    if core.commitIndex = oldCommit then (l, core, effects, false)
    else match l.processCommittedConfigs core oldCommit with
      | (l, core, .continue e) => maybeCommitLoop fuel l core (effects.merge e)
      | (l, core, .stepDown e) => (l, core, effects.merge e, true)
      | (l, core, .done) => (l, core, effects, false)

/-- Advance the commit index and react to the configurations it passes. The flag says that the
leader must step down. -/
def maybeCommit (l : Leader) (core : Core) : Leader × Core × Effects × Bool :=
  maybeCommitLoop (core.log.entries.length + 1) l core Effects.none

/-! ## Proposals, transfer and reads -/

/-- Own progress follows the log at once only without parallel disk writes. -/
def recordOwnMatch (l : Leader) (core : Core) (index : ℕ) : Leader :=
  if core.config.parallelDiskWrite then l
  else { l with matchIndex := l.matchIndex.insert core.id index }

def propose (l : Leader) (core : Core) (cmd : Command) : Leader × Core × ℕ × Effects × Bool :=
  let index := core.log.lastIndex + 1
  let core := appendEntry core (.command cmd)
  let l := l.recordOwnMatch core index
  let (l, core, commitEffects, shouldStepDown) := l.maybeCommit core
  let (l, effects) := l.broadcastAppend core
  (l, core, index, effects.withPersist.merge commitEffects, shouldStepDown)

/-- A learner that is promoted has to hold the whole log. -/
def checkCaughtUp (l : Leader) (core : Core) (current : Configuration) (change : ConfigChange) :
    Except ConfigChangeError Unit :=
  match change with
  | .addVoter id =>
    if current.isLearner id then
      let progressed := l.matchIndex.index id
      let need := core.log.lastIndex
      if progressed < need then .error (.learnerNotCaughtUp id progressed need) else .ok ()
    else .error (.promoteRequiresLearner id)
  | _ => .ok ()

/-- The checks of `propose_config_change`, in the order of the source. -/
def checkConfigChange (l : Leader) (core : Core) (change : ConfigChange) :
    Except ConfigChangeError Unit := do
  change.validate core.effectiveConfig core.config.membershipMode
  l.checkCaughtUp core core.effectiveConfig change
  if core.hasPendingConfig then .error .changeInProgress

def proposeConfigChange (l : Leader) (core : Core) (change : ConfigChange) :
    Except ConfigChangeError (Leader × Core × ℕ × Effects × Bool) := do
  l.checkConfigChange core change
  let newConfig := change.apply core.effectiveConfig core.config.membershipMode
  let index := core.log.lastIndex + 1
  let core := appendEntry core (.config newConfig)
  let l := (l.recordOwnMatch core index).reinitProgress core
  let (l, core, commitEffects, shouldStepDown) := l.maybeCommit core
  let (l, effects) := l.broadcastAppend core
  return (l, core, index, effects.withPersist.merge commitEffects, shouldStepDown)

def transferLeadership (l : Leader) (core : Core) (target : NodeId) :
    Except TransferError Effects :=
  if target = core.id then .error .targetIsSelf
  else if !core.effectiveConfig.isVoter target then .error .targetNotVoter
  else
    let lastIndex := core.log.lastIndex
    let matchIndex := l.matchIndex.index target
    if matchIndex < lastIndex then .error (.targetLagging matchIndex lastIndex)
    else .ok (Effects.none.withMessage (core.message target .timeoutNow))

/-- The scan of `current_term_commit_index`, downwards from an index. -/
def currentTermIndexFrom (core : Core) : ℕ → Option ℕ
  | 0 => none
  | idx + 1 =>
    if core.log.termAt (idx + 1) = core.term then some (idx + 1)
    else if core.log.termAt (idx + 1) < core.term then none
    else currentTermIndexFrom core idx

def currentTermCommitIndex (core : Core) : Option ℕ := currentTermIndexFrom core core.commitIndex

def readIndexReady (l : Leader) (core : Core) (readIndex : ℕ) : Bool :=
  decide (l.confirmedReadIndex ≥ readIndex) && decide (core.lastApplied ≥ readIndex)

def readIndexRequests (core : Core) (pending : PendingReadIndex) : Effects :=
  Effects.none.withMessages ((pending.configuration.voterPeers core.id).map fun peer =>
    core.message peer (.readIndexRequest ⟨pending.id, pending.readIndex⟩))

def requestReadIndex (l : Leader) (core : Core) :
    Leader × Except ReadIndexError (ℕ × Effects) :=
  match l.pendingReadIndex with
  | some pending => (l, .error (.readInProgress pending.readIndex))
  | none =>
    if (currentTermCommitIndex core).isNone then (l, .error .currentTermNotCommitted)
    else
      let readIndex := core.commitIndex
      let pending : PendingReadIndex :=
        { id := l.nextReadId
          readIndex := readIndex
          configuration := core.effectiveConfig
          acks := OrdSet.empty.insert core.id }
      let l := { l with nextReadId := l.nextReadId + 1 }
      if pending.configuration.hasQuorum pending.acks.contains then
        ({ l with confirmedReadIndex := max l.confirmedReadIndex readIndex },
          .ok (readIndex, Effects.none))
      else
        ({ l with pendingReadIndex := some pending },
          .ok (readIndex, readIndexRequests core pending))

/-! ## Events -/

/-- The tail of the handlers that commit: step down when the commit says so. -/
def afterCommit (r : Leader × Core × Effects × Bool) : Leader × Core × StepResult :=
  let (l, core, effects, shouldStepDown) := r
  (l, core, if shouldStepDown then .toFollower none effects else .stay effects)

def handleDiskWriteComplete (l : Leader) (core : Core) (index : ℕ) : Leader × Core × StepResult :=
  if index > l.matchIndex.index core.id then
    let l := { l with matchIndex := l.matchIndex.insert core.id index }
    afterCommit (l.maybeCommit core)
  else (l, core, .none)

def handleTick (l : Leader) (core : Core) : Leader × Core × StepResult :=
  let core := { core with ticks := core.ticks + 1 }
  if core.ticks ≥ l.heartbeatDeadline then
    let l := { l with heartbeatDeadline := core.ticks + core.config.heartbeatInterval }
    let (l, effects) := l.broadcastAppend core
    match l.pendingReadIndex with
    | some pending => (l, core, .stay (effects.merge (readIndexRequests core pending)))
    | none => (l, core, .stay effects)
  else (l, core, .none)

/-- Where the leader resumes after a rejection. -/
def retryIndex (l : Leader) (core : Core) (sender : NodeId) (resp : AppendResponse) : ℕ :=
  let hinted := max (resp.lastLogIndex + 1) 1
  if core.config.pipelining then max hinted (l.matchIndex.index sender + 1) else hinted

def handleAppendResponse (l : Leader) (core : Core) (sender : NodeId) (resp : AppendResponse) :
    Leader × Core × StepResult :=
  if !core.effectiveConfig.isMember sender then (l, core, .none)
  else if resp.success then
    let l := { l with
      matchIndex := l.matchIndex.insert sender resp.lastLogIndex
      nextIndex := if core.config.pipelining then l.nextIndex
        else l.nextIndex.insert sender (resp.lastLogIndex + 1) }
    afterCommit (l.maybeCommit core)
  else
    let l := { l with nextIndex := l.nextIndex.insert sender (l.retryIndex core sender resp) }
    let (l, effects) := l.sendAppendTo core sender
    (l, core, .stay effects)

def handleInstallSnapshotResponse (l : Leader) (core : Core) (sender : NodeId)
    (resp : InstallSnapshotResponse) : Leader × Core × StepResult :=
  if !resp.success || !core.effectiveConfig.isMember sender then (l, core, .none)
  else if resp.lastIncludedIndex ≤ l.matchIndex.index sender then (l, core, .none)
  else
    let l := { l with
      matchIndex := l.matchIndex.insert sender resp.lastIncludedIndex
      nextIndex := l.nextIndex.insert sender (resp.lastIncludedIndex + 1) }
    afterCommit (l.maybeCommit core)

def handleReadIndexResponse (l : Leader) (sender : NodeId) (resp : ReadIndexResponse) : Leader :=
  match l.pendingReadIndex with
  | none => l
  | some pending =>
    if !pending.configuration.isVoter sender then l
    else if pending.id ≠ resp.id ∨ pending.readIndex ≠ resp.readIndex then l
    else
      let pending := { pending with acks := pending.acks.insert sender }
      if pending.configuration.hasQuorum pending.acks.contains then
        { l with
          confirmedReadIndex := max l.confirmedReadIndex pending.readIndex
          pendingReadIndex := none }
      else { l with pendingReadIndex := some pending }

def handleVoteRequest (core : Core) (sender : NodeId) : StepResult :=
  .stay (Effects.none.withMessage (core.message sender (.voteResponse ⟨false⟩)))

def denyPrevote (core : Core) (sender : NodeId) : Effects :=
  Effects.none.withMessage (core.message sender (.preVoteResponse ⟨core.term, false⟩))

def dispatch (l : Leader) (core : Core) (msg : Message) : Leader × Core × StepResult :=
  match msg.payload with
  | .appendResponse resp => l.handleAppendResponse core msg.from resp
  | .installSnapshotResponse resp => l.handleInstallSnapshotResponse core msg.from resp
  | .readIndexResponse resp => (l.handleReadIndexResponse msg.from resp, core, .none)
  | .voteRequest _ => (l, core, handleVoteRequest core msg.from)
  | _ => (l, core, .none)

def handleMessage (l : Leader) (core : Core) (msg : Message) : Leader × Core × StepResult :=
  match msg.payload with
  | .preVoteRequest _ => (l, core, .stay (denyPrevote core msg.from))
  | _ =>
    if msg.term > core.term then
      let leader := if msg.payload.isAppendRequest then some msg.from else none
      (l, (core.maybeUpdateTerm msg.term).2, .toFollower leader Effects.none.withPersist)
    else if msg.term < core.term then (l, core, .stay (core.rejectStale msg))
    else l.dispatch core msg

def step (l : Leader) (core : Core) (event : Event) : Leader × Core × StepResult :=
  match event with
  | .tick => l.handleTick core
  | .diskWriteComplete index => l.handleDiskWriteComplete core index
  | .message msg => l.handleMessage core msg

end Leader

end Cloud9
