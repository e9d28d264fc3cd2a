import Cloud9.Raft.Candidate
import Cloud9.Raft.Follower
import Cloud9.Raft.Leader

/-!
# The Raft node

`mod.rs`: a node is its core and its current role. Every entry point of the API is here;
`stepEvent` hands an event to the role and carries out the transition the role asks for.
-/

namespace Cloud9

inductive RoleState where
  | follower (f : Follower)
  | preCandidate (p : PreCandidate)
  | candidate (c : Candidate)
  | leader (l : Leader)

def RoleState.isLeader : RoleState → Bool
  | .leader _ => true
  | _ => false

inductive ProposeError where
  | notLeader (leaderHint : Option NodeId)
  | throttled
  deriving DecidableEq

/-- A committed command, ready to be applied. -/
structure CommittedEntry where
  index : ℕ
  term : ℕ
  command : Command
  deriving DecidableEq

structure RaftNode where
  core : Core
  role : RoleState

namespace RaftNode

def becomeFollower (core : Core) (leader : Option NodeId) : RaftNode :=
  let (follower, core) := Follower.new core leader
  ⟨core, .follower follower⟩

/-- A node starts as a follower without a leader. -/
def new (config : Config) (voters : List NodeId) : RaftNode :=
  becomeFollower (Core.new config voters) none

def restore (config : Config) (persistent : Persistent) : RaftNode :=
  becomeFollower (Core.restore config persistent) none

def id (n : RaftNode) : NodeId := n.core.id

def term (n : RaftNode) : ℕ := n.core.term

def isLeader (n : RaftNode) : Bool := n.role.isLeader

theorem isLeader_iff {n : RaftNode} : n.isLeader = true ↔ ∃ l, n.role = .leader l := by
  unfold isLeader
  cases n.role <;> simp [RoleState.isLeader]

/-- A test of the node's state as a leader. -/
def leads (n : RaftNode) (p : Leader → Bool) : Bool :=
  match n.role with
  | .leader l => p l
  | _ => false

theorem exists_of_leads {n : RaftNode} {p : Leader → Bool} (h : n.leads p = true) :
    ∃ l, n.role = .leader l ∧ p l = true := by
  unfold leads at h
  split at h
  · next l hl => exact ⟨l, hl, h⟩
  · cases h

/-- Current leader, if known. -/
def leader (n : RaftNode) : Option NodeId :=
  match n.role with
  | .leader _ => some n.core.id
  | .follower f => f.leader
  | .preCandidate _ | .candidate _ => none

def commitIndex (n : RaftNode) : ℕ := n.core.commitIndex

def persistent (n : RaftNode) : Persistent := n.core.persistent

def becomeLeader (core : Core) (effects : Effects) : RaftNode × Effects :=
  let (leader, leaderEffects) := Leader.new core
  (⟨core, .leader leader⟩, effects.merge leaderEffects)

/-- Start an election; a node that is a quorum by itself wins at once. -/
def becomeCandidate (core : Core) (effects : Effects) : RaftNode × Effects :=
  let (candidate, core, candidateEffects) := Candidate.new core
  if candidate.hasQuorum core then becomeLeader core (effects.merge candidateEffects)
  else (⟨core, .candidate candidate⟩, effects.merge candidateEffects)

def applyTransition (n : RaftNode) (transition : Transition) : RaftNode × Effects :=
  match transition with
  | .stay => (n, Effects.none)
  | .toFollower leader => (becomeFollower n.core leader, Effects.none)
  | .toFollowerAfterContact leader =>
    let (follower, core) := Follower.afterLeaderContact n.core leader
    (⟨core, .follower follower⟩, Effects.none)
  | .toPreCandidate =>
    let (precandidate, core, effects) := PreCandidate.new n.core
    if precandidate.hasQuorum core then becomeCandidate core effects
    else (⟨core, .preCandidate precandidate⟩, effects)
  | .toCandidate => becomeCandidate n.core Effects.none
  | .toLeader => becomeLeader n.core Effects.none

/-- The role's own step. -/
def roleStep (n : RaftNode) (event : Event) : RaftNode × StepResult :=
  match n.role with
  | .follower f => let (f, core, r) := f.step n.core event; (⟨core, .follower f⟩, r)
  | .preCandidate p => let (p, core, r) := p.step n.core event; (⟨core, .preCandidate p⟩, r)
  | .candidate c => let (c, core, r) := c.step n.core event; (⟨core, .candidate c⟩, r)
  | .leader l => let (l, core, r) := l.step n.core event; (⟨core, .leader l⟩, r)

def stepEvent (n : RaftNode) (event : Event) : RaftNode × Effects :=
  let (n, result) := n.roleStep event
  let (n, transitionEffects) := n.applyTransition result.transition
  (n, result.effects.merge transitionEffects)

def tick (n : RaftNode) : RaftNode × Effects := n.stepEvent .tick

def step (n : RaftNode) (msg : Message) : RaftNode × Effects := n.stepEvent (.message msg)

def diskWriteComplete (n : RaftNode) (index : ℕ) : RaftNode × Effects :=
  n.stepEvent (.diskWriteComplete index)

/-- The tail of the two proposal calls: step down when the commit says so. -/
def settle (core : Core) (l : Leader) (shouldStepDown : Bool) : RaftNode :=
  if shouldStepDown then becomeFollower core none else ⟨core, .leader l⟩

/-- Propose a command. The outer `none` is the failed assertion of the admission check. -/
def propose (n : RaftNode) (cmd : Command) :
    Option (RaftNode × Except ProposeError (ℕ × Effects)) :=
  match n.role with
  | .leader l =>
    match n.core.proposalLimitExceeded cmd with
    | none => none
    | some true => some (n, .error .throttled)
    | some false =>
      let (l, core, index, effects, shouldStepDown) := l.propose n.core cmd
      some (settle core l shouldStepDown, .ok (index, effects))
  | _ => some (n, .error (.notLeader n.leader))

def requestReadIndex (n : RaftNode) : RaftNode × Except ReadIndexError (ℕ × Effects) :=
  match n.role with
  | .leader l => let (l, r) := l.requestReadIndex n.core; (⟨n.core, .leader l⟩, r)
  | _ => (n, .error (.notLeader n.leader))

def readIndexReady (n : RaftNode) (readIndex : ℕ) : Bool :=
  match n.role with
  | .leader l => l.readIndexReady n.core readIndex
  | _ => false

def proposeConfigChange (n : RaftNode) (change : ConfigChange) :
    RaftNode × Except ConfigChangeError (ℕ × Effects) :=
  match n.role with
  | .leader l =>
    match l.proposeConfigChange n.core change with
    | .error e => (n, .error e)
    | .ok (l, core, index, effects, shouldStepDown) =>
      (settle core l shouldStepDown, .ok (index, effects))
  | _ => (n, .error .notLeader)

def transferLeadership (n : RaftNode) (target : NodeId) : Except TransferError Effects :=
  match n.role with
  | .leader l => l.transferLeadership n.core target
  | _ => .error .notLeader

/-- Committed commands from `last_applied + 1` to the commit index. -/
def committed (n : RaftNode) : List CommittedEntry :=
  (List.range' (n.core.lastApplied + 1) (n.core.commitIndex - n.core.lastApplied)).filterMap
    fun idx => (n.core.log.get idx).bind fun e =>
      match e.payload with
      | .command cmd => some ⟨e.index, e.term, cmd⟩
      | .config _ => none

def advance (n : RaftNode) (appliedTo : ℕ) : RaftNode :=
  { n with core := { n.core with lastApplied := appliedTo } }

end RaftNode

/-! ## How a proposal ends -/

/-- The tail of the two proposal calls, on the core with the new entry: commit, then announce. -/
def Leader.publish (l : Leader) (core : Core) : RaftNode × Effects :=
  let (l, core, commitEffects, shouldStepDown) := l.maybeCommit core
  let (l, effects) := l.broadcastAppend core
  (RaftNode.settle core l shouldStepDown, effects.withPersist.merge commitEffects)

namespace RaftNode

/-- A call of `propose` is refused, or the leader takes the command. -/
inductive Proposed (cmd : Command) : RaftNode → RaftNode → Except ProposeError (ℕ × Effects) → Prop
  | refused (n : RaftNode) (e : ProposeError) : Proposed cmd n n (.error e)
  | accepted (l : Leader) (core core' : Core)
      (hcore : core' = Leader.appendEntry core (.command cmd)) :
    Proposed cmd ⟨core, .leader l⟩
      ((l.recordOwnMatch core' (core.log.lastIndex + 1)).publish core').1
      (.ok (core.log.lastIndex + 1,
        ((l.recordOwnMatch core' (core.log.lastIndex + 1)).publish core').2))

theorem propose_cases {n n' : RaftNode} {cmd : Command} {r : Except ProposeError (ℕ × Effects)}
    (h : n.propose cmd = some (n', r)) : Proposed cmd n n' r := by
  obtain ⟨core, role⟩ := n
  cases role with
  | leader l =>
    simp only [propose] at h
    split at h
    · cases h
    · cases h
      exact .refused _ _
    · cases h
      have haccepted : Proposed cmd _ _ _ := .accepted l core _ rfl
      simp only [Leader.publish] at haccepted
      simp only [Leader.propose]
      exact haccepted
  | _ =>
    cases h
    exact .refused _ _

/-- A call of `propose_config_change` is refused, or the leader takes the change. -/
inductive ChangeProposed (change : ConfigChange) :
    RaftNode → RaftNode → Except ConfigChangeError (ℕ × Effects) → Prop
  | refused (n : RaftNode) (e : ConfigChangeError) : ChangeProposed change n n (.error e)
  | accepted (l : Leader) (core core' : Core) (hcheck : l.checkConfigChange core change = .ok ())
      (hcore : core' = Leader.appendEntry core (.config
        (change.apply core.effectiveConfig core.config.membershipMode))) :
    ChangeProposed change ⟨core, .leader l⟩
      (((l.recordOwnMatch core' (core.log.lastIndex + 1)).reinitProgress core').publish core').1
      (.ok (core.log.lastIndex + 1,
        (((l.recordOwnMatch core' (core.log.lastIndex + 1)).reinitProgress core').publish core').2))

theorem proposeConfigChange_cases {n n' : RaftNode} {change : ConfigChange}
    {r : Except ConfigChangeError (ℕ × Effects)} (h : n.proposeConfigChange change = (n', r)) :
    ChangeProposed change n n' r := by
  obtain ⟨core, role⟩ := n
  cases role with
  | leader l =>
    simp only [proposeConfigChange, Leader.proposeConfigChange] at h
    cases hcheck : l.checkConfigChange core change with
    | error e =>
      rw [hcheck] at h
      cases h
      exact .refused _ _
    | ok _ =>
      rw [hcheck] at h
      cases h
      have haccepted : ChangeProposed change _ _ _ := .accepted l core _ hcheck rfl
      simp only [Leader.publish] at haccepted
      exact haccepted
  | _ =>
    cases h
    exact .refused _ _

end RaftNode

end Cloud9
