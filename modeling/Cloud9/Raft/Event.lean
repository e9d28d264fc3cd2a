import Cloud9.Raft.Log

/-!
# Events and effects

`event.rs`: what drives the Raft automaton (ticks, messages, completed disk writes) and what a
step asks of its environment (persist, send messages, send snapshots). `StepResult`, from
`mod.rs`, is what a role returns to its node: effects and the role it moves to.
-/

namespace Cloud9

structure PreVoteRequest where
  /-- The term the candidate would use if elected. -/
  nextTerm : ℕ
  lastLogIndex : ℕ
  lastLogTerm : ℕ
  deriving DecidableEq

structure PreVoteResponse where
  term : ℕ
  granted : Bool
  deriving DecidableEq

structure VoteRequest where
  lastLogIndex : ℕ
  lastLogTerm : ℕ
  deriving DecidableEq

structure VoteResponse where
  granted : Bool
  deriving DecidableEq

structure AppendRequest where
  prevLogIndex : ℕ
  prevLogTerm : ℕ
  entries : List Entry
  leaderCommit : ℕ
  deriving DecidableEq

structure AppendResponse where
  success : Bool
  lastLogIndex : ℕ
  deriving DecidableEq

structure ReadIndexRequest where
  id : ℕ
  readIndex : ℕ
  deriving DecidableEq

structure ReadIndexResponse where
  id : ℕ
  readIndex : ℕ
  deriving DecidableEq

structure InstallSnapshotRequest where
  lastIncludedIndex : ℕ
  lastIncludedTerm : ℕ
  configuration : Configuration
  deriving DecidableEq

structure InstallSnapshotResponse where
  success : Bool
  lastIncludedIndex : ℕ
  deriving DecidableEq

inductive Payload where
  | preVoteRequest (req : PreVoteRequest)
  | preVoteResponse (resp : PreVoteResponse)
  | voteRequest (req : VoteRequest)
  | voteResponse (resp : VoteResponse)
  | appendRequest (req : AppendRequest)
  | appendResponse (resp : AppendResponse)
  | installSnapshotRequest (req : InstallSnapshotRequest)
  | installSnapshotResponse (resp : InstallSnapshotResponse)
  | readIndexRequest (req : ReadIndexRequest)
  | readIndexResponse (resp : ReadIndexResponse)
  | timeoutNow
  deriving DecidableEq

/-- A message from one node to another. -/
structure Message where
  «from» : NodeId
  «to» : NodeId
  term : ℕ
  payload : Payload
  deriving DecidableEq

/-- An input event to the Raft automaton. -/
inductive Event where
  | tick
  | message (msg : Message)
  | diskWriteComplete (index : ℕ)

/-- Request to send a snapshot to a slow follower. -/
structure SendSnapshot where
  «to» : NodeId
  lastIncludedIndex : ℕ
  lastIncludedTerm : ℕ
  configuration : Configuration
  deriving DecidableEq

/-- What a step asks of its environment. -/
structure Effects where
  /-- The persistent state changed and must be written before any message is sent. -/
  persist : Bool
  messages : List Message
  sendSnapshots : List SendSnapshot
  deriving DecidableEq

namespace Effects

def none : Effects := ⟨false, [], []⟩

def withPersist (e : Effects) : Effects := { e with persist := true }

def withMessage (e : Effects) (msg : Message) : Effects :=
  { e with messages := e.messages ++ [msg] }

def withMessages (e : Effects) (msgs : List Message) : Effects :=
  { e with messages := e.messages ++ msgs }

def withSendSnapshot (e : Effects) (s : SendSnapshot) : Effects :=
  { e with sendSnapshots := e.sendSnapshots ++ [s] }

def merge (e other : Effects) : Effects :=
  { persist := e.persist || other.persist
    messages := e.messages ++ other.messages
    sendSnapshots := e.sendSnapshots ++ other.sendSnapshots }

@[simp] theorem none_persist : none.persist = false := rfl
@[simp] theorem none_messages : none.messages = [] := rfl
@[simp] theorem withPersist_persist (e : Effects) : e.withPersist.persist = true := rfl
@[simp] theorem withPersist_messages (e : Effects) : e.withPersist.messages = e.messages := rfl
@[simp] theorem withMessage_persist (e : Effects) (m : Message) :
    (e.withMessage m).persist = e.persist := rfl
@[simp] theorem withMessage_messages (e : Effects) (m : Message) :
    (e.withMessage m).messages = e.messages ++ [m] := rfl
@[simp] theorem withMessages_persist (e : Effects) (ms : List Message) :
    (e.withMessages ms).persist = e.persist := rfl
@[simp] theorem withMessages_messages (e : Effects) (ms : List Message) :
    (e.withMessages ms).messages = e.messages ++ ms := rfl
@[simp] theorem withSendSnapshot_persist (e : Effects) (s : SendSnapshot) :
    (e.withSendSnapshot s).persist = e.persist := rfl
@[simp] theorem withSendSnapshot_messages (e : Effects) (s : SendSnapshot) :
    (e.withSendSnapshot s).messages = e.messages := rfl
@[simp] theorem merge_persist (e f : Effects) :
    (e.merge f).persist = (e.persist || f.persist) := rfl
@[simp] theorem merge_messages (e f : Effects) :
    (e.merge f).messages = e.messages ++ f.messages := rfl

theorem merge_assoc (e f g : Effects) : (e.merge f).merge g = e.merge (f.merge g) := by
  simp [merge, Bool.or_assoc]

theorem merge_none (e : Effects) : e.merge none = e := by
  simp [merge, none]

/-- All messages of the effects have a property. -/
def All (p : Message → Prop) (e : Effects) : Prop := ∀ m ∈ e.messages, p m

namespace All

variable {p : Message → Prop} {e e' : Effects}

theorem empty : none.All p := by
  intro m hm
  cases hm

theorem withMessages (h : e.All p) {ms : List Message} (hms : ∀ m ∈ ms, p m) :
    (e.withMessages ms).All p := by
  intro m hm
  rcases List.mem_append.1 hm with hm | hm
  · exact h m hm
  · exact hms m hm

theorem withMessage (h : e.All p) {m : Message} (hm : p m) : (e.withMessage m).All p :=
  h.withMessages fun m' hm' => by rwa [List.mem_singleton.1 hm']

theorem one {m : Message} (hm : p m) : (none.withMessage m).All p := empty.withMessage hm

theorem merge (h : e.All p) (h' : e'.All p) : (e.merge e').All p := h.withMessages h'

end All

end Effects

/-- Role transition result. -/
inductive Transition where
  | stay
  | toFollower (leader : Option NodeId)
  | toFollowerAfterContact (leader : Option NodeId)
  | toPreCandidate
  | toCandidate
  | toLeader
  deriving DecidableEq

/-- Result of a role's step. -/
structure StepResult where
  transition : Transition
  effects : Effects

namespace StepResult

def stay (effects : Effects) : StepResult := ⟨.stay, effects⟩
def none : StepResult := stay Effects.none
def toFollower (leader : Option NodeId) (effects : Effects) : StepResult :=
  ⟨.toFollower leader, effects⟩
def toFollowerAfterContact (leader : Option NodeId) (effects : Effects) : StepResult :=
  ⟨.toFollowerAfterContact leader, effects⟩
def toPrecandidate (effects : Effects) : StepResult := ⟨.toPreCandidate, effects⟩
def toCandidate (effects : Effects) : StepResult := ⟨.toCandidate, effects⟩
def toLeader (effects : Effects) : StepResult := ⟨.toLeader, effects⟩

end StepResult

end Cloud9
