import Mathlib.Algebra.Group.Nat.Defs
import Mathlib.Logic.Function.Basic
import Mathlib.Tactic.Common

/-!
# Replicated commands

`command.rs`: the key-value store that the nodes replicate. A session remembers the last mutation of
its client and what it came to, so that a repeated request is answered without being executed again.

A method of `KvState` returns the new state and its result, also when the result is an error: the
source mutates the state in place. Hash maps are partial functions, `u64` is `UInt64`, and a
string's `len` is the number of its bytes.
-/

namespace Cloud9

inductive ErrorCode where
  | invalidArgument
  | failedPrecondition
  | aborted
  | resourceExhausted
  | unavailable
  | internal
  deriving DecidableEq, Repr

/-- `connectrpc::ConnectError`. -/
structure ConnectError where
  code : ErrorCode
  message : String
  deriving DecidableEq, Repr

inductive KvCommand where
  | registerSession
  | readBarrier
  | put (clientId sequence : UInt64) (nameSpace key : String) (body : List UInt8)
      (ifMatch : String) (ifNoneMatch : Bool)
  | delete (clientId sequence : UInt64) (nameSpace key : String) (ifMatch : String)
  deriving DecidableEq

structure RegisterSessionResponse where
  clientId : UInt64
  deriving DecidableEq

structure PutResponse where
  nameSpace : String
  key : String
  etag : String
  generation : UInt64
  size : UInt64
  deriving DecidableEq

structure DeleteResponse where
  nameSpace : String
  key : String
  etag : String
  generation : UInt64
  deleted : Bool
  deriving DecidableEq

inductive KvApplyResult where
  | registerSession (response : RegisterSessionResponse)
  | put (response : PutResponse)
  | delete (response : DeleteResponse)
  | readBarrier
  deriving DecidableEq

abbrev ApplyResult := Except ConnectError KvApplyResult

structure KvName where
  nameSpace : String
  key : String
  deriving DecidableEq

structure KvRecord where
  body : List UInt8
  etag : String
  generation : UInt64

inductive MutationRequest where
  | put (name : KvName) (body : List UInt8) (ifMatch : String) (ifNoneMatch : Bool)
  | delete (name : KvName) (ifMatch : String)
  deriving DecidableEq

inductive MutationRejection where
  | keyExists
  | etagMismatch
  | generationExhausted
  deriving DecidableEq

inductive MutationResult where
  | put (response : PutResponse)
  | delete (response : DeleteResponse)
  | rejected (rejection : MutationRejection)
  deriving DecidableEq

/-- The last mutation of a client. -/
structure SessionState where
  sequence : UInt64
  request : Option MutationRequest
  result : Option MutationResult

structure KvState where
  nextClientId : UInt64
  nextGeneration : UInt64
  entries : KvName → Option KvRecord
  sessions : UInt64 → Option SessionState

/-! ## Checks -/

/-- Two checks, one after the other, are passed iff both are. -/
theorem bind_eq_ok {ε α β : Type} {x : Except ε α} {f : α → Except ε β} {b : β} :
    x >>= f = .ok b ↔ ∃ a, x = .ok a ∧ f a = .ok b := by
  cases x <;> simp [bind, Except.bind]

def maxValueBytes : ℕ := 64 * 1024
def maxNamespaceBytes : ℕ := 255
def maxKeyBytes : ℕ := 1024
def maxEtagBytes : ℕ := 128

def ConnectError.invalidArgument (message : String) : ConnectError := ⟨.invalidArgument, message⟩
def ConnectError.failedPrecondition (message : String) : ConnectError :=
  ⟨.failedPrecondition, message⟩
def ConnectError.aborted (message : String) : ConnectError := ⟨.aborted, message⟩
def ConnectError.resourceExhausted (message : String) : ConnectError :=
  ⟨.resourceExhausted, message⟩
def ConnectError.unavailable (message : String) : ConnectError := ⟨.unavailable, message⟩
def ConnectError.internal (message : String) : ConnectError := ⟨.internal, message⟩

def MutationRejection.connectError : MutationRejection → ConnectError
  | .keyExists => .failedPrecondition "key already exists"
  | .etagMismatch => .failedPrecondition "ETag precondition failed"
  | .generationExhausted => .resourceExhausted "kv generation space exhausted"

def KvName.new (nameSpace key : String) : Except ConnectError KvName :=
  if nameSpace.isEmpty then .error (.invalidArgument "namespace must not be empty")
  else if nameSpace.utf8ByteSize > maxNamespaceBytes then
    .error (.invalidArgument "namespace exceeds 255-byte limit")
  else if key.isEmpty then .error (.invalidArgument "key must not be empty")
  else if key.utf8ByteSize > maxKeyBytes then
    .error (.invalidArgument "key exceeds 1024-byte limit")
  else .ok ⟨nameSpace, key⟩

def validateMutationRequest (clientId sequence : UInt64) : Except ConnectError Unit :=
  if clientId = 0 then .error (.invalidArgument "client_id must be registered")
  else if sequence = 0 then .error (.invalidArgument "sequence must be positive")
  else .ok ()

def validateEtag (etag : String) : Except ConnectError Unit :=
  if etag.utf8ByteSize > maxEtagBytes then .error (.invalidArgument "ETag exceeds 128-byte limit")
  else .ok ()

def validatePutPreconditions (ifMatch : String) (ifNoneMatch : Bool) :
    Except ConnectError Unit := do
  validateEtag ifMatch
  if !ifMatch.isEmpty && ifNoneMatch then
    .error (.invalidArgument "if_match and if_none_match are mutually exclusive")

def validateValue (body : List UInt8) : Except ConnectError Unit :=
  if body.length > maxValueBytes then
    .error (.resourceExhausted "value exceeds 65536-byte limit")
  else .ok ()

def checkPutPreconditions (current : Option KvRecord) (ifMatch : String) (ifNoneMatch : Bool) :
    Except MutationRejection Unit :=
  if ifNoneMatch && current.isSome then .error .keyExists
  else if ifMatch.isEmpty then .ok ()
  else match current with
    | some record => if record.etag = ifMatch then .ok () else .error .etagMismatch
    | none => .error .etagMismatch

def etagFor (generation : UInt64) : String := "\"c9-" ++ toString generation.toNat ++ "\""

def bodyLen (body : List UInt8) : Except ConnectError UInt64 :=
  if body.length < 2 ^ 64 then .ok (UInt64.ofNat body.length)
  else .error (.resourceExhausted "value too large")

/-- `checked_add(1)`. -/
def checkedSucc (n : UInt64) : Option UInt64 := if n.toNat + 1 < 2 ^ 64 then some (n + 1) else none

theorem lt_of_checkedSucc {n next : UInt64} (h : checkedSucc n = some next) : n < next := by
  unfold checkedSucc at h
  split_ifs at h with hbound
  cases h
  rw [UInt64.lt_iff_toNat_lt, UInt64.toNat_add]
  simp only [UInt64.reduceToNat]
  omega

/-! ## Sessions -/

/-- What the session remembers of a request with this sequence number. -/
def cachedMutation (session : SessionState) (sequence : UInt64) (request : MutationRequest) :
    Except ConnectError (Option MutationResult) :=
  if sequence < session.sequence then .error (.aborted "stale client sequence")
  else if session.sequence < sequence then .ok none
  else match session.request, session.result with
    | some cached, some result =>
      if cached = request then .ok (some result)
      else .error (.aborted "sequence reused for different request")
    | none, none => .error (.internal "session cache is incomplete")
    | _, _ => .error (.internal "session cache is inconsistent")

namespace KvState

def new : KvState := ⟨1, 1, fun _ => none, fun _ => none⟩

def session (s : KvState) (clientId : UInt64) : Except ConnectError SessionState :=
  match s.sessions clientId with
  | some session => .ok session
  | none => .error (.invalidArgument "unknown client session")

/-- `session_mut(client_id)?.record(...)`. -/
def record (s : KvState) (clientId sequence : UInt64) (request : MutationRequest)
    (result : MutationResult) : Except ConnectError KvState :=
  match s.session clientId with
  | .error e => .error e
  | .ok _ => .ok { s with
      sessions := Function.update s.sessions clientId
        (some ⟨sequence, some request, some result⟩) }

def cachedPut (s : KvState) (clientId sequence : UInt64) (request : MutationRequest) :
    Except ConnectError (Option PutResponse) := do
  match ← cachedMutation (← s.session clientId) sequence request with
  | some (.put response) => .ok (some response)
  | some (.rejected rejection) => .error rejection.connectError
  | some (.delete _) => .error (.internal "session result mismatch")
  | none => .ok none

def cachedDelete (s : KvState) (clientId sequence : UInt64) (request : MutationRequest) :
    Except ConnectError (Option DeleteResponse) := do
  match ← cachedMutation (← s.session clientId) sequence request with
  | some (.delete response) => .ok (some response)
  | some (.rejected rejection) => .error rejection.connectError
  | some (.put _) => .error (.internal "session result mismatch")
  | none => .ok none

/-! ## Applying a command -/

/-- Record a result and return it. -/
def recordResult (s : KvState) (clientId sequence : UInt64) (request : MutationRequest)
    (result : MutationResult) (answer : ApplyResult) : KvState × ApplyResult :=
  match s.record clientId sequence request result with
  | .error e => (s, .error e)
  | .ok s => (s, answer)

def reject (s : KvState) (clientId sequence : UInt64) (request : MutationRequest)
    (rejection : MutationRejection) : KvState × ApplyResult :=
  s.recordResult clientId sequence request (.rejected rejection) (.error rejection.connectError)

/-- The checks of `apply_put` that do not look at the state. -/
def checkPut (clientId sequence : UInt64) (nameSpace key : String) (body : List UInt8)
    (ifMatch : String) (ifNoneMatch : Bool) : Except ConnectError KvName := do
  validateMutationRequest clientId sequence
  validatePutPreconditions ifMatch ifNoneMatch
  validateValue body
  KvName.new nameSpace key

/-- `apply_put` after its preconditions: a new generation is written. -/
def executePut (s : KvState) (clientId sequence : UInt64) (name : KvName) (body : List UInt8)
    (request : MutationRequest) : KvState × ApplyResult :=
  match bodyLen body with
  | .error e => (s, .error e)
  | .ok size =>
    match checkedSucc s.nextGeneration with
    | none => s.reject clientId sequence request .generationExhausted
    | some next =>
      let generation := s.nextGeneration
      let etag := etagFor generation
      let response : PutResponse := ⟨name.nameSpace, name.key, etag, generation, size⟩
      let s := { s with
        nextGeneration := next
        entries := Function.update s.entries name (some ⟨body, etag, generation⟩) }
      s.recordResult clientId sequence request (.put response) (.ok (.put response))

def applyPut (s : KvState) (clientId sequence : UInt64) (nameSpace key : String)
    (body : List UInt8) (ifMatch : String) (ifNoneMatch : Bool) : KvState × ApplyResult :=
  match checkPut clientId sequence nameSpace key body ifMatch ifNoneMatch with
  | .error e => (s, .error e)
  | .ok name =>
    let request := .put name body ifMatch ifNoneMatch
    match s.cachedPut clientId sequence request with
    | .error e => (s, .error e)
    | .ok (some response) => (s, .ok (.put response))
    | .ok none =>
      match checkPutPreconditions (s.entries name) ifMatch ifNoneMatch with
      | .error rejection => s.reject clientId sequence request rejection
      | .ok () => s.executePut clientId sequence name body request

/-- The checks of `apply_delete` that do not look at the state. -/
def checkDelete (clientId sequence : UInt64) (nameSpace key ifMatch : String) :
    Except ConnectError KvName := do
  validateMutationRequest clientId sequence
  validateEtag ifMatch
  KvName.new nameSpace key

/-- `apply_delete` after its precondition. -/
def executeDelete (s : KvState) (clientId sequence : UInt64) (name : KvName)
    (request : MutationRequest) : KvState × ApplyResult :=
  let removed := s.entries name
  let s := { s with entries := Function.update s.entries name none }
  let response : DeleteResponse := match removed with
    | some record => ⟨name.nameSpace, name.key, record.etag, record.generation, true⟩
    | none => ⟨name.nameSpace, name.key, "", 0, false⟩
  s.recordResult clientId sequence request (.delete response) (.ok (.delete response))

def applyDelete (s : KvState) (clientId sequence : UInt64) (nameSpace key ifMatch : String) :
    KvState × ApplyResult :=
  match checkDelete clientId sequence nameSpace key ifMatch with
  | .error e => (s, .error e)
  | .ok name =>
    let request := .delete name ifMatch
    match s.cachedDelete clientId sequence request with
    | .error e => (s, .error e)
    | .ok (some response) => (s, .ok (.delete response))
    | .ok none =>
      if !ifMatch.isEmpty && (s.entries name).all fun record => decide (ifMatch ≠ record.etag) then
        s.reject clientId sequence request .etagMismatch
      else s.executeDelete clientId sequence name request

/-- Register a session under the next client id. -/
def registerSession (s : KvState) : KvState × ApplyResult :=
  let clientId := s.nextClientId
  match checkedSucc clientId with
  | none => (s, .error (.resourceExhausted "client id space exhausted"))
  | some next =>
    ({ s with
        nextClientId := next
        sessions := Function.update s.sessions clientId (some ⟨0, none, none⟩) },
      .ok (.registerSession ⟨clientId⟩))

def apply (s : KvState) : KvCommand → KvState × ApplyResult
  | .registerSession => s.registerSession
  | .readBarrier => (s, .ok .readBarrier)
  | .put clientId sequence nameSpace key body ifMatch ifNoneMatch =>
    s.applyPut clientId sequence nameSpace key body ifMatch ifNoneMatch
  | .delete clientId sequence nameSpace key ifMatch =>
    s.applyDelete clientId sequence nameSpace key ifMatch

/-! ## Client ids -/

/-- The next client id is kept, and the result is not a registration. -/
def KeepsIds (s : KvState) (r : KvState × ApplyResult) : Prop :=
  r.1.nextClientId = s.nextClientId ∧ ∀ response, r.2 ≠ .ok (.registerSession response)

theorem keepsIds_recordResult (s : KvState) {s' : KvState} (hs : s'.nextClientId = s.nextClientId)
    (clientId sequence : UInt64) (request : MutationRequest) (result : MutationResult)
    {answer : ApplyResult} (h : ∀ response, answer ≠ .ok (.registerSession response)) :
    s.KeepsIds (s'.recordResult clientId sequence request result answer) := by
  unfold recordResult record
  split
  · exact ⟨hs, nofun⟩
  · next s₁ hrecord =>
    split at hrecord
    · cases hrecord
    · cases hrecord
      exact ⟨hs, h⟩

theorem keepsIds_reject (s : KvState) (clientId sequence : UInt64) (request : MutationRequest)
    (rejection : MutationRejection) : s.KeepsIds (s.reject clientId sequence request rejection) :=
  keepsIds_recordResult s rfl _ _ _ _ nofun

theorem keepsIds_applyPut (s : KvState) (clientId sequence : UInt64) (nameSpace key : String)
    (body : List UInt8) (ifMatch : String) (ifNoneMatch : Bool) :
    s.KeepsIds (s.applyPut clientId sequence nameSpace key body ifMatch ifNoneMatch) := by
  unfold applyPut
  split
  · exact ⟨rfl, nofun⟩
  · dsimp only
    split
    · exact ⟨rfl, nofun⟩
    · exact ⟨rfl, nofun⟩
    · split
      · exact s.keepsIds_reject _ _ _ _
      · unfold executePut
        split
        · exact ⟨rfl, nofun⟩
        · split
          · exact s.keepsIds_reject _ _ _ _
          · refine keepsIds_recordResult s ?_ _ _ _ _ ?_
            · rfl
            · nofun

theorem keepsIds_applyDelete (s : KvState) (clientId sequence : UInt64)
    (nameSpace key ifMatch : String) :
    s.KeepsIds (s.applyDelete clientId sequence nameSpace key ifMatch) := by
  unfold applyDelete
  split
  · exact ⟨rfl, nofun⟩
  · dsimp only
    split
    · exact ⟨rfl, nofun⟩
    · exact ⟨rfl, nofun⟩
    · split
      · exact s.keepsIds_reject _ _ _ _
      · refine keepsIds_recordResult s ?_ _ _ _ _ ?_
        · rfl
        · nofun

/-- **A registration takes the next client id**, and no other command touches it. -/
theorem apply_nextClientId (s : KvState) (command : KvCommand) :
    s.nextClientId ≤ (s.apply command).1.nextClientId ∧
      ∀ response, (s.apply command).2 = .ok (.registerSession response) →
        response.clientId = s.nextClientId ∧ s.nextClientId < (s.apply command).1.nextClientId := by
  have hkeep : ∀ {r : KvState × ApplyResult}, s.KeepsIds r → s.nextClientId ≤ r.1.nextClientId ∧
      ∀ response, r.2 = .ok (.registerSession response) →
        response.clientId = s.nextClientId ∧ s.nextClientId < r.1.nextClientId :=
    fun h => ⟨by rw [h.1]; exact UInt64.le_refl _, fun response hr => absurd hr (h.2 response)⟩
  cases command with
  | registerSession =>
    simp only [apply, registerSession]
    split
    · exact ⟨UInt64.le_refl _, nofun⟩
    · next next hnext =>
      have hlt := lt_of_checkedSucc hnext
      refine ⟨UInt64.le_of_lt hlt, fun response hr => ?_⟩
      cases hr
      exact ⟨rfl, hlt⟩
  | readBarrier => exact hkeep ⟨rfl, nofun⟩
  | put => exact hkeep (s.keepsIds_applyPut ..)
  | delete => exact hkeep (s.keepsIds_applyDelete ..)

end KvState

end Cloud9
