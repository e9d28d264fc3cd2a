import Cloud9.Lib.Linearizable
import Cloud9.Node.Failed
import Cloud9.Node.Fleet

/-!
# The key-value service

`service.rs`: what clients call. A mutation is checked, proposed, and answered with what applying it
came to. A read is checked and proposes a read barrier; when the barrier has been applied the
handler goes on, takes the lock of the node's own key-value state and looks the key up.

`KvState.serve` is the same service with one copy of the state and one request at a time. The
handlers, up to the point where they wait, run in the call `invoke`; `resume` runs the rest of a
handler whose proposal has been answered, at any later moment. Commands are applied one by one, and
a handler can get the lock between two of them; what it sees is the state after some number of
entries (`Journal.shown`), its own among them. A handler that waits can time out, and its client can
go away.
-/

namespace Cloud9

/-! ## Requests -/

inductive KvRequest where
  | registerSession
  | head (nameSpace key : String)
  | get (nameSpace key : String)
  | put (clientId sequence : UInt64) (nameSpace key : String) (body : List UInt8)
      (ifMatch : String) (ifNoneMatch : Bool)
  | delete (clientId sequence : UInt64) (nameSpace key : String) (ifMatch : String)
  deriving DecidableEq

structure HeadResponse where
  nameSpace : String
  key : String
  etag : String
  generation : UInt64
  size : UInt64
  deriving DecidableEq

structure GetResponse where
  nameSpace : String
  key : String
  etag : String
  generation : UInt64
  size : UInt64
  body : List UInt8
  deriving DecidableEq

inductive KvResponse where
  | registerSession (response : RegisterSessionResponse)
  | head (response : HeadResponse)
  | get (response : GetResponse)
  | put (response : PutResponse)
  | delete (response : DeleteResponse)
  deriving DecidableEq

/-- Only the service itself returns `not_found`. -/
inductive KvError where
  | connect (error : ConnectError)
  | notFound (message : String)
  deriving DecidableEq

abbrev KvAnswer := Except KvError KvResponse

def keyNotFound : KvError := .notFound "key not found"

namespace KvRequest

/-- A handler's checks, and the command it proposes. -/
def command : KvRequest → Except ConnectError KvCommand
  | registerSession => .ok .registerSession
  | head nameSpace key | get nameSpace key => do
    let _ ← KvName.new nameSpace key
    .ok .readBarrier
  | put clientId sequence nameSpace key body ifMatch ifNoneMatch => do
    let _ ← KvState.checkPut clientId sequence nameSpace key body ifMatch ifNoneMatch
    .ok (.put clientId sequence nameSpace key body ifMatch ifNoneMatch)
  | delete clientId sequence nameSpace key ifMatch => do
    let _ ← KvState.checkDelete clientId sequence nameSpace key ifMatch
    .ok (.delete clientId sequence nameSpace key ifMatch)

/-- The requests that only look at the state. -/
def isRead : KvRequest → Bool
  | head .. | get .. => true
  | _ => false

/-- The record of a key, with the length of its body. -/
def lookup (s : KvState) (name : KvName) : Except KvError (KvRecord × UInt64) :=
  match s.entries name with
  | none => .error keyNotFound
  | some record => match bodyLen record.body with
    | .error e => .error (.connect e)
    | .ok size => .ok (record, size)

/-- What a handler makes of the result of its command; the state is what the read lock shows. -/
def response (s : KvState) : KvRequest → KvApplyResult → KvAnswer
  | registerSession, .registerSession response => .ok (.registerSession response)
  | registerSession, _ => .error (.connect (.internal "Raft session command mismatch"))
  | head nameSpace key, .readBarrier => do
    let (record, size) ← lookup s ⟨nameSpace, key⟩
    .ok (.head ⟨nameSpace, key, record.etag, record.generation, size⟩)
  | get nameSpace key, .readBarrier => do
    let (record, size) ← lookup s ⟨nameSpace, key⟩
    .ok (.get ⟨nameSpace, key, record.etag, record.generation, size, record.body⟩)
  | head .., _ | get .., _ => .error (.connect (.internal "Raft read barrier mismatch"))
  | put .., .put response => .ok (.put response)
  | put .., _ => .error (.connect (.internal "Raft put command mismatch"))
  | delete .., .delete response => .ok (.delete response)
  | delete .., _ => .error (.connect (.internal "Raft delete command mismatch"))

def finish (s : KvState) (request : KvRequest) : ApplyResult → KvAnswer
  | .error e => .error (.connect e)
  | .ok result => request.response s result

/-- Only reads look at the state. -/
theorem finish_of_update {request : KvRequest} (h : request.isRead = false) (s s' : KvState)
    (result : ApplyResult) : request.finish s result = request.finish s' result := by
  cases result with
  | error e => rfl
  | ok result => cases request <;> cases result <;> first | rfl | cases h

/-- Reads propose a barrier. -/
theorem command_of_read {request : KvRequest} (h : request.isRead = true) {command : KvCommand}
    (hcommand : request.command = .ok command) : command = .readBarrier := by
  cases request with
  | head nameSpace key | get nameSpace key =>
    obtain ⟨_, -, hok⟩ := bind_eq_ok.1 hcommand
    exact (Except.ok.inj hok).symm
  | _ => cases h

end KvRequest

/-- The service with one copy of the state and one request at a time. -/
def KvState.serve (s : KvState) (request : KvRequest) : KvState × KvAnswer :=
  match request.command with
  | .error e => (s, .error (.connect e))
  | .ok command => ((s.apply command).1, request.finish (s.apply command).1 (s.apply command).2)

def kvObject : SeqObject KvState KvRequest KvAnswer := ⟨KvState.new, KvState.serve⟩

namespace KvState

theorem serve_of_command {request : KvRequest} {command : KvCommand}
    (h : request.command = .ok command) (s : KvState) : s.serve request =
      ((s.apply command).1, request.finish (s.apply command).1 (s.apply command).2) := by
  rw [serve, h]

theorem serve_read {request : KvRequest} (hread : request.isRead = true) {command : KvCommand}
    (h : request.command = .ok command) (s : KvState) :
    s.serve request = (s, request.finish s (.ok .readBarrier)) := by
  obtain rfl := KvRequest.command_of_read hread h
  exact serve_of_command h s

theorem serve_update {request : KvRequest} (hread : request.isRead = false) {command : KvCommand}
    (h : request.command = .ok command) (s s' : KvState) :
    s.serve request = ((s.apply command).1, request.finish s' (s.apply command).2) := by
  rw [serve_of_command h, KvRequest.finish_of_update hread _ s']

end KvState

/-! ## Calls -/

/-- A handler that waits for its proposal, with the answer if it has come. -/
structure OpenCall where
  op : ℕ
  node : NodeId
  request : KvRequest
  ticket : Ticket
  answer : Option ApplyResult

/-- What the proposal with this id is told. -/
def toldTo (id : UInt64) (applied : List Applied) : Option ApplyResult :=
  applied.findSome? fun a => a.answer.bind fun told => if told.1.id = id then some told.2 else none

/-- `Raft proposal was superseded`: the proposal's entry will not be applied. -/
def supersededError : ConnectError := .aborted "Raft proposal was superseded"

namespace OpenCall

/-- The answers that a call of the node's runtime gives. -/
def hear (id : NodeId) (applied : List Applied) (call : OpenCall) : OpenCall :=
  if call.node = id then { call with answer := call.answer <|> toldTo call.ticket.id applied }
  else call

/-- The rest of the handler. -/
def respond (s : KvState) (call : OpenCall) (answer : ApplyResult) :
    ClientEvent ℕ KvRequest KvAnswer KvError :=
  if answer = .error supersededError then
    .refuse call.op (.connect supersededError)
  else .answer call.op (call.request.finish s answer)

/-- The handler is told its answer when the entry at its index has been applied. -/
def wokenBy (call : OpenCall) (applied : List Applied) : Bool :=
  applied.any fun a => decide (a.entry.index = call.ticket.index)

/-- The error of a handler that stops waiting: after five seconds, or when another proposal has
taken its place. -/
def expired (r : Runtime) (call : OpenCall) : ConnectError :=
  if (r.waiters call.ticket.index).any fun pending => decide (pending.id = call.ticket.id) then
    .unavailable "Raft proposal timed out"
  else .aborted "Raft proposal was dropped"

end OpenCall

/-- What the lock of the key-value state shows when the process has applied `k` entries. -/
def Journal.shown (f : Formats) (j : Journal) (k : ℕ) : KvState :=
  replayCommands f ((j.applied.take k).map fun a => a.entry.command)

/-! ## Errors of commands -/

/-- No command returns the error of a superseded proposal. -/
def ConnectError.OfCommand (e : ConnectError) : Prop := e ≠ supersededError

instance (e : ConnectError) : Decidable e.OfCommand := inferInstanceAs (Decidable (_ ≠ _))

theorem validateMutationRequest_ofCommand (clientId sequence : UInt64) :
    ∀ e, validateMutationRequest clientId sequence = .error e → e.OfCommand := by
  intro e h
  unfold validateMutationRequest at h
  split_ifs at h <;> cases h <;> decide

theorem validateEtag_ofCommand (etag : String) :
    ∀ e, validateEtag etag = .error e → e.OfCommand := by
  intro e h
  unfold validateEtag at h
  split_ifs at h
  cases h
  decide

theorem KvName.new_ofCommand (nameSpace key : String) :
    ∀ e, KvName.new nameSpace key = .error e → e.OfCommand := by
  intro e h
  unfold KvName.new at h
  split_ifs at h <;> cases h <;> decide

namespace KvState

theorem checkPut_ofCommand (clientId sequence : UInt64) (nameSpace key : String) (body : List UInt8)
    (ifMatch : String) (ifNoneMatch : Bool) :
    ∀ e, checkPut clientId sequence nameSpace key body ifMatch ifNoneMatch = .error e →
      e.OfCommand := by
  refine error_of_bind (validateMutationRequest_ofCommand clientId sequence) fun _ =>
    error_of_bind (error_of_bind (validateEtag_ofCommand ifMatch) fun _ e h => ?_) fun _ =>
      error_of_bind (fun e h => ?_) fun _ => KvName.new_ofCommand nameSpace key
  · split_ifs at h
    · cases h
      decide
    · cases h
  · unfold validateValue at h
    split_ifs at h
    cases h
    decide

theorem checkDelete_ofCommand (clientId sequence : UInt64) (nameSpace key ifMatch : String) :
    ∀ e, checkDelete clientId sequence nameSpace key ifMatch = .error e → e.OfCommand :=
  error_of_bind (validateMutationRequest_ofCommand clientId sequence) fun _ =>
    error_of_bind (validateEtag_ofCommand ifMatch) fun _ => KvName.new_ofCommand nameSpace key

theorem session_ofCommand (s : KvState) (clientId : UInt64) :
    ∀ e, s.session clientId = .error e → e.OfCommand := by
  intro e h
  unfold session at h
  split at h <;> cases h
  decide

theorem cachedMutation_ofCommand (session : SessionState) (sequence : UInt64)
    (request : MutationRequest) :
    ∀ e, cachedMutation session sequence request = .error e → e.OfCommand := by
  intro e h
  unfold cachedMutation at h
  split_ifs at h
  · cases h
    decide
  · split at h
    · split_ifs at h
      cases h
      decide
    · cases h
      decide
    · cases h
      decide

theorem connectError_ofCommand (rejection : MutationRejection) :
    rejection.connectError.OfCommand := by
  cases rejection <;> decide

theorem cachedPut_ofCommand (s : KvState) (clientId sequence : UInt64) (request : MutationRequest) :
    ∀ e, s.cachedPut clientId sequence request = .error e → e.OfCommand := by
  refine error_of_bind (s.session_ofCommand clientId) fun session =>
    error_of_bind (cachedMutation_ofCommand session sequence request) fun cached e h => ?_
  split at h <;> cases h
  · exact connectError_ofCommand _
  · decide

theorem cachedDelete_ofCommand (s : KvState) (clientId sequence : UInt64)
    (request : MutationRequest) :
    ∀ e, s.cachedDelete clientId sequence request = .error e → e.OfCommand := by
  refine error_of_bind (s.session_ofCommand clientId) fun session =>
    error_of_bind (cachedMutation_ofCommand session sequence request) fun cached e h => ?_
  split at h <;> cases h
  · exact connectError_ofCommand _
  · decide

theorem recordResult_ofCommand (s : KvState) (clientId sequence : UInt64)
    (request : MutationRequest) (result : MutationResult) {answer : ApplyResult}
    (hanswer : ∀ e, answer = .error e → e.OfCommand) :
    ∀ e, (s.recordResult clientId sequence request result answer).2 = .error e → e.OfCommand := by
  intro e h
  unfold recordResult record at h
  cases hsession : s.session clientId with
  | error e' =>
    simp only [hsession, Except.error.injEq] at h
    exact h ▸ s.session_ofCommand clientId e' hsession
  | ok session =>
    simp only [hsession] at h
    exact hanswer e h

theorem reject_ofCommand (s : KvState) (clientId sequence : UInt64) (request : MutationRequest)
    (rejection : MutationRejection) :
    ∀ e, (s.reject clientId sequence request rejection).2 = .error e → e.OfCommand :=
  s.recordResult_ofCommand _ _ _ _ fun _ h => Except.error.inj h ▸ connectError_ofCommand rejection

theorem applyPut_ofCommand (s : KvState) (clientId sequence : UInt64) (nameSpace key : String)
    (body : List UInt8) (ifMatch : String) (ifNoneMatch : Bool) :
    ∀ e, (s.applyPut clientId sequence nameSpace key body ifMatch ifNoneMatch).2 = .error e →
      e.OfCommand := by
  intro e h
  unfold applyPut at h
  split at h
  · next hcheck => exact Except.error.inj h ▸ checkPut_ofCommand _ _ _ _ _ _ _ _ hcheck
  · dsimp only at h
    split at h
    · next hcached => exact Except.error.inj h ▸ s.cachedPut_ofCommand _ _ _ _ hcached
    · cases h
    · split at h
      · exact s.reject_ofCommand _ _ _ _ e h
      · unfold executePut at h
        split at h
        · next hlen =>
          unfold bodyLen at hlen
          split_ifs at hlen
          cases hlen
          cases h
          decide
        · split at h
          · exact s.reject_ofCommand _ _ _ _ e h
          · exact recordResult_ofCommand _ _ _ _ _ (fun _ h => by cases h) e h

theorem applyDelete_ofCommand (s : KvState) (clientId sequence : UInt64)
    (nameSpace key ifMatch : String) :
    ∀ e, (s.applyDelete clientId sequence nameSpace key ifMatch).2 = .error e → e.OfCommand := by
  intro e h
  unfold applyDelete at h
  split at h
  · next hcheck => exact Except.error.inj h ▸ checkDelete_ofCommand _ _ _ _ _ _ hcheck
  · dsimp only at h
    split at h
    · next hcached => exact Except.error.inj h ▸ s.cachedDelete_ofCommand _ _ _ _ hcached
    · cases h
    · split at h
      · exact s.reject_ofCommand _ _ _ _ e h
      · exact recordResult_ofCommand _ _ _ _ _ (fun _ h => by cases h) e h

theorem apply_ne_superseded (s : KvState) (command : KvCommand) :
    (s.apply command).2 ≠ .error supersededError := by
  intro h
  cases command with
  | registerSession =>
    simp only [apply, registerSession] at h
    split at h
    · exact absurd (Except.error.inj h) (by decide)
    · cases h
  | readBarrier => cases h
  | put => exact s.applyPut_ofCommand _ _ _ _ _ _ _ _ h rfl
  | delete => exact s.applyDelete_ofCommand _ _ _ _ _ _ h rfl

end KvState

/-! ## The nodes together -/

/-- One input of one runtime, with its report. -/
def Fleet.perform (f : Formats) (fl : Fleet) (id : NodeId) (input : RuntimeInput) :
    Option (Fleet × Report) :=
  if fl.possible f id input then
    ((fl.nodes id).call f input).map fun (r, report) =>
      (fl.next id ((fl.nodes id).next input r report) report, report)
  else none

theorem Fleet.perform_eq_some {f : Formats} {fl fl' : Fleet} {id : NodeId} {input : RuntimeInput}
    {report : Report} : fl.perform f id input = some (fl', report) ↔
      fl.possible f id input = true ∧ ∃ r, (fl.nodes id).call f input = some (r, report) ∧
        fl' = fl.next id ((fl.nodes id).next input r report) report := by
  unfold perform
  split_ifs with hposs
  · simp only [hposs, true_and, Option.map_eq_some_iff, Prod.exists, Prod.mk.injEq]
    constructor
    · rintro ⟨r, report', hcall, rfl, rfl⟩
      exact ⟨r, hcall, rfl⟩
    · rintro ⟨r, hcall, rfl⟩
      exact ⟨r, report, hcall, rfl, rfl⟩
  · simp only [hposs, false_and, reduceCtorEq]

/-- The runtimes, the handlers that wait, and what the clients have seen. -/
structure Service where
  fleet : Fleet
  calls : List OpenCall
  nextOp : ℕ
  history : List (ClientEvent ℕ KvRequest KvAnswer KvError)

inductive ServiceInput where
  | invoke (id : NodeId) (request : KvRequest) (env : CallEnv)
  | tick (id : NodeId) (env : CallEnv)
  | receive (id : NodeId) (message : Message) (env : CallEnv)
  | restart (id : NodeId) (d : Dir)
  /-- The handler gets the lock after `k` entries. -/
  | resume (op k : ℕ)
  | expire (op : ℕ)
  /-- The client goes away. -/
  | abandon (op : ℕ)

namespace Service

def init (D : Deployment) : Service := ⟨Fleet.init D, [], 0, []⟩

/-- The handler that waits for a new proposal. -/
def opened (op : ℕ) (id : NodeId) (request : KvRequest) (report : Report) : List OpenCall :=
  match report.result, report.ticket with
  | .waiting, some ticket => [⟨op, id, request, ticket, none⟩]
  | _, _ => []

/-- What the client is told when the proposal fails. An error after the entry was appended says
nothing about the entry. -/
def failure (op : ℕ) (report : Report) : List (ClientEvent ℕ KvRequest KvAnswer KvError) :=
  match report.result, report.ticket with
  | .refused e, none => [.refuse op (.connect e)]
  | .refused e, some _ => [.lose op (.connect e)]
  | _, _ => []

/-- A request arrives. -/
def invoke (f : Formats) (s : Service) (id : NodeId) (request : KvRequest) (env : CallEnv) :
    Option Service :=
  let history := s.history ++ [.call s.nextOp request]
  match request.command with
  | .error e => some { s with
      nextOp := s.nextOp + 1
      history := history ++ [.refuse s.nextOp (.connect e)] }
  | .ok command => (s.fleet.perform f id (.propose command env)).map fun (fleet, report) =>
    { fleet
      calls := (s.calls ++ opened s.nextOp id request report).map (OpenCall.hear id report.applied)
      nextOp := s.nextOp + 1
      history := history ++ failure s.nextOp report }

/-- A tick or a message. -/
def drive (f : Formats) (s : Service) (id : NodeId) (input : RuntimeInput) : Option Service :=
  (s.fleet.perform f id input).map fun (fleet, report) =>
    { s with fleet, calls := s.calls.map (OpenCall.hear id report.applied) }

/-- A process starts again, without the handlers of the old one. -/
def restart (f : Formats) (s : Service) (id : NodeId) (d : Dir) : Option Service :=
  (s.fleet.perform f id (.restart d)).map fun (fleet, _) =>
    { s with fleet, calls := s.calls.filter fun call => call.node ≠ id }

def call? (s : Service) (op : ℕ) : Option OpenCall := s.calls.find? fun call => call.op = op

/-- A handler ends: its proposal does not wait any more. -/
def close (f : Formats) (s : Service) (call : OpenCall)
    (events : List (ClientEvent ℕ KvRequest KvAnswer KvError)) : Option Service :=
  (s.fleet.perform f call.node (.giveUp call.ticket.index call.ticket.id)).map fun (fleet, _) =>
    { s with
      fleet
      calls := s.calls.filter fun other => other.op ≠ call.op
      history := s.history ++ events }

def step (f : Formats) (s : Service) : ServiceInput → Option Service
  | .invoke id request env => s.invoke f id request env
  | .tick id env => s.drive f id (.tick env)
  | .receive id message env => s.drive f id (.receive message env)
  | .restart id d => s.restart f id d
  | .resume op k => (s.call? op).bind fun call => call.answer.bind fun answer =>
    let j := s.fleet.nodes call.node
    if call.wokenBy (j.applied.take k) then s.close f call [call.respond (j.shown f k) answer]
    else none
  | .expire op => (s.call? op).bind fun call =>
    if call.answer.isNone then
      s.close f call
        [.lose op (.connect (call.expired (s.fleet.nodes call.node).runtime))]
    else none
  | .abandon op => (s.call? op).bind fun call => s.close f call []

/-- Run a list of inputs, each of which is allowed in the state it meets. -/
def run (f : Formats) (ok : Service → ServiceInput → Bool) (s : Service)
    (inputs : List ServiceInput) : Option Service := runWhile (step f) ok s inputs

end Service

end Cloud9
