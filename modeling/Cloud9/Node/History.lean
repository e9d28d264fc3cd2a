import Mathlib.Logic.Relation
import Cloud9.Node.Command

/-!
# Executed mutations

Most commands leave the store alone: a mutation whose fields fail their checks, one that its
client's session already knows or has passed, a read barrier. `KvState.executed` picks out the
others, as the source does, by what the session of the client holds afterwards, and
`KvState.history` collects them along a log of commands.

`KvState.apply_applied` says once what a command can do. From it follows that a mutation is executed
at most once (`exactly_once`): until a mutation with a higher sequence number is recorded for its
client, the session answers every repetition (`Executed.Remembered`).
-/

namespace Cloud9

/-- A mutation whose fields have passed the checks that do not look at the state. -/
structure Mutation where
  clientId : UInt64
  sequence : UInt64
  request : MutationRequest
  deriving DecidableEq

/-- A mutation and the result that was recorded for it. -/
structure Executed extends Mutation where
  result : MutationResult
  deriving DecidableEq

def KvCommand.clientId : KvCommand → Option UInt64
  | .put clientId .. | .delete clientId .. => some clientId
  | .registerSession | .readBarrier => none

/-- The mutation that a command with well-formed fields asks for. -/
def KvCommand.mutation : KvCommand → Option Mutation
  | .put clientId sequence nameSpace key body ifMatch ifNoneMatch =>
    (KvState.checkPut clientId sequence nameSpace key body ifMatch ifNoneMatch).toOption.map
      fun name => ⟨clientId, sequence, .put name body ifMatch ifNoneMatch⟩
  | .delete clientId sequence nameSpace key ifMatch =>
    (KvState.checkDelete clientId sequence nameSpace key ifMatch).toOption.map
      fun name => ⟨clientId, sequence, .delete name ifMatch⟩
  | .registerSession | .readBarrier => none

/-- The answer to the client. -/
def MutationResult.answer : MutationResult → ApplyResult
  | .put response => .ok (.put response)
  | .delete response => .ok (.delete response)
  | .rejected rejection => .error rejection.connectError

/-- The result is of the request's kind. -/
def MutationRequest.Fits : MutationRequest → MutationResult → Prop
  | .put .., .delete _ | .delete .., .put _ => False
  | _, _ => True

namespace KvState

/-- The mutation that this command executes: its result is recorded in the session of its client,
which stood at another sequence number before. -/
def executed (s : KvState) (command : KvCommand) : Option Executed :=
  match command.clientId with
  | none => none
  | some clientId =>
    match (s.apply command).1.sessions clientId with
    | some ⟨sequence, some request, some result⟩ =>
      if (s.sessions clientId).map SessionState.sequence = some sequence then none
      else some ⟨⟨clientId, sequence, request⟩, result⟩
    | _ => none

/-- The state after a log of commands. -/
def replay (s : KvState) (commands : List KvCommand) : KvState :=
  commands.foldl (fun s command => (s.apply command).1) s

/-- The mutations that a log of commands executes, in order. -/
def history (s : KvState) : List KvCommand → List Executed
  | [] => []
  | command :: commands => (s.executed command).toList ++ (s.apply command).1.history commands

@[simp] theorem replay_nil (s : KvState) : s.replay [] = s := rfl

@[simp] theorem replay_cons (s : KvState) (command : KvCommand) (commands : List KvCommand) :
    s.replay (command :: commands) = (s.apply command).1.replay commands := rfl

@[simp] theorem replay_append (s : KvState) (l l' : List KvCommand) :
    s.replay (l ++ l') = (s.replay l).replay l' :=
  List.foldl_append

/-- A statement about the history and the state that every command continues. -/
theorem replay_history {I : List Executed → KvState → Prop}
    (hstep : ∀ {past s} command, I past s →
      I (past ++ (s.executed command).toList) (s.apply command).1) (commands : List KvCommand) :
    ∀ {past s}, I past s → I (past ++ s.history commands) (s.replay commands) := by
  induction commands with
  | nil =>
    intro past s hI
    simpa [history] using hI
  | cons command commands ih =>
    intro past s hI
    simpa [history] using ih (hstep command hI)

/-! ## What executing a mutation does -/

/-- The check of a request against the store. -/
def precondition (s : KvState) : MutationRequest → Except MutationRejection Unit
  | .put name _ ifMatch ifNoneMatch => checkPutPreconditions (s.entries name) ifMatch ifNoneMatch
  | .delete name ifMatch =>
    if !ifMatch.isEmpty && (s.entries name).all fun record => decide (ifMatch ≠ record.etag) then
      .error .etagMismatch
    else .ok ()

/-- The response to a delete that found this record. -/
def deleteResponse (name : KvName) : Option KvRecord → DeleteResponse
  | some record => ⟨name.nameSpace, name.key, record.etag, record.generation, true⟩
  | none => ⟨name.nameSpace, name.key, "", 0, false⟩

/-- What executing a request comes to, and the store it leaves. -/
inductive Executes (s : KvState) : MutationRequest → MutationResult → KvState → Prop
  | rejected {request : MutationRequest} {rejection : MutationRejection}
      (hpre : s.precondition request = .error rejection) :
      Executes s request (.rejected rejection) s
  | exhausted {name : KvName} {body : List UInt8} {ifMatch : String} {ifNoneMatch : Bool}
      (hpre : s.precondition (.put name body ifMatch ifNoneMatch) = .ok ()) :
      Executes s (.put name body ifMatch ifNoneMatch) (.rejected .generationExhausted) s
  | put {name : KvName} {body : List UInt8} {ifMatch : String} {ifNoneMatch : Bool}
      {size next : UInt64} (hpre : s.precondition (.put name body ifMatch ifNoneMatch) = .ok ())
      (hnext : checkedSucc s.nextGeneration = some next) :
      Executes s (.put name body ifMatch ifNoneMatch)
        (.put ⟨name.nameSpace, name.key, etagFor s.nextGeneration, s.nextGeneration, size⟩)
        { s with
          nextGeneration := next
          entries := Function.update s.entries name
            (some ⟨body, etagFor s.nextGeneration, s.nextGeneration⟩) }
  | delete {name : KvName} {ifMatch : String}
      (hpre : s.precondition (.delete name ifMatch) = .ok ()) :
      Executes s (.delete name ifMatch) (.delete (deleteResponse name (s.entries name)))
        { s with entries := Function.update s.entries name none }

/-- The session of the client now holds this mutation. -/
def remember (s : KvState) (m : Mutation) (result : MutationResult) : KvState :=
  { s with
    sessions := Function.update s.sessions m.clientId
      (some ⟨m.sequence, some m.request, some result⟩) }

namespace Executes

variable {s s' : KvState} {request : MutationRequest} {result : MutationResult}

theorem fits (h : s.Executes request result s') : request.Fits result := by
  cases h <;> simp [MutationRequest.Fits]

theorem sessions (h : s.Executes request result s') : s'.sessions = s.sessions := by
  cases h <;> rfl

theorem nextClientId (h : s.Executes request result s') : s'.nextClientId = s.nextClientId := by
  cases h <;> rfl

end Executes

/-! ## The session cache -/

theorem cachedMutation_eq_none {session : SessionState} {sequence : UInt64}
    (request : MutationRequest) :
    cachedMutation session sequence request = .ok none ↔ session.sequence < sequence := by
  unfold cachedMutation
  split_ifs with hstale hnew
  · simp only [false_iff]
    exact UInt64.not_lt.2 (UInt64.le_of_lt hstale)
  · simp [hnew]
  · simp only [hnew, iff_false]
    split
    · split_ifs <;> simp
    · simp
    · simp

theorem cachedMutation_of_recorded {sequence : UInt64} {request : MutationRequest}
    {result : MutationResult} :
    cachedMutation ⟨sequence, some request, some result⟩ sequence request = .ok (some result) := by
  simp [cachedMutation, UInt64.lt_irrefl]

/-- The session of the client has not reached this sequence number. -/
def Awaits (s : KvState) (clientId sequence : UInt64) : Prop :=
  ∃ session, s.sessions clientId = some session ∧ session.sequence < sequence

theorem cachedPut_eq_none {s : KvState} {clientId sequence : UInt64} {request : MutationRequest} :
    s.cachedPut clientId sequence request = .ok none ↔ s.Awaits clientId sequence := by
  unfold cachedPut session Awaits
  cases hs : s.sessions clientId with
  | none => simp [bind, Except.bind]
  | some session =>
    simp only [bind, Except.bind, Option.some.injEq, exists_eq_left',
      ← cachedMutation_eq_none request]
    cases cachedMutation session sequence request with
    | error e => simp
    | ok cached => rcases cached with _ | _ | _ | _ <;> simp

theorem cachedDelete_eq_none {s : KvState} {clientId sequence : UInt64}
    {request : MutationRequest} :
    s.cachedDelete clientId sequence request = .ok none ↔ s.Awaits clientId sequence := by
  unfold cachedDelete session Awaits
  cases hs : s.sessions clientId with
  | none => simp [bind, Except.bind]
  | some session =>
    simp only [bind, Except.bind, Option.some.injEq, exists_eq_left',
      ← cachedMutation_eq_none request]
    cases cachedMutation session sequence request with
    | error e => simp
    | ok cached => rcases cached with _ | _ | _ | _ <;> simp

/-- A result is recorded for a registered client. -/
theorem recordResult_eq {s : KvState} {clientId sequence : UInt64}
    (hs : (s.sessions clientId).isSome) (request : MutationRequest) (result : MutationResult)
    (answer : ApplyResult) :
    s.recordResult clientId sequence request result answer =
      (s.remember ⟨clientId, sequence, request⟩ result, answer) := by
  obtain ⟨session, hs⟩ := Option.isSome_iff_exists.1 hs
  simp [recordResult, record, KvState.session, hs, remember]

/-- A recorded result is the answer to a repeated request. -/
theorem apply_of_recorded {s : KvState} {command : KvCommand} {m : Mutation}
    {result : MutationResult} (hm : command.mutation = some m)
    (hs : s.sessions m.clientId = some ⟨m.sequence, some m.request, some result⟩)
    (hfits : m.request.Fits result) : s.apply command = (s, result.answer) := by
  cases command with
  | registerSession => cases hm
  | readBarrier => cases hm
  | put clientId sequence nameSpace key body ifMatch ifNoneMatch =>
    simp only [KvCommand.mutation] at hm
    cases hcheck : checkPut clientId sequence nameSpace key body ifMatch ifNoneMatch with
    | error e => simp [hcheck, Except.toOption] at hm
    | ok name =>
      simp only [hcheck, Except.toOption, Option.map_some, Option.some.injEq] at hm
      subst hm
      simp only [apply, applyPut, hcheck, cachedPut, session, hs, cachedMutation_of_recorded, bind,
        Except.bind]
      cases result with
      | put response => rfl
      | rejected rejection => rfl
      | delete response => exact hfits.elim
  | delete clientId sequence nameSpace key ifMatch =>
    simp only [KvCommand.mutation] at hm
    cases hcheck : checkDelete clientId sequence nameSpace key ifMatch with
    | error e => simp [hcheck, Except.toOption] at hm
    | ok name =>
      simp only [hcheck, Except.toOption, Option.map_some, Option.some.injEq] at hm
      subst hm
      simp only [apply, applyDelete, hcheck, cachedDelete, session, hs, cachedMutation_of_recorded,
        bind, Except.bind]
      cases result with
      | put response => exact hfits.elim
      | rejected rejection => rfl
      | delete response => rfl

/-! ## What applying a command does -/

theorem executed_of_unchanged {s : KvState} {command : KvCommand}
    (h : (s.apply command).1 = s) : s.executed command = none := by
  unfold executed
  rw [h]
  split
  · rfl
  · split
    · next hs => simp [hs]
    · rfl

/-- The body of a checked put has a length. -/
theorem bodyLen_of_checkPut {clientId sequence : UInt64} {nameSpace key ifMatch : String}
    {body : List UInt8} {ifNoneMatch : Bool} {name : KvName}
    (h : checkPut clientId sequence nameSpace key body ifMatch ifNoneMatch = .ok name) :
    ∃ size, bodyLen body = .ok size := by
  have hlen : body.length ≤ maxValueBytes := by
    by_contra hgt
    have hval : validateValue body = .error (.resourceExhausted "value exceeds 65536-byte limit") :=
      if_pos (by omega)
    simp only [checkPut, bind, Except.bind, hval] at h
    split at h
    · cases h
    · split at h <;> cases h
  have hmax : maxValueBytes < 2 ^ 64 := by decide
  exact ⟨_, if_pos (by omega)⟩

/-- Executing a put that its client's session awaits. -/
theorem put_executes {s : KvState} {clientId sequence : UInt64}
    (hs : (s.sessions clientId).isSome) (name : KvName) {body : List UInt8}
    {size : UInt64} (hsize : bodyLen body = .ok size) (ifMatch : String) (ifNoneMatch : Bool) :
    let request := MutationRequest.put name body ifMatch ifNoneMatch
    ∃ result s', s.Executes request result s' ∧
      (match checkPutPreconditions (s.entries name) ifMatch ifNoneMatch with
        | .error rejection => s.reject clientId sequence request rejection
        | .ok () => s.executePut clientId sequence name body request) =
      (s'.remember ⟨clientId, sequence, request⟩ result, result.answer) := by
  intro request
  cases hpre : checkPutPreconditions (s.entries name) ifMatch ifNoneMatch with
  | error rejection => exact ⟨_, _, .rejected hpre, recordResult_eq hs _ _ _⟩
  | ok u =>
    simp only [executePut, hsize]
    cases hnext : checkedSucc s.nextGeneration with
    | none => exact ⟨_, _, .exhausted hpre, recordResult_eq hs _ _ _⟩
    | some next =>
      refine ⟨_, _, .put hpre hnext, recordResult_eq ?_ _ _ _⟩
      exact hs

/-- Executing a delete that its client's session awaits. -/
theorem delete_executes {s : KvState} {clientId sequence : UInt64}
    (hs : (s.sessions clientId).isSome) (name : KvName) (ifMatch : String) :
    let request := MutationRequest.delete name ifMatch
    ∃ result s', s.Executes request result s' ∧
      (if !ifMatch.isEmpty && (s.entries name).all fun record => decide (ifMatch ≠ record.etag) then
        s.reject clientId sequence request .etagMismatch
      else s.executeDelete clientId sequence name request) =
      (s'.remember ⟨clientId, sequence, request⟩ result, result.answer) := by
  intro request
  split
  · next hpre => exact ⟨_, _, .rejected (if_pos hpre), recordResult_eq hs _ _ _⟩
  · next hpre =>
    refine ⟨_, _, .delete (if_neg hpre), ?_⟩
    cases hentry : s.entries name with
    | none =>
      simp only [executeDelete, hentry]
      refine recordResult_eq ?_ _ _ _
      exact hs
    | some record =>
      simp only [executeDelete, hentry]
      refine recordResult_eq ?_ _ _ _
      exact hs

/-- What a command can do: leave the state as it is, register a session, or execute a mutation that
the session of its client awaits. -/
inductive Applied (s : KvState) (command : KvCommand) : Prop
  | unchanged (hstate : (s.apply command).1 = s) (hexec : s.executed command = none)
  | registered {next : UInt64} (hnext : checkedSucc s.nextClientId = some next)
      (hstate : (s.apply command).1 =
        { s with
          nextClientId := next
          sessions := Function.update s.sessions s.nextClientId (some ⟨0, none, none⟩) })
      (hexec : s.executed command = none)
  | executed {m : Mutation} {result : MutationResult} {s' : KvState}
      (hm : command.mutation = some m) (hawaits : s.Awaits m.clientId m.sequence)
      (hexecutes : s.Executes m.request result s')
      (happly : s.apply command = (s'.remember m result, result.answer))
      (hexec : s.executed command = some ⟨m, result⟩)

theorem Applied.of_unchanged {s : KvState} {command : KvCommand} (h : (s.apply command).1 = s) :
    s.Applied command :=
  .unchanged h (executed_of_unchanged h)

theorem Applied.of_executes {s : KvState} {command : KvCommand} {m : Mutation}
    (hm : command.mutation = some m) (hclient : command.clientId = some m.clientId)
    (hawaits : s.Awaits m.clientId m.sequence)
    (h : ∃ result s', s.Executes m.request result s' ∧
      s.apply command = (s'.remember m result, result.answer)) : s.Applied command := by
  obtain ⟨result, s', hexecutes, happly⟩ := h
  refine .executed hm hawaits hexecutes happly ?_
  obtain ⟨session, hs, hlt⟩ := hawaits
  have hne : session.sequence ≠ m.sequence := UInt64.ne_of_lt hlt
  simp [KvState.executed, hclient, happly, remember, hs, hne]

/-- A mutation that its session does not await changes nothing. -/
theorem applyPut_unchanged {s : KvState} {clientId sequence : UInt64} {nameSpace key : String}
    {body : List UInt8} {ifMatch : String} {ifNoneMatch : Bool}
    (h : ¬s.Awaits clientId sequence) :
    (s.applyPut clientId sequence nameSpace key body ifMatch ifNoneMatch).1 = s := by
  unfold applyPut
  split
  · rfl
  · dsimp only
    split
    · rfl
    · rfl
    · next hnone => exact absurd (cachedPut_eq_none.1 hnone) h

theorem applyDelete_unchanged {s : KvState} {clientId sequence : UInt64}
    {nameSpace key ifMatch : String} (h : ¬s.Awaits clientId sequence) :
    (s.applyDelete clientId sequence nameSpace key ifMatch).1 = s := by
  unfold applyDelete
  split
  · rfl
  · dsimp only
    split
    · rfl
    · rfl
    · next hnone => exact absurd (cachedDelete_eq_none.1 hnone) h

theorem Awaits.isSome {s : KvState} {clientId sequence : UInt64} (h : s.Awaits clientId sequence) :
    (s.sessions clientId).isSome := by
  obtain ⟨session, hs, -⟩ := h
  simp [hs]

theorem apply_applied (s : KvState) (command : KvCommand) : s.Applied command := by
  cases command with
  | registerSession =>
    cases hnext : checkedSucc s.nextClientId with
    | none => exact .of_unchanged (by simp [apply, registerSession, hnext])
    | some next => exact .registered hnext (by simp [apply, registerSession, hnext]) rfl
  | readBarrier => exact .of_unchanged rfl
  | put clientId sequence nameSpace key body ifMatch ifNoneMatch =>
    by_cases hawaits : s.Awaits clientId sequence
    · cases hcheck : checkPut clientId sequence nameSpace key body ifMatch ifNoneMatch with
      | error e => exact .of_unchanged (by simp [apply, applyPut, hcheck])
      | ok name =>
        obtain ⟨size, hsize⟩ := bodyLen_of_checkPut hcheck
        refine .of_executes (m := ⟨clientId, sequence, .put name body ifMatch ifNoneMatch⟩)
          (by simp [KvCommand.mutation, hcheck, Except.toOption]) rfl hawaits ?_
        simp only [apply, applyPut, hcheck, cachedPut_eq_none.2 hawaits]
        exact put_executes hawaits.isSome name hsize ifMatch ifNoneMatch
    · exact .of_unchanged (applyPut_unchanged hawaits)
  | delete clientId sequence nameSpace key ifMatch =>
    by_cases hawaits : s.Awaits clientId sequence
    · cases hcheck : checkDelete clientId sequence nameSpace key ifMatch with
      | error e => exact .of_unchanged (by simp [apply, applyDelete, hcheck])
      | ok name =>
        refine .of_executes (m := ⟨clientId, sequence, .delete name ifMatch⟩)
          (by simp [KvCommand.mutation, hcheck, Except.toOption]) rfl hawaits ?_
        simp only [apply, applyDelete, hcheck, cachedDelete_eq_none.2 hawaits]
        exact delete_executes hawaits.isSome name ifMatch
    · exact .of_unchanged (applyDelete_unchanged hawaits)

/-! ## Exactly once -/

/-- Only registered clients have a session. -/
def Registered (s : KvState) : Prop :=
  ∀ clientId, (s.sessions clientId).isSome → clientId < s.nextClientId

theorem registered_new : new.Registered := by
  intro clientId h
  cases h

theorem Registered.apply {s : KvState} (h : s.Registered) (command : KvCommand) :
    (s.apply command).1.Registered := by
  cases s.apply_applied command with
  | unchanged hstate => rwa [hstate]
  | registered hnext hstate =>
    rw [hstate]
    intro clientId hsome
    by_cases hc : clientId = s.nextClientId
    · rw [hc]
      exact lt_of_checkedSucc hnext
    · refine UInt64.lt_trans (h clientId ?_) (lt_of_checkedSucc hnext)
      simpa [Function.update_of_ne hc] using hsome
  | @executed m result s' _ hawaits hexecutes happly =>
    rw [happly]
    intro clientId hsome
    simp only [remember, hexecutes.nextClientId, hexecutes.sessions] at hsome ⊢
    by_cases hc : clientId = m.clientId
    · exact hc ▸ h m.clientId hawaits.isSome
    · exact h clientId (by simpa [Function.update_of_ne hc] using hsome)

theorem Registered.replay {s : KvState} (h : s.Registered) (commands : List KvCommand) :
    (s.replay commands).Registered :=
  @replay_history (fun _ s => s.Registered) (fun command h => h.apply command) commands [] s h

end KvState

namespace Executed

/-- No mutation of the client with a higher sequence number. -/
def Latest (x : Executed) (history : List Executed) : Prop :=
  ∀ y ∈ history, y.clientId = x.clientId → y.sequence ≤ x.sequence

instance (x : Executed) (history : List Executed) : Decidable (x.Latest history) :=
  inferInstanceAs (Decidable (∀ y ∈ history, y.clientId = x.clientId → y.sequence ≤ x.sequence))

/-- The session of the client holds the mutation and its result. -/
structure Remembered (x : Executed) (s : KvState) : Prop where
  session : s.sessions x.clientId = some ⟨x.sequence, some x.request, some x.result⟩
  fits : x.request.Fits x.result

variable {x : Executed} {s : KvState} {command : KvCommand}

theorem remembered (h : s.executed command = some x) :
    command.mutation = some x.toMutation ∧ (s.apply command).2 = x.result.answer ∧
      x.Remembered (s.apply command).1 := by
  cases s.apply_applied command with
  | unchanged _ hexec => simp [hexec] at h
  | registered _ _ hexec => simp [hexec] at h
  | executed hm _ hexecutes happly hexec =>
    rw [hexec] at h
    cases h
    refine ⟨hm, by rw [happly], ?_, hexecutes.fits⟩
    simp [happly, KvState.remember]

/-- A session forgets a mutation only for a later one. -/
theorem Remembered.apply (h : x.Remembered s) (hreg : s.Registered)
    (hlatest : x.Latest (s.executed command).toList) : x.Remembered (s.apply command).1 := by
  refine ⟨?_, h.fits⟩
  cases s.apply_applied command with
  | unchanged hstate => rw [hstate, h.session]
  | registered _ hstate =>
    have hne : x.clientId ≠ s.nextClientId :=
      UInt64.ne_of_lt (hreg x.clientId (by simp [h.session]))
    rw [hstate]
    simp [Function.update_of_ne hne, h.session]
  | @executed m result s' _ hawaits hexecutes happly hexec =>
    have hne : x.clientId ≠ m.clientId := by
      intro hc
      obtain ⟨session, hs, hlt⟩ := hawaits
      rw [← hc, h.session] at hs
      cases hs
      have hle := hlatest ⟨m, result⟩ (by simp [hexec]) hc.symm
      exact UInt64.not_le.2 hlt hle
    rw [happly]
    simp [KvState.remember, hexecutes.sessions, Function.update_of_ne hne, h.session]

theorem Remembered.replay {commands : List KvCommand} : ∀ {s : KvState}, x.Remembered s →
    s.Registered → x.Latest (s.history commands) → x.Remembered (s.replay commands) := by
  induction commands with
  | nil => exact fun h _ _ => h
  | cons command commands ih =>
    intro s h hreg hlatest
    have hhead : x.Latest (s.executed command).toList :=
      fun y hy => hlatest y (List.mem_append_left _ hy)
    have htail : x.Latest ((s.apply command).1.history commands) :=
      fun y hy => hlatest y (List.mem_append_right _ hy)
    exact ih (h.apply hreg hhead) (hreg.apply command) htail

/-- A repetition is answered as the first time and changes nothing. -/
theorem repeated {after : List KvCommand} (hreg : s.Registered)
    (hexec : s.executed command = some x) (hlatest : x.Latest ((s.apply command).1.history after)) :
    ((s.apply command).1.replay after).apply command =
      ((s.apply command).1.replay after, (s.apply command).2) := by
  obtain ⟨hm, hanswer, hrem⟩ := remembered hexec
  have hrem := hrem.replay (hreg.apply command) hlatest
  rw [hanswer]
  exact KvState.apply_of_recorded hm hrem.session hrem.fits

end Executed

/-- The second log repeats, once more, a mutation that the first one executes. -/
inductive Repeats : List KvCommand → List KvCommand → Prop
  | insert {before after rest : List KvCommand} {command : KvCommand} {x : Executed}
      (hexec : (KvState.new.replay before).executed command = some x)
      (hlatest : x.Latest (((KvState.new.replay before).apply command).1.history after)) :
      Repeats (before ++ command :: after ++ rest) (before ++ command :: after ++ command :: rest)

theorem Repeats.replay_eq {log log' : List KvCommand} (h : Repeats log log') :
    KvState.new.replay log' = KvState.new.replay log := by
  obtain ⟨hexec, hlatest⟩ := h
  have hrep := Executed.repeated (KvState.registered_new.replay _) hexec hlatest
  simp [hrep]

/-- **Mutations are executed exactly once.** Once a mutation is executed, and until one with a
higher sequence number is recorded for its client, applying it again gives the first result and
leaves the whole state as it is. So repetitions can be inserted into a log anywhere. -/
theorem exactly_once :
    (∀ {before after : List KvCommand} {command : KvCommand} {x : Executed},
      (KvState.new.replay before).executed command = some x →
      x.Latest (((KvState.new.replay before).apply command).1.history after) →
      let first := (KvState.new.replay before).apply command
      (first.1.replay after).apply command = (first.1.replay after, first.2)) ∧
    ∀ {log log' : List KvCommand}, Relation.ReflTransGen Repeats log log' →
      KvState.new.replay log' = KvState.new.replay log := by
  constructor
  · intro before after command x hexec hlatest
    exact Executed.repeated (KvState.registered_new.replay before) hexec hlatest
  · intro log log' h
    induction h with
    | refl => rfl
    | tail _ hlast ih => rw [hlast.replay_eq, ih]

/-- A put that requires the key to be absent is repeated after another client has deleted the
key. -/
theorem exactly_once_deleted :
    let command := KvCommand.put 1 1 "n" "k" [7] "" true
    let first := (KvState.new.replay [.registerSession]).apply command
    let s := first.1.replay [.registerSession, .delete 2 1 "n" "k" ""]
    s.apply command = (s, first.2) ∧
      first.2 = .ok (.put ⟨"n", "k", "\"c9-1\"", 1, 1⟩) ∧
      KvState.new.replay [.registerSession, command, .registerSession, .delete 2 1 "n" "k" "",
        command] =
      KvState.new.replay [.registerSession, command, .registerSession, .delete 2 1 "n" "k" ""] := by
  intro command first s
  let x : Executed := ⟨⟨1, 1, .put ⟨"n", "k"⟩ [7] "" true⟩, .put ⟨"n", "k", "\"c9-1\"", 1, 1⟩⟩
  have hexec : (KvState.new.replay [.registerSession]).executed command = some x := by
    decide +kernel
  have hlatest : x.Latest (first.1.history [.registerSession, .delete 2 1 "n" "k" ""]) := by
    decide +kernel
  exact ⟨exactly_once.1 hexec hlatest, by decide +kernel,
    exactly_once.2 (.single (@Repeats.insert _ _ [] _ _ hexec hlatest))⟩

end Cloud9
