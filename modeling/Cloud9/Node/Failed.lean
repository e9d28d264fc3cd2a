import Cloud9.Node.History

/-!
# Failed commands

`apply_put` and `apply_delete` change the entries before they look up the session a second time, and
their cache has branches for sessions that hold a request without a result or a result of the wrong
kind. In a state that commands have led to, none of this matters: a session is fresh or holds a
mutation with a result of its kind (`KvState.Kept`), so those branches are dead, and a command that
fails has changed nothing but, for a rejection, the session of its own client
(`failed_command_changes_session_only`).
-/

namespace Cloud9

/-- A session is fresh, or holds a mutation with a result of its kind. -/
inductive SessionState.Kept : SessionState → Prop
  | fresh : Kept ⟨0, none, none⟩
  | recorded {sequence : UInt64} {request : MutationRequest} {result : MutationResult}
      (hfits : request.Fits result) : Kept ⟨sequence, some request, some result⟩

/-- Neither an internal error nor one about a missing session. -/
def ConnectError.Ordinary (e : ConnectError) : Prop :=
  e.code ≠ .internal ∧ e ≠ .invalidArgument "unknown client session"

instance (e : ConnectError) : Decidable e.Ordinary :=
  inferInstanceAs (Decidable (_ ∧ _))

/-! ## The checks of the fields -/

/-- The errors of a sequence of two checks are those of the checks. -/
theorem error_of_bind {ε α β : Type} {P : ε → Prop} {x : Except ε α} {f : α → Except ε β}
    (hx : ∀ e, x = .error e → P e) (hf : ∀ a e, f a = .error e → P e) :
    ∀ e, (x >>= f) = .error e → P e := by
  intro e h
  cases x with
  | error e' => exact hx e (by simpa [bind, Except.bind] using h)
  | ok a => exact hf a e (by simpa [bind, Except.bind] using h)

theorem validateMutationRequest_ordinary (clientId sequence : UInt64) :
    ∀ e, validateMutationRequest clientId sequence = .error e → e.Ordinary := by
  intro e h
  unfold validateMutationRequest at h
  split_ifs at h <;> cases h <;> decide

theorem validateEtag_ordinary (etag : String) :
    ∀ e, validateEtag etag = .error e → e.Ordinary := by
  intro e h
  unfold validateEtag at h
  split_ifs at h
  cases h
  decide

theorem validatePutPreconditions_ordinary (ifMatch : String) (ifNoneMatch : Bool) :
    ∀ e, validatePutPreconditions ifMatch ifNoneMatch = .error e → e.Ordinary := by
  refine error_of_bind (validateEtag_ordinary ifMatch) fun _ e h => ?_
  split_ifs at h
  · cases h
    decide
  · cases h

theorem validateValue_ordinary (body : List UInt8) :
    ∀ e, validateValue body = .error e → e.Ordinary := by
  intro e h
  unfold validateValue at h
  split_ifs at h
  cases h
  decide

theorem KvName.new_ordinary (nameSpace key : String) :
    ∀ e, KvName.new nameSpace key = .error e → e.Ordinary := by
  intro e h
  unfold KvName.new at h
  split_ifs at h <;> cases h <;> decide

namespace KvState

theorem checkPut_ordinary (clientId sequence : UInt64) (nameSpace key : String) (body : List UInt8)
    (ifMatch : String) (ifNoneMatch : Bool) :
    ∀ e, checkPut clientId sequence nameSpace key body ifMatch ifNoneMatch = .error e →
      e.Ordinary :=
  error_of_bind (validateMutationRequest_ordinary clientId sequence) fun _ =>
    error_of_bind (validatePutPreconditions_ordinary ifMatch ifNoneMatch) fun _ =>
      error_of_bind (validateValue_ordinary body) fun _ => KvName.new_ordinary nameSpace key

theorem checkDelete_ordinary (clientId sequence : UInt64) (nameSpace key ifMatch : String) :
    ∀ e, checkDelete clientId sequence nameSpace key ifMatch = .error e → e.Ordinary :=
  error_of_bind (validateMutationRequest_ordinary clientId sequence) fun _ =>
    error_of_bind (validateEtag_ordinary ifMatch) fun _ => KvName.new_ordinary nameSpace key

/-- A request that has passed its first check has a positive sequence number. -/
theorem sequence_ne_zero_of_bind {clientId sequence : UInt64}
    {next : Unit → Except ConnectError KvName} {name : KvName}
    (h : (validateMutationRequest clientId sequence >>= next) = .ok name) : sequence ≠ 0 := by
  obtain ⟨_, hvalid, _⟩ := bind_eq_ok.1 h
  unfold validateMutationRequest at hvalid
  split_ifs at hvalid with _ hseq
  exact hseq

/-! ## The session cache -/

/-- Every session is fresh or holds a mutation with a result of its kind. -/
def Kept (s : KvState) : Prop :=
  ∀ clientId session, s.sessions clientId = some session → session.Kept

theorem kept_new : new.Kept := by
  intro clientId session h
  cases h

/-- One session is replaced by one that is well kept. -/
theorem Kept.update {s s' : KvState} (h : s.Kept) {clientId : UInt64} {session : SessionState}
    (hsession : session.Kept)
    (hs' : s'.sessions = Function.update s.sessions clientId (some session)) : s'.Kept := by
  intro c held hheld
  rw [hs'] at hheld
  by_cases hc : c = clientId
  · subst hc
    rw [Function.update_self] at hheld
    cases hheld
    exact hsession
  · rw [Function.update_of_ne hc] at hheld
    exact h c held hheld

theorem Kept.apply {s : KvState} (h : s.Kept) (command : KvCommand) :
    (s.apply command).1.Kept := by
  cases s.apply_applied command with
  | unchanged hstate => rwa [hstate]
  | registered _ hstate =>
    refine @Kept.update _ _ h s.nextClientId _ .fresh ?_
    rw [hstate]
  | @executed m _ _ _ _ hexecutes happly =>
    refine @Kept.update _ _ h m.clientId ⟨m.sequence, _, _⟩ (.recorded hexecutes.fits) ?_
    rw [happly]
    simp only [remember, hexecutes.sessions]

theorem Kept.replay {s : KvState} (h : s.Kept) (commands : List KvCommand) :
    (s.replay commands).Kept :=
  @replay_history (fun _ s => s.Kept) (fun command h => h.apply command) commands [] s h

end KvState

/-- What a session that is well kept remembers of a request. -/
theorem SessionState.Kept.cachedMutation {session : SessionState} (h : session.Kept)
    {sequence : UInt64} (hseq : sequence ≠ 0) (request : MutationRequest) :
    (∃ message, cachedMutation session sequence request = .error (.aborted message)) ∨
      cachedMutation session sequence request = .ok none ∨
      ∃ result, cachedMutation session sequence request = .ok (some result) ∧
        request.Fits result := by
  unfold Cloud9.cachedMutation
  cases h with
  | fresh =>
    have hpos : 0 < sequence := UInt64.pos_iff_ne_zero.2 hseq
    exact .inr (.inl (by simp [hpos]))
  | @recorded _ cached result hfits =>
    split_ifs with hstale hnew
    · exact .inl ⟨_, rfl⟩
    · exact .inr (.inl rfl)
    · dsimp only
      split_ifs with heq
      · exact .inr (.inr ⟨result, rfl, heq ▸ hfits⟩)
      · exact .inl ⟨_, rfl⟩

namespace KvState

variable {s : KvState}

/-- An error that is not internal, and is about a missing session only if there is none. -/
def Explained (s : KvState) (clientId : UInt64) (e : ConnectError) : Prop :=
  e.code ≠ .internal ∧
    (e = .invalidArgument "unknown client session" → s.sessions clientId = none)

theorem Explained.of_ordinary {clientId : UInt64} {e : ConnectError} (h : e.Ordinary) :
    s.Explained clientId e :=
  ⟨h.1, fun he => absurd he h.2⟩

theorem connectError_ordinary (rejection : MutationRejection) :
    rejection.connectError.Ordinary := by
  cases rejection <;> decide

theorem aborted_ordinary (message : String) : (ConnectError.aborted message).Ordinary :=
  ⟨by simp [ConnectError.aborted], by simp [ConnectError.aborted, ConnectError.invalidArgument]⟩

/-- `cachedPut` and `cachedDelete` differ in the answer they make of a result. -/
theorem Kept.cached_explained {α : Type} (h : s.Kept) {clientId sequence : UInt64}
    (hseq : sequence ≠ 0) {request : MutationRequest}
    {answer : Option MutationResult → Except ConnectError α} (hnone : ∀ e, answer none ≠ .error e)
    (hsome : ∀ result e, request.Fits result → answer (some result) = .error e → e.Ordinary)
    {e : ConnectError}
    (herr : (s.session clientId >>= fun session =>
      cachedMutation session sequence request >>= answer) = .error e) : s.Explained clientId e := by
  cases hs : s.sessions clientId with
  | none =>
    simp only [session, hs, bind, Except.bind] at herr
    cases herr
    exact ⟨by decide, fun _ => hs⟩
  | some session =>
    simp only [KvState.session, hs, bind, Except.bind] at herr
    obtain ⟨message, hm⟩ | hm | ⟨result, hm, hfits⟩ :=
      (h clientId session hs).cachedMutation hseq request
    all_goals simp only [hm] at herr
    · cases herr
      exact .of_ordinary (aborted_ordinary message)
    · exact absurd herr (hnone e)
    · exact .of_ordinary (hsome result e hfits herr)

theorem Kept.cachedPut_explained (h : s.Kept) {clientId sequence : UInt64} (hseq : sequence ≠ 0)
    {name : KvName} {body : List UInt8} {ifMatch : String} {ifNoneMatch : Bool} {e : ConnectError}
    (herr : s.cachedPut clientId sequence (.put name body ifMatch ifNoneMatch) = .error e) :
    s.Explained clientId e := by
  refine h.cached_explained hseq (fun e he => by cases he) (fun result e hfits he => ?_) herr
  cases result with
  | put => cases he
  | delete => exact hfits.elim
  | rejected rejection =>
    cases he
    exact connectError_ordinary rejection

theorem Kept.cachedDelete_explained (h : s.Kept) {clientId sequence : UInt64} (hseq : sequence ≠ 0)
    {name : KvName} {ifMatch : String} {e : ConnectError}
    (herr : s.cachedDelete clientId sequence (.delete name ifMatch) = .error e) :
    s.Explained clientId e := by
  refine h.cached_explained hseq (fun e he => by cases he) (fun result e hfits he => ?_) herr
  cases result with
  | put => exact hfits.elim
  | delete => cases he
  | rejected rejection =>
    cases he
    exact connectError_ordinary rejection

/-! ## How a command fails -/

theorem answer_eq_error {result : MutationResult} {e : ConnectError}
    (h : result.answer = .error e) :
    ∃ rejection, result = .rejected rejection ∧ e = rejection.connectError := by
  cases result with
  | put => cases h
  | delete => cases h
  | rejected rejection =>
    cases h
    exact ⟨rejection, rfl, rfl⟩

/-- A rejected mutation has not touched the store. -/
theorem Executes.of_rejected {s' : KvState} {request : MutationRequest}
    {rejection : MutationRejection} (h : s.Executes request (.rejected rejection) s') :
    s' = s ∧ (s.precondition request = .error rejection ∨ rejection = .generationExhausted) := by
  cases h with
  | rejected hpre => exact ⟨rfl, .inl hpre⟩
  | exhausted => exact ⟨rfl, .inr rfl⟩

/-- How a command fails: it changes nothing, or it is rejected and its client's session says so. -/
inductive Fails (s : KvState) (command : KvCommand) (e : ConnectError) : Prop
  | unchanged (hstate : (s.apply command).1 = s) (hcode : e.code ≠ .internal)
      (hunknown : e = .invalidArgument "unknown client session" →
        ∃ clientId, command.clientId = some clientId ∧ s.sessions clientId = none)
  | rejected {m : Mutation} {rejection : MutationRejection} (hm : command.mutation = some m)
      (hawaits : s.Awaits m.clientId m.sequence)
      (hcause : s.precondition m.request = .error rejection ∨ rejection = .generationExhausted)
      (he : e = rejection.connectError)
      (hstate : (s.apply command).1 = s.remember m (.rejected rejection))

theorem Fails.of_explained {command : KvCommand} {clientId : UInt64} {e : ConnectError}
    (hclient : command.clientId = some clientId) (hstate : (s.apply command).1 = s)
    (h : s.Explained clientId e) : s.Fails command e :=
  .unchanged hstate h.1 fun he => ⟨clientId, hclient, h.2 he⟩

theorem Fails.of_executes {command : KvCommand} {m : Mutation} {e : ConnectError}
    (hm : command.mutation = some m) (hawaits : s.Awaits m.clientId m.sequence)
    (h : ∃ result s', s.Executes m.request result s' ∧
      s.apply command = (s'.remember m result, result.answer))
    (herr : (s.apply command).2 = .error e) : s.Fails command e := by
  obtain ⟨result, s', hexecutes, happly⟩ := h
  rw [happly] at herr
  obtain ⟨rejection, rfl, he⟩ := answer_eq_error herr
  obtain ⟨rfl, hcause⟩ := hexecutes.of_rejected
  exact .rejected hm hawaits hcause he (by rw [happly])

theorem Kept.fails (h : s.Kept) {command : KvCommand} {e : ConnectError}
    (herr : (s.apply command).2 = .error e) : s.Fails command e := by
  cases command with
  | registerSession =>
    cases hnext : checkedSucc s.nextClientId with
    | some next => simp [KvState.apply, registerSession, hnext] at herr
    | none =>
      simp only [KvState.apply, registerSession, hnext, Except.error.injEq] at herr
      subst herr
      exact .unchanged (by simp [KvState.apply, registerSession, hnext]) (by decide)
        fun he => absurd he (by decide)
  | readBarrier => cases herr
  | put clientId sequence nameSpace key body ifMatch ifNoneMatch =>
    cases hcheck : checkPut clientId sequence nameSpace key body ifMatch ifNoneMatch with
    | error e' =>
      simp only [KvState.apply, applyPut, hcheck, Except.error.injEq] at herr
      subst herr
      exact .of_explained rfl (by simp [KvState.apply, applyPut, hcheck])
        (.of_ordinary (checkPut_ordinary _ _ _ _ _ _ _ _ hcheck))
    | ok name =>
      cases hcached : s.cachedPut clientId sequence (.put name body ifMatch ifNoneMatch) with
      | error e' =>
        simp only [KvState.apply, applyPut, hcheck, hcached, Except.error.injEq] at herr
        subst herr
        exact .of_explained rfl (by simp [KvState.apply, applyPut, hcheck, hcached])
          (h.cachedPut_explained (sequence_ne_zero_of_bind hcheck) hcached)
      | ok cached =>
        cases cached with
        | some response => simp [KvState.apply, applyPut, hcheck, hcached] at herr
        | none =>
          have hawaits := cachedPut_eq_none.1 hcached
          obtain ⟨size, hsize⟩ := bodyLen_of_checkPut hcheck
          refine .of_executes (m := ⟨clientId, sequence, .put name body ifMatch ifNoneMatch⟩)
            (by simp [KvCommand.mutation, hcheck, Except.toOption]) hawaits ?_ herr
          simp only [KvState.apply, applyPut, hcheck, hcached]
          exact put_executes hawaits.isSome name hsize ifMatch ifNoneMatch
  | delete clientId sequence nameSpace key ifMatch =>
    cases hcheck : checkDelete clientId sequence nameSpace key ifMatch with
    | error e' =>
      simp only [KvState.apply, applyDelete, hcheck, Except.error.injEq] at herr
      subst herr
      exact .of_explained rfl (by simp [KvState.apply, applyDelete, hcheck])
        (.of_ordinary (checkDelete_ordinary _ _ _ _ _ _ hcheck))
    | ok name =>
      cases hcached : s.cachedDelete clientId sequence (.delete name ifMatch) with
      | error e' =>
        simp only [KvState.apply, applyDelete, hcheck, hcached, Except.error.injEq] at herr
        subst herr
        exact .of_explained rfl (by simp [KvState.apply, applyDelete, hcheck, hcached])
          (h.cachedDelete_explained (sequence_ne_zero_of_bind hcheck) hcached)
      | ok cached =>
        cases cached with
        | some response => simp [KvState.apply, applyDelete, hcheck, hcached] at herr
        | none =>
          have hawaits := cachedDelete_eq_none.1 hcached
          refine .of_executes (m := ⟨clientId, sequence, .delete name ifMatch⟩)
            (by simp [KvCommand.mutation, hcheck, Except.toOption]) hawaits ?_ herr
          simp only [KvState.apply, applyDelete, hcheck, hcached]
          exact delete_executes hawaits.isSome name ifMatch

end KvState

end Cloud9
