import Cloud9.Node.Etag
import Cloud9.Node.Replicas

/-!
# Retries

A client that does not hear back sends its mutation again, to the same node or to another one, and
may then be answered more than once. In a cluster of runtimes in which accepted append requests are
verified, the answers agree:

* `retries_agree`: acknowledged mutations with the same client id and sequence number are the same
  request, and were given the same result.
* `etags_identify`: acknowledged puts carry the same entity tag exactly when they are the same
  mutation.

Every acknowledged mutation was executed once, somewhere on the list of decided entries
(`Fleet.Agrees.acked_executed`): either by its own entry, or by an earlier one that the session of
the client still remembers. `Logged` is the invariant that ties the sessions to the executed
mutations.
-/

namespace Cloud9

open World

/-! ## Sessions and the mutations they remember -/

theorem KvState.history_append (l l' : List KvCommand) : ∀ s : KvState,
    s.history (l ++ l') = s.history l ++ (s.replay l).history l' := by
  induction l with
  | nil => exact fun s => rfl
  | cons command l ih =>
    intro s
    simp [KvState.history, ih]

/-- What a session remembers was executed, and each client numbers its mutations upwards, to where
its session stands. -/
structure Logged (past : List Executed) (s : KvState) : Prop where
  registered : s.Registered
  recorded : ∀ {clientId sequence request result},
    s.sessions clientId = some ⟨sequence, some request, some result⟩ →
      ⟨⟨clientId, sequence, request⟩, result⟩ ∈ past
  reached : ∀ x ∈ past, ∃ session, s.sessions x.clientId = some session ∧
    x.sequence ≤ session.sequence
  upwards : past.Pairwise fun x y => x.clientId = y.clientId → x.sequence < y.sequence

namespace Logged

variable {past : List Executed} {s s' : KvState}

theorem new : Logged [] KvState.new where
  registered := KvState.registered_new
  recorded h := by cases h
  reached _ hmem := absurd hmem List.not_mem_nil
  upwards := .nil

/-- A client registers. -/
theorem register (h : Logged past s) (hreg : s'.Registered)
    (hsessions : s'.sessions = Function.update s.sessions s.nextClientId (some ⟨0, none, none⟩)) :
    Logged past s' := by
  refine ⟨hreg, fun {clientId sequence request result} hs => ?_, fun x hx => ?_, h.upwards⟩
  · rw [hsessions] at hs
    rcases eq_or_ne clientId s.nextClientId with rfl | hne
    · simp at hs
    · rw [Function.update_of_ne hne] at hs
      exact h.recorded hs
  · obtain ⟨session, hs, hle⟩ := h.reached x hx
    have hne : x.clientId ≠ s.nextClientId :=
      UInt64.ne_of_lt (h.registered x.clientId (by simp [hs]))
    rw [hsessions, Function.update_of_ne hne]
    exact ⟨session, hs, hle⟩

/-- A mutation that its client's session awaits is executed. -/
theorem execute (h : Logged past s) {m : Mutation} {result : MutationResult}
    (hawaits : s.Awaits m.clientId m.sequence) (hreg : s'.Registered)
    (hsessions : s'.sessions = Function.update s.sessions m.clientId
      (some ⟨m.sequence, some m.request, some result⟩)) :
    Logged (past ++ [⟨m, result⟩]) s' := by
  obtain ⟨session, hs, hlt⟩ := hawaits
  have hbelow : ∀ x ∈ past, x.clientId = m.clientId → x.sequence < m.sequence := by
    intro x hx hc
    obtain ⟨session', hs', hle⟩ := h.reached x hx
    rw [hc, hs, Option.some.injEq] at hs'
    subst hs'
    exact UInt64.lt_of_le_of_lt hle hlt
  refine ⟨hreg, fun {clientId sequence request result'} hrec => ?_, fun x hx => ?_, ?_⟩
  · rw [hsessions] at hrec
    rcases eq_or_ne clientId m.clientId with rfl | hne
    · simp only [Function.update_self, Option.some.injEq, SessionState.mk.injEq] at hrec
      obtain ⟨rfl, rfl, rfl⟩ := hrec
      exact List.mem_append_right _ (List.mem_singleton.2 rfl)
    · rw [Function.update_of_ne hne] at hrec
      exact List.mem_append_left _ (h.recorded hrec)
  · rw [hsessions]
    rcases List.mem_append.1 hx with hold | hnew
    · rcases eq_or_ne x.clientId m.clientId with hc | hne
      · rw [hc, Function.update_self]
        exact ⟨_, rfl, UInt64.le_of_lt (hbelow x hold hc)⟩
      · rw [Function.update_of_ne hne]
        exact h.reached x hold
    · rw [List.mem_singleton.1 hnew, Function.update_self]
      exact ⟨_, rfl, UInt64.le_refl _⟩
  · refine List.pairwise_append.2 ⟨h.upwards, List.pairwise_singleton _ _, fun x hx y hy => ?_⟩
    rw [List.mem_singleton.1 hy]
    exact hbelow x hx

/-- **One command.** -/
theorem apply (h : Logged past s) (command : KvCommand) :
    Logged (past ++ (s.executed command).toList) (s.apply command).1 := by
  have hreg := h.registered.apply command
  cases s.apply_applied command with
  | unchanged hstate hexec =>
    rw [hstate, hexec, Option.toList_none, List.append_nil]
    exact h
  | registered _ hstate hexec =>
    rw [hexec, Option.toList_none, List.append_nil]
    exact h.register hreg (by rw [hstate])
  | @executed m result s' _ hawaits hexecutes happly hexec =>
    rw [hexec]
    refine h.execute hawaits hreg ?_
    rw [happly, KvState.remember, hexecutes.sessions]

/-- **Every log of commands.** -/
theorem replay (commands : List KvCommand) :
    Logged (KvState.new.history commands) (KvState.new.replay commands) :=
  KvState.replay_history (fun command h => h.apply command) commands new

/-- A client uses a sequence number once. -/
theorem unique (h : Logged past s) {x y : Executed} (hx : x ∈ past) (hy : y ∈ past)
    (hclient : x.clientId = y.clientId) (hsequence : x.sequence = y.sequence) : x = y := by
  have hkeys : (past.map fun x => (x.clientId, x.sequence)).Nodup := by
    refine List.pairwise_map.2 (h.upwards.imp fun {x y} hlt heq => ?_)
    obtain ⟨hc, hs⟩ := Prod.mk.inj heq
    exact UInt64.ne_of_lt (hlt hc) hs
  exact List.inj_on_of_nodup_map hkeys hx hy (Prod.ext hclient hsequence)

end Logged

/-- A tag belongs to one executed put. -/
theorem eq_of_putEtag {history : List Executed} (h : (putEtags history).Nodup) {x y : Executed}
    (hx : x ∈ history) (hy : y ∈ history) {etag : String} (hxe : x.result.putEtag = some etag)
    (hye : y.result.putEtag = some etag) : x = y := by
  by_contra hne
  let R := fun x y : Executed => ∀ etag, x.result.putEtag = some etag →
    ∀ etag', y.result.putEtag = some etag' → etag ≠ etag'
  have hpairs : history.Pairwise R := List.pairwise_filterMap.1 h
  have : Std.Symm R := ⟨fun x y hxy a ha b hb heq => hxy b hb a ha heq.symm⟩
  exact hpairs.forall hx hy hne etag hxe etag hye rfl

/-! ## Successful answers -/

namespace KvState

variable {s : KvState}

/-- A session that has reached this sequence number answers from what it remembers. -/
theorem session_of_cached {session : SessionState} {sequence : UInt64} {request : MutationRequest}
    {result : MutationResult} (h : cachedMutation session sequence request = .ok (some result)) :
    session = ⟨sequence, some request, some result⟩ := by
  obtain ⟨last, cached, outcome⟩ := session
  by_cases hstale : sequence < last
  · simp [cachedMutation, hstale] at h
  by_cases hnew : last < sequence
  · simp [cachedMutation, hstale, hnew] at h
  obtain rfl : last = sequence :=
    UInt64.le_antisymm (UInt64.not_lt.1 hstale) (UInt64.not_lt.1 hnew)
  rcases cached with _ | cached <;> rcases outcome with _ | outcome <;>
    simp only [cachedMutation, UInt64.lt_irrefl, if_false, reduceCtorEq] at h
  split_ifs at h with heq
  rw [heq, Option.some.inj (Except.ok.inj h)]

theorem session_of_cachedPut {clientId sequence : UInt64} {request : MutationRequest}
    {response : PutResponse} (h : s.cachedPut clientId sequence request = .ok (some response)) :
    s.sessions clientId = some ⟨sequence, some request, some (.put response)⟩ := by
  unfold cachedPut session at h
  cases hs : s.sessions clientId with
  | none => simp [hs, bind, Except.bind] at h
  | some session =>
    simp only [hs, bind, Except.bind] at h
    cases hc : cachedMutation session sequence request with
    | error e => simp [hc] at h
    | ok cached =>
      rcases cached with _ | _ | _ | _ <;> simp only [hc, reduceCtorEq, Except.ok.injEq,
        Option.some.injEq] at h
      rw [session_of_cached hc, h]

theorem session_of_cachedDelete {clientId sequence : UInt64} {request : MutationRequest}
    {response : DeleteResponse}
    (h : s.cachedDelete clientId sequence request = .ok (some response)) :
    s.sessions clientId = some ⟨sequence, some request, some (.delete response)⟩ := by
  unfold cachedDelete session at h
  cases hs : s.sessions clientId with
  | none => simp [hs, bind, Except.bind] at h
  | some session =>
    simp only [hs, bind, Except.bind] at h
    cases hc : cachedMutation session sequence request with
    | error e => simp [hc] at h
    | ok cached =>
      rcases cached with _ | _ | _ | _ <;> simp only [hc, reduceCtorEq, Except.ok.injEq,
        Option.some.injEq] at h
      rw [session_of_cached hc, h]

/-- **After a successful answer the session remembers it**, whether the mutation was executed now or
before. -/
theorem session_of_ok {command : KvCommand} {m : Mutation} {r : KvApplyResult}
    (hm : command.mutation = some m) (hok : (s.apply command).2 = .ok r) :
    ∃ result : MutationResult, result.answer = .ok r ∧
      (s.apply command).1.sessions m.clientId = some ⟨m.sequence, some m.request, some result⟩ := by
  have hexecuted : ∀ {m : Mutation} {result : MutationResult} {s' : KvState},
      s.apply command = (s'.remember m result, result.answer) → result.answer = .ok r ∧
        (s.apply command).1.sessions m.clientId =
          some ⟨m.sequence, some m.request, some result⟩ := by
    intro m result s' happly
    rw [happly] at hok ⊢
    exact ⟨hok, by simp [remember]⟩
  cases command with
  | registerSession => cases hm
  | readBarrier => cases hm
  | put clientId sequence nameSpace key body ifMatch ifNoneMatch =>
    simp only [KvCommand.mutation] at hm
    cases hcheck : checkPut clientId sequence nameSpace key body ifMatch ifNoneMatch with
    | error e => simp [hcheck, Except.toOption] at hm
    | ok name =>
      simp only [hcheck, Except.toOption, Option.map_some, Option.some.injEq] at hm
      subst hm
      cases hcached : s.cachedPut clientId sequence (.put name body ifMatch ifNoneMatch) with
      | error e => simp [apply, applyPut, hcheck, hcached] at hok
      | ok cached =>
        cases cached with
        | none =>
          obtain ⟨size, hsize⟩ := bodyLen_of_checkPut hcheck
          obtain ⟨result, s', -, hput⟩ := @put_executes s clientId sequence
            (cachedPut_eq_none.1 hcached).isSome name body size hsize ifMatch ifNoneMatch
          have happly : s.apply (.put clientId sequence nameSpace key body ifMatch ifNoneMatch) =
              (s'.remember ⟨clientId, sequence, .put name body ifMatch ifNoneMatch⟩ result,
                result.answer) := by
            simp only [apply, applyPut, hcheck, hcached]
            exact hput
          exact ⟨result, hexecuted happly⟩
        | some response =>
          simp only [apply, applyPut, hcheck, hcached] at hok ⊢
          exact ⟨.put response, hok, session_of_cachedPut hcached⟩
  | delete clientId sequence nameSpace key ifMatch =>
    simp only [KvCommand.mutation] at hm
    cases hcheck : checkDelete clientId sequence nameSpace key ifMatch with
    | error e => simp [hcheck, Except.toOption] at hm
    | ok name =>
      simp only [hcheck, Except.toOption, Option.map_some, Option.some.injEq] at hm
      subst hm
      cases hcached : s.cachedDelete clientId sequence (.delete name ifMatch) with
      | error e => simp [apply, applyDelete, hcheck, hcached] at hok
      | ok cached =>
        cases cached with
        | none =>
          obtain ⟨result, s', -, hdelete⟩ := @delete_executes s clientId sequence
            (cachedDelete_eq_none.1 hcached).isSome name ifMatch
          have happly : s.apply (.delete clientId sequence nameSpace key ifMatch) =
              (s'.remember ⟨clientId, sequence, .delete name ifMatch⟩ result, result.answer) := by
            simp only [apply, applyDelete, hcheck, hcached]
            exact hdelete
          exact ⟨result, hexecuted happly⟩
        | some response =>
          simp only [apply, applyDelete, hcheck, hcached] at hok ⊢
          exact ⟨.delete response, hok, session_of_cachedDelete hcached⟩

end KvState

/-! ## Acknowledged mutations -/

/-- The commands of a log, as they were decoded. -/
def decoded (f : Formats) (l : List Entry) : List KvCommand :=
  (l.filterMap Entry.command?).filterMap f.command.decode

theorem stateAfter_eq_replay (f : Formats) (l : List Entry) :
    stateAfter f l = KvState.new.replay (decoded f l) := by
  have hfold : ∀ (commands : List Command) (s : KvState),
      commands.foldl (fun state command => (Runtime.applyCommand f state command).1) s =
        s.replay (commands.filterMap f.command.decode) := by
    intro commands
    induction commands with
    | nil => exact fun s => rfl
    | cons command commands ih =>
      intro s
      rw [List.foldl_cons, ih, Runtime.applyCommand]
      cases hdecode : f.command.decode command <;> simp [hdecode]
  exact hfold _ _

/-- The mutation that an acknowledged entry asks for. -/
def Ack.mutation (f : Formats) (a : Ack) : Option Mutation :=
  (f.command.decode a.entry.command).bind KvCommand.mutation

namespace Fleet.Agrees

variable {D : Deployment} {f : Formats} {w : History} {l : List Entry} {fl : Fleet}
  (h : fl.Agrees D f w l)
include h

/-- **An acknowledged mutation was executed**, with the result that was told. -/
theorem acked_executed {a : Ack} (ha : a ∈ fl.acks) {m : Mutation} (hm : a.mutation f = some m) :
    ∃ result : MutationResult, ⟨m, result⟩ ∈ KvState.new.history (decoded f l) ∧
      result.answer = .ok a.result := by
  obtain ⟨-, hentry, hresult⟩ := h.acked_entry ha
  obtain ⟨command, hdecode, hmutation⟩ := Option.bind_eq_some_iff.1 hm
  have hsplit : decoded f l = decoded f (l.take (a.entry.index - 1)) ++
      command :: decoded f (l.drop (a.entry.index - 1 + 1)) := by
    conv_lhs => rw [← List.take_append_drop (a.entry.index - 1) l,
      List.drop_eq_getElem?_toList_append, hentry]
    simp [decoded, List.filterMap_append, CommittedEntry.asEntry, Entry.command?, hdecode]
  rw [resultAt, Runtime.applyCommand, hdecode, stateAfter_eq_replay] at hresult
  obtain ⟨result, hanswer, hsession⟩ := KvState.session_of_ok hmutation hresult
  refine ⟨result, ?_, hanswer⟩
  have hmem := ((Logged.replay _).apply command).recorded hsession
  rw [hsplit, KvState.history_append, KvState.history, ← List.append_assoc]
  exact List.mem_append_left _ hmem

end Fleet.Agrees

theorem MutationResult.putEtag_of_answer {result : MutationResult} {r : PutResponse}
    (h : result.answer = .ok (.put r)) : result.putEtag = some r.etag := by
  cases result <;> simp_all [MutationResult.answer, MutationResult.putEtag]

/-- **Retries agree**: in every run in which accepted append requests are verified, acknowledged
mutations with the same client id and sequence number, on any nodes, are the same request, and were
given the same result. Messages may be lost and saves may fail; processes restart with what they had
in memory. -/
theorem retries_agree (D : Deployment) (f : Formats) {acts : List (NodeId × RuntimeInput)}
    {fl : Fleet} (h : (Fleet.init D).run f Fleet.verified acts = some fl) {a b : Ack}
    (ha : a ∈ fl.acks) (hb : b ∈ fl.acks) {m m' : Mutation} (hm : a.mutation f = some m)
    (hm' : b.mutation f = some m') (hclient : m.clientId = m'.clientId)
    (hsequence : m.sequence = m'.sequence) : m = m' ∧ a.result = b.result := by
  obtain ⟨w, l, -, -, hagrees⟩ := (Fleet.agrees_init D f).run h
  obtain ⟨result, hx, hanswer⟩ := hagrees.acked_executed ha hm
  obtain ⟨result', hx', hanswer'⟩ := hagrees.acked_executed hb hm'
  obtain ⟨rfl, rfl⟩ := Executed.mk.inj ((Logged.replay _).unique hx hx' hclient hsequence)
  exact ⟨rfl, Except.ok.inj (hanswer.symm.trans hanswer')⟩

/-- Node 0 of the trio takes the same put twice, and node 2 acknowledges both entries. -/
def putTwice : List (NodeId × RuntimeInput) :=
  [(0, .propose onePut {}), (0, .propose onePut {}),
    (2, .receive ⟨0, 2, 1, .appendRequest
      ⟨0, 0, [⟨1, 1, .command KvCommand.registerSession.toJson⟩], 0⟩⟩ {}),
    (2, .receive ⟨0, 2, 1, .appendRequest ⟨1, 1, [⟨1, 2, .command onePut.toJson⟩], 0⟩⟩ {}),
    (2, .receive ⟨0, 2, 1, .appendRequest ⟨2, 1, [⟨1, 3, .command onePut.toJson⟩], 0⟩⟩ {}),
    (0, .receive ⟨2, 0, 1, .appendResponse ⟨true, 3⟩⟩ {})]

def onePutResponse : PutResponse := ⟨"n", "k", "\"c9-1\"", 1, 1⟩

def onePutAck (index : ℕ) : Ack where
  entry := { index := index, term := 1, command := onePut.toJson }
  result := .put onePutResponse

theorem onePutAck_mutation (index : ℕ) : (onePutAck index).mutation jsonFormats =
    some ⟨1, 1, .put ⟨"n", "k"⟩ [7] "" false⟩ := by
  show onePut.mutation = _
  decide +kernel

theorem putTwice_run : ∃ fl,
    (Fleet.init trioDeployment).run jsonFormats Fleet.verified (registerZero ++ putTwice) =
      some fl ∧
    onePutAck 2 ∈ fl.acks ∧ onePutAck 3 ∈ fl.acks := by
  have hrun : ((Fleet.init trioDeployment).run jsonFormats Fleet.verified
      (registerZero ++ putTwice)).any (fun fl => decide (onePutAck 2 ∈ fl.acks ∧
        onePutAck 3 ∈ fl.acks)) = true := by
    decide +kernel
  obtain ⟨fl, hfl, hfacts⟩ := (Option.any_eq_true _ _).1 hrun
  exact ⟨fl, hfl, of_decide_eq_true hfacts⟩

theorem retries_agree_trio : ∃ fl,
    (Fleet.init trioDeployment).run jsonFormats Fleet.verified (registerZero ++ putTwice) =
      some fl ∧
    ∃ a ∈ fl.acks, ∃ b ∈ fl.acks, a.entry ≠ b.entry ∧ a.result = b.result := by
  obtain ⟨fl, hfl, ha, hb⟩ := putTwice_run
  exact ⟨fl, hfl, _, ha, _, hb, by decide, (retries_agree trioDeployment jsonFormats hfl ha hb
    (onePutAck_mutation 2) (onePutAck_mutation 3) rfl rfl).2⟩

/-- **Entity tags identify mutations**: in every run in which accepted append requests are verified,
acknowledged puts, on any nodes and at any time, carry the same tag exactly when they are the same
mutation of the same client. -/
theorem etags_identify (D : Deployment) (f : Formats) {acts : List (NodeId × RuntimeInput)}
    {fl : Fleet} (h : (Fleet.init D).run f Fleet.verified acts = some fl) {a b : Ack}
    (ha : a ∈ fl.acks) (hb : b ∈ fl.acks) {m m' : Mutation} (hm : a.mutation f = some m)
    (hm' : b.mutation f = some m') {r r' : PutResponse} (hr : a.result = .put r)
    (hr' : b.result = .put r') : r.etag = r'.etag ↔ m = m' := by
  obtain ⟨w, l, -, -, hagrees⟩ := (Fleet.agrees_init D f).run h
  obtain ⟨result, hx, hanswer⟩ := hagrees.acked_executed ha hm
  obtain ⟨result', hx', hanswer'⟩ := hagrees.acked_executed hb hm'
  have htag := MutationResult.putEtag_of_answer (hr ▸ hanswer)
  have htag' := MutationResult.putEtag_of_answer (hr' ▸ hanswer')
  constructor
  · intro heq
    rw [← heq] at htag'
    exact congrArg Executed.toMutation
      (eq_of_putEtag (Stamped.replay _).nodup hx hx' htag htag')
  · rintro rfl
    obtain ⟨-, rfl⟩ := Executed.mk.inj ((Logged.replay _).unique hx hx' rfl rfl)
    exact Option.some.inj (htag.symm.trans htag')

theorem etags_identify_trio : ∃ fl,
    (Fleet.init trioDeployment).run jsonFormats Fleet.verified (registerZero ++ putTwice) =
      some fl ∧
    ∃ a ∈ fl.acks, ∃ b ∈ fl.acks, ∃ r r', a.result = .put r ∧ b.result = .put r' ∧
      ∃ m m', a.mutation jsonFormats = some m ∧ b.mutation jsonFormats = some m' ∧ m = m' := by
  obtain ⟨fl, hfl, ha, hb⟩ := putTwice_run
  exact ⟨fl, hfl, _, ha, _, hb, _, _, rfl, rfl, _, _, onePutAck_mutation 2, onePutAck_mutation 3,
    (etags_identify trioDeployment jsonFormats hfl ha hb (onePutAck_mutation 2)
      (onePutAck_mutation 3) rfl rfl).1 rfl⟩

end Cloud9
