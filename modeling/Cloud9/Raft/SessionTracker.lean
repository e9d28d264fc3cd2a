import Mathlib.Algebra.Group.Nat.Defs
import Mathlib.Data.List.Nodup
import Mathlib.Logic.Function.Basic
import Mathlib.Tactic.Common

/-!
# Client sessions

`session.rs` of `cloud9-raft-io`: a replicated state machine embeds a `SessionTracker`, asks it
about every request and executes only the requests that are new. The tracker keeps, for each client,
the last completed sequence number and its response.

A run is any interleaving of registrations, expirations and guarded requests, of any clients, with
sequence numbers in any order and also of clients that never registered. From its registration on,
and until it expires, a session is what the last execution for its client made of it (`Serves`), so
every sequence number is executed at most once (`sessions_at_most_once`). The ids are distinct until
their 64-bit counter wraps around, which takes more than `2 ^ 64` registrations
(`client_id_repeats`).
-/

namespace Cloud9

/-- State for a single client session. -/
structure ClientSession (R : Type) where
  lastSequence : UInt64
  lastResponse : Option R

def ClientSession.default {R : Type} : ClientSession R := ⟨0, none⟩

/-- Result of checking for a duplicate request. -/
inductive DuplicateCheck (R : Type) where
  | new
  | duplicate (response : R)
  | stale
  deriving DecidableEq

structure SessionTracker (R : Type) where
  sessions : UInt64 → Option (ClientSession R)
  nextClientId : UInt64

namespace SessionTracker

variable {R : Type}

def new : SessionTracker R := ⟨fun _ => none, 1⟩

/-- The counter is a `u64`; in the release build it wraps around. -/
def registerClient (t : SessionTracker R) : SessionTracker R × UInt64 :=
  let id := t.nextClientId
  ({ nextClientId := t.nextClientId + 1
     sessions := Function.update t.sessions id (some .default) }, id)

/-- An unknown client is treated as new. -/
def checkDuplicate (t : SessionTracker R) (clientId sequence : UInt64) : DuplicateCheck R :=
  match t.sessions clientId with
  | none => .new
  | some session =>
    if session.lastSequence < sequence then .new
    else if sequence = session.lastSequence then
      match session.lastResponse with
      | some response => .duplicate response
      | none => .new
    else .stale

def recordCompletion (t : SessionTracker R) (clientId sequence : UInt64) (response : R) :
    SessionTracker R :=
  let session := (t.sessions clientId).getD .default
  let session := if session.lastSequence < sequence then ⟨sequence, some response⟩ else session
  { t with sessions := Function.update t.sessions clientId (some session) }

def expireSession (t : SessionTracker R) (clientId : UInt64) : SessionTracker R × Bool :=
  ({ t with sessions := Function.update t.sessions clientId none }, (t.sessions clientId).isSome)

end SessionTracker

/-! ## Runs -/

/-- What the state machine is asked to do. A request comes with the response that its execution
would give. -/
inductive SessionInput (R : Type) where
  | register
  | expire (clientId : UInt64)
  | request (clientId sequence : UInt64) (response : R)

/-- What it does. -/
inductive SessionEvent (R : Type) where
  | registered (clientId : UInt64)
  | expired (clientId : UInt64) (existed : Bool)
  | executed (clientId sequence : UInt64) (response : R)
  | answered (clientId sequence : UInt64) (response : R)
  | stale (clientId sequence : UInt64)
  deriving DecidableEq

namespace SessionEvent

variable {R : Type}

/-- The id that was given to a client. -/
def registeredId : SessionEvent R → Option UInt64
  | .registered clientId => some clientId
  | _ => none

/-- The client and the sequence number of a request. -/
def request : SessionEvent R → Option (UInt64 × UInt64)
  | .executed clientId sequence _ | .answered clientId sequence _ | .stale clientId sequence =>
    some (clientId, sequence)
  | _ => none

/-- An execution for this client. Clients count their requests from 1. -/
def execution (id : UInt64) : SessionEvent R → Option (UInt64 × R)
  | .executed clientId sequence response =>
    if clientId = id ∧ sequence ≠ 0 then some (sequence, response) else none
  | _ => none

end SessionEvent

namespace SessionTracker

variable {R : Type}

/-- A request is checked, executed only if it is new, and then recorded. -/
def guarded (t : SessionTracker R) (clientId sequence : UInt64) (response : R) :
    SessionTracker R × SessionEvent R :=
  match t.checkDuplicate clientId sequence with
  | .new => (t.recordCompletion clientId sequence response, .executed clientId sequence response)
  | .duplicate cached => (t, .answered clientId sequence cached)
  | .stale => (t, .stale clientId sequence)

def step (t : SessionTracker R) : SessionInput R → SessionTracker R × SessionEvent R
  | .register => (t.registerClient.1, .registered t.registerClient.2)
  | .expire clientId =>
    ((t.expireSession clientId).1, .expired clientId (t.expireSession clientId).2)
  | .request clientId sequence response => t.guarded clientId sequence response

/-- The tracker after some inputs. -/
def after (t : SessionTracker R) (inputs : List (SessionInput R)) : SessionTracker R :=
  inputs.foldl (fun t input => (t.step input).1) t

/-- What happens on these inputs. -/
def trace (t : SessionTracker R) : List (SessionInput R) → List (SessionEvent R)
  | [] => []
  | input :: inputs => (t.step input).2 :: (t.step input).1.trace inputs

/-- A statement about the events and the tracker that every step continues. -/
theorem trace_history {I : List (SessionEvent R) → SessionTracker R → Prop}
    (hstep : ∀ {past t} input, I past t → I (past ++ [(t.step input).2]) (t.step input).1)
    (inputs : List (SessionInput R)) :
    ∀ {past t}, I past t → I (past ++ t.trace inputs) (t.after inputs) := by
  induction inputs with
  | nil =>
    intro past t hI
    simpa [trace, after] using hI
  | cons input inputs ih =>
    intro past t hI
    simpa [trace, after] using ih (hstep input hI)

/-- Every event is the outcome of a step. -/
theorem trace_split {inputs : List (SessionInput R)} {event : SessionEvent R}
    {rest : List (SessionEvent R)} : ∀ {before : List (SessionEvent R)} {t : SessionTracker R},
      t.trace inputs = before ++ event :: rest →
      ∃ inputs₁ input inputs₂, inputs = inputs₁ ++ input :: inputs₂ ∧ t.trace inputs₁ = before ∧
        ((t.after inputs₁).step input).2 = event ∧
        ((t.after inputs₁).step input).1.trace inputs₂ = rest := by
  induction inputs with
  | nil =>
    intro before t h
    cases before <;> cases h
  | cons input inputs ih =>
    intro before t h
    cases before with
    | nil =>
      injection h with hevent hrest
      exact ⟨[], input, inputs, rfl, rfl, hevent, hrest⟩
    | cons first before =>
      injection h with hfirst hrest
      obtain ⟨inputs₁, i, inputs₂, hsplit, hbefore, hevent, hrest⟩ := ih hrest
      refine ⟨input :: inputs₁, i, inputs₂, by rw [hsplit, List.cons_append], ?_, hevent, hrest⟩
      rw [trace, hfirst, hbefore]

/-! ## Client ids -/

/-- The ids that were given out. -/
def registrations (events : List (SessionEvent R)) : List UInt64 :=
  events.filterMap SessionEvent.registeredId

/-- The ids that were given out are the numbers from 1 on, on 64 bits, and the counter is at the
next one. -/
structure Numbered (past : List (SessionEvent R)) (t : SessionTracker R) : Prop where
  next : t.nextClientId = UInt64.ofNat ((registrations past).length + 1)
  ids : registrations past =
    (List.range (registrations past).length).map fun i => UInt64.ofNat (i + 1)

/-- What is not a registration leaves the counter alone. -/
theorem Numbered.other {past : List (SessionEvent R)} {t t' : SessionTracker R}
    (h : Numbered past t) {event : SessionEvent R} (hevent : event.registeredId = none)
    (ht' : t'.nextClientId = t.nextClientId) : Numbered (past ++ [event]) t' := by
  have hsame : registrations (past ++ [event]) = registrations past := by
    simp [registrations, hevent]
  refine ⟨?_, ?_⟩
  · rw [ht', hsame]
    exact h.next
  · rw [hsame]
    exact h.ids

theorem Numbered.step {past : List (SessionEvent R)} {t : SessionTracker R} (h : Numbered past t)
    (input : SessionInput R) : Numbered (past ++ [(t.step input).2]) (t.step input).1 := by
  cases input with
  | register =>
    have hids : registrations (past ++ [(t.step .register).2]) =
        registrations past ++ [t.nextClientId] := by
      simp [registrations, SessionTracker.step, registerClient, SessionEvent.registeredId]
    refine ⟨?_, ?_⟩
    · show t.nextClientId + 1 = _
      rw [hids, List.length_append, List.length_singleton, h.next]
      exact (UInt64.ofNat_add _ 1).symm
    · rw [hids, List.length_append, List.length_singleton, List.range_succ, List.map_append,
        ← h.ids, h.next, List.map_singleton]
  | expire clientId => exact h.other rfl rfl
  | request clientId sequence response =>
    simp only [SessionTracker.step, guarded]
    split
    · exact h.other rfl rfl
    · exact h.other rfl rfl
    · exact h.other rfl rfl

theorem numbered_trace (inputs : List (SessionInput R)) :
    Numbered (new.trace inputs) (new.after inputs) :=
  @trace_history R Numbered (fun input h => h.step input) inputs [] new ⟨rfl, rfl⟩

theorem nodup_registrations {inputs : List (SessionInput R)}
    (h : (registrations (new.trace inputs)).length ≤ 2 ^ 64) :
    (registrations (new.trace inputs)).Nodup := by
  rw [(numbered_trace inputs).ids]
  refine List.Nodup.map_on (fun i hi j hj heq => ?_) List.nodup_range
  rw [List.mem_range] at hi hj
  have heq := congrArg UInt64.toNat heq
  simp only [UInt64.toNat_ofNat'] at heq
  omega

/-! ## Sessions -/

/-- The executions for a client, oldest first. -/
def executions (id : UInt64) (events : List (SessionEvent R)) : List (UInt64 × R) :=
  events.filterMap (SessionEvent.execution id)

/-- What a session holds after the last execution. -/
def cache : Option (UInt64 × R) → ClientSession R
  | none => .default
  | some last => ⟨last.1, some last.2⟩

/-- The verdict on a request after the last execution for its client. -/
def verdict (sequence : UInt64) : Option (UInt64 × R) → DuplicateCheck R
  | none => .new
  | some last =>
    if last.1 < sequence then .new
    else if sequence = last.1 then .duplicate last.2 else .stale

/-- The session of a client is what the executions since its registration made of it. -/
structure Serves (id : UInt64) (since : List (SessionEvent R)) (t : SessionTracker R) : Prop where
  session : t.sessions id = some (cache (executions id since).getLast?)
  upTo : ∀ x ∈ executions id since, x.1 ≤ (cache (executions id since).getLast?).lastSequence
  increasing : ((executions id since).map Prod.fst).Pairwise (· < ·)

namespace Serves

variable {id : UInt64} {since : List (SessionEvent R)} {t : SessionTracker R}

/-- What is no execution for the client, and leaves its session alone. -/
theorem other (h : Serves id since t) {t' : SessionTracker R} {event : SessionEvent R}
    (hevent : event.execution id = none) (ht' : t'.sessions id = t.sessions id) :
    Serves id (since ++ [event]) t' := by
  have hsame : executions id (since ++ [event]) = executions id since := by
    simp [executions, hevent]
  refine ⟨?_, ?_, ?_⟩
  · rw [ht', hsame]
    exact h.session
  · rw [hsame]
    exact h.upTo
  · rw [hsame]
    exact h.increasing

/-- The execution of a higher sequence number. -/
theorem execute (h : Serves id since t) {sequence : UInt64} {response : R}
    (hlt : (cache (executions id since).getLast?).lastSequence < sequence) :
    Serves id (since ++ [.executed id sequence response])
      (t.recordCompletion id sequence response) := by
  have hne : sequence ≠ 0 := by
    rintro rfl
    exact absurd hlt (UInt64.not_lt.2 (UInt64.zero_le))
  have hexec : executions id (since ++ [.executed id sequence response]) =
      executions id since ++ [(sequence, response)] := by
    simp [executions, SessionEvent.execution, hne]
  refine ⟨?_, ?_, ?_⟩
  · simp only [recordCompletion, h.session, Option.getD_some, if_pos hlt, Function.update_self,
      hexec, List.getLast?_append, List.getLast?_singleton, Option.some_or]
    rfl
  · intro x hx
    rw [hexec] at hx ⊢
    simp only [List.getLast?_append, List.getLast?_singleton, Option.some_or, cache]
    rcases List.mem_append.1 hx with hx | hx
    · exact UInt64.le_of_lt (UInt64.lt_of_le_of_lt (h.upTo x hx) hlt)
    · rw [List.mem_singleton.1 hx]
      exact UInt64.le_refl _
  · rw [hexec, List.map_append, List.map_singleton]
    refine List.pairwise_append.2 ⟨h.increasing, List.pairwise_singleton _ _, fun a ha b hb => ?_⟩
    obtain ⟨x, hx, rfl⟩ := List.mem_map.1 ha
    rw [List.mem_singleton.1 hb]
    exact UInt64.lt_of_le_of_lt (h.upTo x hx) hlt

/-- How a request of the client is answered. -/
theorem checkDuplicate (h : Serves id since t) (sequence : UInt64) :
    t.checkDuplicate id sequence = verdict sequence (executions id since).getLast? := by
  unfold SessionTracker.checkDuplicate
  rw [h.session]
  cases (executions id since).getLast? with
  | some last => rfl
  | none =>
    show (if 0 < sequence then _ else if sequence = 0 then _ else _) = DuplicateCheck.new
    split_ifs with hlt hzero
    · rfl
    · rfl
    · exact absurd (UInt64.pos_iff_ne_zero.2 hzero) hlt

theorem request (h : Serves id since t) (clientId sequence : UInt64) (response : R) :
    Serves id (since ++ [(t.guarded clientId sequence response).2])
      (t.guarded clientId sequence response).1 := by
  by_cases hid : clientId = id
  · subst hid
    have hcheck := h.checkDuplicate sequence
    unfold guarded
    cases hlast : (executions clientId since).getLast? with
    | none =>
      rw [hlast, verdict] at hcheck
      simp only [hcheck]
      by_cases hzero : sequence = 0
      · -- sequence number 0 is executed, and not recorded
        subst hzero
        refine h.other (by simp [SessionEvent.execution]) ?_
        simp [recordCompletion, h.session, hlast, cache, ClientSession.default]
      · exact h.execute (by rw [hlast]; exact UInt64.pos_iff_ne_zero.2 hzero)
    | some last =>
      rw [hlast, verdict] at hcheck
      split_ifs at hcheck with hlt heq
      · simp only [hcheck]
        exact h.execute (by rw [hlast]; exact hlt)
      · simp only [hcheck]
        exact h.other rfl rfl
      · simp only [hcheck]
        exact h.other rfl rfl
  · unfold guarded
    split
    · refine h.other (by simp [SessionEvent.execution, hid]) ?_
      simp [recordCompletion, Function.update_of_ne (Ne.symm hid)]
    · exact h.other rfl rfl
    · exact h.other rfl rfl

/-- Every step but a new registration or an expiration of the client. -/
theorem step (h : Serves id since t) {input : SessionInput R}
    (hreg : (t.step input).2 ≠ .registered id)
    (hexp : ∀ existed, (t.step input).2 ≠ .expired id existed) :
    Serves id (since ++ [(t.step input).2]) (t.step input).1 := by
  cases input with
  | register =>
    have hne : id ≠ t.nextClientId := fun heq => hreg (by rw [heq]; rfl)
    exact h.other rfl (Function.update_of_ne hne _ _)
  | expire clientId =>
    have hne : id ≠ clientId := fun heq => hexp _ (by rw [heq]; rfl)
    exact h.other rfl (Function.update_of_ne hne _ _)
  | request clientId sequence response => exact h.request clientId sequence response

theorem trace (h : Serves id [] t) (inputs : List (SessionInput R))
    (hreg : .registered id ∉ t.trace inputs)
    (hexp : ∀ existed, .expired id existed ∉ t.trace inputs) :
    Serves id (t.trace inputs) (t.after inputs) := by
  refine @trace_history R (fun past t => .registered id ∉ past →
    (∀ existed, .expired id existed ∉ past) → Serves id past t)
    (fun {past t} input h hreg hexp => ?_) inputs [] t (fun _ _ => h) hreg hexp
  simp only [List.mem_append, List.mem_singleton, not_or] at hreg hexp
  exact (h hreg.1 fun existed => (hexp existed).1).step (Ne.symm hreg.2)
    fun existed => Ne.symm (hexp existed).2

end Serves

theorem guarded_request (t : SessionTracker R) (clientId sequence : UInt64) (response : R) :
    (t.guarded clientId sequence response).2.request = some (clientId, sequence) := by
  unfold guarded
  split <;> rfl

/-- A registration starts a session. -/
theorem serves_of_registered {t : SessionTracker R} {input : SessionInput R} {id : UInt64}
    (h : (t.step input).2 = .registered id) : Serves id [] (t.step input).1 := by
  cases input with
  | register =>
    cases h
    exact ⟨Function.update_self .., fun x hx => absurd hx List.not_mem_nil, List.Pairwise.nil⟩
  | expire clientId => cases h
  | request clientId sequence response =>
    have hrequest := t.guarded_request clientId sequence response
    rw [show (t.guarded clientId sequence response).2 = _ from h] at hrequest
    cases hrequest

/-- The outcome of a request of the client after an execution. -/
theorem Serves.outcome {id : UInt64} {since : List (SessionEvent R)} {t : SessionTracker R}
    (h : Serves id since t) {input : SessionInput R} {sequence last : UInt64} {response : R}
    (hrequest : (t.step input).2.request = some (id, sequence))
    (hlast : (executions id since).getLast? = some (last, response)) :
    (sequence = last → (t.step input).2 = .answered id sequence response) ∧
      (sequence < last → (t.step input).2 = .stale id sequence) := by
  cases input with
  | register => cases hrequest
  | expire clientId => cases hrequest
  | request clientId q r =>
    have hsame := (t.guarded_request clientId q r).symm.trans hrequest
    cases hsame
    have hcheck := h.checkDuplicate sequence
    rw [hlast, verdict] at hcheck
    simp only [SessionTracker.step, guarded, hcheck]
    refine ⟨fun heq => ?_, fun hlt => ?_⟩
    · simp [heq, UInt64.lt_irrefl]
    · have hnot : ¬last < sequence := UInt64.not_lt.2 (UInt64.le_of_lt hlt)
      simp [hnot, UInt64.ne_of_lt hlt]

end SessionTracker

open SessionTracker in
/-- **Sessions give at-most-once execution.** In every run with at most `2 ^ 64` registrations the
ids given out are distinct. From the registration of a client on, unless it expires, each sequence
number is executed at most once; and after an execution for the client, a request with the same
sequence number is answered with the response of that execution, and one with a lower sequence
number is found stale. -/
theorem sessions_at_most_once {R : Type} {inputs : List (SessionInput R)}
    (hcount : (registrations (new.trace inputs)).length ≤ 2 ^ 64) :
    (registrations (new.trace inputs)).Nodup ∧
    ∀ {id : UInt64} {before since : List (SessionEvent R)},
      new.trace inputs = before ++ .registered id :: since →
      (∀ existed, .expired id existed ∉ since) →
      ((executions id since).map Prod.fst).Nodup ∧
      ∀ {earlier later : List (SessionEvent R)} {event : SessionEvent R} {sequence last : UInt64}
        {response : R}, since = earlier ++ event :: later →
        event.request = some (id, sequence) →
        (executions id earlier).getLast? = some (last, response) →
        (sequence = last → event = .answered id sequence response) ∧
          (sequence < last → event = .stale id sequence) := by
  have hnodup := nodup_registrations hcount
  refine ⟨hnodup, fun {id before since} hevents hexp => ?_⟩
  -- The client is registered only once, so nothing resets its session.
  have hreg : .registered id ∉ since := by
    intro hmem
    rw [hevents, registrations, List.filterMap_append, List.filterMap_cons] at hnodup
    exact (List.nodup_cons.1 (List.nodup_append.1 hnodup).2.1).1
      (List.mem_filterMap.2 ⟨_, hmem, rfl⟩)
  obtain ⟨inputs₁, input, inputs₂, -, -, hinput, rfl⟩ := trace_split hevents
  have hstart := serves_of_registered hinput
  refine ⟨(hstart.trace inputs₂ hreg hexp).increasing.imp fun hlt => UInt64.ne_of_lt hlt, ?_⟩
  intro earlier later event sequence last response hsince hrequest hlast
  obtain ⟨inputs₃, input', inputs₄, -, rfl, rfl, -⟩ := trace_split hsince
  rw [hsince] at hreg hexp
  have hserves := hstart.trace inputs₃ (fun hmem => hreg (List.mem_append_left _ hmem))
    fun existed hmem => hexp existed (List.mem_append_left _ hmem)
  exact hserves.outcome hrequest hlast

open SessionTracker in
/-- A client registers after its id was already used, and its requests come out of order. -/
theorem sessions_at_most_once_reordered :
    let inputs : List (SessionInput ℕ) := [.request 1 9 0, .register, .request 1 3 70, .register,
      .request 1 5 71, .request 2 5 72, .request 1 5 73, .request 1 3 74]
    let since : List (SessionEvent ℕ) := [.executed 1 3 70, .registered 2, .executed 1 5 71,
      .executed 2 5 72, .answered 1 5 71, .stale 1 3]
    new.trace inputs = [.executed 1 9 0] ++ .registered 1 :: since ∧
      ((executions 1 since).map Prod.fst).Nodup := by
  intro inputs since
  have htrace : new.trace inputs = [.executed 1 9 0] ++ .registered 1 :: since := by decide +kernel
  have hcount : (registrations (new.trace inputs)).length ≤ 2 ^ 64 := by
    rw [htrace]
    decide
  exact ⟨htrace, ((sessions_at_most_once hcount).2 htrace (by decide)).1⟩

namespace SessionTracker

/-- Nothing but registrations. -/
theorem registrations_replicate {R : Type} (n : ℕ) : ∀ t : SessionTracker R,
    (registrations (t.trace (List.replicate n .register))).length = n := by
  induction n with
  | zero => exact fun t => rfl
  | succ n ih =>
    intro t
    rw [List.replicate_succ, trace, registrations, List.filterMap_cons]
    exact congrArg Nat.succ (ih _)

end SessionTracker

open SessionTracker in
/-- **The counter wraps around**: the registration after `2 ^ 64` others gets the id of the first.
And sequence number 0 is never recorded: a repeat of it is executed again, not answered from the
cache. -/
theorem client_id_repeats :
    ¬(registrations ((new : SessionTracker Unit).trace
      (List.replicate (2 ^ 64 + 1) .register))).Nodup ∧
    (new : SessionTracker ℕ).trace [.register, .request 1 0 70, .request 1 0 71] =
      [.registered 1, .executed 1 0 70, .executed 1 0 71] := by
  refine ⟨fun hnodup => ?_, by decide +kernel⟩
  rw [(numbered_trace _).ids, registrations_replicate] at hnodup
  have hsame : UInt64.ofNat (0 + 1) = UInt64.ofNat (2 ^ 64 + 1) := by decide
  have hzero := List.inj_on_of_nodup_map hnodup (List.mem_range.2 (Nat.succ_pos _))
    (List.mem_range.2 (Nat.lt_succ_self (2 ^ 64))) hsame
  exact absurd hzero (by decide)

end Cloud9
