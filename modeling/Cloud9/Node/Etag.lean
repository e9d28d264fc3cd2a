import Mathlib
import Cloud9.Node.History

/-!
# Entity tags

Every executed put takes a new generation, and its entity tag prints that generation. So a tag names
one put for ever: it does not come back when a key is deleted and written again, and a conditional
mutation passes exactly when the put that returned the tag is still the last one to have touched the
key (`etag_no_aba`).

`Stamped` is the invariant that ties the store to the history of executed mutations.
-/

namespace Cloud9

def MutationRequest.name : MutationRequest → KvName
  | .put name .. | .delete name _ => name

def MutationRequest.ifMatch : MutationRequest → String
  | .put _ _ ifMatch _ | .delete _ ifMatch => ifMatch

namespace MutationResult

/-- The request's preconditions held; a put may still have found no generation left. -/
def passed : MutationResult → Bool
  | .rejected .keyExists | .rejected .etagMismatch => false
  | .rejected .generationExhausted | .put _ | .delete _ => true

def succeeded : MutationResult → Bool
  | .rejected _ => false
  | .put _ | .delete _ => true

/-- The tag that the response of a put carries. -/
def putEtag : MutationResult → Option String
  | .put response => some response.etag
  | .delete _ | .rejected _ => none

end MutationResult

/-- The last successful mutation of a key. -/
def lastMutation (history : List Executed) (name : KvName) : Option Executed :=
  (history.filter fun x => decide (x.request.name = name) && x.result.succeeded).getLast?

/-- The tags that the puts of a history returned. -/
def putEtags (history : List Executed) : List String :=
  history.filterMap fun x => x.result.putEtag

theorem lastMutation_concat (history : List Executed) (x : Executed) (name : KvName) :
    lastMutation (history ++ [x]) name =
      if x.request.name = name ∧ x.result.succeeded then some x else lastMutation history name := by
  unfold lastMutation
  rw [List.filter_append]
  split_ifs with h
  · simp [h]
  · have hx : (decide (x.request.name = name) && x.result.succeeded) = false := by
      simpa using h
    simp [hx]

theorem putEtags_concat (history : List Executed) (x : Executed) :
    putEtags (history ++ [x]) = putEtags history ++ x.result.putEtag.toList := by
  unfold putEtags
  rw [List.filterMap_append]
  cases h : x.result.putEtag <;> simp [h]

theorem etagFor_injective : Function.Injective etagFor := by
  intro g g' h
  have hrepr : toString g.toNat = toString g'.toNat := by
    simpa [etagFor] using h
  exact UInt64.toNat_inj.1 (Nat.repr_injective hrepr)

/-! ## The store and its history -/

/-- What the entries of a state have to do with the mutations executed so far. -/
structure Stamped (past : List Executed) (s : KvState) : Prop where
  /-- A record carries the tag of its generation, which has been handed out. -/
  record : ∀ {name record}, s.entries name = some record →
    record.etag = etagFor record.generation ∧ record.generation < s.nextGeneration
  distinct : ∀ {name name' record record'}, s.entries name = some record →
    s.entries name' = some record' → record.generation = record'.generation → name = name'
  issued : ∀ {etag}, etag ∈ putEtags past → ∃ generation < s.nextGeneration,
    etag = etagFor generation
  nodup : (putEtags past).Nodup
  /-- A key holds what the last successful mutation left there. -/
  last : ∀ name, (s.entries name).map KvRecord.etag =
    (lastMutation past name).bind fun x => x.result.putEtag

theorem stamped_new : Stamped [] KvState.new where
  record h := by cases h
  distinct h := by cases h
  issued h := by cases h
  nodup := List.nodup_nil
  last _ := rfl

namespace Stamped

variable {past : List Executed} {s s' : KvState}

theorem congr (h : Stamped past s) (hentries : s'.entries = s.entries)
    (hnext : s'.nextGeneration = s.nextGeneration) : Stamped past s' where
  record hr := by
    rw [hentries] at hr
    exact hnext ▸ h.record hr
  distinct hr hr' := by
    rw [hentries] at hr hr'
    exact h.distinct hr hr'
  issued he := hnext ▸ h.issued he
  nodup := h.nodup
  last := hentries ▸ h.last

/-- A rejected mutation leaves no trace in the store. -/
theorem rejected (h : Stamped past s) (m : Mutation) (rejection : MutationRejection) :
    Stamped (past ++ [⟨m, .rejected rejection⟩]) s where
  record := h.record
  distinct := h.distinct
  issued he := h.issued (by simpa [putEtags_concat, MutationResult.putEtag] using he)
  nodup := by simpa [putEtags_concat, MutationResult.putEtag] using h.nodup
  last name := by simpa [lastMutation_concat, MutationResult.succeeded] using h.last name

/-- A put stores the next generation, which no record and no earlier put has. -/
theorem put (h : Stamped past s) {m : Mutation} {response : PutResponse} {name : KvName}
    {body : List UInt8} {next : UInt64} (hname : m.request.name = name)
    (hetag : response.etag = etagFor s.nextGeneration)
    (hnext : checkedSucc s.nextGeneration = some next) :
    Stamped (past ++ [⟨m, .put response⟩]) { s with
      nextGeneration := next
      entries := Function.update s.entries name
        (some ⟨body, etagFor s.nextGeneration, s.nextGeneration⟩) } := by
  have hlt := lt_of_checkedSucc hnext
  have hetags : putEtags (past ++ [⟨m, .put response⟩]) =
      putEtags past ++ [etagFor s.nextGeneration] := by
    simp [putEtags_concat, MutationResult.putEtag, hetag]
  constructor
  case record =>
    intro n record hn
    simp only [Function.update_apply] at hn
    split_ifs at hn
    · cases hn
      exact ⟨rfl, hlt⟩
    · exact ⟨(h.record hn).1, UInt64.lt_trans (h.record hn).2 hlt⟩
  case distinct =>
    intro n n' record record' hn hn' hgen
    simp only [Function.update_apply] at hn hn'
    split_ifs at hn hn' with h₁ h₂ h₂
    · exact h₁.trans h₂.symm
    · cases hn
      exact absurd hgen.symm (UInt64.ne_of_lt (h.record hn').2)
    · cases hn'
      exact absurd hgen (UInt64.ne_of_lt (h.record hn).2)
    · exact h.distinct hn hn' hgen
  case issued =>
    intro etag he
    rw [hetags, List.mem_append, List.mem_singleton] at he
    rcases he with he | rfl
    · obtain ⟨generation, hg, rfl⟩ := h.issued he
      exact ⟨generation, UInt64.lt_trans hg hlt, rfl⟩
    · exact ⟨s.nextGeneration, hlt, rfl⟩
  case nodup =>
    rw [hetags, List.nodup_append]
    refine ⟨h.nodup, List.nodup_singleton _, ?_⟩
    intro etag he etag' he'
    obtain ⟨generation, hg, rfl⟩ := h.issued he
    rw [List.mem_singleton.1 he']
    exact fun heq => UInt64.ne_of_lt hg (etagFor_injective heq)
  case last =>
    intro n
    rw [lastMutation_concat]
    by_cases hn : n = name
    · simp [hn, hname, MutationResult.succeeded, MutationResult.putEtag, hetag]
    · have hne : ¬m.request.name = n := fun heq => hn (heq.symm.trans hname)
      simp [hne, Function.update_of_ne hn, h.last n]

theorem delete (h : Stamped past s) {m : Mutation} {response : DeleteResponse} {name : KvName}
    (hname : m.request.name = name) :
    Stamped (past ++ [⟨m, .delete response⟩])
      { s with entries := Function.update s.entries name none } := by
  have hentry : ∀ {n record}, Function.update s.entries name none n = some record →
      s.entries n = some record := by
    intro n record hn
    rw [Function.update_apply] at hn
    split_ifs at hn
    exact hn
  constructor
  case record => exact fun hn => h.record (hentry hn)
  case distinct => exact fun hn hn' => h.distinct (hentry hn) (hentry hn')
  case issued =>
    intro etag he
    exact h.issued (by simpa [putEtags_concat, MutationResult.putEtag] using he)
  case nodup => simpa [putEtags_concat, MutationResult.putEtag] using h.nodup
  case last =>
    intro n
    rw [lastMutation_concat]
    by_cases hn : n = name
    · simp [hn, hname, MutationResult.succeeded, MutationResult.putEtag]
    · have hne : ¬m.request.name = n := fun heq => hn (heq.symm.trans hname)
      simp [hne, Function.update_of_ne hn, h.last n]

theorem apply (h : Stamped past s) (command : KvCommand) :
    Stamped (past ++ (s.executed command).toList) (s.apply command).1 := by
  cases s.apply_applied command with
  | unchanged hstate hexec => simpa [hstate, hexec] using h
  | registered _ hstate hexec =>
    simp only [hstate, hexec, Option.toList_none, List.append_nil]
    exact h.congr rfl rfl
  | @executed m result s₁ _ _ hexecutes happly hexec =>
    simp only [happly, hexec, Option.toList_some]
    refine Stamped.congr (s := s₁) ?_ rfl rfl
    obtain ⟨clientId, sequence, request⟩ := m
    cases hexecutes with
    | rejected => exact h.rejected _ _
    | exhausted => exact h.rejected _ _
    | put _ hnext => exact h.put rfl rfl hnext
    | delete => exact h.delete rfl

theorem replay (commands : List KvCommand) :
    Stamped (KvState.new.history commands) (KvState.new.replay commands) := by
  simpa using KvState.replay_history (fun command h => h.apply command) commands stamped_new

end Stamped

/-! ## Conditional mutations -/

/-- A checked put has at most one of the two conditions. -/
theorem ifNoneMatch_of_checkPut {clientId sequence : UInt64} {nameSpace key ifMatch : String}
    {body : List UInt8} {ifNoneMatch : Bool} {name : KvName}
    (h : KvState.checkPut clientId sequence nameSpace key body ifMatch ifNoneMatch = .ok name)
    (hmatch : ifMatch.isEmpty = false) : ifNoneMatch = false := by
  obtain ⟨_, _, hrest⟩ := bind_eq_ok.1 h
  obtain ⟨_, hpreconditions, _⟩ := bind_eq_ok.1 hrest
  obtain ⟨_, _, hexclusive⟩ := bind_eq_ok.1 hpreconditions
  by_contra hnone
  rw [Bool.not_eq_false] at hnone
  simp [hmatch, hnone] at hexclusive

/-- A condition on the tag holds exactly when the key has a record with that tag. -/
theorem precondition_eq {command : KvCommand} {m : Mutation} (hm : command.mutation = some m)
    (hmatch : m.request.ifMatch.isEmpty = false) (s : KvState) :
    s.precondition m.request =
      if (s.entries m.request.name).map KvRecord.etag = some m.request.ifMatch then .ok ()
      else .error .etagMismatch := by
  cases command with
  | registerSession => cases hm
  | readBarrier => cases hm
  | put clientId sequence nameSpace key body ifMatch ifNoneMatch =>
    simp only [KvCommand.mutation] at hm
    cases hcheck : KvState.checkPut clientId sequence nameSpace key body ifMatch ifNoneMatch with
    | error e => simp [hcheck, Except.toOption] at hm
    | ok name =>
      simp only [hcheck, Except.toOption, Option.map_some, Option.some.injEq] at hm
      subst hm
      simp only [MutationRequest.ifMatch, MutationRequest.name] at hmatch ⊢
      have hnone := ifNoneMatch_of_checkPut hcheck hmatch
      rcases Option.eq_none_or_eq_some (s.entries name) with hentry | ⟨record, hentry⟩ <;>
        simp [KvState.precondition, checkPutPreconditions, hnone, hmatch, hentry]
  | delete clientId sequence nameSpace key ifMatch =>
    simp only [KvCommand.mutation] at hm
    cases hcheck : KvState.checkDelete clientId sequence nameSpace key ifMatch with
    | error e => simp [hcheck, Except.toOption] at hm
    | ok name =>
      simp only [hcheck, Except.toOption, Option.map_some, Option.some.injEq] at hm
      subst hm
      simp only [MutationRequest.ifMatch, MutationRequest.name] at hmatch ⊢
      rcases Option.eq_none_or_eq_some (s.entries name) with hentry | ⟨record, hentry⟩
      · simp [KvState.precondition, hmatch, hentry]
      · by_cases he : record.etag = ifMatch
        · simp [KvState.precondition, hmatch, hentry, he]
        · have he' : ifMatch ≠ record.etag := fun heq => he heq.symm
          simp [KvState.precondition, hmatch, hentry, he, he']

theorem passed_iff {s : KvState} {command : KvCommand} {x : Executed}
    (hexec : s.executed command = some x) (hmatch : x.request.ifMatch.isEmpty = false) :
    x.result.passed ↔
      (s.entries x.request.name).map KvRecord.etag = some x.request.ifMatch := by
  cases s.apply_applied command with
  | unchanged _ hnone => simp [hnone] at hexec
  | registered _ _ hnone => simp [hnone] at hexec
  | @executed m result s' hm _ hexecutes _ hsome =>
    rw [hsome] at hexec
    cases hexec
    have hpre := precondition_eq hm hmatch s
    obtain ⟨clientId, sequence, request⟩ := m
    cases hexecutes with
    | rejected hrej =>
      rw [hrej] at hpre
      split_ifs at hpre with h
      cases hpre
      simpa [MutationResult.passed] using h
    | exhausted hok | put hok _ | delete hok =>
      rw [hok] at hpre
      split_ifs at hpre with h
      simpa [MutationResult.passed] using h

/-- **An entity tag names one put.** The tags of executed puts are pairwise different; every record
carries the tag of its generation, which has been handed out and belongs to no other key; and an
executed mutation with a condition on the tag passes it exactly when the last successful mutation of
the key was the put that returned this tag. -/
theorem etag_no_aba (commands : List KvCommand) :
    (putEtags (KvState.new.history commands)).Nodup ∧
    (∀ name record, (KvState.new.replay commands).entries name = some record →
      record.etag = etagFor record.generation ∧
        record.generation < (KvState.new.replay commands).nextGeneration) ∧
    (∀ name name' record record', (KvState.new.replay commands).entries name = some record →
      (KvState.new.replay commands).entries name' = some record' →
      record.generation = record'.generation → name = name') ∧
    ∀ command x, (KvState.new.replay commands).executed command = some x →
      x.request.ifMatch.isEmpty = false →
      (x.result.passed ↔ ∃ y, lastMutation (KvState.new.history commands) x.request.name = some y ∧
        y.result.putEtag = some x.request.ifMatch) := by
  have h := Stamped.replay commands
  refine ⟨h.nodup, fun name record => h.record, fun name name' record record' => h.distinct, ?_⟩
  intro command x hexec hmatch
  rw [passed_iff hexec hmatch, h.last]
  exact Option.bind_eq_some_iff

/-- A put that expects the first tag of a key is refused once the key was deleted and written anew
with the same value. -/
theorem etag_no_aba_rewritten :
    let put := fun sequence ifMatch => KvCommand.put 1 sequence "n" "k" [7] ifMatch false
    let commands := [.registerSession, put 1 "", .delete 1 2 "n" "k" "", put 3 ""]
    ∃ x, (KvState.new.replay commands).executed (put 4 "\"c9-1\"") = some x ∧
      ¬∃ y, lastMutation (KvState.new.history commands) x.request.name = some y ∧
        y.result.putEtag = some x.request.ifMatch := by
  intro put commands
  let x : Executed := ⟨⟨1, 4, .put ⟨"n", "k"⟩ [7] "\"c9-1\"" false⟩, .rejected .etagMismatch⟩
  have hexec : (KvState.new.replay commands).executed (put 4 "\"c9-1\"") = some x := by
    decide +kernel
  have hiff := (etag_no_aba commands).2.2.2 (put 4 "\"c9-1\"") x hexec (by decide +kernel)
  exact ⟨x, hexec, fun hy => Bool.noConfusion (hiff.2 hy)⟩

end Cloud9
