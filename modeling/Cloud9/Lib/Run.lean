import Mathlib.Tactic.Common

/-!
# Runs of a partial transition function

A run is a list of inputs, each of which must be allowed in the state it meets. Four rules: what
every step preserves holds after a run (`runWhile_invariant`), also when it speaks of the inputs so
far (`runWhile_history`), a relation to a growing history that every step can continue is continued
by a run (`runWhile_simulate`), and a system whose steps are runs of another one has no other runs
(`runWhile_refine`). Conditions on the inputs can be combined (`runWhile_and`).

For a total transition function `Reaches` says that a goal is met after finitely many steps, all of
which are fine. It is refuted by an invariant (`Reaches.not_of_invariant`) and carried over by a
relation that every step preserves (`Reaches.iff_of_rel`).
-/

section

variable {σ ι : Type*} {step : σ → ι → Option σ} {ok : σ → ι → Bool}

/-- Run the inputs, as long as each of them is allowed and has a successor. -/
def runWhile (step : σ → ι → Option σ) (ok : σ → ι → Bool) : σ → List ι → Option σ
  | s, [] => some s
  | s, i :: is => if ok s i then (step s i).bind fun s' => runWhile step ok s' is else none

theorem runWhile_cons {s s' : σ} {i : ι} {is : List ι} :
    runWhile step ok s (i :: is) = some s' ↔
      ok s i = true ∧ ∃ s₁, step s i = some s₁ ∧ runWhile step ok s₁ is = some s' := by
  simp only [runWhile]
  split_ifs with h
  · simp [h, Option.bind_eq_some_iff]
  · simp [h]

theorem runWhile_append {is is' : List ι} {s₁ s' : σ} : ∀ {s : σ},
    runWhile step ok s is = some s₁ → runWhile step ok s₁ is' = some s' →
    runWhile step ok s (is ++ is') = some s' := by
  induction is with
  | nil =>
    intro s hrun hrun'
    cases hrun
    exact hrun'
  | cons j is ih =>
    intro s hrun hrun'
    obtain ⟨hj, s₂, hs₂, hrest⟩ := runWhile_cons.1 hrun
    exact runWhile_cons.2 ⟨hj, s₂, hs₂, ih hrest hrun'⟩

/-- A run can be continued by one more allowed step. -/
theorem runWhile_concat {is : List ι} {i : ι} {s s₁ s' : σ} (hrun : runWhile step ok s is = some s₁)
    (hok : ok s₁ i = true) (hstep : step s₁ i = some s') :
    runWhile step ok s (is ++ [i]) = some s' :=
  runWhile_append hrun (runWhile_cons.2 ⟨hok, s', hstep, rfl⟩)

/-- **Refinement**: if every allowed step of one system is a run of another, so is every run. -/
theorem runWhile_refine {κ : Type*} {step' : σ → κ → Option σ} {ok' : σ → κ → Bool}
    (hstep : ∀ {s i s'}, ok s i = true → step s i = some s' →
      ∃ ks, runWhile step' ok' s ks = some s') {is : List ι} : ∀ {s s' : σ},
    runWhile step ok s is = some s' → ∃ ks, runWhile step' ok' s ks = some s' := by
  induction is with
  | nil => exact fun hrun => ⟨[], hrun⟩
  | cons i is ih =>
    intro s s' hrun
    obtain ⟨hok, s₁, hs₁, hrest⟩ := runWhile_cons.1 hrun
    obtain ⟨ks, hks⟩ := hstep hok hs₁
    obtain ⟨ks', hks'⟩ := ih hrest
    exact ⟨ks ++ ks', runWhile_append hks hks'⟩

/-- **Simulation with a history**: if every allowed step can be matched by a later history, so
can every run. -/
theorem runWhile_simulate {W : Type*} {le : W → W → Prop} (hrefl : ∀ w, le w w)
    (htrans : ∀ {w w' w''}, le w w' → le w' w'' → le w w'') {R : W → σ → Prop}
    (hstep : ∀ {w s i s'}, R w s → ok s i = true → step s i = some s' → ∃ w', le w w' ∧ R w' s')
    {is : List ι} : ∀ {w : W} {s s' : σ}, R w s → runWhile step ok s is = some s' →
      ∃ w', le w w' ∧ R w' s' := by
  induction is with
  | nil =>
    intro w s s' hR hrun
    cases hrun
    exact ⟨w, hrefl w, hR⟩
  | cons i is ih =>
    intro w s s' hR hrun
    obtain ⟨hok, s₁, hs₁, hrest⟩ := runWhile_cons.1 hrun
    obtain ⟨w₁, hle₁, hR₁⟩ := hstep hR hok hs₁
    obtain ⟨w', hle, hR'⟩ := ih hR₁ hrest
    exact ⟨w', htrans hle₁ hle, hR'⟩

/-- A statement about the inputs so far and the state that every allowed step continues. -/
theorem runWhile_history {I : List ι → σ → Prop}
    (hstep : ∀ {past s i s'}, I past s → ok s i = true → step s i = some s' → I (past ++ [i]) s')
    {is : List ι} : ∀ {past : List ι} {s s' : σ}, I past s → runWhile step ok s is = some s' →
      I (past ++ is) s' := by
  induction is with
  | nil =>
    intro past s s' hI hrun
    cases hrun
    simpa using hI
  | cons i is ih =>
    intro past s s' hI hrun
    obtain ⟨hok, s₁, hs₁, hrest⟩ := runWhile_cons.1 hrun
    simpa using ih (hstep hI hok hs₁) hrest

/-- What every allowed step preserves holds after every run. -/
theorem runWhile_invariant {I : σ → Prop}
    (hstep : ∀ {s i s'}, I s → ok s i = true → step s i = some s' → I s') {is : List ι} {s s' : σ}
    (hI : I s) (hrun : runWhile step ok s is = some s') : I s' :=
  @runWhile_history _ _ step ok (fun _ s => I s) (fun h hok hs => hstep h hok hs) is [] s s' hI hrun

/-- A run is allowed in both ways iff it is in each of them. -/
theorem runWhile_and {ok' : σ → ι → Bool} {is : List ι} : ∀ {s s' : σ},
    runWhile step (fun s i => ok s i && ok' s i) s is = some s' ↔
      runWhile step ok s is = some s' ∧ runWhile step ok' s is = some s' := by
  induction is with
  | nil => exact ⟨fun h => ⟨h, h⟩, fun h => h.1⟩
  | cons i is ih =>
    intro s s'
    simp only [runWhile_cons, Bool.and_eq_true, ih]
    constructor
    · rintro ⟨⟨hok, hok'⟩, s₁, hs₁, hrest, hrest'⟩
      exact ⟨⟨hok, s₁, hs₁, hrest⟩, hok', s₁, hs₁, hrest'⟩
    · rintro ⟨⟨hok, s₁, hs₁, hrest⟩, hok', s₂, hs₂, hrest'⟩
      obtain rfl := Option.some.inj (hs₁.symm.trans hs₂)
      exact ⟨⟨hok, hok'⟩, s₁, hs₁, hrest, hrest'⟩

end

/-! ## Reaching a goal -/

section

variable {σ τ : Type*} {step : σ → σ} {fine goal : σ → Prop}

/-- After finitely many steps, all of them fine, the goal is met. -/
inductive Reaches (step : σ → σ) (fine goal : σ → Prop) : σ → Prop
  | now {s : σ} (h : goal s) : Reaches step fine goal s
  | later {s : σ} (h : fine s) (hs : Reaches step fine goal (step s)) : Reaches step fine goal s

namespace Reaches

/-- States that never meet the goal, and that fine steps do not leave. -/
theorem not_of_invariant {I : σ → Prop} (hgoal : ∀ {s}, I s → ¬goal s)
    (hstep : ∀ {s}, I s → fine s → I (step s)) {s : σ} (hI : I s) :
    ¬Reaches step fine goal s := by
  intro h
  induction h with
  | now h => exact hgoal hI h
  | later h _ ih => exact ih (hstep hI h)

/-- A step that is not fine ends the run. -/
theorem goal_of_not_fine {s : σ} (h : Reaches step fine goal s) (hfine : ¬fine s) : goal s := by
  cases h with
  | now h => exact h
  | later h _ => exact absurd h hfine

section

variable {step' : τ → τ} {fine' goal' : τ → Prop} {R : σ → τ → Prop}

theorem of_rel (hgoal : ∀ s t, R s t → goal s → goal' t)
    (hfine : ∀ s t, R s t → fine s → fine' t) (hstep : ∀ s t, R s t → R (step s) (step' t)) {s : σ}
    (h : Reaches step fine goal s) : ∀ {t : τ}, R s t → Reaches step' fine' goal' t := by
  induction h with
  | now h => exact fun hR => .now (hgoal _ _ hR h)
  | later h _ ih => exact fun hR => .later (hfine _ _ hR h) (ih (hstep _ _ hR))

theorem iff_of_rel (hgoal : ∀ s t, R s t → (goal s ↔ goal' t))
    (hfine : ∀ s t, R s t → (fine s ↔ fine' t)) (hstep : ∀ s t, R s t → R (step s) (step' t))
    {s : σ} {t : τ} (hR : R s t) : Reaches step fine goal s ↔ Reaches step' fine' goal' t := by
  constructor
  · exact fun h => h.of_rel (fun s t hR => (hgoal s t hR).1) (fun s t hR => (hfine s t hR).1)
      hstep hR
  · exact fun h => h.of_rel (R := fun t s => R s t) (fun t s hR => (hgoal s t hR).2)
      (fun t s hR => (hfine s t hR).2) (fun t s => hstep s t) hR

end

end Reaches

end
