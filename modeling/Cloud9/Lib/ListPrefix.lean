import Mathlib.Data.List.Infix
import Mathlib.Data.Nat.Find
import Mathlib.Tactic.Common

/-!
# Prefixes of lists, by position

How `<+:`, `take` and `[·]?` determine each other: what a prefix says about single positions, and
where two lists part. A list read as a history is `Justified` if each element is by the prefix
before it.
-/

namespace List

variable {α : Type*} {l l' : List α}

theorem IsPrefix.getElem?_eq_some {i : ℕ} {a : α} (h : l <+: l') (hi : l[i]? = some a) :
    l'[i]? = some a := by
  obtain ⟨t, rfl⟩ := h
  rw [List.getElem?_append_left (List.getElem?_eq_some_iff.1 hi).1]
  exact hi

theorem IsPrefix.take_eq {i : ℕ} (h : l <+: l') (hi : i ≤ l.length) : l'.take i = l.take i := by
  obtain ⟨t, rfl⟩ := h
  exact List.take_append_of_le_length hi

theorem getElem?_last_of_take {i : ℕ} {a : α} (hi : l[i]? = some a) :
    (l.take (i + 1)).length = i + 1 := by
  have := (List.getElem?_eq_some_iff.1 hi).1
  rw [List.length_take]
  omega

/-- Different lists have a first position where they differ. -/
theorem exists_diverge (h : l ≠ l') :
    ∃ d : ℕ, l.take d = l'.take d ∧ l[d]? ≠ l'[d]? := by
  classical
  have hex : ∃ d : ℕ, l[d]? ≠ l'[d]? := by
    by_contra hno
    push Not at hno
    exact h (List.ext_getElem? hno)
  refine ⟨Nat.find hex, List.ext_getElem? fun i => ?_, Nat.find_spec hex⟩
  rcases Nat.lt_or_ge i (Nat.find hex) with hlt | hge
  · rw [List.getElem?_take_of_lt hlt, List.getElem?_take_of_lt hlt]
    exact not_not.1 (Nat.find_min hex hlt)
  · rw [List.getElem?_take_eq_none hge, List.getElem?_take_eq_none hge]

theorem getElem?_of_take_eq {d i : ℕ} (h : l.take d = l'.take d)
    (hi : i < d) : l[i]? = l'[i]? := by
  rw [← List.getElem?_take_of_lt hi, h, List.getElem?_take_of_lt hi]

theorem getElem?_of_take_prefix {n d : ℕ} (hp : l.take n <+: l')
    (hd : d < n) (hn : n ≤ l.length) : l[d]? = l'[d]? := by
  have hget : (l.take n)[d]? = some (l.get ⟨d, by omega⟩) := by
    rw [List.getElem?_take_of_lt hd]
    exact List.getElem?_eq_getElem (by omega)
  rw [hp.getElem?_eq_some hget, ← List.getElem?_take_of_lt hd, hget]

theorem take_prefix_of_take_eq {d i : ℕ} (h : l.take d = l'.take d)
    (hi : i ≤ d) : l.take i <+: l' := by
  have heq : l.take i = l'.take i := by
    rw [← min_eq_left hi, ← List.take_take, h, List.take_take]
  rw [heq]
  exact List.take_prefix i l'

/-! ## The longest common prefix -/

section

variable [DecidableEq α]

/-- The length of the longest common prefix. -/
def commonLength : List α → List α → ℕ
  | a :: l, b :: l' => if a = b then commonLength l l' + 1 else 0
  | _, _ => 0

theorem commonLength_le_left (l l' : List α) : commonLength l l' ≤ l.length := by
  induction l generalizing l' with
  | nil => simp [commonLength]
  | cons a l ih =>
    cases l' with
    | nil => simp [commonLength]
    | cons b l' =>
      simp only [commonLength, length_cons]
      split_ifs
      · exact Nat.succ_le_succ (ih l')
      · exact Nat.zero_le _

theorem take_prefix_iff_commonLength {l l' : List α} {i : ℕ} (hi : i ≤ l.length) :
    l.take i <+: l' ↔ i ≤ commonLength l l' := by
  induction l generalizing l' i with
  | nil => simp_all
  | cons a l ih =>
    cases i with
    | zero => simp
    | succ i =>
      cases l' with
      | nil => simp [commonLength]
      | cons b l' =>
        simp only [take_succ_cons, cons_prefix_cons, commonLength]
        split_ifs with h
        · simp only [h, true_and, Nat.succ_le_succ_iff]
          exact ih (Nat.le_of_succ_le_succ hi)
        · simp [h]

theorem commonLength_le_right (l l' : List α) : commonLength l l' ≤ l'.length := by
  have h := (take_prefix_iff_commonLength (commonLength_le_left l l')).2 le_rfl
  have := h.length_le
  have := commonLength_le_left l l'
  rw [length_take] at *
  omega

theorem prefix_iff_commonLength {l l' : List α} : l <+: l' ↔ commonLength l l' = l.length := by
  have h : l.take l.length <+: l' ↔ l.length ≤ commonLength l l' :=
    take_prefix_iff_commonLength (le_refl l.length)
  have := commonLength_le_left l l'
  rw [take_length] at h
  rw [h]
  omega

end

/-- A prefix of what is left of a list comes from a prefix of the list. -/
theorem exists_take_filterMap {β : Type*} (g : α → Option β) (l : List α) (k : ℕ) :
    ∃ i ≤ l.length, (l.take i).filterMap g = (l.filterMap g).take k := by
  induction l generalizing k with
  | nil => exact ⟨0, Nat.le_refl _, by simp⟩
  | cons a l ih =>
    cases k with
    | zero => exact ⟨0, Nat.zero_le _, by simp⟩
    | succ k =>
      cases ha : g a with
      | none =>
        obtain ⟨i, hi, htake⟩ := ih (k + 1)
        exact ⟨i + 1, Nat.succ_le_succ hi, by simp [ha, htake]⟩
      | some b =>
        obtain ⟨i, hi, htake⟩ := ih k
        exact ⟨i + 1, Nat.succ_le_succ hi, by simp [ha, htake]⟩

/-! ## Histories -/

section

variable {P : List α → α → Prop} {a : α}

/-- Every element of a history is justified by those before it. -/
def Justified (P : List α → α → Prop) (l : List α) : Prop :=
  ∀ before a after, l = before ++ a :: after → P before a

theorem Justified.nil : Justified P [] :=
  fun _ _ _ h => absurd h (by simp)

theorem Justified.concat (h : Justified P l) (ha : P l a) : Justified P (l ++ [a]) := by
  intro before b after heq
  rcases List.eq_nil_or_concat' after with rfl | ⟨after, c, rfl⟩
  · obtain ⟨rfl, hba⟩ := List.append_inj' heq rfl
    cases hba
    exact ha
  · rw [← List.cons_append, ← List.append_assoc] at heq
    exact h before b after (List.append_inj' heq rfl).1

end

end List
