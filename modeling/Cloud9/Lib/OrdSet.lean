import Mathlib.Order.Lattice
import Mathlib.Data.List.Nodup
import Mathlib.Tactic.Common

/-!
# Ordered finite sets and majorities

A finite set over a linear order, kept as its strictly increasing list of elements. Equal sets
are equal lists, iteration is in increasing order, and the invariant travels with the value, so
no lemma below has to ask for it.

The second half is the counting argument every quorum protocol rests on: two majorities of one
set meet (`majority_inter`), and so do majorities of two sets that differ by one element
(`majority_inter_insert`).
-/

/-- A finite set, as the strictly increasing list of its elements. -/
structure OrdSet (α : Type*) [LinearOrder α] where
  toList : List α
  sorted : toList.Pairwise (· < ·)

namespace OrdSet

variable {α : Type*} [LinearOrder α]

theorem ext_toList {S T : OrdSet α} (h : S.toList = T.toList) : S = T := by
  cases S; cases T; cases h; rfl

instance : DecidableEq (OrdSet α) := fun S T =>
  decidable_of_iff (S.toList = T.toList) ⟨ext_toList, fun h => by rw [h]⟩

instance : Membership α (OrdSet α) := ⟨fun S a => a ∈ S.toList⟩

instance (a : α) (S : OrdSet α) : Decidable (a ∈ S) := inferInstanceAs (Decidable (a ∈ S.toList))

theorem mem_def {a : α} {S : OrdSet α} : a ∈ S ↔ a ∈ S.toList := Iff.rfl

theorem nodup (S : OrdSet α) : S.toList.Nodup :=
  S.sorted.imp fun h => ne_of_lt h

theorem ext_mem {S T : OrdSet α} (h : ∀ a, a ∈ S ↔ a ∈ T) : S = T :=
  ext_toList <| ((List.perm_ext_iff_of_nodup S.nodup T.nodup).2 h).eq_of_pairwise
    (fun _ _ _ _ hab hba => absurd hba (not_lt_of_gt hab)) S.sorted T.sorted

/-! ## Operations -/

def empty : OrdSet α := ⟨[], List.Pairwise.nil⟩

def contains (S : OrdSet α) (a : α) : Bool := decide (a ∈ S)

def card (S : OrdSet α) : ℕ := S.toList.length

/-- Insertion into an increasing list; an element already there is not inserted twice. -/
def insertList (a : α) : List α → List α
  | [] => [a]
  | b :: l => if a < b then a :: b :: l else if a = b then b :: l else b :: insertList a l

theorem mem_insertList {a b : α} {l : List α} : b ∈ insertList a l ↔ b = a ∨ b ∈ l := by
  induction l with
  | nil => simp [insertList]
  | cons c l ih =>
    simp only [insertList]
    split_ifs with h₁ h₂
    · simp
    · subst h₂; simp
    · simp only [List.mem_cons, ih]
      tauto

theorem sorted_insertList {a : α} {l : List α} (hl : l.Pairwise (· < ·)) :
    (insertList a l).Pairwise (· < ·) := by
  induction l with
  | nil => simp [insertList]
  | cons c l ih =>
    obtain ⟨hc, hl'⟩ := List.pairwise_cons.1 hl
    simp only [insertList]
    split_ifs with h₁ h₂
    · refine List.pairwise_cons.2 ⟨fun b hb => ?_, hl⟩
      rcases List.mem_cons.1 hb with rfl | hb
      · exact h₁
      · exact lt_trans h₁ (hc b hb)
    · exact hl
    · refine List.pairwise_cons.2 ⟨fun b hb => ?_, ih hl'⟩
      rcases mem_insertList.1 hb with rfl | hb
      · exact lt_of_le_of_ne (not_lt.1 h₁) (Ne.symm h₂)
      · exact hc b hb

theorem length_insertList {a : α} {l : List α} (ha : a ∉ l) :
    (insertList a l).length = l.length + 1 := by
  induction l with
  | nil => simp [insertList]
  | cons c l ih =>
    simp only [List.mem_cons, not_or] at ha
    simp only [insertList, if_neg ha.1]
    split_ifs
    · rfl
    · simp [ih ha.2]

def insert (S : OrdSet α) (a : α) : OrdSet α := ⟨insertList a S.toList, sorted_insertList S.sorted⟩

def erase (S : OrdSet α) (a : α) : OrdSet α :=
  ⟨S.toList.filter (· ≠ a), S.sorted.filter _⟩

/-- Collect a list into a set. -/
def ofList (l : List α) : OrdSet α := l.foldl insert empty

@[simp] theorem not_mem_empty (a : α) : a ∉ (empty : OrdSet α) := List.not_mem_nil

@[simp] theorem contains_eq_true {S : OrdSet α} {a : α} : S.contains a = true ↔ a ∈ S := by
  simp [contains]

@[simp] theorem contains_eq_false {S : OrdSet α} {a : α} : S.contains a = false ↔ a ∉ S := by
  simp [contains]

@[simp] theorem mem_insert {S : OrdSet α} {a b : α} : b ∈ S.insert a ↔ b = a ∨ b ∈ S :=
  mem_insertList

@[simp] theorem mem_erase {S : OrdSet α} {a b : α} : b ∈ S.erase a ↔ b ∈ S ∧ b ≠ a := by
  simp [mem_def, erase]

theorem mem_foldl_insert {l : List α} {S : OrdSet α} {a : α} :
    a ∈ l.foldl insert S ↔ a ∈ S ∨ a ∈ l := by
  induction l generalizing S with
  | nil => simp
  | cons b l ih =>
    simp only [List.foldl_cons, ih, mem_insert, List.mem_cons]
    tauto

@[simp] theorem mem_ofList {l : List α} {a : α} : a ∈ ofList l ↔ a ∈ l := by
  simp [ofList, mem_foldl_insert]

theorem card_insert {S : OrdSet α} {a : α} (ha : a ∉ S) : (S.insert a).card = S.card + 1 :=
  length_insertList ha

/-! ## Majorities -/

/-- `p` holds on more than half of the elements of `S`. -/
def majority (S : OrdSet α) (p : α → Bool) : Bool := decide (S.card / 2 < S.toList.countP p)

theorem majority_iff {S : OrdSet α} {p : α → Bool} :
    S.majority p = true ↔ S.card / 2 < S.toList.countP p := by
  simp [majority]

omit [LinearOrder α] in
theorem countP_add_countP_le (l : List α) (p q : α → Bool) :
    l.countP p + l.countP q ≤ l.length + l.countP fun a => p a && q a := by
  induction l with
  | nil => simp
  | cons a l ih =>
    simp only [List.countP_cons, List.length_cons]
    cases p a <;> cases q a <;> simp <;> omega

omit [LinearOrder α] in
/-- Two predicates that together hold more often than the list is long meet. -/
theorem exists_of_length_lt {l : List α} {p q : α → Bool}
    (h : l.length < l.countP p + l.countP q) : ∃ a ∈ l, p a = true ∧ q a = true := by
  have hle := countP_add_countP_le l p q
  have hpos : 0 < l.countP fun a => p a && q a := by omega
  obtain ⟨a, ha, hpq⟩ := List.countP_pos_iff.1 hpos
  exact ⟨a, ha, by simpa using hpq⟩

/-- **Two majorities of one set meet.** -/
theorem majority_inter {S : OrdSet α} {p q : α → Bool} (hp : S.majority p = true)
    (hq : S.majority q = true) : ∃ a ∈ S, p a = true ∧ q a = true := by
  rw [majority_iff] at hp hq
  exact exists_of_length_lt (l := S.toList) (by unfold card at hp hq; omega)

theorem countP_insertList {a : α} {l : List α} (ha : a ∉ l) (p : α → Bool) :
    (insertList a l).countP p = l.countP p + if p a then 1 else 0 := by
  induction l with
  | nil => simp [insertList, List.countP_cons]
  | cons c l ih =>
    simp only [List.mem_cons, not_or] at ha
    simp only [insertList, if_neg ha.1]
    split_ifs with h₁ h₂ h₂
    · simp [List.countP_cons, h₂]
    · simp [List.countP_cons, h₂]
    · rw [List.countP_cons, ih ha.2, List.countP_cons, if_pos h₂]; omega
    · rw [List.countP_cons, ih ha.2, List.countP_cons, if_neg h₂]; omega

/-- **A majority of a set meets a majority of the set with one element more.** -/
theorem majority_inter_insert {S : OrdSet α} {a : α} (ha : a ∉ S) {p q : α → Bool}
    (hp : S.majority p = true) (hq : (S.insert a).majority q = true) :
    ∃ b ∈ S, p b = true ∧ q b = true := by
  rw [majority_iff] at hp hq
  rw [card_insert ha] at hq
  have hcount : (S.insert a).toList.countP q ≤ S.toList.countP q + 1 := by
    have h := countP_insertList ha q
    unfold insert
    split_ifs at h <;> simp only [h] <;> omega
  exact exists_of_length_lt (l := S.toList) (by unfold card at hp hq; omega)

theorem majority_mono {S : OrdSet α} {p q : α → Bool} (h : ∀ a, p a = true → q a = true)
    (hp : S.majority p = true) : S.majority q = true := by
  rw [majority_iff] at hp ⊢
  exact Nat.lt_of_lt_of_le hp (List.countP_mono_left fun a _ => h a)

/-! ## Sets that differ by at most one element -/

/-- `S` and `T` are equal, or one is the other with one element more. -/
def Adjacent (S T : OrdSet α) : Prop :=
  S = T ∨ (∃ a, a ∉ S ∧ T = S.insert a) ∨ ∃ a, a ∉ T ∧ S = T.insert a

theorem Adjacent.majority_inter {S T : OrdSet α} (h : Adjacent S T) {p q : α → Bool}
    (hp : S.majority p = true) (hq : T.majority q = true) :
    ∃ a, a ∈ S ∧ a ∈ T ∧ p a = true ∧ q a = true := by
  rcases h with rfl | ⟨a, ha, rfl⟩ | ⟨a, ha, rfl⟩
  · obtain ⟨b, hb, h⟩ := OrdSet.majority_inter hp hq
    exact ⟨b, hb, hb, h⟩
  · obtain ⟨b, hb, h⟩ := majority_inter_insert ha hp hq
    exact ⟨b, hb, by simp [hb], h⟩
  · obtain ⟨b, hb, hqb, hpb⟩ := majority_inter_insert ha hq hp
    exact ⟨b, by simp [hb], hb, hpb, hqb⟩

theorem adjacent_insert {S : OrdSet α} {a : α} (ha : a ∉ S) : Adjacent S (S.insert a) :=
  .inr (.inl ⟨a, ha, rfl⟩)

theorem adjacent_erase {S : OrdSet α} {a : α} (ha : a ∈ S) : Adjacent S (S.erase a) := by
  refine .inr (.inr ⟨a, by simp, ext_mem fun b => ?_⟩)
  by_cases hb : b = a
  · simp [hb, ha]
  · simp [hb]

/-- The elements of `S` that are not in `T`. -/
def diffList (S T : OrdSet α) : List α := S.toList.filter fun a => !T.contains a

theorem mem_diffList {S T : OrdSet α} {a : α} : a ∈ S.diffList T ↔ a ∈ S ∧ a ∉ T := by
  simp [diffList, mem_def, contains]

theorem eq_insert_of_diffList {S T : OrdSet α} {a : α} (hST : S.diffList T = [])
    (hTS : T.diffList S = [a]) : T = S.insert a := by
  refine ext_mem fun b => ?_
  have h₁ : b ∈ S.diffList T ↔ False := by rw [hST]; simp
  have h₂ : b ∈ T.diffList S ↔ b = a := by rw [hTS]; simp
  rw [mem_diffList] at h₁ h₂
  rw [mem_insert]
  tauto

theorem adjacent_of_diffList {S T : OrdSet α}
    (h : (T.diffList S).length + (S.diffList T).length ≤ 1) : Adjacent S T := by
  have hmem : ∀ {S T : OrdSet α} {a : α}, T.diffList S = [a] → a ∉ S := fun h =>
    (mem_diffList.1 (h ▸ List.mem_singleton_self _)).2
  rcases hTS : T.diffList S with _ | ⟨a, _ | ⟨b, l⟩⟩
  · rcases hST : S.diffList T with _ | ⟨a, _ | ⟨b, l⟩⟩
    · refine .inl (ext_mem fun b => ?_)
      have h₁ := List.eq_nil_iff_forall_not_mem.1 hTS b
      have h₂ := List.eq_nil_iff_forall_not_mem.1 hST b
      rw [mem_diffList] at h₁ h₂
      tauto
    · exact .inr (.inr ⟨a, hmem hST, eq_insert_of_diffList hTS hST⟩)
    · simp [hTS, hST] at h
  · have hST : S.diffList T = [] := by
      rw [hTS, List.length_singleton] at h
      exact List.length_eq_zero_iff.1 (by omega)
    exact .inr (.inl ⟨a, hmem hTS, eq_insert_of_diffList hST hTS⟩)
  · rw [hTS] at h
    simp at h
    omega

end OrdSet
