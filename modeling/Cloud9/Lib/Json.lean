import Mathlib.Algebra.BigOperators.Group.List.Basic
import Mathlib.Algebra.Group.Action.Defs
import Mathlib.Algebra.Order.BigOperators.Group.List
import Mathlib.Data.Nat.Digits.Lemmas

/-!
# Compact JSON

JSON as bytes, without blanks: numbers in decimal, strings with their escapes, arrays and objects. A
string of bytes is written as an array of numbers, and such a string may hold JSON again.

The size of what is written is bounded by one lemma for each form, for any cost of a byte (`cost`).
With cost 1 it is a length. With `weight`, the bytes that a byte takes as a number in an array, it
is the length of JSON that is written inside JSON as bytes (`length_bytes_le`). The bytes of numbers
and of arrays of numbers have a smaller weight than others (`weight_bytes`), and of the bytes of a
string those written as `\u00..` take the most (`weight_string`).
-/

namespace Json

/-! ## Writing -/

/-- The bytes of a text. -/
def utf8 (s : String) : List UInt8 := s.toByteArray.data.toList

theorem length_utf8 (s : String) : (utf8 s).length = s.utf8ByteSize := rfl

def decimal (n : ℕ) : List UInt8 :=
  if n = 0 then [48] else (Nat.digits 10 n).reverse.map fun d => UInt8.ofNat (48 + d)

def bool (b : Bool) : List UInt8 := if b then utf8 "true" else utf8 "false"

def hexDigit (n : ℕ) : UInt8 := if n < 10 then UInt8.ofNat (48 + n) else UInt8.ofNat (87 + n)

/-- A byte of a string: the quote, the backslash and the control characters are escaped. -/
def escape (b : UInt8) : List UInt8 :=
  if b = 34 then [92, 34]
  else if b = 92 then [92, 92]
  else if b = 8 then [92, 98]
  else if b = 9 then [92, 116]
  else if b = 10 then [92, 110]
  else if b = 12 then [92, 102]
  else if b = 13 then [92, 114]
  else if b < 32 then [92, 117, 48, 48, hexDigit (b.toNat / 16), hexDigit (b.toNat % 16)]
  else [b]

def string (s : String) : List UInt8 := 34 :: ((utf8 s).flatMap escape ++ [34])

def commas : List (List UInt8) → List UInt8
  | [] => []
  | [item] => item
  | item :: next :: rest => item ++ 44 :: commas (next :: rest)

def array (items : List (List UInt8)) : List UInt8 := 91 :: (commas items ++ [93])

def object (fields : List (String × List UInt8)) : List UInt8 :=
  123 :: (commas (fields.map fun f => string f.1 ++ 58 :: f.2) ++ [125])

/-- Bytes, as an array of numbers. -/
def bytes (bs : List UInt8) : List UInt8 := array (bs.map fun b => decimal b.toNat)

/-! ## Costs -/

def cost (μ : UInt8 → ℕ) (bs : List UInt8) : ℕ := (bs.map μ).sum

section

variable {μ : UInt8 → ℕ}

@[simp] theorem cost_nil : cost μ [] = 0 := rfl

@[simp] theorem cost_cons (b : UInt8) (bs : List UInt8) : cost μ (b :: bs) = μ b + cost μ bs := rfl

@[simp] theorem cost_append (bs bs' : List UInt8) :
    cost μ (bs ++ bs') = cost μ bs + cost μ bs' := by
  simp [cost]

theorem cost_one (bs : List UInt8) : cost (fun _ => 1) bs = bs.length := by
  simp [cost]

theorem cost_le {k : ℕ} {bs : List UInt8} (h : ∀ b ∈ bs, μ b ≤ k) : cost μ bs ≤ k * bs.length := by
  have hsum := List.sum_le_card_nsmul (bs.map μ) k fun c hc => by
    obtain ⟨b, hb, rfl⟩ := List.mem_map.1 hc
    exact h b hb
  rw [List.length_map, smul_eq_mul, Nat.mul_comm] at hsum
  exact hsum

theorem cost_flatMap_le {k : ℕ} {f : UInt8 → List UInt8} (h : ∀ b, cost μ (f b) ≤ k)
    (bs : List UInt8) : cost μ (bs.flatMap f) ≤ k * bs.length := by
  induction bs with
  | nil => exact Nat.zero_le _
  | cons b bs ih =>
    have hb := h b
    rw [List.flatMap_cons, cost_append, List.length_cons, Nat.mul_succ]
    omega

theorem cost_commas_le (items : List (List UInt8)) :
    cost μ (commas items) ≤ (items.map fun item => cost μ item + μ 44).sum := by
  induction items with
  | nil => exact Nat.zero_le _
  | cons item items ih =>
    cases items with
    | nil => simp [commas]
    | cons next rest =>
      rw [commas, cost_append, cost_cons, List.map_cons, List.sum_cons]
      omega

theorem cost_array_le (items : List (List UInt8)) :
    cost μ (array items) ≤ μ 91 + (items.map fun item => cost μ item + μ 44).sum + μ 93 := by
  have := @cost_commas_le μ items
  simp only [array, cost_cons, cost_append, cost_nil]
  omega

/-- An array whose items are small. -/
theorem cost_array_le_mul {c : ℕ} {items : List (List UInt8)}
    (h : ∀ item ∈ items, cost μ item + μ 44 ≤ c) :
    cost μ (array items) ≤ μ 91 + c * items.length + μ 93 := by
  have hsum := List.sum_le_card_nsmul (items.map fun item => cost μ item + μ 44) c fun x hx => by
    obtain ⟨item, hitem, rfl⟩ := List.mem_map.1 hx
    exact h item hitem
  have harray := @cost_array_le μ items
  rw [List.length_map, smul_eq_mul, Nat.mul_comm] at hsum
  omega

theorem cost_string_le {k : ℕ} (h : ∀ b, cost μ (escape b) ≤ k) (s : String) :
    cost μ (string s) ≤ 2 * μ 34 + k * s.utf8ByteSize := by
  have hescaped := cost_flatMap_le h (utf8 s)
  rw [length_utf8] at hescaped
  simp only [string, cost_cons, cost_append, cost_nil]
  omega

/-- An object whose names are short: each of its fields costs at most `c` beside its value. -/
theorem cost_object_le {k n c : ℕ} (h : ∀ b, cost μ (escape b) ≤ k)
    (hc : 2 * μ 34 + k * n + μ 58 + μ 44 ≤ c) {fields : List (String × List UInt8)}
    {names : List String} (hnames : fields.map Prod.fst = names)
    (hshort : ∀ s ∈ names, s.utf8ByteSize ≤ n) :
    cost μ (object fields) ≤
      μ 123 + (fields.map fun f => cost μ f.2).sum + fields.length * c + μ 125 := by
  have hfields : ((fields.map fun f => string f.1 ++ 58 :: f.2).map fun f => cost μ f + μ 44).sum ≤
      (fields.map fun f => cost μ f.2).sum + fields.length * c := by
    subst hnames
    induction fields with
    | nil => exact Nat.zero_le _
    | cons f fields ih =>
      rw [List.map_cons, List.forall_mem_cons] at hshort
      have hname := cost_string_le h f.1
      have hlong : k * f.1.utf8ByteSize ≤ k * n := Nat.mul_le_mul_left k hshort.1
      have hrest := ih hshort.2
      simp only [List.map_cons, List.sum_cons, cost_append, cost_cons, List.length_cons,
        Nat.succ_mul fields.length]
      omega
  have hcommas := @cost_commas_le μ (fields.map fun f => string f.1 ++ 58 :: f.2)
  simp only [object, cost_cons, cost_append, cost_nil]
  omega

end

/-! ## Numbers -/

theorem length_decimal {n k : ℕ} (hk : 0 < k) (h : n < 10 ^ k) : (decimal n).length ≤ k := by
  unfold decimal
  split_ifs with hn
  · exact hk
  · rw [List.length_map, List.length_reverse]
    exact (Nat.digits_length_le_iff (by decide) n).2 h

/-- Digits have two decimal digits. -/
theorem toNat_lt_of_mem_decimal {n : ℕ} {d : UInt8} (h : d ∈ decimal n) : d.toNat < 100 := by
  unfold decimal at h
  split_ifs at h with hn
  · rw [List.mem_singleton.1 h]
    decide
  · obtain ⟨e, he, rfl⟩ := List.mem_map.1 h
    have hlt : e < 10 := Nat.digits_lt_base (by decide) (List.mem_reverse.1 he)
    rw [UInt8.toNat_ofNat']
    omega

/-! ## JSON inside JSON -/

/-- What a byte takes in an array, with its comma. -/
def weight (b : UInt8) : ℕ := (decimal b.toNat).length + 1

theorem weight_le (b : UInt8) : weight b ≤ 4 := by
  have hlt := b.toNat_lt
  have := @length_decimal b.toNat 3 (by decide) (by omega)
  unfold weight
  omega

theorem weight_le_three {b : UInt8} (h : b.toNat < 100) : weight b ≤ 3 := by
  have := @length_decimal b.toNat 2 (by decide) h
  unfold weight
  omega

theorem length_bytes_le (bs : List UInt8) : (bytes bs).length ≤ cost weight bs + 2 := by
  have harray := @cost_array_le (fun _ => 1) (bs.map fun b => decimal b.toNat)
  rw [cost_one, List.map_map] at harray
  have hsum : (bs.map ((fun item => cost (fun _ => 1) item + 1) ∘ fun b => decimal b.toNat)).sum =
      cost weight bs := by
    refine congrArg List.sum (List.map_congr_left fun b _ => ?_)
    rw [Function.comp_apply, cost_one]
    rfl
  rw [hsum] at harray
  unfold bytes
  omega

theorem weight_decimal {n k : ℕ} (hk : 0 < k) (h : n < 10 ^ k) : cost weight (decimal n) ≤ 3 * k :=
  (cost_le fun _ hd => weight_le_three (toNat_lt_of_mem_decimal hd)).trans
    (Nat.mul_le_mul_left 3 (length_decimal hk h))

/-- An array of numbers of one byte, inside an array of numbers. -/
theorem weight_bytes (bs : List UInt8) : cost weight (bytes bs) ≤ 12 * bs.length + 6 := by
  have hitem : ∀ item ∈ bs.map fun b => decimal b.toNat, cost weight item + weight 44 ≤ 12 := by
    intro item hitem
    obtain ⟨b, _, rfl⟩ := List.mem_map.1 hitem
    have hlt := b.toNat_lt
    have hdecimal := @weight_decimal b.toNat 3 (by decide) (by omega)
    have hcomma : weight 44 ≤ 3 := weight_le_three (by decide)
    omega
  have hopen : weight 91 ≤ 3 := weight_le_three (by decide)
  have hclose : weight 93 ≤ 3 := weight_le_three (by decide)
  have harray := cost_array_le_mul hitem
  rw [List.length_map] at harray
  unfold bytes
  omega

/-- The worst a byte of a string can come to is `\u00` and two digits. -/
theorem weight_escape (b : UInt8) : cost weight (escape b) ≤ 20 := by
  have hbackslash : weight 92 ≤ 3 := weight_le_three (by decide)
  have hzero : weight 48 ≤ 3 := weight_le_three (by decide)
  have htwo : ∀ c, cost weight [92, c] ≤ 20 := by
    intro c
    have := weight_le c
    simp only [cost_cons, cost_nil]
    omega
  unfold escape
  split_ifs with _ _ _ _ _ _ _ hcontrol
  · exact htwo 34
  · exact htwo 92
  · exact htwo 98
  · exact htwo 116
  · exact htwo 110
  · exact htwo 102
  · exact htwo 114
  · -- the first of the two digits is 0 or 1
    have hlt : b.toNat < 32 := UInt8.lt_iff_toNat_lt.1 hcontrol
    have hhigh : weight (hexDigit (b.toNat / 16)) ≤ 3 := by
      refine weight_le_three ?_
      rw [hexDigit, if_pos (by omega), UInt8.toNat_ofNat']
      omega
    have hletter := weight_le 117
    have hlow := weight_le (hexDigit (b.toNat % 16))
    simp only [cost_cons, cost_nil]
    omega
  · have := weight_le b
    simp only [cost_cons, cost_nil]
    omega

theorem length_escape (b : UInt8) : cost (fun _ => 1) (escape b) ≤ 6 := by
  rw [cost_one]
  unfold escape
  split_ifs <;> simp only [List.length_cons, List.length_nil] <;> decide

theorem weight_string (s : String) : cost weight (string s) ≤ 20 * s.utf8ByteSize + 6 := by
  have hquote : weight 34 ≤ 3 := weight_le_three (by decide)
  have := cost_string_le weight_escape s
  omega

theorem weight_bool (b : Bool) : cost weight (bool b) ≤ 20 := by
  have hlength : (bool b).length ≤ 5 := by
    cases b <;> decide
  have := cost_le fun c (_ : c ∈ bool b) => weight_le c
  omega

/-- An object with names of at most 16 bytes, inside an array of numbers. -/
theorem weight_object {fields : List (String × List UInt8)} {names : List String}
    (hnames : fields.map Prod.fst = names) (hshort : ∀ s ∈ names, s.utf8ByteSize ≤ 16) :
    cost weight (object fields) ≤
      (fields.map fun f => cost weight f.2).sum + fields.length * 332 + 8 := by
  have hquote : weight 34 ≤ 3 := weight_le_three (by decide)
  have hcolon : weight 58 ≤ 3 := weight_le_three (by decide)
  have hcomma : weight 44 ≤ 3 := weight_le_three (by decide)
  have hfield : 2 * weight 34 + 20 * 16 + weight 58 + weight 44 ≤ 332 :=
    Nat.add_le_add (Nat.add_le_add (Nat.add_le_add_right (Nat.mul_le_mul_left 2 hquote) _) hcolon)
      hcomma
  have hobject := cost_object_le weight_escape hfield hnames hshort
  have hopen := weight_le 123
  have hclose := weight_le 125
  omega

/-- An object with names of at most 16 bytes. -/
theorem length_object {fields : List (String × List UInt8)} {names : List String}
    (hnames : fields.map Prod.fst = names) (hshort : ∀ s ∈ names, s.utf8ByteSize ≤ 16) :
    (object fields).length ≤ (fields.map fun f => f.2.length).sum + fields.length * 100 + 2 := by
  have hobject := @cost_object_le (fun _ => 1) 6 16 100 length_escape (by decide) _ _ hnames hshort
  simp only [cost_one] at hobject
  omega

theorem length_array {k : ℕ} {items : List (List UInt8)} (h : ∀ item ∈ items, item.length ≤ k) :
    (array items).length ≤ (k + 1) * items.length + 2 := by
  have hitem : ∀ item ∈ items, cost (fun _ => 1) item + 1 ≤ k + 1 := by
    intro item hitem
    rw [cost_one]
    exact Nat.succ_le_succ (h item hitem)
  have harray := @cost_array_le_mul (fun _ => 1) (k + 1) items hitem
  rw [cost_one] at harray
  omega

end Json
