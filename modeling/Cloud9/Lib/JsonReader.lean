import Cloud9.Lib.Json
import Mathlib.Data.List.Forall2

/-!
# Reading JSON

A reader for the JSON of `Cloud9.Lib.Json`. It also takes what a writer need not make: blanks
between the tokens, escapes with surrogate pairs, numbers with fraction and exponent. The recursion
is on a fuel, and the length of the input is enough of it.

`Reads bs v` says that the bytes `bs` are read as the value `v` wherever they stand. There is one
lemma for each form that can be written, so that what a writer makes is read back without a look at
the reader.
-/

namespace Json

inductive Value where
  | null
  | bool (b : Bool)
  /-- A number without fraction and exponent. -/
  | int (negative : Bool) (n : ℕ)
  /-- Any other number. -/
  | real
  | string (s : String)
  | array (items : List Value)
  | object (members : List (String × Value))

/-! ## Numbers -/

def isBlank (b : UInt8) : Bool := b == 32 || b == 9 || b == 10 || b == 13

def isDigit (b : UInt8) : Bool := decide (48 ≤ b ∧ b ≤ 57)

def readDigits (bs : List UInt8) : Option (List UInt8 × List UInt8) :=
  if bs.takeWhile isDigit = [] then none else some (bs.takeWhile isDigit, bs.dropWhile isDigit)

def digitsValue (ds : List UInt8) : ℕ := Nat.ofDigits 10 (ds.reverse.map fun d => d.toNat - 48)

/-- The digits before the point. A zero stands alone. -/
def readWhole (bs : List UInt8) : Option (ℕ × List UInt8) :=
  (readDigits bs).bind fun out =>
    if out.1.head? = some 48 ∧ out.1.length ≠ 1 then none else some (digitsValue out.1, out.2)

/-- A fraction if there is one, and whether there was. -/
def readFraction : List UInt8 → Option (Bool × List UInt8)
  | [] => some (false, [])
  | b :: bs =>
    if b = 46 then (readDigits bs).map fun out => (true, out.2) else some (false, b :: bs)

def skipSign : List UInt8 → List UInt8
  | [] => []
  | b :: bs => if b = 43 ∨ b = 45 then bs else b :: bs

def readExponent : List UInt8 → Option (Bool × List UInt8)
  | [] => some (false, [])
  | b :: bs =>
    if b = 69 ∨ b = 101 then (readDigits (skipSign bs)).map fun out => (true, out.2)
    else some (false, b :: bs)

def readNumber (negative : Bool) (bs : List UInt8) : Option (Value × List UInt8) :=
  (readWhole bs).bind fun whole =>
    (readFraction whole.2).bind fun fraction =>
      (readExponent fraction.2).map fun exponent =>
        (if fraction.1 || exponent.1 then .real else .int negative whole.1, exponent.2)

/-! ## Strings -/

def hexValue (b : UInt8) : Option ℕ :=
  if isDigit b then some (b.toNat - 48)
  else if 97 ≤ b ∧ b ≤ 102 then some (b.toNat - 87)
  else if 65 ≤ b ∧ b ≤ 70 then some (b.toNat - 55)
  else none

/-- A code unit of four hexadecimal digits. -/
def readUnit : List UInt8 → Option (ℕ × List UInt8)
  | a :: b :: c :: d :: bs => do
    let a ← hexValue a
    let b ← hexValue b
    let c ← hexValue c
    let d ← hexValue d
    some (((a * 16 + b) * 16 + c) * 16 + d, bs)
  | _ => none

/-- The second half of a surrogate pair, with its backslash. -/
def readLowUnit : List UInt8 → Option (ℕ × List UInt8)
  | a :: b :: bs =>
    if a = 92 ∧ b = 117 then
      (readUnit bs).filter fun out => 0xDC00 ≤ out.1 ∧ out.1 < 0xE000
    else none
  | _ => none

/-- The character of an escape, after `\u`. Half of a surrogate pair is none. -/
def readUnicode (bs : List UInt8) : Option (List UInt8 × List UInt8) :=
  (readUnit bs).bind fun high =>
    if 0xDC00 ≤ high.1 ∧ high.1 < 0xE000 then none
    else if 0xD800 ≤ high.1 ∧ high.1 < 0xDC00 then
      (readLowUnit high.2).map fun low =>
        (String.utf8EncodeChar
          (Char.ofNat ((high.1 - 0xD800) * 0x400 + (low.1 - 0xDC00) + 0x10000)), low.2)
    else some (String.utf8EncodeChar (Char.ofNat high.1), high.2)

/-- What stands after a backslash. -/
def readEscape : List UInt8 → Option (List UInt8 × List UInt8)
  | [] => none
  | b :: bs =>
    if b = 34 ∨ b = 47 ∨ b = 92 then some ([b], bs)
    else if b = 98 then some ([8], bs)
    else if b = 116 then some ([9], bs)
    else if b = 110 then some ([10], bs)
    else if b = 102 then some ([12], bs)
    else if b = 114 then some ([13], bs)
    else if b = 117 then readUnicode bs
    else none

/-- The bytes up to the closing quote. -/
def readChars : ℕ → List UInt8 → Option (List UInt8 × List UInt8)
  | 0, _ => none
  | _ + 1, [] => none
  | fuel + 1, b :: bs =>
    if b = 34 then some ([], bs)
    else if b = 92 then (readEscape bs).bind fun char =>
      (readChars fuel char.2).map fun out => (char.1 ++ out.1, out.2)
    else if b < 32 then none
    else (readChars fuel bs).map fun out => (b :: out.1, out.2)

def readString (bs : List UInt8) : Option (String × List UInt8) :=
  (readChars bs.length bs).bind fun out =>
    (String.fromUTF8? ⟨out.1.toArray⟩).map fun s => (s, out.2)

/-! ## Values -/

/-- What stands after the byte `b`, if that is the next token. -/
def next (b : UInt8) (bs : List UInt8) : Option (List UInt8) :=
  match bs.dropWhile isBlank with
  | [] => none
  | c :: bs => if c = b then some bs else none

def readWord (word : String) (v : Value) (bs : List UInt8) : Option (Value × List UInt8) :=
  (bs.dropPrefix? (utf8 word)).map fun rest => (v, rest)

mutual

def readValue : ℕ → List UInt8 → Option (Value × List UInt8)
  | 0, _ => none
  | fuel + 1, bs => match bs.dropWhile isBlank with
    | [] => none
    | b :: bs =>
      if b = 34 then (readString bs).map fun out => (.string out.1, out.2)
      else if b = 91 then match next 93 bs with
        | some rest => some (.array [], rest)
        | none => (readItems fuel bs).map fun out => (.array out.1, out.2)
      else if b = 123 then match next 125 bs with
        | some rest => some (.object [], rest)
        | none => (readMembers fuel bs).map fun out => (.object out.1, out.2)
      else if b = 45 then readNumber true bs
      else if isDigit b then readNumber false (b :: bs)
      else if b = 116 then readWord "true" (.bool true) (b :: bs)
      else if b = 102 then readWord "false" (.bool false) (b :: bs)
      else readWord "null" .null (b :: bs)

/-- One or more items, up to the end of their array. -/
def readItems : ℕ → List UInt8 → Option (List Value × List UInt8)
  | 0, _ => none
  | fuel + 1, bs => (readValue fuel bs).bind fun item => match next 44 item.2 with
    | some rest => (readItems fuel rest).map fun out => (item.1 :: out.1, out.2)
    | none => (next 93 item.2).map fun rest => ([item.1], rest)

/-- One or more members, up to the end of their object. -/
def readMembers : ℕ → List UInt8 → Option (List (String × Value) × List UInt8)
  | 0, _ => none
  | fuel + 1, bs =>
    (next 34 bs).bind fun bs => (readString bs).bind fun name => (next 58 name.2).bind fun bs =>
      (readValue fuel bs).bind fun item => match next 44 item.2 with
        | some rest => (readMembers fuel rest).map fun out => ((name.1, item.1) :: out.1, out.2)
        | none => (next 125 item.2).map fun rest => ([(name.1, item.1)], rest)

end

/-- Read one value, and nothing but blanks after it. -/
def read (bs : List UInt8) : Option Value :=
  (readValue bs.length bs).bind fun out => if out.2.all isBlank then some out.1 else none

/-! ## What is written is read -/

/-- No byte that would go on with a number comes next. -/
def Stops (bs : List UInt8) : Prop :=
  ∀ b ∈ bs.head?, isDigit b = false ∧ b ≠ 46 ∧ b ≠ 69 ∧ b ≠ 101

theorem stops_nil : Stops [] := fun _ h => by cases h

theorem stops_cons {b : UInt8} {bs : List UInt8}
    (h : isDigit b = false ∧ b ≠ 46 ∧ b ≠ 69 ∧ b ≠ 101) : Stops (b :: bs) := fun c hc => by
  rw [List.head?_cons, Option.mem_some_iff] at hc
  exact hc ▸ h

def Reads (bs : List UInt8) (v : Value) : Prop :=
  ∀ fuel rest, bs.length ≤ fuel → Stops rest → readValue fuel (bs ++ rest) = some (v, rest)

theorem Reads.read {bs : List UInt8} {v : Value} (h : Reads bs v) : read bs = some v := by
  have hvalue := h bs.length [] (Nat.le_refl _) stops_nil
  rw [List.append_nil] at hvalue
  simp [Json.read, hvalue]

theorem dropWhile_isBlank_cons {b : UInt8} (hb : isBlank b = false) (bs : List UInt8) :
    (b :: bs).dropWhile isBlank = b :: bs := by
  simp [List.dropWhile, hb]

/-! ### Numbers -/

theorem decimal_ne_nil (n : ℕ) : decimal n ≠ [] := by
  unfold decimal
  split_ifs with hn
  · exact List.cons_ne_nil _ _
  · simpa [Nat.digits_eq_nil_iff_eq_zero] using hn

theorem toNat_digit {d : ℕ} (hd : d < 10) : (UInt8.ofNat (48 + d)).toNat = 48 + d := by
  rw [UInt8.toNat_ofNat']
  omega

theorem isDigit_of_mem_decimal {n : ℕ} {b : UInt8} (h : b ∈ decimal n) : isDigit b = true := by
  unfold decimal at h
  split_ifs at h with hn
  · rw [List.mem_singleton.1 h]
    rfl
  · obtain ⟨d, hd, rfl⟩ := List.mem_map.1 h
    have hlt : d < 10 := Nat.digits_lt_base (by decide) (List.mem_reverse.1 hd)
    simp only [isDigit, decide_eq_true_eq, UInt8.le_iff_toNat_le, toNat_digit hlt]
    exact ⟨Nat.le_add_right 48 d, by change 48 + d ≤ 57; omega⟩

theorem digitsValue_decimal (n : ℕ) : digitsValue (decimal n) = n := by
  unfold digitsValue decimal
  split_ifs with hn
  · rw [hn]
    rfl
  · have hdigits : (Nat.digits 10 n).map
        ((fun d : UInt8 => d.toNat - 48) ∘ fun d => UInt8.ofNat (48 + d)) = Nat.digits 10 n := by
      refine (List.map_congr_left fun d hd => ?_).trans (List.map_id _)
      rw [Function.comp_apply, toNat_digit (Nat.digits_lt_base (by decide) hd)]
      exact Nat.add_sub_cancel_left 48 d
    rw [← List.map_reverse, List.reverse_reverse, List.map_map, hdigits, Nat.ofDigits_digits]

/-- Only zero begins with the digit 0. -/
theorem length_decimal_of_head {n : ℕ} (h : (decimal n).head? = some 48) :
    (decimal n).length = 1 := by
  unfold decimal at h ⊢
  split_ifs at h ⊢ with hn
  · rfl
  · have hne : Nat.digits 10 n ≠ [] := Nat.digits_ne_nil_iff_ne_zero.2 hn
    rw [List.head?_map, List.head?_reverse, List.getLast?_eq_some_getLast hne, Option.map_some,
      Option.some.injEq] at h
    have hlast := toNat_digit (Nat.digits_lt_base (by decide) (List.getLast_mem hne))
    rw [h] at hlast
    have hzero := Nat.getLast_digit_ne_zero 10 hn
    change 48 = 48 + _ at hlast
    omega

theorem takeWhile_isDigit {rest : List UInt8} (h : Stops rest) : rest.takeWhile isDigit = [] := by
  cases rest with
  | nil => rfl
  | cons b rest => simp [(h b rfl).1]

theorem dropWhile_isDigit {rest : List UInt8} (h : Stops rest) : rest.dropWhile isDigit = rest := by
  cases rest with
  | nil => rfl
  | cons b rest => simp [(h b rfl).1]

theorem readWhole_decimal (n : ℕ) {rest : List UInt8} (h : Stops rest) :
    readWhole (decimal n ++ rest) = some (n, rest) := by
  have hdigits : readDigits (decimal n ++ rest) = some (decimal n, rest) := by
    rw [readDigits, List.takeWhile_append_of_pos fun _ => isDigit_of_mem_decimal,
      List.dropWhile_append_of_pos fun _ => isDigit_of_mem_decimal, takeWhile_isDigit h,
      dropWhile_isDigit h, List.append_nil, if_neg (decimal_ne_nil n)]
  rw [readWhole, hdigits, Option.bind_some, if_neg fun hz => hz.2 (length_decimal_of_head hz.1),
    digitsValue_decimal]

theorem readNumber_decimal (n : ℕ) {rest : List UInt8} (h : Stops rest) :
    readNumber false (decimal n ++ rest) = some (.int false n, rest) := by
  have hfraction : readFraction rest = some (false, rest) := by
    cases rest with
    | nil => rfl
    | cons b rest => rw [readFraction, if_neg (h b rfl).2.1]
  have hexponent : readExponent rest = some (false, rest) := by
    cases rest with
    | nil => rfl
    | cons b rest => rw [readExponent, if_neg (not_or.2 (h b rfl).2.2)]
  rw [readNumber, readWhole_decimal n h, Option.bind_some, hfraction, Option.bind_some, hexponent]
  rfl

theorem readValue_of_isDigit {b : UInt8} (hb : isDigit b = true) (fuel : ℕ) (bs : List UInt8) :
    readValue (fuel + 1) (b :: bs) = readNumber false (b :: bs) := by
  have hne : ∀ c, isDigit c = false → b ≠ c := fun c hc heq => by
    rw [heq, hc] at hb
    cases hb
  have hblank : isBlank b = false := by
    simp only [isBlank, Bool.or_eq_false_iff, beq_eq_false_iff_ne]
    exact ⟨⟨⟨hne 32 rfl, hne 9 rfl⟩, hne 10 rfl⟩, hne 13 rfl⟩
  rw [readValue, dropWhile_isBlank_cons hblank]
  simp only [if_neg (hne 34 rfl), if_neg (hne 91 rfl), if_neg (hne 123 rfl), if_neg (hne 45 rfl),
    if_pos hb]

theorem reads_decimal (n : ℕ) : Reads (decimal n) (.int false n) := by
  intro fuel rest hfuel hstops
  rw [← readNumber_decimal n hstops]
  obtain ⟨b, bs, heq⟩ := List.exists_cons_of_ne_nil (decimal_ne_nil n)
  have hb : isDigit b = true := isDigit_of_mem_decimal (heq ▸ List.mem_cons_self)
  rw [heq] at hfuel ⊢
  obtain ⟨fuel, rfl⟩ := Nat.exists_eq_succ_of_ne_zero (Nat.ne_of_gt (Nat.lt_of_lt_of_le
    (Nat.succ_pos _) hfuel))
  exact readValue_of_isDigit hb fuel (bs ++ rest)

/-! ### Strings -/

theorem hexValue_hexDigit : ∀ n < 16, hexValue (hexDigit n) = some n := by decide

theorem utf8EncodeChar_control :
    ∀ n < 32, String.utf8EncodeChar (Char.ofNat n) = [UInt8.ofNat n] := by
  decide

theorem readUnicode_control {b : UInt8} (hb : b < 32) (bs : List UInt8) :
    readUnicode (48 :: 48 :: hexDigit (b.toNat / 16) :: hexDigit (b.toNat % 16) :: bs) =
      some ([b], bs) := by
  have hlt : b.toNat < 32 := UInt8.lt_iff_toNat_lt.1 hb
  have hzero : hexValue 48 = some 0 := rfl
  have hunit : readUnit (48 :: 48 :: hexDigit (b.toNat / 16) :: hexDigit (b.toNat % 16) :: bs) =
      some (b.toNat, bs) := by
    simp only [readUnit, hzero, hexValue_hexDigit (b.toNat / 16) (by omega),
      hexValue_hexDigit (b.toNat % 16) (by omega), Option.bind_eq_bind, Option.bind_some,
      Option.some.injEq, Prod.mk.injEq, and_true]
    omega
  rw [readUnicode, hunit, Option.bind_some, if_neg (by omega), if_neg (by omega),
    utf8EncodeChar_control _ hlt, UInt8.ofNat_toNat]

theorem readChars_escape (b : UInt8) (fuel : ℕ) (bs : List UInt8) :
    readChars (fuel + 1) (escape b ++ bs) =
      (readChars fuel bs).map fun out => (b :: out.1, out.2) := by
  unfold escape
  split_ifs with hquote hbackslash h8 h9 h10 h12 h13 hcontrol
  · subst hquote
    rfl
  · subst hbackslash
    rfl
  · subst h8
    rfl
  · subst h9
    rfl
  · subst h10
    rfl
  · subst h12
    rfl
  · subst h13
    rfl
  · have hescape : readEscape (117 :: 48 :: 48 :: hexDigit (b.toNat / 16) ::
        hexDigit (b.toNat % 16) :: bs) = some ([b], bs) := readUnicode_control hcontrol bs
    simp only [List.cons_append, List.nil_append, readChars, hescape]
    rfl
  · rw [List.singleton_append, readChars, if_neg hquote, if_neg hbackslash, if_neg hcontrol]

theorem readChars_flatMap_escape (text : List UInt8) (rest : List UInt8) : ∀ {fuel : ℕ},
    text.length < fuel →
      readChars fuel (text.flatMap escape ++ 34 :: rest) = some (text, rest) := by
  induction text with
  | nil =>
    intro fuel hfuel
    obtain ⟨fuel, rfl⟩ := Nat.exists_eq_succ_of_ne_zero (Nat.ne_of_gt hfuel)
    rfl
  | cons b text ih =>
    intro fuel hfuel
    obtain ⟨fuel, rfl⟩ := Nat.exists_eq_succ_of_ne_zero (Nat.ne_of_gt (Nat.zero_lt_of_lt hfuel))
    rw [List.flatMap_cons, List.append_assoc, Nat.succ_eq_add_one, readChars_escape,
      ih (Nat.lt_of_succ_lt_succ hfuel)]
    rfl

theorem length_le_flatMap_escape (text : List UInt8) :
    text.length ≤ (text.flatMap escape).length := by
  induction text with
  | nil => exact Nat.le_refl 0
  | cons b text ih =>
    have hpos : 0 < (escape b).length := by
      unfold escape
      split_ifs <;> exact Nat.succ_pos _
    rw [List.flatMap_cons, List.length_append, List.length_cons]
    omega

theorem fromUTF8?_utf8 (s : String) : String.fromUTF8? ⟨(utf8 s).toArray⟩ = some s := by
  rw [utf8, Array.toArray_toList]
  exact dif_pos s.isValidUTF8

theorem readString_utf8 (s : String) (rest : List UInt8) :
    readString ((utf8 s).flatMap escape ++ 34 :: rest) = some (s, rest) := by
  have hfuel : (utf8 s).length < ((utf8 s).flatMap escape ++ 34 :: rest).length := by
    have := length_le_flatMap_escape (utf8 s)
    rw [List.length_append, List.length_cons]
    omega
  rw [readString, readChars_flatMap_escape _ _ hfuel, Option.bind_some, fromUTF8?_utf8]
  rfl

/-! ### Values -/

theorem next_self {b : UInt8} (hb : isBlank b = false) (bs : List UInt8) :
    next b (b :: bs) = some bs := by
  simp [next, dropWhile_isBlank_cons hb]

theorem next_of_ne {b c : UInt8} (hc : isBlank c = false) (hne : c ≠ b) (bs : List UInt8) :
    next b (c :: bs) = none := by
  simp [next, dropWhile_isBlank_cons hc, hne]

theorem readWord_self (word : String) (v : Value) (rest : List UInt8) :
    readWord word v (utf8 word ++ rest) = some (v, rest) := by
  rw [readWord, List.dropPrefix?_append_of_beq rest (beq_self_eq_true _)]
  rfl

theorem reads_string (s : String) : Reads (string s) (.string s) := by
  intro fuel rest hfuel _
  cases fuel with
  | zero => cases hfuel
  | succ fuel =>
    have hquote : isBlank 34 = false := rfl
    simp only [string, List.cons_append, List.append_assoc, List.nil_append, readValue,
      dropWhile_isBlank_cons hquote, if_true, readString_utf8, Option.map_some]

theorem reads_bool (b : Bool) : Reads (bool b) (.bool b) := by
  intro fuel rest hfuel _
  cases fuel with
  | zero => cases b <;> cases hfuel
  | succ fuel =>
    cases b with
    | true => exact readWord_self "true" (.bool true) rest
    | false => exact readWord_self "false" (.bool false) rest

theorem reads_null : Reads (utf8 "null") .null := by
  intro fuel rest hfuel _
  cases fuel with
  | zero => cases hfuel
  | succ fuel => exact readWord_self "null" .null rest

/-- No value begins with the end of an array. -/
theorem Reads.next_eq_none {bs : List UInt8} {v : Value} (h : Reads bs v) {rest : List UInt8}
    (hstops : Stops rest) : next 93 (bs ++ rest) = none := by
  have hread := h (bs.length + 1) rest (Nat.le_succ _) hstops
  cases htokens : (bs ++ rest).dropWhile isBlank with
  | nil => simp only [next, htokens]
  | cons b tail =>
    have hne : b ≠ 93 := fun heq => by
      subst heq
      simp only [readValue, htokens] at hread
      cases hread
    simp only [next, htokens, if_neg hne]

theorem stops_comma (bs : List UInt8) : Stops (44 :: bs) := stops_cons (by decide)

theorem stops_bracket (bs : List UInt8) : Stops (93 :: bs) := stops_cons (by decide)

theorem stops_brace (bs : List UInt8) : Stops (125 :: bs) := stops_cons (by decide)

theorem commas_cons {item : List UInt8} {items : List (List UInt8)} (h : items ≠ []) :
    commas (item :: items) = item ++ 44 :: commas items := by
  cases items with
  | nil => exact absurd rfl h
  | cons next rest => rfl

theorem readItems_commas {items : List (List UInt8)} {vs : List Value}
    (h : List.Forall₂ Reads items vs) (hne : items ≠ []) (rest : List UInt8) : ∀ {fuel : ℕ},
    (commas items).length < fuel →
      readItems fuel (commas items ++ 93 :: rest) = some (vs, rest) := by
  induction h with
  | nil => exact absurd rfl hne
  | @cons item v items vs hitem hitems ih =>
    intro fuel hfuel
    obtain ⟨fuel, rfl⟩ := Nat.exists_eq_succ_of_ne_zero (Nat.ne_of_gt (Nat.zero_lt_of_lt hfuel))
    by_cases hlast : items = []
    · subst hlast
      cases hitems
      have hvalue := hitem fuel (93 :: rest) (Nat.le_of_lt_succ hfuel) (stops_bracket rest)
      rw [commas, readItems, hvalue, Option.bind_some]
      rfl
    · rw [commas_cons hlast, List.length_append, List.length_cons] at hfuel
      have hvalue := hitem fuel (44 :: (commas items ++ 93 :: rest)) (by omega) (stops_comma _)
      rw [commas_cons hlast, List.append_assoc, List.cons_append, readItems, hvalue,
        Option.bind_some]
      simp only [next_self (b := 44) rfl, ih hlast (show _ < fuel by omega), Option.map_some]

theorem reads_array {items : List (List UInt8)} {vs : List Value}
    (h : List.Forall₂ Reads items vs) : Reads (array items) (.array vs) := by
  intro fuel rest hfuel _
  rw [array, List.length_cons, List.length_append] at hfuel
  cases fuel with
  | zero => cases hfuel
  | succ fuel =>
    have hbracket : isBlank 91 = false := rfl
    rw [array, List.cons_append, List.append_assoc, List.singleton_append, readValue,
      dropWhile_isBlank_cons hbracket]
    cases h with
    | nil => rfl
    | @cons item v items vs hitem hitems =>
      have hend : next 93 (commas (item :: items) ++ 93 :: rest) = none := by
        by_cases hlast : items = []
        · subst hlast
          exact hitem.next_eq_none (stops_bracket rest)
        · rw [commas_cons hlast, List.append_assoc]
          exact hitem.next_eq_none (stops_comma _)
      have hitems := readItems_commas (.cons hitem hitems) (List.cons_ne_nil _ _) rest
        (show _ < fuel from Nat.lt_of_succ_lt_succ (Nat.lt_of_lt_of_le (by simp) hfuel))
      simp only [hend, hitems, Option.map_some]
      rfl

theorem readMembers_last (name : String) {text : List UInt8} {v : Value} (h : Reads text v)
    {fuel : ℕ} (hfuel : text.length ≤ fuel) (rest : List UInt8) :
    readMembers (fuel + 1) (string name ++ 58 :: text ++ 125 :: rest) =
      some ([(name, v)], rest) := by
  simp only [string, List.cons_append, List.append_assoc, List.nil_append, readMembers,
    next_self (b := 34) rfl, next_self (b := 58) rfl, readString_utf8, Option.bind_some,
    h fuel _ hfuel (stops_brace rest)]
  rfl

theorem readMembers_more (name : String) {text : List UInt8} {v : Value} (h : Reads text v)
    {fuel : ℕ} (hfuel : text.length ≤ fuel) (rest : List UInt8) :
    readMembers (fuel + 1) (string name ++ 58 :: text ++ 44 :: rest) =
      (readMembers fuel rest).map fun out => ((name, v) :: out.1, out.2) := by
  simp only [string, List.cons_append, List.append_assoc, List.nil_append, readMembers,
    next_self (b := 34) rfl, next_self (b := 44) rfl, next_self (b := 58) rfl, readString_utf8,
    Option.bind_some, h fuel _ hfuel (stops_comma rest)]

theorem readMembers_commas {fields : List (String × List UInt8)} {members : List (String × Value)}
    (h : List.Forall₂ (fun f m => f.1 = m.1 ∧ Reads f.2 m.2) fields members) (hne : fields ≠ [])
    (rest : List UInt8) : ∀ {fuel : ℕ},
    (commas (fields.map fun f => string f.1 ++ 58 :: f.2)).length < fuel →
      readMembers fuel (commas (fields.map fun f => string f.1 ++ 58 :: f.2) ++ 125 :: rest) =
        some (members, rest) := by
  induction h with
  | nil => exact absurd rfl hne
  | @cons f m fields members hfield hfields ih =>
    obtain ⟨name, v⟩ := m
    obtain ⟨rfl, hvalue⟩ := hfield
    intro fuel hfuel
    obtain ⟨fuel, rfl⟩ := Nat.exists_eq_succ_of_ne_zero (Nat.ne_of_gt (Nat.zero_lt_of_lt hfuel))
    have htext : f.2.length < (string f.1 ++ 58 :: f.2).length := by
      rw [List.length_append, List.length_cons]
      omega
    rw [List.map_cons] at hfuel ⊢
    by_cases hlast : fields = []
    · subst hlast
      cases hfields
      exact readMembers_last f.1 hvalue (Nat.le_of_lt_succ (htext.trans hfuel)) rest
    · have hmap : (fields.map fun f => string f.1 ++ 58 :: f.2) ≠ [] := by simpa using hlast
      rw [commas_cons hmap] at hfuel ⊢
      rw [List.length_append, List.length_cons] at hfuel
      rw [List.append_assoc, List.cons_append, Nat.succ_eq_add_one,
        readMembers_more f.1 hvalue (by omega), ih hlast (by omega)]
      rfl

theorem reads_object {fields : List (String × List UInt8)} {members : List (String × Value)}
    (h : List.Forall₂ (fun f m => f.1 = m.1 ∧ Reads f.2 m.2) fields members) :
    Reads (object fields) (.object members) := by
  intro fuel rest hfuel _
  rw [object, List.length_cons, List.length_append] at hfuel
  cases fuel with
  | zero => cases hfuel
  | succ fuel =>
    have hbrace : isBlank 123 = false := rfl
    rw [object, List.cons_append, List.append_assoc, List.singleton_append, readValue,
      dropWhile_isBlank_cons hbrace]
    cases h with
    | nil => rfl
    | @cons f m fields members hfield hfields =>
      have hend : next 125 (commas ((f :: fields).map fun f => string f.1 ++ 58 :: f.2) ++
          125 :: rest) = none := by
        cases fields <;> exact next_of_ne rfl (by decide) _
      have hmembers := readMembers_commas (.cons hfield hfields) (List.cons_ne_nil _ _) rest
        (show _ < fuel from Nat.lt_of_succ_lt_succ (Nat.lt_of_lt_of_le (by simp) hfuel))
      simp only [hend, hmembers, Option.map_some]
      rfl

end Json
