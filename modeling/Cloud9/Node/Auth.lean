import Cloud9.Lib.Json

/-!
# Authentication of the Raft transport

`auth.rs`: a message is signed with the HMAC-SHA256 of its body under a key that all nodes share,
and the signature is written in hexadecimal. The digest is a parameter (`Mac`); a text is the list
of its bytes.

Digits are written in lower case and read in either, so that a signature is accepted exactly if it
is the one that would have been made, up to the case of its letters (`signature_accepted`).
-/

namespace Cloud9

/-- HMAC-SHA256: a digest of 32 bytes for a key and a body. -/
structure Mac where
  digest : List UInt8 → List UInt8 → List UInt8
  length_digest : ∀ key body, (digest key body).length = 32

/-- A key of `KEY_BYTES` bytes. -/
structure RaftKey where
  bytes : List UInt8
  length_bytes : bytes.length = 32

/-- `Raft key must be exactly 64 hexadecimal characters`. -/
structure InvalidRaftKey where
  deriving DecidableEq

/-! ## Hexadecimal -/

def nibble (byte : UInt8) : Option UInt8 :=
  if 48 ≤ byte ∧ byte ≤ 57 then some (byte - 48)
  else if 97 ≤ byte ∧ byte ≤ 102 then some (byte - 97 + 10)
  else if 65 ≤ byte ∧ byte ≤ 70 then some (byte - 65 + 10)
  else none

/-- `u8::checked_mul`. -/
def byteMul (a b : UInt8) : Option UInt8 := if a.toNat * b.toNat < 256 then some (a * b) else none

/-- `u8::checked_add`. -/
def byteAdd (a b : UInt8) : Option UInt8 := if a.toNat + b.toNat < 256 then some (a + b) else none

def decodePair (a b : UInt8) : Option UInt8 := do
  let high ← nibble a
  let high ← byteMul high 16
  let low ← nibble b
  byteAdd high low

/-- The loop of `decode_hex`, over the pairs of `chunks_exact`. -/
def decodePairs : List UInt8 → Option (List UInt8)
  | a :: b :: rest => do
    let output ← decodePair a b
    let decoded ← decodePairs rest
    some (output :: decoded)
  | _ => some []

/-- `decode_hex::<N>`. -/
def decodeHex (n : ℕ) (value : List UInt8) : Option (List UInt8) :=
  if value.length ≠ n * 2 then none else decodePairs value

def hexTable : List UInt8 := Json.utf8 "0123456789abcdef"

def hexChar (n : UInt8) : UInt8 := hexTable.getD n.toNat 0

def encodeHex (bytes : List UInt8) : List UInt8 :=
  bytes.flatMap fun byte : UInt8 => [hexChar (byte >>> 4), hexChar (byte &&& 0x0f)]

/-- `u8::to_ascii_lowercase`. -/
def asciiLower (byte : UInt8) : UInt8 := if 65 ≤ byte ∧ byte ≤ 90 then byte + 32 else byte

/-! ## Keys -/

namespace RaftKey

def fromHex (value : List UInt8) : Except InvalidRaftKey RaftKey :=
  match decodeHex 32 value with
  | none => .error {}
  | some bytes => if h : bytes.length = 32 then .ok ⟨bytes, h⟩ else .error {}

/-- A key of any length makes a digest. -/
def signature (mac : Mac) (key : RaftKey) (body : List UInt8) : Option (List UInt8) :=
  some (encodeHex (mac.digest key.bytes body))

def verify (mac : Mac) (key : RaftKey) (body signature : List UInt8) : Bool :=
  match decodeHex 32 signature with
  | none => false
  | some signature => decide (signature = mac.digest key.bytes body)

end RaftKey

/-! ## Digits -/

theorem forall_byte {P : UInt8 → Prop} (h : ∀ n < 256, P (UInt8.ofNat n)) (b : UInt8) : P b := by
  have hb := h b.toNat b.toNat_lt
  rwa [UInt8.ofNat_toNat] at hb

theorem nibble_asciiLower : ∀ byte, nibble (asciiLower byte) = nibble byte :=
  forall_byte (by decide +kernel)

theorem nibble_hexChar {value : UInt8} (h : value < 16) : nibble (hexChar value) = some value := by
  have hall : ∀ value, value < 16 → nibble (hexChar value) = some value :=
    forall_byte (by decide +kernel)
  exact hall value h

theorem asciiLower_hexChar : ∀ value, asciiLower (hexChar value) = hexChar value :=
  forall_byte (by decide +kernel)

theorem all_nibble : ∀ byte, (nibble byte).all (fun value =>
    decide (value < 16 ∧ asciiLower byte = hexChar value)) = true :=
  forall_byte (by decide +kernel)

/-- What is a digit, and of which value. -/
theorem nibble_eq_some {byte value : UInt8} :
    nibble byte = some value ↔ value < 16 ∧ asciiLower byte = hexChar value := by
  constructor
  · intro h
    exact of_decide_eq_true ((Option.all_eq_true _ _).1 (all_nibble byte) value h)
  · rintro ⟨hlt, heq⟩
    rw [← nibble_asciiLower, heq, nibble_hexChar hlt]

theorem join_halves : ∀ byte : UInt8, byte >>> 4 < 16 ∧ byte &&& 0x0f < 16 ∧
    ((byteMul (byte >>> 4) 16).bind fun high => byteAdd high (byte &&& 0x0f)) = some byte :=
  forall_byte (by decide +kernel)

theorem halves_of_join {high low product byte : UInt8} (hhigh : high < 16) (hlow : low < 16)
    (hproduct : byteMul high 16 = some product) (hbyte : byteAdd product low = some byte) :
    byte >>> 4 = high ∧ byte &&& 0x0f = low := by
  have hall : ∀ m < 16, ∀ n < 16,
      ((byteMul (UInt8.ofNat m) 16).bind fun product => byteAdd product (UInt8.ofNat n)).all
        (fun byte : UInt8 =>
          decide (byte >>> 4 = UInt8.ofNat m ∧ byte &&& 0x0f = UInt8.ofNat n)) = true := by
    decide +kernel
  have hone := hall high.toNat (UInt8.lt_iff_toNat_lt.1 hhigh) low.toNat
    (UInt8.lt_iff_toNat_lt.1 hlow)
  simp only [UInt8.ofNat_toNat, hproduct, Option.bind_some, hbyte, Option.all_some,
    decide_eq_true_eq] at hone
  exact hone

theorem decodePair_eq_some {a b byte : UInt8} : decodePair a b = some byte ↔
    asciiLower a = hexChar (byte >>> 4) ∧ asciiLower b = hexChar (byte &&& 0x0f) := by
  constructor
  · intro h
    obtain ⟨high, hhigh, h⟩ := Option.bind_eq_some_iff.1 h
    obtain ⟨product, hproduct, h⟩ := Option.bind_eq_some_iff.1 h
    obtain ⟨low, hlow, hbyte⟩ := Option.bind_eq_some_iff.1 h
    obtain ⟨hhigh16, ha⟩ := nibble_eq_some.1 hhigh
    obtain ⟨hlow16, hb⟩ := nibble_eq_some.1 hlow
    obtain ⟨rfl, rfl⟩ := halves_of_join hhigh16 hlow16 hproduct hbyte
    exact ⟨ha, hb⟩
  · rintro ⟨ha, hb⟩
    obtain ⟨hhigh, hlow, hjoin⟩ := join_halves byte
    obtain ⟨product, hproduct, hbyte⟩ := Option.bind_eq_some_iff.1 hjoin
    simp only [decodePair, nibble_eq_some.2 ⟨hhigh, ha⟩, nibble_eq_some.2 ⟨hlow, hb⟩,
      Option.bind_eq_bind, Option.bind_some, hproduct, hbyte]

theorem decodeHex_cons_cons {n : ℕ} {a b : UInt8} {value decoded : List UInt8} :
    decodeHex (n + 1) (a :: b :: value) = some decoded ↔ ∃ output rest,
      decodePair a b = some output ∧ decodeHex n value = some rest ∧ decoded = output :: rest := by
  have hlength : (a :: b :: value).length ≠ (n + 1) * 2 ↔ value.length ≠ n * 2 := by
    simp only [List.length_cons, ne_eq]
    omega
  unfold decodeHex
  simp only [hlength]
  split_ifs with hne
  · simp
  · simp only [decodePairs, Option.bind_eq_bind, Option.bind_eq_some_iff, Option.some.injEq]
    constructor
    · rintro ⟨output, hpair, rest, hrest, rfl⟩
      exact ⟨output, rest, hpair, hrest, rfl⟩
    · rintro ⟨output, rest, hpair, hrest, rfl⟩
      exact ⟨output, hpair, rest, hrest, rfl⟩

/-- What is decoded, and from what. -/
theorem decodeHex_eq_some {n : ℕ} : ∀ {value bytes : List UInt8}, decodeHex n value = some bytes ↔
    bytes.length = n ∧ value.map asciiLower = encodeHex bytes := by
  induction n with
  | zero =>
    intro value bytes
    cases value with
    | nil => cases bytes <;> simp [decodeHex, decodePairs, encodeHex]
    | cons a value => cases bytes <;> simp [decodeHex, encodeHex]
  | succ n ih =>
    intro value bytes
    have hshort : value.length < 2 → decodeHex (n + 1) value = none := fun hlt =>
      if_pos (Nat.ne_of_lt (by omega))
    cases bytes with
    | nil =>
      refine ⟨fun h => ?_, fun h => by cases h.1⟩
      cases value with
      | nil => rw [hshort (by decide)] at h; cases h
      | cons a value => cases value with
        | nil => rw [hshort (by decide : 1 < 2)] at h; cases h
        | cons b value =>
          obtain ⟨_, _, -, -, heq⟩ := decodeHex_cons_cons.1 h
          cases heq
    | cons byte bytes =>
      cases value with
      | nil => simp [hshort, encodeHex]
      | cons a value => cases value with
        | nil => simp [hshort, encodeHex]
        | cons b value =>
          rw [decodeHex_cons_cons]
          simp only [ih, decodePair_eq_some, List.cons.injEq, encodeHex, List.flatMap_cons,
            List.map_cons, List.length_cons, Nat.add_right_cancel_iff, List.cons_append,
            List.nil_append]
          constructor
          · rintro ⟨_, _, ⟨ha, hb⟩, ⟨hlen, hrest⟩, rfl, rfl⟩
            exact ⟨hlen, ha, hb, hrest⟩
          · rintro ⟨hlen, ha, hb, hrest⟩
            exact ⟨byte, bytes, ⟨ha, hb⟩, ⟨hlen, hrest⟩, rfl, rfl⟩

/-! ## Keys and signatures -/

theorem RaftKey.fromHex_eq_ok {value : List UInt8} {key : RaftKey} :
    fromHex value = .ok key ↔ value.map asciiLower = encodeHex key.bytes := by
  unfold fromHex
  constructor
  · intro h
    split at h
    · cases h
    · next bytes hbytes =>
      split_ifs at h with hlength
      cases h
      exact (decodeHex_eq_some.1 hbytes).2
  · intro h
    have hbytes := decodeHex_eq_some.2 ⟨key.length_bytes, h⟩
    simp only [hbytes, key.length_bytes, dif_pos]

theorem RaftKey.verify_eq_true {mac : Mac} {key : RaftKey} {body signature : List UInt8} :
    key.verify mac body signature = true ↔
      signature.map asciiLower = encodeHex (mac.digest key.bytes body) := by
  have hdecode : decodeHex 32 signature = some (mac.digest key.bytes body) ↔
      signature.map asciiLower = encodeHex (mac.digest key.bytes body) :=
    decodeHex_eq_some.trans (and_iff_right (mac.length_digest key.bytes body))
  rw [← hdecode, verify]
  cases decodeHex 32 signature with
  | none => simp
  | some decoded => simp

theorem map_asciiLower_encodeHex (bytes : List UInt8) :
    (encodeHex bytes).map asciiLower = encodeHex bytes := by
  simp only [encodeHex, List.map_flatMap, List.map_cons, List.map_nil, asciiLower_hexChar]

/-- **What is accepted as a signature**: the one that the key makes for the body, in any case of its
letters. -/
theorem signature_accepted (mac : Mac) (key : RaftKey) (body signature : List UInt8) :
    key.verify mac body signature = true ↔
      key.signature mac body = some (signature.map asciiLower) := by
  rw [RaftKey.verify_eq_true, RaftKey.signature, Option.some.injEq]
  exact eq_comm

end Cloud9
