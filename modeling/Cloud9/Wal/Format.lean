import Cloud9.Lib.Checked
import Cloud9.Lib.Framing

/-!
# Records on disk

`record.rs`, `error.rs` and `format.rs`: a record is a header of 32 bytes, with the length and the
checksums, and its payload. `readOne` reads the record at the head of what is left of a segment; it
is a `FrameReader` (`segmentReader`), and `encodeRecord` writes its frames
(`readHead_encodeRecord`).

Numbers are naturals, `u64` sums are checked as in the source, and `usize` has 64 bits. The paths
and operating-system errors inside `WalError::Io` are reduced to the file the call was about.
-/

namespace Cloud9

/-- Position of a record. -/
structure Lsn where
  segmentId : ℕ
  offset : ℕ
  deriving DecidableEq, Repr

/-- The errors found while scanning records. -/
inductive Corruption where
  | badMagic (found : ℕ)
  | unsupportedVersion (found : ℕ)
  | reservedRecordKind
  | headerChecksum
  | payloadChecksum
  | recordTooLarge (len segmentSize : ℕ)
  | segmentTooLarge (len segmentSize : ℕ)
  | incompleteRecord
  deriving DecidableEq, Repr

/-- What a failed file-system call was about. -/
inductive WalPath where
  | directory
  | segment (id : ℕ)
  deriving DecidableEq, Repr

inductive WalError where
  | io (path : WalPath)
  | reservedRecordKind
  | segmentTooSmall (segmentSize headerLen : ℕ)
  | recordTooLarge (len segmentSize : ℕ)
  | walFull (len maxSize : ℕ)
  | payloadTooLarge (len : ℕ)
  | segmentIdExhausted
  | corruptRecord (lsn : Lsn) (reason : Corruption)
  | missingSegment (expected found : ℕ)
  | poisoned
  deriving DecidableEq, Repr

/-- Caller-owned record kind; zero is reserved. -/
structure RecordKind where
  get : ℕ
  pos : 0 < get
  lt : get < 2 ^ 16
  deriving DecidableEq

def RecordKind.new (value : UInt16) : Except WalError RecordKind :=
  if h : value = 0 then .error .reservedRecordKind
  else .ok ⟨value.toNat, by
    rw [Nat.pos_iff_ne_zero]
    exact fun h0 => h (UInt16.toNat_inj.1 h0), value.toNat_lt⟩

structure Record where
  kind : RecordKind
  payload : List UInt8
  deriving DecidableEq

/-- A record with its position. -/
structure StoredRecord where
  lsn : Lsn
  record : Record
  deriving DecidableEq

/-! ## Bytes -/

/-- The `w` lowest bytes of a number, lowest first. -/
def leBytes : ℕ → ℕ → List UInt8
  | 0, _ => []
  | w + 1, n => UInt8.ofNat (n % 256) :: leBytes w (n / 256)

def ofLeBytes : List UInt8 → ℕ
  | [] => 0
  | b :: bs => b.toNat + 256 * ofLeBytes bs

@[simp] theorem length_leBytes (w n : ℕ) : (leBytes w n).length = w := by
  induction w generalizing n with
  | zero => rfl
  | succ w ih => simp [leBytes, ih]

theorem ofLeBytes_leBytes {w n : ℕ} (h : n < 256 ^ w) : ofLeBytes (leBytes w n) = n := by
  induction w generalizing n with
  | zero =>
    have : n = 0 := by simpa using h
    simp [leBytes, ofLeBytes, this]
  | succ w ih =>
    have hdiv : n / 256 < 256 ^ w := by
      rw [Nat.div_lt_iff_lt_mul (by decide), ← Nat.pow_succ]
      exact h
    have hmod : (UInt8.ofNat (n % 256)).toNat = n % 256 := by
      rw [UInt8.toNat_ofNat']
      omega
    simp only [leBytes, ofLeBytes, ih hdiv, hmod]
    omega

/-- One bit of the reflected CRC-32. -/
def crcBit (crc : UInt32) : UInt32 :=
  if crc &&& 1 = 1 then (crc >>> 1) ^^^ 0xEDB88320 else crc >>> 1

def crcByte (crc : UInt32) (byte : UInt8) : UInt32 :=
  crcBit (crcBit (crcBit (crcBit (crcBit (crcBit (crcBit (crcBit (crc ^^^ byte.toUInt32))))))))

/-- `crc32fast`: CRC-32 with the IEEE polynomial. -/
def crc32 (bytes : List UInt8) : ℕ := (bytes.foldl crcByte 0xFFFFFFFF ^^^ 0xFFFFFFFF).toNat

theorem crc32_lt (bytes : List UInt8) : crc32 bytes < 256 ^ 4 := UInt32.toNat_lt _

/-! ## Encoding -/

def magic : ℕ := 0x4339574c
def version : ℕ := 1
def headerLen : ℕ := 32

def encodedLen (payloadLen : ℕ) : Except WalError ℕ :=
  if payloadLen < 2 ^ 32 then .ok (headerLen + payloadLen) else .error (.payloadTooLarge payloadLen)

/-- The header without its own checksum; 12 bytes are reserved. -/
def headerFields (kind : RecordKind) (payload : List UInt8) : List UInt8 :=
  leBytes 4 magic ++ leBytes 2 version ++ leBytes 2 kind.get ++ leBytes 4 payload.length ++
    leBytes 4 (crc32 payload) ++ List.replicate 12 0

def header (kind : RecordKind) (payload : List UInt8) : List UInt8 :=
  headerFields kind payload ++ leBytes 4 (crc32 (headerFields kind payload))

def encodeRecord (kind : RecordKind) (payload : List UInt8) : Except WalError (List UInt8) :=
  match encodedLen payload.length with
  | .error e => .error e
  | .ok _ => .ok (header kind payload ++ payload)

/-! ## Reading -/

inductive ReadOne where
  | record (record : Record) (nextOffset : ℕ)
  | eof
  | incomplete

inductive ReadExact where
  | complete
  | eof
  | incomplete

/-- Whether `n` bytes can be read. -/
def readExactOrTail (rest : List UInt8) (n : ℕ) : ReadExact :=
  if n ≤ rest.length then .complete else if rest.isEmpty then .eof else .incomplete

def readU16 (bytes : List UInt8) (start : ℕ) : ℕ := ofLeBytes ((bytes.drop start).take 2)

def readU32 (bytes : List UInt8) (start : ℕ) : ℕ := ofLeBytes ((bytes.drop start).take 4)

def decodeHeader (header : List UInt8) (lsn : Lsn) : Except WalError RecordKind :=
  if readU32 header 0 ≠ magic then .error (.corruptRecord lsn (.badMagic (readU32 header 0)))
  else if readU16 header 4 ≠ version then
    .error (.corruptRecord lsn (.unsupportedVersion (readU16 header 4)))
  else if crc32 (header.take 28) ≠ readU32 header 28 then
    .error (.corruptRecord lsn .headerChecksum)
  else match RecordKind.new (UInt16.ofNat (readU16 header 6)) with
    | .ok kind => .ok kind
    | .error _ => .error (.corruptRecord lsn .reservedRecordKind)

/-- The record at the head of what is left of a segment of `physicalLen` bytes. -/
def readOne (rest : List UInt8) (lsn : Lsn) (segmentSize physicalLen : ℕ) :
    Except WalError ReadOne :=
  match readExactOrTail rest headerLen with
  | .eof => .ok .eof
  | .incomplete => .ok .incomplete
  | .complete =>
    let header := rest.take headerLen
    match decodeHeader header lsn with
    | .error e => .error e
    | .ok kind =>
      let payloadLen := readU32 header 8
      match checkedAdd headerLen payloadLen with
      | none => .error (.corruptRecord lsn (.recordTooLarge u64Max segmentSize))
      | some recordLen =>
        if recordLen > segmentSize then
          .error (.corruptRecord lsn (.recordTooLarge recordLen segmentSize))
        else match checkedAdd lsn.offset recordLen with
          | none => .error (.corruptRecord lsn (.segmentTooLarge u64Max segmentSize))
          | some nextOffset =>
            if nextOffset > segmentSize then
              .error (.corruptRecord lsn (.segmentTooLarge nextOffset segmentSize))
            else if nextOffset > physicalLen then .ok .incomplete
            else match readExactOrTail (rest.drop headerLen) payloadLen with
              | .incomplete | .eof => .ok .incomplete
              | .complete =>
                let payload := (rest.drop headerLen).take payloadLen
                if crc32 payload ≠ readU32 header 12 then
                  .error (.corruptRecord lsn .payloadChecksum)
                else .ok (.record ⟨kind, payload⟩ nextOffset)

/-! ## What is read back -/

theorem readExactOrTail_of_le {rest : List UInt8} {n : ℕ} (h : n ≤ rest.length) :
    readExactOrTail rest n = .complete := if_pos h

theorem readExactOrTail_of_lt {rest : List UInt8} {n : ℕ} (h : rest.length < n) :
    readExactOrTail rest n = if rest = [] then .eof else .incomplete := by
  simp only [readExactOrTail, if_neg (Nat.not_le.2 h), List.isEmpty_iff]

/-- The bytes start with a header that passes every check, for a payload of `n` bytes. -/
structure GoodHeader (rest : List UInt8) (lsn : Lsn) (segmentSize : ℕ) (kind : RecordKind) (n : ℕ) :
    Prop where
  length : headerLen ≤ rest.length
  decode : decodeHeader (rest.take headerLen) lsn = .ok kind
  payloadLen : readU32 (rest.take headerLen) 8 = n
  fits : lsn.offset + (headerLen + n) ≤ segmentSize
  lt : lsn.offset + (headerLen + n) < 2 ^ 64

section

variable {rest bytes : List UInt8} {lsn : Lsn} {segmentSize physicalLen n : ℕ} {kind : RecordKind}

/-- Only the 32 bytes of the header count. -/
theorem GoodHeader.congr (h : GoodHeader rest lsn segmentSize kind n)
    (hlen : headerLen ≤ bytes.length) (htake : bytes.take headerLen = rest.take headerLen) :
    GoodHeader bytes lsn segmentSize kind n :=
  ⟨hlen, by rw [htake]; exact h.decode, by rw [htake]; exact h.payloadLen, h.fits, h.lt⟩

/-- After a good header it is the length that decides, then the checksum of the payload. -/
theorem GoodHeader.readOne_eq (h : GoodHeader rest lsn segmentSize kind n) :
    readOne rest lsn segmentSize physicalLen =
      if physicalLen < lsn.offset + (headerLen + n) then .ok .incomplete
      else match readExactOrTail (rest.drop headerLen) n with
        | .incomplete | .eof => .ok .incomplete
        | .complete =>
          if crc32 ((rest.drop headerLen).take n) ≠ readU32 (rest.take headerLen) 12 then
            .error (.corruptRecord lsn .payloadChecksum)
          else .ok (.record ⟨kind, (rest.drop headerLen).take n⟩
            (lsn.offset + (headerLen + n))) := by
  have hfits := h.fits
  have hlt := h.lt
  have hsum : headerLen + n < 2 ^ 64 := by omega
  have hrecord : ¬headerLen + n > segmentSize := by omega
  have hnext : ¬lsn.offset + (headerLen + n) > segmentSize := by omega
  simp only [readOne, readExactOrTail_of_le h.length, h.decode, h.payloadLen, checkedAdd, if_pos,
    hsum, hlt, if_neg hrecord, if_neg hnext, gt_iff_lt]

/-- A record is read only after a good header. -/
theorem goodHeader_of_readOne {r : Record} {next : ℕ}
    (h : readOne rest lsn segmentSize physicalLen = .ok (.record r next)) :
    ∃ kind, GoodHeader rest lsn segmentSize kind (readU32 (rest.take headerLen) 8) := by
  rcases Nat.lt_or_ge rest.length headerLen with hlen | hlen
  · simp only [readOne, readExactOrTail_of_lt hlen] at h
    by_cases hnil : rest = []
    · simp [hnil] at h
    · simp [hnil] at h
  · cases hdecode : decodeHeader (rest.take headerLen) lsn with
    | error e => simp [readOne, readExactOrTail_of_le hlen, hdecode] at h
    | ok kind =>
      simp only [readOne, readExactOrTail_of_le hlen, hdecode, checkedAdd] at h
      by_cases hsum : headerLen + readU32 (rest.take headerLen) 8 < 2 ^ 64
      · simp only [if_pos hsum] at h
        split at h
        · exact absurd h (by simp)
        · by_cases hlt : lsn.offset + (headerLen + readU32 (rest.take headerLen) 8) < 2 ^ 64
          · simp only [if_pos hlt] at h
            split at h
            · exact absurd h (by simp)
            · exact ⟨kind, hlen, hdecode, rfl, by omega, hlt⟩
          · simp only [if_neg hlt] at h
            exact absurd h (by simp)
      · simp only [if_neg hsum] at h
        exact absurd h (by simp)

theorem readOne_ne_eof (hne : rest ≠ []) :
    readOne rest lsn segmentSize physicalLen ≠ .ok .eof := by
  intro h
  rcases Nat.lt_or_ge rest.length headerLen with hlen | hlen
  · simp [readOne, readExactOrTail_of_lt hlen, hne] at h
  · simp only [readOne, readExactOrTail_of_le hlen] at h
    repeat' split at h
    all_goals exact absurd h (by simp)

theorem readOne_record {r : Record} {next : ℕ}
    (h : readOne rest lsn segmentSize physicalLen = .ok (.record r next)) :
    ∃ n, GoodHeader rest lsn segmentSize r.kind n ∧ next = lsn.offset + (headerLen + n) ∧
      next ≤ physicalLen ∧ headerLen + n ≤ rest.length ∧
      r.payload = (rest.drop headerLen).take n ∧
      crc32 r.payload = readU32 (rest.take headerLen) 12 := by
  obtain ⟨kind, hgood⟩ := goodHeader_of_readOne h
  rw [hgood.readOne_eq] at h
  split at h
  · exact absurd h (by simp)
  · rename_i hphysical
    rcases Nat.lt_or_ge (rest.drop headerLen).length (readU32 (rest.take headerLen) 8) with
      hlen | hlen
    · simp only [readExactOrTail_of_lt hlen] at h
      by_cases hnil : rest.drop headerLen = []
      · simp [hnil] at h
      · simp [hnil] at h
    · simp only [readExactOrTail_of_le hlen] at h
      split at h
      · exact absurd h (by simp)
      · rename_i hcrc
        cases h
        rw [List.length_drop] at hlen
        have := hgood.length
        exact ⟨_, hgood, rfl, by omega, by omega, rfl, by simpa using hcrc⟩

end

/-! ## Segments as framed strings -/

/-- `readOne` on what is left of a segment from an offset on. -/
def readHead (id segmentSize offset : ℕ) (rest : List UInt8) : Except WalError (Head Record) :=
  match readOne rest ⟨id, offset⟩ segmentSize (offset + rest.length) with
  | .error e => .error e
  | .ok (.record r next) => .ok (.frame r (next - offset))
  | .ok .eof => .ok .done
  | .ok .incomplete => .ok .torn

section

variable {id segmentSize offset size : ℕ} {rest bytes : List UInt8} {r : Record}

theorem readHead_frame : readHead id segmentSize offset rest = .ok (.frame r size) ↔
    ∃ n, size = headerLen + n ∧ size ≤ rest.length ∧
      GoodHeader rest ⟨id, offset⟩ segmentSize r.kind n ∧ r.payload = (rest.drop headerLen).take n ∧
      crc32 r.payload = readU32 (rest.take headerLen) 12 := by
  constructor
  · intro h
    unfold readHead at h
    cases hread : readOne rest ⟨id, offset⟩ segmentSize (offset + rest.length) with
    | error e => simp [hread] at h
    | ok one =>
      cases one with
      | eof => simp [hread] at h
      | incomplete => simp [hread] at h
      | record r' next =>
        obtain ⟨n, hgood, hnext, -, hlen, hpayload, hcrc⟩ := readOne_record hread
        simp only [hread, Except.ok.injEq, Head.frame.injEq] at h
        obtain ⟨rfl, rfl⟩ := h
        have hsize : next - offset = headerLen + n := by
          rw [hnext, Nat.add_sub_cancel_left]
        exact ⟨n, hsize, by omega, hgood, hpayload, hcrc⟩
  · rintro ⟨n, rfl, hlen, hgood, hpayload, hcrc⟩
    have hphysical : ¬offset + rest.length < offset + (headerLen + n) := by omega
    have hdrop : n ≤ (rest.drop headerLen).length := by
      rw [List.length_drop]
      omega
    simp only [readHead, hgood.readOne_eq, if_neg hphysical, readExactOrTail_of_le hdrop,
      ← hpayload, if_neg (not_not_intro hcrc), Nat.add_sub_cancel_left]

/-- Only at the end of the segment there is nothing to read. -/
theorem readHead_done : readHead id segmentSize offset rest = .ok .done ↔ rest = [] := by
  constructor
  · intro h
    by_contra hne
    cases hread : readOne rest ⟨id, offset⟩ segmentSize (offset + rest.length) with
    | error e => simp [readHead, hread] at h
    | ok one =>
      cases one with
      | record r next => simp [readHead, hread] at h
      | incomplete => simp [readHead, hread] at h
      | eof => exact readOne_ne_eof hne hread
  · rintro rfl
    rfl

theorem readHead_take (h : readHead id segmentSize offset bytes = .ok (.frame r size))
    (rest : List UInt8) :
    readHead id segmentSize offset (bytes.take size ++ rest) = .ok (.frame r size) := by
  obtain ⟨n, rfl, hlen, hgood, hpayload, hcrc⟩ := readHead_frame.1 h
  have hheader : (bytes.take (headerLen + n) ++ rest).take headerLen = bytes.take headerLen := by
    rw [List.take_append_of_le_length (by rw [List.length_take]; omega), List.take_take,
      Nat.min_eq_left (Nat.le_add_right _ _)]
  have hbody : ((bytes.take (headerLen + n) ++ rest).drop headerLen).take n =
      (bytes.drop headerLen).take n := by
    rw [List.drop_append_of_le_length (by rw [List.length_take]; omega), List.drop_take,
      Nat.add_sub_cancel_left, List.take_append_of_le_length
        (by rw [List.length_take, List.length_drop]; omega), List.take_take, Nat.min_self]
  have hlen' : headerLen + n ≤ (bytes.take (headerLen + n) ++ rest).length := by
    rw [List.length_append, List.length_take]
    omega
  exact readHead_frame.2 ⟨n, rfl, hlen', hgood.congr (by omega) hheader, by rw [hbody, hpayload],
    by rw [hheader, hcrc]⟩

/-- A record that is cut short is incomplete, wherever the cut is. -/
theorem readHead_torn (h : readHead id segmentSize offset bytes = .ok (.frame r size)) {k : ℕ}
    (hpos : 0 < k) (hk : k < size) : readHead id segmentSize offset (bytes.take k) = .ok .torn := by
  obtain ⟨n, rfl, hlen, hgood, -, -⟩ := readHead_frame.1 h
  have hlength : (bytes.take k).length = k := by
    rw [List.length_take]
    omega
  rcases Nat.lt_or_ge k headerLen with hheader | hheader
  · -- inside the header
    have hne : bytes.take k ≠ [] := by
      intro hnil
      simp [hnil] at hlength
      omega
    have hlt : (bytes.take k).length < headerLen := by omega
    simp only [readHead, readOne, readExactOrTail_of_lt hlt, if_neg hne]
  · have hgood' : GoodHeader (bytes.take k) ⟨id, offset⟩ segmentSize r.kind n :=
      hgood.congr (by omega) (by rw [List.take_take, Nat.min_eq_left hheader])
    have hphysical : offset + k < offset + (headerLen + n) := by omega
    simp only [readHead, hgood'.readOne_eq, hlength, if_pos hphysical]

end

/-! ## What is written -/

/-- The number at an offset of a string of fields, the offset being the length of those before. -/
theorem ofLeBytes_field (pre post : List UInt8) {w n : ℕ} (h : n < 256 ^ w) :
    ofLeBytes (((pre ++ (leBytes w n ++ post)).drop pre.length).take w) = n := by
  rw [List.drop_left, List.take_append_of_le_length (by simp), List.take_of_length_le (by simp),
    ofLeBytes_leBytes h]

section

variable (kind : RecordKind) (payload : List UInt8)

@[simp] theorem length_headerFields : (headerFields kind payload).length = 28 := by
  simp [headerFields]

theorem length_header : (header kind payload).length = headerLen := by
  simp [header, headerLen]

theorem take_header : (header kind payload).take 28 = headerFields kind payload :=
  List.take_left' (length_headerFields kind payload)

theorem readU32_magic : readU32 (header kind payload) 0 = magic := by
  have := ofLeBytes_field [] (leBytes 2 version ++ leBytes 2 kind.get ++ leBytes 4 payload.length ++
    leBytes 4 (crc32 payload) ++ List.replicate 12 0 ++
      leBytes 4 (crc32 (headerFields kind payload)))
    (show magic < 256 ^ 4 by decide)
  simpa [readU32, header, headerFields] using this

theorem readU16_version : readU16 (header kind payload) 4 = version := by
  have := ofLeBytes_field (leBytes 4 magic) (leBytes 2 kind.get ++ leBytes 4 payload.length ++
    leBytes 4 (crc32 payload) ++ List.replicate 12 0 ++
      leBytes 4 (crc32 (headerFields kind payload)))
    (show version < 256 ^ 2 by decide)
  simpa [readU16, header, headerFields] using this

theorem readU16_kind : readU16 (header kind payload) 6 = kind.get := by
  have := ofLeBytes_field (leBytes 4 magic ++ leBytes 2 version) (leBytes 4 payload.length ++
    leBytes 4 (crc32 payload) ++ List.replicate 12 0 ++
      leBytes 4 (crc32 (headerFields kind payload)))
    (show kind.get < 256 ^ 2 from kind.lt)
  simpa [readU16, header, headerFields] using this

theorem readU32_length (h : payload.length < 2 ^ 32) :
    readU32 (header kind payload) 8 = payload.length := by
  have := ofLeBytes_field (leBytes 4 magic ++ leBytes 2 version ++ leBytes 2 kind.get)
    (leBytes 4 (crc32 payload) ++ List.replicate 12 0 ++
      leBytes 4 (crc32 (headerFields kind payload)))
    (show payload.length < 256 ^ 4 from h)
  simpa [readU32, header, headerFields] using this

theorem readU32_payloadCrc : readU32 (header kind payload) 12 = crc32 payload := by
  have := ofLeBytes_field
    (leBytes 4 magic ++ leBytes 2 version ++ leBytes 2 kind.get ++ leBytes 4 payload.length)
    (List.replicate 12 0 ++ leBytes 4 (crc32 (headerFields kind payload))) (crc32_lt payload)
  simpa [readU32, header, headerFields] using this

theorem readU32_headerCrc :
    readU32 (header kind payload) 28 = crc32 (headerFields kind payload) := by
  have := ofLeBytes_field (headerFields kind payload) [] (crc32_lt (headerFields kind payload))
  simpa [readU32, header] using this

theorem RecordKind.new_get : RecordKind.new (UInt16.ofNat kind.get) = .ok kind := by
  have hget : (UInt16.ofNat kind.get).toNat = kind.get := by
    rw [UInt16.toNat_ofNat']
    exact Nat.mod_eq_of_lt kind.lt
  have hne : UInt16.ofNat kind.get ≠ 0 := by
    intro h
    have hpos := kind.pos
    rw [h] at hget
    simp at hget
    omega
  simp only [RecordKind.new, dif_neg hne, hget]

theorem encodedLen_ok {payloadLen len : ℕ} :
    encodedLen payloadLen = .ok len ↔ payloadLen < 2 ^ 32 ∧ len = headerLen + payloadLen := by
  unfold encodedLen
  split_ifs with h
  · exact ⟨fun heq => ⟨h, (Except.ok.inj heq).symm⟩, fun heq => congrArg Except.ok heq.2.symm⟩
  · exact iff_of_false (fun heq => by cases heq) fun heq => h heq.1

theorem encodeRecord_ok {encoded : List UInt8} : encodeRecord kind payload = .ok encoded ↔
    payload.length < 2 ^ 32 ∧ encoded = header kind payload ++ payload := by
  unfold encodeRecord encodedLen
  split_ifs with h
  · exact ⟨fun heq => ⟨h, (Except.ok.inj heq).symm⟩, fun heq => congrArg Except.ok heq.2.symm⟩
  · exact iff_of_false (fun heq => by cases heq) fun heq => h heq.1

theorem length_encodeRecord {kind : RecordKind} {payload encoded : List UInt8}
    (h : encodeRecord kind payload = .ok encoded) :
    encoded.length = headerLen + payload.length := by
  obtain ⟨-, rfl⟩ := (encodeRecord_ok kind payload).1 h
  rw [List.length_append, length_header]

/-- The header that was written passes every check. -/
theorem decodeHeader_header (lsn : Lsn) : decodeHeader (header kind payload) lsn = .ok kind := by
  simp only [decodeHeader, readU32_magic, readU16_version, take_header, readU32_headerCrc,
    readU16_kind, RecordKind.new_get, ne_eq, not_true_eq_false, if_false]

end

/-- The reader of the records of a segment. -/
def segmentReader (id segmentSize : ℕ) : FrameReader UInt8 Record WalError where
  read := readHead id segmentSize
  read_done := readHead_done
  size_pos h := by
    obtain ⟨n, rfl, -⟩ := readHead_frame.1 h
    exact Nat.lt_of_lt_of_le (by decide) (Nat.le_add_right headerLen n)
  size_le h := by
    obtain ⟨n, -, hlen, -⟩ := readHead_frame.1 h
    exact hlen
  read_take h rest := readHead_take h rest
  read_torn h := readHead_torn h

/-- A record that fits the segment is written as a frame. -/
theorem readHead_encodeRecord {kind : RecordKind} {payload encoded : List UInt8}
    {id segmentSize offset : ℕ} (h : encodeRecord kind payload = .ok encoded)
    (hfits : offset + encoded.length ≤ segmentSize) (hsize : segmentSize < 2 ^ 64) :
    (segmentReader id segmentSize).read offset encoded =
      .ok (.frame ⟨kind, payload⟩ encoded.length) := by
  obtain ⟨hlt, rfl⟩ := (encodeRecord_ok kind payload).1 h
  have hlength := length_encodeRecord h
  have htake : (header kind payload ++ payload).take headerLen = header kind payload :=
    List.take_left' (length_header kind payload)
  have hdrop : (header kind payload ++ payload).drop headerLen = payload :=
    List.drop_left' (length_header kind payload)
  rw [segmentReader, readHead_frame]
  refine ⟨payload.length, hlength, Nat.le_refl _, ?_, ?_, ?_⟩
  · rw [hlength] at hfits
    exact ⟨by omega, by rw [htake, decodeHeader_header], by rw [htake, readU32_length _ _ hlt],
      hfits, Nat.lt_of_le_of_lt hfits hsize⟩
  · rw [hdrop, List.take_length]
  · rw [htake, readU32_payloadCrc]

end Cloud9
