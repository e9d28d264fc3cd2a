import Cloud9.Lib.Checksum
import Cloud9.Wal.Recovery

/-!
# A changed byte

What the checksums are for: a record of which one byte has changed is never read as a record, as the
end of the log, or as a record cut short (`readOne_set`). One step of CRC-32 loses nothing: the bit
it shifts out comes back as the top bit, since the polynomial has its top bit set. So the register
is an injective function of the old one and of the byte, and strings that differ in one byte have
different checksums.

A log with such a record in it is not opened, and its files stay as they are
(`changed_byte_detected`).
-/

namespace Cloud9

/-! ## CRC-32 -/

theorem toNat_crcBit (crc : UInt32) : (crcBit crc).toNat =
    if crc.toNat % 2 = 1 then (crc.toNat / 2) ^^^ 0xEDB88320 else crc.toNat / 2 := by
  have hand : (crc &&& 1).toNat = crc.toNat % 2 := by
    rw [UInt32.toNat_and]
    exact Nat.and_one_is_mod _
  have hiff : crc &&& 1 = 1 ↔ crc.toNat % 2 = 1 := by
    rw [← UInt32.toNat_inj, hand]
    rfl
  have hshift : (crc >>> 1).toNat = crc.toNat / 2 := by
    rw [UInt32.toNat_shiftRight]
    exact Nat.shiftRight_one _
  unfold crcBit
  by_cases h : crc.toNat % 2 = 1
  · rw [if_pos (hiff.2 h), if_pos h, UInt32.toNat_xor, hshift]
    rfl
  · rw [if_neg (fun hc => h (hiff.1 hc)), if_neg h, hshift]

/-- The top bit of the result is the bit that was shifted out: the polynomial has its top bit
set. -/
theorem testBit_crcBit (crc : UInt32) :
    (crcBit crc).toNat.testBit 31 = decide (crc.toNat % 2 = 1) := by
  have hlt : (crc.toNat / 2).testBit 31 = false := by
    refine Nat.testBit_lt_two_pow ?_
    have := crc.toNat_lt
    omega
  have hpoly : (0xEDB88320 : ℕ).testBit 31 = true := by decide
  rw [toNat_crcBit]
  split_ifs with h
  · rw [Nat.testBit_xor, hlt, hpoly, decide_eq_true h]
    rfl
  · rw [hlt, decide_eq_false h]

theorem crcBit_injective : Function.Injective crcBit := by
  intro a b h
  have hlow := testBit_crcBit a
  rw [h, testBit_crcBit b, decide_eq_decide] at hlow
  have hhigh := toNat_crcBit a
  rw [h, toNat_crcBit b] at hhigh
  have hshift : a.toNat / 2 = b.toNat / 2 := by
    by_cases hodd : a.toNat % 2 = 1
    · rw [if_pos hodd, if_pos (hlow.2 hodd)] at hhigh
      have hcancel := congrArg (· ^^^ 0xEDB88320) hhigh
      simpa only [Nat.xor_assoc, Nat.xor_self, Nat.xor_zero] using hcancel.symm
    · rw [if_neg hodd, if_neg (fun hb => hodd (hlow.1 hb))] at hhigh
      exact hhigh.symm
  rw [← UInt32.toNat_inj]
  omega

theorem crcByte_inj {a b : UInt32} {x y : UInt8} :
    crcByte a x = crcByte b y ↔ a ^^^ x.toUInt32 = b ^^^ y.toUInt32 := by
  simp only [crcByte, crcBit_injective.eq_iff]

theorem crcByte_injective_crc (byte : UInt8) : Function.Injective fun crc => crcByte crc byte := by
  intro a b h
  exact (UInt32.xor_left_inj _).1 (crcByte_inj.1 h)

theorem crcByte_injective_byte (crc : UInt32) : Function.Injective (crcByte crc) := by
  intro a b h
  have hbyte := (UInt32.xor_right_inj _).1 (crcByte_inj.1 h)
  exact UInt8.toUInt32_inj.1 hbyte

/-- **CRC-32 tells a string from one that differs in one byte.** -/
theorem crc32_set_ne {bytes : List UInt8} {p : ℕ} {b : UInt8} (hp : p < bytes.length)
    (hb : b ≠ bytes[p]) : crc32 (bytes.set p b) ≠ crc32 bytes := by
  intro h
  have hxor := UInt32.toNat_inj.1 h
  exact Checksum.foldl_set_ne crcByte_injective_crc crcByte_injective_byte hp hb _
    ((UInt32.xor_left_inj _).1 hxor)

/-! ## One changed byte -/

theorem ofLeBytes_set_ne {bytes : List UInt8} {p : ℕ} {b : UInt8} (hp : p < bytes.length)
    (hb : b ≠ bytes[p]) : ofLeBytes (bytes.set p b) ≠ ofLeBytes bytes := by
  induction bytes generalizing p with
  | nil => exact absurd hp (Nat.not_lt_zero p)
  | cons c bytes ih =>
    have hc := c.toNat_lt
    have hb' := b.toNat_lt
    cases p with
    | zero =>
      intro h
      simp only [List.set_cons_zero, ofLeBytes] at h
      have heq : b = c := UInt8.toNat_inj.1 (by omega)
      exact hb heq
    | succ p =>
      have hne := @ih p (Nat.lt_of_succ_lt_succ hp) hb
      intro h
      simp only [List.set_cons_succ, ofLeBytes] at h
      omega

section

variable {bytes : List UInt8} {p start w : ℕ} {b : UInt8}

/-- A field that the byte is not in is unchanged. -/
theorem field_set_of_outside (h : p < start ∨ start + w ≤ p) :
    ((bytes.set p b).drop start).take w = (bytes.drop start).take w := by
  rw [List.drop_set]
  split_ifs with hlt
  · rfl
  · rw [List.take_set, List.set_eq_of_length_le]
    rw [List.length_take]
    omega

/-- A field that the byte is in reads as another number. -/
theorem field_set_ne (hp : p < bytes.length) (hb : b ≠ bytes[p]) (hstart : start ≤ p)
    (hstop : p < start + w) :
    ofLeBytes (((bytes.set p b).drop start).take w) ≠ ofLeBytes ((bytes.drop start).take w) := by
  have hlt : p - start < ((bytes.drop start).take w).length := by
    rw [List.length_take, List.length_drop]
    omega
  rw [List.drop_set, if_neg (Nat.not_lt.2 hstart), List.take_set]
  refine ofLeBytes_set_ne hlt ?_
  simpa [Nat.add_sub_cancel' hstart] using hb

end

/-- **A header with one changed byte is rejected.** Up to byte 6 by its fields, after that by its
own checksum: of the kind, the length, the payload's checksum and the reserved bytes none is looked
at before. -/
theorem decodeHeader_set (kind : RecordKind) (payload : List UInt8) {p : ℕ} {b : UInt8}
    (hp : p < (header kind payload).length) (hb : b ≠ (header kind payload)[p]) (lsn : Lsn) :
    ∃ reason, decodeHeader ((header kind payload).set p b) lsn =
      .error (.corruptRecord lsn reason) := by
  have hlen := length_header kind payload
  have hmagic := readU32_magic kind payload
  have hversion := readU16_version kind payload
  have hcrc := readU32_headerCrc kind payload
  rw [← take_header kind payload] at hcrc
  unfold decodeHeader
  by_cases h4 : p < 4
  · have hne : readU32 ((header kind payload).set p b) 0 ≠ magic := by
      rw [← hmagic]
      exact field_set_ne hp hb (Nat.zero_le p) h4
    exact ⟨_, if_pos hne⟩
  have hmagic' : readU32 ((header kind payload).set p b) 0 = magic := by
    rw [← hmagic, readU32, field_set_of_outside (.inr (by omega))]
    rfl
  rw [if_neg (not_not_intro hmagic')]
  by_cases h6 : p < 6
  · have hne : readU16 ((header kind payload).set p b) 4 ≠ version := by
      rw [← hversion]
      exact field_set_ne hp hb (Nat.not_lt.1 h4) h6
    exact ⟨_, if_pos hne⟩
  have hversion' : readU16 ((header kind payload).set p b) 4 = version := by
    rw [← hversion, readU16, field_set_of_outside (.inr (by omega))]
    rfl
  rw [if_neg (not_not_intro hversion')]
  suffices hne : crc32 (((header kind payload).set p b).take 28) ≠
      readU32 ((header kind payload).set p b) 28 from ⟨_, if_pos hne⟩
  rw [List.take_set]
  by_cases h28 : p < 28
  · have hlt : p < ((header kind payload).take 28).length := by
      rw [List.length_take]
      omega
    rw [readU32, field_set_of_outside (.inl h28)]
    refine ne_of_ne_of_eq (crc32_set_ne hlt ?_) hcrc.symm
    rwa [List.getElem_take]
  · rw [List.set_eq_of_length_le (by rw [List.length_take]; omega), ← hcrc]
    exact (field_set_ne hp hb (Nat.not_lt.1 h28) (by rw [hlen] at hp; exact hp)).symm

/-- A change in the header is found before its length is looked at. -/
theorem readOne_set_header {kind : RecordKind} {payload : List UInt8} {p : ℕ} {b : UInt8}
    (hp : p < (header kind payload).length) (hb : b ≠ (header kind payload)[p]) (tail : List UInt8)
    (lsn : Lsn) (segmentSize physicalLen : ℕ) :
    ∃ reason, readOne ((header kind payload).set p b ++ tail) lsn segmentSize physicalLen =
      .error (.corruptRecord lsn reason) := by
  have hheader : ((header kind payload).set p b).length = headerLen := by
    rw [List.length_set, length_header]
  have hcomplete : headerLen ≤ ((header kind payload).set p b ++ tail).length := by
    rw [List.length_append]
    omega
  obtain ⟨reason, hdecode⟩ := decodeHeader_set kind payload hp hb lsn
  simp only [readOne, readExactOrTail_of_le hcomplete, List.take_left' hheader, hdecode]
  exact ⟨reason, rfl⟩

/-- A change in the payload is found by the checksum in the header, unless the length is refused
before that. -/
theorem readOne_set_payload {kind : RecordKind} {payload : List UInt8} {p : ℕ} {b : UInt8}
    (hlt : payload.length < 2 ^ 32) (hp : p < payload.length) (hb : b ≠ payload[p])
    (tail : List UInt8) (lsn : Lsn) (segmentSize : ℕ) {physicalLen : ℕ}
    (hphysical : lsn.offset + (headerLen + payload.length) ≤ physicalLen) :
    ∃ reason,
      readOne (header kind payload ++ (payload.set p b ++ tail)) lsn segmentSize physicalLen =
      .error (.corruptRecord lsn reason) := by
  have hheader := length_header kind payload
  have hcomplete : headerLen ≤ (header kind payload ++ (payload.set p b ++ tail)).length := by
    rw [List.length_append]
    omega
  have hbody : payload.length ≤ (payload.set p b ++ tail).length := by
    rw [List.length_append, List.length_set]
    omega
  have hpayload : (payload.set p b ++ tail).take payload.length = payload.set p b :=
    List.take_left' (by simp)
  have hcrc : crc32 (payload.set p b) ≠ crc32 payload := crc32_set_ne hp hb
  have hnext : ¬lsn.offset + (headerLen + payload.length) > physicalLen := Nat.not_lt.2 hphysical
  have hsum : headerLen + payload.length < 2 ^ 64 := by
    have : headerLen = 32 := rfl
    omega
  simp only [readOne, readExactOrTail_of_le hcomplete, List.take_left' hheader,
    List.drop_left' hheader, decodeHeader_header, readU32_length kind payload hlt,
    readU32_payloadCrc, readExactOrTail_of_le hbody, hpayload, if_pos hcrc, checkedAdd, if_pos hsum]
  by_cases hlarge : headerLen + payload.length > segmentSize
  · exact ⟨_, if_pos hlarge⟩
  rw [if_neg hlarge]
  by_cases hadd : lsn.offset + (headerLen + payload.length) < 2 ^ 64
  · simp only [if_pos hadd, if_neg hnext]
    by_cases hover : lsn.offset + (headerLen + payload.length) > segmentSize
    · exact ⟨_, if_pos hover⟩
    · exact ⟨_, if_neg hover⟩
  · simp only [if_neg hadd]
    exact ⟨_, rfl⟩

/-- **A record with one changed byte is rejected**, by an error that names its place, if the segment
holds it completely. -/
theorem readOne_set {kind : RecordKind} {payload encoded : List UInt8} {p : ℕ} {b : UInt8}
    (hencoded : encodeRecord kind payload = .ok encoded) (hp : p < encoded.length)
    (hb : b ≠ encoded[p]) (tail : List UInt8) (lsn : Lsn) (segmentSize : ℕ) {physicalLen : ℕ}
    (hphysical : lsn.offset + encoded.length ≤ physicalLen) :
    ∃ reason, readOne (encoded.set p b ++ tail) lsn segmentSize physicalLen =
      .error (.corruptRecord lsn reason) := by
  have hlength := length_encodeRecord hencoded
  obtain ⟨hlt, rfl⟩ := (encodeRecord_ok kind payload).1 hencoded
  have hheader := length_header kind payload
  rcases Nat.lt_or_ge p (header kind payload).length with hp' | hp'
  · rw [List.getElem_append_left hp'] at hb
    rw [List.set_append_left _ _ hp', List.append_assoc]
    exact readOne_set_header hp' hb _ lsn segmentSize physicalLen
  · rw [List.getElem_append_right hp'] at hb
    rw [List.set_append_right _ _ hp', List.append_assoc]
    exact readOne_set_payload hlt (by omega) hb tail lsn segmentSize (by omega)

/-! ## Opening -/

theorem readHead_set {id segmentSize offset : ℕ} {kind : RecordKind} {payload encoded : List UInt8}
    {p : ℕ} {b : UInt8} (hencoded : encodeRecord kind payload = .ok encoded)
    (hp : p < encoded.length) (hb : b ≠ encoded[p]) (tail : List UInt8) :
    ∃ reason, (segmentReader id segmentSize).read offset (encoded.set p b ++ tail) =
      .error (.corruptRecord ⟨id, offset⟩ reason) := by
  have hphysical : offset + encoded.length ≤ offset + (encoded.set p b ++ tail).length := by
    rw [List.length_append, List.length_set]
    omega
  obtain ⟨reason, hread⟩ := readOne_set hencoded hp hb tail ⟨id, offset⟩ segmentSize hphysical
  exact ⟨reason, by simp only [segmentReader, readHead, hread]⟩

section

variable {d : Dir} {segmentSize : ℕ} {e : WalError}

/-- Recovery does not get past a segment that cannot be read, and changes nothing before it. -/
theorem recoverFrom_of_failed {id : ℕ} (hid : validLen d id segmentSize = .error e) {ids : List ℕ}
    (hmem : id ∈ ids) : ∃ e', recoverFrom d segmentSize ids = (d, .error e') := by
  induction ids with
  | nil => exact absurd hmem List.not_mem_nil
  | cons i ids ih =>
    rw [recoverFrom]
    rcases List.mem_cons.1 hmem with rfl | hmem
    · simp only [hid]
      exact ⟨e, rfl⟩
    · have hne : ids.isEmpty = false := List.isEmpty_eq_false_iff.2 (List.ne_nil_of_mem hmem)
      cases validLen d i segmentSize with
      | error e' => exact ⟨e', rfl⟩
      | ok scan =>
        cases scan with
        | clean len =>
          simp only [hne, Bool.false_eq_true, if_false]
          exact ih hmem
        | incompleteTail len =>
          simp only [hne, Bool.false_eq_true, if_false]
          exact ⟨_, rfl⟩

theorem mem_segmentIds {ids : List ℕ} (h : segmentIds d = .ok ids) {id : ℕ} {f : File}
    (hf : d.file id = some f) : id ∈ ids := by
  obtain ⟨files, hd, rfl⟩ := lists_of_segmentIds h
  rw [hd] at hf
  exact List.mem_range.2 (List.getElem?_eq_some_iff.1 hf).1

/-- **A segment that cannot be read fails the opening**, which leaves the directory as it was. -/
theorem Wal.open_of_failed {id : ℕ} {f : File} {options : WalOptions} (hf : d.file id = some f)
    (hid : validLen d id options.segmentSize.toNat = .error e) :
    ∃ e', Wal.open d options = (d, .error e') := by
  unfold Wal.open
  cases validateOptions options with
  | error e' => exact ⟨e', rfl⟩
  | ok _ =>
    unfold recover
    cases hids : segmentIds d with
    | error e' => exact ⟨e', rfl⟩
    | ok ids =>
      have hmem := mem_segmentIds hids hf
      have hne : ids.isEmpty = false := List.isEmpty_eq_false_iff.2 (List.ne_nil_of_mem hmem)
      obtain ⟨e', hrecover⟩ := recoverFrom_of_failed hid hmem
      simp only [hne, Bool.false_eq_true, if_false, hrecover]
      exact ⟨e', rfl⟩

/-- The error is that of the segment when those before it are whole. -/
theorem Wal.open_of_segments {closed later : List File} {f : File} {records : List StoredRecord}
    {options : WalOptions} (hvalid : validateOptions options = .ok ())
    (hd : d.Lists (closed ++ f :: later))
    (hclosed : Segments options.segmentSize.toNat 0 closed records)
    (hid : validLen d closed.length options.segmentSize.toNat = .error e) :
    Wal.open d options = (d, .error e) := by
  have hpass := @Segments.recoverFrom_range' _ _ _ _ _ hclosed hd.hasFrom.left later.length
  have hlast : List.range' (0 + closed.length) (later.length + 1) =
      closed.length :: List.range' (closed.length + 1) later.length := by
    rw [Nat.zero_add, List.range'_succ]
  rw [hlast, recoverFrom] at hpass
  simp only [hid] at hpass
  simp only [Wal.open, hvalid, recover, segmentIds_of_lists hd, List.length_append,
    List.length_cons, List.range_eq_range', hpass]
  simp

end

/-- **One changed byte of a record is detected.** Wherever the byte is, reading at the record's
place gives an error with that place. In a segment where the record comes after whole ones, the scan
ends with that error, so that opening the directory fails and leaves every file as it was. -/
theorem changed_byte_detected {kind : RecordKind} {payload encoded : List UInt8}
    (hencoded : encodeRecord kind payload = .ok encoded) {p : ℕ} (hp : p < encoded.length)
    {b : UInt8} (hb : b ≠ encoded[p]) (tail : List UInt8) :
    (∀ (lsn : Lsn) (segmentSize physicalLen : ℕ), lsn.offset + encoded.length ≤ physicalLen →
      ∃ reason, readOne (encoded.set p b ++ tail) lsn segmentSize physicalLen =
        .error (.corruptRecord lsn reason)) ∧
    ∀ (d : Dir) (options : WalOptions) (id : ℕ) (f : File) (intact : List UInt8)
      (frames : List (Frame Record)), d.file id = some f →
      f.bytes = intact ++ (encoded.set p b ++ tail) →
      (segmentReader id options.segmentSize.toNat).Framed 0 intact frames →
      (∃ e, Wal.open d options = (d, .error e)) ∧
      ∀ (closed later : List File) (records : List StoredRecord),
        validateOptions options = .ok () → d.Lists (closed ++ f :: later) → closed.length = id →
        Segments options.segmentSize.toNat 0 closed records →
        ∃ reason, Wal.open d options = (d, .error (.corruptRecord ⟨id, intact.length⟩ reason)) := by
  refine ⟨fun lsn segmentSize physicalLen => readOne_set hencoded hp hb tail lsn segmentSize, ?_⟩
  intro d options id f intact frames hf hbytes hintact
  obtain ⟨reason, hread⟩ := @readHead_set id options.segmentSize.toNat intact.length _ _ _ _ _
    hencoded hp hb tail
  have hvalidLen : validLen d id options.segmentSize.toNat =
      .error (.corruptRecord ⟨id, intact.length⟩ reason) := by
    simp only [validLen, hf, hbytes, hintact.scan_of_failed hread]
  refine ⟨Wal.open_of_failed hf hvalidLen, ?_⟩
  intro closed later records hvalid hd hid hclosed
  subst hid
  exact ⟨reason, Wal.open_of_segments hvalid hd hclosed hvalidLen⟩

/-- A record of three bytes. -/
def threeBytes : List UInt8 := header anyKind [1, 2, 3] ++ [1, 2, 3]

/-- The record twice, the second time with a byte of its payload changed. -/
def changedTwin : File := ⟨threeBytes ++ (threeBytes.set 33 7 ++ []), 0, Nat.zero_le _⟩

theorem changed_byte_detected_twin :
    ∃ reason, Wal.open (Dir.empty.set 0 changedTwin) {} =
      (Dir.empty.set 0 changedTwin, .error (.corruptRecord ⟨0, 35⟩ reason)) := by
  have hencoded : encodeRecord anyKind [1, 2, 3] = .ok threeBytes :=
    (encodeRecord_ok _ _).2 ⟨by decide, rfl⟩
  have hlength : threeBytes.length = 35 := length_encodeRecord hencoded
  have hp : 33 < threeBytes.length := by omega
  have hget : threeBytes[33]? = some 2 := by decide +kernel
  have hb : (7 : UInt8) ≠ threeBytes[33] := by
    intro h
    rw [List.getElem?_eq_getElem hp, ← h] at hget
    exact absurd hget (by decide)
  have hframed : (segmentReader 0 ({} : WalOptions).segmentSize.toNat).Framed 0 threeBytes _ :=
    .single (readHead_encodeRecord hencoded (by rw [hlength]; decide) (UInt64.toNat_lt _))
  obtain ⟨-, hdir⟩ := changed_byte_detected hencoded hp hb []
  obtain ⟨-, hopen⟩ :=
    hdir (Dir.empty.set 0 changedTwin) {} 0 changedTwin threeBytes _ rfl rfl hframed
  have hresult := hopen [] [] [] rfl Dir.lists_empty.push rfl (.nil 0)
  rwa [hlength] at hresult

end Cloud9
