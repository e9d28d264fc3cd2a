import Cloud9.Wal.Segment
import Mathlib.Data.List.Basic

/-!
# The log handle

`wal.rs`: opening a directory, appending a record, with the rotation to a new segment when the
record does not fit, and forcing bytes to stable storage. The directory is part of the handle, which
has the lock on it.

Every file-system call of `append` and `sync` may fail; which ones do is given by `AppendFaults`. A
failed write leaves the first bytes of the record, a failed creation may leave the file.

**The layout** (`Wal.Laid`). The directory has closed segments, the active one and at most one more,
left empty by a failed rotation. The closed ones are whole records, and so is the active one as long
as the handle is healthy; a failed write leaves it cut. One lemma for each thing the handle does to
the directory says how the layout changes.
-/

namespace Cloud9

structure WalOptions where
  segmentSize : UInt64 := 64 * 1024 * 1024
  maxSize : UInt64 := 4 * 1024 * 1024 * 1024
  syncOnAppend : Bool := false
  deriving DecidableEq, Repr

def validateOptions (options : WalOptions) : Except WalError Unit :=
  if options.segmentSize.toNat < headerLen ∨ options.maxSize.toNat < headerLen then
    .error (.segmentTooSmall (min options.segmentSize.toNat options.maxSize.toNat) headerLen)
  else .ok ()

def checkedAddLen (offset len : ℕ) : Except WalError ℕ :=
  match checkedAdd offset len with
  | some sum => .ok sum
  | none => .error (.recordTooLarge u64Max u64Max)

theorem checkedAddLen_ok {offset len sum : ℕ} (h : checkedAddLen offset len = .ok sum) :
    sum = offset + len := by
  unfold checkedAddLen at h
  cases hadd : checkedAdd offset len with
  | none => simp [hadd] at h
  | some c =>
    rw [hadd] at h
    cases h
    exact (checkedAdd_eq_some.1 hadd).2

structure Wal where
  dir : Dir
  options : WalOptions
  activeId : ℕ
  activeLen : ℕ
  totalLen : ℕ
  poisoned : Bool

/-- The file-system calls of one `append` that fail. -/
structure AppendFaults where
  /-- The sync of the old segment. -/
  rotateSync : Bool := false
  /-- The creation of the next segment; whether the file is there afterwards. -/
  create : Option Bool := none
  syncDir : Bool := false
  /-- The write, after some bytes. -/
  write : Option ℕ := none
  /-- The sync after the write, with `sync_on_append`. -/
  sync : Bool := false

namespace Wal

def segmentSize (w : Wal) : ℕ := w.options.segmentSize.toNat

def maxSize (w : Wal) : ℕ := w.options.maxSize.toNat

/-- `Wal::open`, with the directory it leaves. -/
def «open» (d : Dir) (options : WalOptions) : Dir × Except WalError Wal :=
  match validateOptions options with
  | .error e => (d, .error e)
  | .ok () => match recover d options.segmentSize.toNat with
    | (d, .error e) => (d, .error e)
    | (d, .ok (activeId, activeLen)) => match Cloud9.totalLen d with
      | .error e => (d, .error e)
      | .ok totalLen =>
        if totalLen > options.maxSize.toNat then
          (d, .error (.walFull totalLen options.maxSize.toNat))
        else (d, .ok ⟨d, options, activeId, activeLen, totalLen, false⟩)

def sync (w : Wal) (fails : Bool) : Except WalError Unit × Wal :=
  if w.poisoned then (.error .poisoned, w)
  else if fails then (.error (.io (.segment w.activeId)), { w with poisoned := true })
  else (.ok (), { w with dir := w.dir.update w.activeId File.sync })

def rotateIfNeeded (w : Wal) (faults : AppendFaults) (recordLen : ℕ) : Except WalError Unit × Wal :=
  if recordLen > w.segmentSize then (.error (.recordTooLarge recordLen w.segmentSize), w)
  else match checkedAdd w.activeLen recordLen with
    | none => (.error (.recordTooLarge u64Max w.segmentSize), w)
    | some nextLen =>
      if w.activeLen ≠ 0 ∧ nextLen > w.segmentSize then
        match w.sync faults.rotateSync with
        | (.error e, w) => (.error e, w)
        | (.ok (), w) => match checkedAdd w.activeId 1 with
          | none => (.error .segmentIdExhausted, w)
          | some activeId => match faults.create with
            | some leftBehind =>
              (.error (.io (.segment activeId)),
                if leftBehind then { w with dir := w.dir.create activeId } else w)
            | none =>
              if faults.syncDir then
                (.error (.io .directory), { w with dir := w.dir.create activeId })
              else
                (.ok (), { w with
                  dir := w.dir.create activeId
                  activeId := activeId
                  activeLen := 0 })
      else (.ok (), w)

/-- The write of `append`, and the sync after it. -/
def writeRecord (w : Wal) (faults : AppendFaults) (encoded : List UInt8) (nextLen nextTotal : ℕ) :
    Except WalError Lsn × Wal :=
  let lsn : Lsn := ⟨w.activeId, w.activeLen⟩
  match faults.write with
  | some written =>
    (.error (.io (.segment w.activeId)), { w with
      dir := w.dir.update w.activeId (·.write (encoded.take written))
      poisoned := true })
  | none =>
    let w := { w with
      dir := w.dir.update w.activeId (·.write encoded)
      activeLen := nextLen
      totalLen := nextTotal }
    if w.options.syncOnAppend then
      match w.sync faults.sync with
      | (.error e, w) => (.error e, w)
      | (.ok (), w) => (.ok lsn, w)
    else (.ok lsn, w)

def append (w : Wal) (faults : AppendFaults) (kind : RecordKind) (payload : List UInt8) :
    Except WalError Lsn × Wal :=
  if w.poisoned then (.error .poisoned, w)
  else match encodedLen payload.length with
    | .error e => (.error e, w)
    | .ok recordLen => match checkedAddLen w.totalLen recordLen with
      | .error e => (.error e, w)
      | .ok nextTotal =>
        if nextTotal > w.maxSize then (.error (.walFull nextTotal w.maxSize), w)
        else match w.rotateIfNeeded faults recordLen with
          | (.error e, w) => (.error e, w)
          | (.ok (), w) => match encodeRecord kind payload with
            | .error e => (.error e, w)
            | .ok encoded => match checkedAddLen w.activeLen encoded.length with
              | .error e => (.error e, w)
              | .ok nextLen => w.writeRecord faults encoded nextLen nextTotal

/-- What `records` yields, to its end. -/
def records (w : Wal) : Except WalError (List StoredRecord × Option WalError) :=
  if w.poisoned then .error .poisoned
  else match segmentIds w.dir with
    | .error e => .error e
    | .ok ids => .ok (recordsFrom w.dir w.segmentSize ids)

end Wal

/-! ## The layout -/

/-- What a directory holds: the closed segments with their records, the active segment, and files
after it. The frames of the active segment make up `full`. -/
structure Layout where
  closed : List File
  active : File
  next : List File
  records : List StoredRecord
  full : List UInt8
  frames : List (Frame Record)

namespace Layout

def files (l : Layout) : List File := l.closed ++ l.active :: l.next

/-- All records, with their positions. -/
def stored (l : Layout) : List StoredRecord :=
  l.records ++ l.frames.map (storedAt l.closed.length)

/-- The records that a successful sync has covered: those of the closed segments, and those of the
active one up to the last sync. -/
def synced (l : Layout) : List StoredRecord :=
  l.records ++ (l.frames.filter fun f => decide (f.stop ≤ l.active.synced)).map
    (storedAt l.closed.length)

/-- The active segment is what it should be. -/
def Whole (l : Layout) : Prop := l.active.bytes = l.full

end Layout

namespace Wal

structure Laid (w : Wal) (l : Layout) : Prop where
  lists : w.dir.Lists l.files
  activeId : w.activeId = l.closed.length
  segments : Segments w.segmentSize 0 l.closed l.records
  framed : (segmentReader l.closed.length w.segmentSize).Framed 0 l.full l.frames
  cut : l.active.bytes <+: l.full
  total : totalBytes l.files ≤ w.maxSize
  whole : w.poisoned = false → l.Whole
  activeLen : w.poisoned = false → w.activeLen = l.full.length
  totalLen : w.poisoned = false → w.totalLen = totalBytes l.files
  /-- A file after the active one is empty, and was created after the active one was synced. -/
  next : l.next = [] ∨ l.next = [File.empty] ∧ l.Whole ∧ l.active.synced = l.full.length

end Wal

theorem totalBytes_append (files files' : List File) :
    totalBytes (files ++ files') = totalBytes files + totalBytes files' := by
  simp [totalBytes]

theorem totalBytes_cons (f : File) (files : List File) :
    totalBytes (f :: files) = f.bytes.length + totalBytes files := rfl

namespace Wal.Laid

variable {w : Wal} {l : Layout}

theorem poison (h : w.Laid l) : { w with poisoned := true }.Laid l :=
  ⟨h.lists, h.activeId, h.segments, h.framed, h.cut, h.total, nofun, nofun, nofun, h.next⟩

/-- The active segment is synced. -/
theorem sync (h : w.Laid l) :
    { w with dir := w.dir.update w.activeId File.sync }.Laid
      { l with active := l.active.sync } := by
  have htotal :
      totalBytes ({ l with active := l.active.sync } : Layout).files = totalBytes l.files := by
    simp [Layout.files, totalBytes_append, totalBytes_cons]
  refine ⟨?_, h.activeId, h.segments, h.framed, h.cut, ?_, h.whole, h.activeLen, ?_, ?_⟩
  · rw [h.activeId]
    exact h.lists.update_append File.sync
  · rw [htotal]
    exact h.total
  · rw [htotal]
    exact h.totalLen
  · rcases h.next with hnext | ⟨hnext, hwhole, -⟩
    · exact .inl hnext
    · have hbytes : l.active.bytes = l.full := hwhole
      exact .inr ⟨hnext, hwhole, congrArg List.length hbytes⟩

/-- When the active segment is synced as a whole, all records are. -/
theorem synced_eq (h : w.Laid l) (hsynced : l.active.synced = l.full.length) :
    l.synced = l.stored := by
  have hall : l.frames.filter (fun f => decide (f.stop ≤ l.active.synced)) = l.frames := by
    refine List.filter_eq_self.2 fun f hf => decide_eq_true ?_
    have := h.framed.stop_le f hf
    omega
  rw [Layout.synced, Layout.stored, hall]

/-- Where the next segment is created. -/
theorem create_lists (h : w.Laid l) :
    (w.dir.create (w.activeId + 1)).Lists ({ l with next := [File.empty] } : Layout).files := by
  rcases h.next with hnext | ⟨hnext, -, -⟩
  · have hfiles : l.files = l.closed ++ [l.active] := by rw [Layout.files, hnext]
    have hlists := h.lists
    rw [hfiles] at hlists
    have hnone : w.dir.file (w.activeId + 1) = none := by
      rw [hlists, h.activeId, List.getElem?_eq_none (by simp)]
    have hpush := hlists.push (f := File.empty)
    rw [List.length_append, List.length_singleton, ← h.activeId] at hpush
    simpa [Dir.create, hnone, Layout.files] using hpush
  · have hfiles : l.files = ({ l with next := [File.empty] } : Layout).files := by
      rw [Layout.files, hnext, Layout.files]
    have hsome : w.dir.file (w.activeId + 1) = some File.empty := by
      rw [h.lists, h.activeId, Layout.files, hnext]
      simp
    simp only [Dir.create, hsome]
    rw [← hfiles]
    exact h.lists

theorem totalBytes_next (h : w.Laid l) :
    totalBytes ({ l with next := [File.empty] } : Layout).files = totalBytes l.files := by
  rcases h.next with hnext | ⟨hnext, -, -⟩
  · simp [Layout.files, hnext, totalBytes]
  · simp [Layout.files, hnext]

/-- A rotation that fails after the creation leaves an empty segment. -/
theorem leave (h : w.Laid l) (hp : w.poisoned = false)
    (hsynced : l.active.synced = l.full.length) :
    { w with dir := w.dir.create (w.activeId + 1) }.Laid { l with next := [File.empty] } := by
  refine ⟨h.create_lists, h.activeId, h.segments, h.framed, h.cut, ?_, h.whole, h.activeLen, ?_,
    .inr ⟨rfl, h.whole hp, hsynced⟩⟩
  · rw [h.totalBytes_next]
    exact h.total
  · rw [h.totalBytes_next]
    exact h.totalLen

/-- A rotation makes the active segment a closed one. -/
theorem rotate (h : w.Laid l) (hp : w.poisoned = false) :
    { w with dir := w.dir.create (w.activeId + 1), activeId := w.activeId + 1, activeLen := 0 }.Laid
      ⟨l.closed ++ [l.active], File.empty, [], l.stored, [], []⟩ := by
  have hlength : (l.closed ++ [l.active]).length = l.closed.length + 1 := by simp
  have hfiles : (⟨l.closed ++ [l.active], File.empty, [], l.stored, [], []⟩ : Layout).files =
      ({ l with next := [File.empty] } : Layout).files := by
    simp [Layout.files]
  have hactive : (segmentReader (0 + l.closed.length) w.segmentSize).Framed 0 l.active.bytes
      l.frames := by
    rw [Nat.zero_add, h.whole hp]
    exact h.framed
  have hsegments := h.segments.push hactive
  rw [Nat.zero_add] at hsegments
  refine ⟨?_, ?_, hsegments, .nil 0, List.nil_prefix, ?_, fun _ => rfl, fun _ => rfl, ?_, .inl rfl⟩
  · rw [hfiles]
    exact h.create_lists
  · rw [hlength, ← h.activeId]
  · rw [hfiles, h.totalBytes_next]
    exact h.total
  · rw [hfiles, h.totalBytes_next]
    exact h.totalLen

/-- The layout after some bytes of a record were written. -/
def written (l : Layout) (record : Record) (encoded : List UInt8) (k : ℕ) : Layout :=
  { l with
    active := l.active.write (encoded.take k)
    full := l.full ++ encoded
    frames := l.frames ++ [⟨l.full.length, encoded.length, record⟩] }

/-- A write of a record that fits, of all of it or only of its first bytes. -/
theorem write (h : w.Laid l) (hp : w.poisoned = false) (hnext : l.next = []) {kind : RecordKind}
    {payload encoded : List UInt8} (hencoded : encodeRecord kind payload = .ok encoded)
    (hfits : w.activeLen + encoded.length ≤ w.segmentSize)
    (hroom : w.totalLen + encoded.length ≤ w.maxSize) (w' : Wal) (k : ℕ)
    (hoptions : w'.options = w.options) (hid : w'.activeId = w.activeId)
    (hdir : w'.dir = w.dir.update w.activeId (·.write (encoded.take k)))
    (hdone : w'.poisoned = false → encoded.length ≤ k ∧
      w'.activeLen = w.activeLen + encoded.length ∧ w'.totalLen = w.totalLen + encoded.length) :
    w'.Laid (written l ⟨kind, payload⟩ encoded k) := by
  have hbytes : l.active.bytes = l.full := h.whole hp
  have hsize : w'.segmentSize = w.segmentSize := congrArg (fun o => o.segmentSize.toNat) hoptions
  have hmax : w'.maxSize = w.maxSize := congrArg (fun o => o.maxSize.toNat) hoptions
  have htotal : totalBytes (written l ⟨kind, payload⟩ encoded k).files =
      totalBytes l.files + (encoded.take k).length := by
    simp only [written, Layout.files, totalBytes_append, totalBytes_cons, File.bytes_write,
      List.length_append]
    omega
  have htake : (encoded.take k).length ≤ encoded.length := by
    rw [List.length_take]
    omega
  have htl := h.totalLen hp
  have hal := h.activeLen hp
  refine ⟨?_, ?_, ?_, ?_, ?_, ?_, ?_, ?_, ?_, .inl hnext⟩
  · rw [hdir, h.activeId]
    exact h.lists.update_append _
  · exact hid.trans h.activeId
  · rw [hsize]
    exact h.segments
  · rw [hsize]
    have hsingle := FrameReader.Framed.single
      (@readHead_encodeRecord _ _ _ l.closed.length _ _ hencoded hfits (UInt64.toNat_lt _))
    rw [hal, ← Nat.zero_add l.full.length] at hsingle
    have := h.framed.append hsingle
    rwa [Nat.zero_add] at this
  · simp only [written, File.bytes_write, hbytes]
    exact (List.prefix_append_right_inj _).2 <| List.take_prefix k encoded
  · rw [htotal, hmax]
    omega
  · intro hp'
    obtain ⟨hk, -, -⟩ := hdone hp'
    simp only [written, Layout.Whole, File.bytes_write, hbytes, List.take_of_length_le hk]
  · intro hp'
    obtain ⟨-, hlen, -⟩ := hdone hp'
    rw [hlen, hal, written, List.length_append]
  · intro hp'
    obtain ⟨hk, -, hlen⟩ := hdone hp'
    rw [hlen, htl, htotal, List.take_of_length_le hk]

end Wal.Laid

/-! ## What a call does to the layout -/

namespace Layout

/-- The closed segments from some number on are on stable storage. -/
def Settled (base : ℕ) (l : Layout) : Prop :=
  ∀ i f, base ≤ i → l.closed[i]? = some f → f.synced = f.bytes.length

/-- The last closed segment has records: the last ones before those of the active segment. -/
def Dense (l : Layout) : Prop :=
  l.closed ≠ [] → ∃ s, l.records.getLast? = some s ∧ s.lsn.segmentId + 1 = l.closed.length

/-- Records are only added, and only synced segments with records are closed. -/
structure Grows (l l' : Layout) : Prop where
  stored : l.stored <+: l'.stored
  synced : l.synced.Sublist l'.synced
  settled : ∀ {base}, l.Settled base → l'.Settled base
  dense : l.Dense → l'.Dense

/-- The record is the last one, in the active segment. -/
def Adds (l l' : Layout) (s : StoredRecord) : Prop :=
  ∃ frames f, l'.frames = frames ++ [f] ∧ storedAt l'.closed.length f = s ∧
    l'.records ++ frames.map (storedAt l'.closed.length) = l.stored

theorem Adds.stored_eq {l l' : Layout} {s : StoredRecord} (h : l.Adds l' s) :
    l'.stored = l.stored ++ [s] := by
  obtain ⟨frames, f, hframes, rfl, hstored⟩ := h
  rw [Layout.stored, hframes, List.map_append, ← List.append_assoc, hstored]
  rfl

theorem synced_sublist_stored (l : Layout) : l.synced.Sublist l.stored :=
  (List.Sublist.refl _).append (List.filter_sublist.map _)

theorem Grows.refl (l : Layout) : l.Grows l :=
  ⟨List.prefix_rfl, List.Sublist.refl _, fun h => h, fun h => h⟩

theorem Grows.trans {l l' l'' : Layout} (h : l.Grows l') (h' : l'.Grows l'') : l.Grows l'' :=
  ⟨h.stored.trans h'.stored, h.synced.trans h'.synced, fun hs => h'.settled (h.settled hs),
    fun hd => h'.dense (h.dense hd)⟩

/-- The closed segments are the same. -/
theorem Grows.of_closed {l l' : Layout} (hclosed : l'.closed = l.closed)
    (hrecords : l'.records = l.records) (hframes : l.frames <+: l'.frames)
    (hsynced : l.active.synced ≤ l'.active.synced) : l.Grows l' := by
  refine ⟨?_, ?_, fun h => ?_, fun h => ?_⟩
  · rw [Layout.stored, Layout.stored, hclosed, hrecords]
    exact (List.prefix_append_right_inj _).2 (hframes.map _)
  · rw [Layout.synced, Layout.synced, hclosed, hrecords]
    refine (List.Sublist.refl _).append (List.Sublist.map _ ?_)
    refine (hframes.sublist.filter _).trans (List.monotone_filter_right _ fun f hf => ?_)
    exact decide_eq_true (Nat.le_trans (of_decide_eq_true hf) hsynced)
  · rw [Settled, hclosed]
    exact h
  · rw [Dense, hclosed, hrecords]
    exact h

end Layout

namespace Wal

variable {w : Wal} {l : Layout}

theorem Laid.grows_rotate (h : w.Laid l) (hp : w.poisoned = false) (hlen : w.activeLen ≠ 0)
    (hsynced : l.active.synced = l.active.bytes.length) :
    l.Grows ⟨l.closed ++ [l.active], File.empty, [], l.stored, [], []⟩ := by
  refine ⟨?_, ?_, fun hsettled i f hi hf => ?_, fun _ _ => ?_⟩
  · simp [Layout.stored]
  · simpa [Layout.synced] using l.synced_sublist_stored
  · rcases Nat.lt_trichotomy i l.closed.length with hlt | heq | hgt
    · rw [List.getElem?_append_left hlt] at hf
      exact hsettled i f hi hf
    · have hactive : l.active = f := by
        rw [heq, List.getElem?_append_right (Nat.le_refl _), Nat.sub_self] at hf
        simpa using hf
      rw [← hactive, hsynced]
    · rw [List.getElem?_eq_none (by simp; omega)] at hf
      exact absurd hf (by simp)
  · rcases List.eq_nil_or_concat l.frames with hnil | ⟨frames, last, hframes⟩
    · have hframed := h.framed
      rw [hnil] at hframed
      exact absurd (by rw [h.activeLen hp, hframed.eq_nil, List.length_nil]) hlen
    · refine ⟨storedAt l.closed.length last, ?_, ?_⟩
      · simp [Layout.stored, hframes]
      · simp [storedAt]

theorem sync_healthy (hp : w.poisoned = false) (fails : Bool) :
    w.sync fails = if fails then (.error (.io (.segment w.activeId)), { w with poisoned := true })
      else (.ok (), { w with dir := w.dir.update w.activeId File.sync }) := by
  unfold Wal.sync
  rw [hp]
  rfl

/-- The outcome of a rotation. The records are the same; if it succeeds, the record fits. -/
structure Rotates (w : Wal) (l : Layout) (recordLen : ℕ) (r : Except WalError Unit × Wal)
    (l' : Layout) : Prop where
  laid : r.2.Laid l'
  options : r.2.options = w.options
  totalLen : r.2.totalLen = w.totalLen
  grows : l.Grows l'
  stored : l'.stored = l.stored
  healthy : r.1 = .ok () → r.2.poisoned = false
  fits : r.1 = .ok () → r.2.activeLen + recordLen ≤ w.segmentSize
  next : r.1 = .ok () → l'.next = [] ∨ l' = l ∧ w.activeLen + recordLen ≤ w.segmentSize
  place : r.1 = .ok () → r.2.activeId = w.activeId ∧ r.2.activeLen = w.activeLen ∨
    w.activeLen ≠ 0 ∧ r.2.activeId = w.activeId + 1 ∧ r.2.activeLen = 0

theorem Rotates.of_error {recordLen : ℕ} {e : WalError} {w' : Wal} {l' : Layout}
    (hlaid : w'.Laid l') (hoptions : w'.options = w.options) (htotal : w'.totalLen = w.totalLen)
    (hgrows : l.Grows l') (hstored : l'.stored = l.stored) :
    w.Rotates l recordLen (.error e, w') l' :=
  ⟨hlaid, hoptions, htotal, hgrows, hstored, nofun, nofun, nofun, nofun⟩

theorem rotateIfNeeded_laid (h : w.Laid l) (hp : w.poisoned = false) (faults : AppendFaults)
    (recordLen : ℕ) : ∃ l', w.Rotates l recordLen (w.rotateIfNeeded faults recordLen) l' := by
  unfold rotateIfNeeded
  by_cases hlarge : recordLen > w.segmentSize
  · rw [if_pos hlarge]
    exact ⟨l, .of_error h rfl rfl (.refl l) rfl⟩
  rw [if_neg hlarge]
  cases hadd : checkedAdd w.activeLen recordLen with
  | none => exact ⟨l, .of_error h rfl rfl (.refl l) rfl⟩
  | some nextLen =>
    obtain ⟨-, rfl⟩ := checkedAdd_eq_some.1 hadd
    by_cases hrotate : w.activeLen ≠ 0 ∧ w.activeLen + recordLen > w.segmentSize
    · simp only [if_pos hrotate]
      rw [sync_healthy hp]
      cases faults.rotateSync with
      | true => exact ⟨l, .of_error h.poison rfl rfl (.refl l) rfl⟩
      | false =>
        simp only [Bool.false_eq_true, if_false]
        -- from here on the old segment is synced
        have hsync := h.sync
        have hsynced :
            ({ l with active := l.active.sync } : Layout).active.synced = l.full.length :=
          congrArg List.length (h.whole hp)
        have hgrows : l.Grows { l with active := l.active.sync } :=
          .of_closed rfl rfl List.prefix_rfl l.active.synced_le
        cases hid : checkedAdd w.activeId 1 with
        | none => exact ⟨_, .of_error hsync rfl rfl hgrows rfl⟩
        | some activeId =>
          obtain ⟨-, rfl⟩ := checkedAdd_eq_some.1 hid
          have hleave := hsync.leave hp hsynced
          have hleft : l.Grows { l with active := l.active.sync, next := [File.empty] } :=
            .of_closed rfl rfl List.prefix_rfl l.active.synced_le
          cases faults.create with
          | some leftBehind =>
            cases leftBehind with
            | true => exact ⟨_, .of_error hleave rfl rfl hleft rfl⟩
            | false => exact ⟨_, .of_error hsync rfl rfl hgrows rfl⟩
          | none =>
            cases faults.syncDir with
            | true => exact ⟨_, .of_error hleave rfl rfl hleft rfl⟩
            | false =>
              refine ⟨_, hsync.rotate hp, rfl, rfl,
                hgrows.trans (hsync.grows_rotate hp hrotate.1 rfl), ?_, fun _ => hp, fun _ => ?_,
                fun _ => .inl rfl, fun _ => .inr ⟨hrotate.1, rfl, rfl⟩⟩
              · simp [Layout.stored]
              · simp only [Bool.false_eq_true, if_false]
                omega
    · simp only [if_neg hrotate]
      have hfits : w.activeLen + recordLen ≤ w.segmentSize := by
        by_cases hzero : w.activeLen = 0
        · omega
        · exact Nat.not_lt.1 fun hgt => hrotate ⟨hzero, hgt⟩
      exact ⟨l, h, rfl, rfl, .refl l, rfl, fun _ => hp, fun _ => hfits, fun _ => .inr ⟨rfl, hfits⟩,
        fun _ => .inl ⟨rfl, rfl⟩⟩

/-- An append may not write into the active segment while the next one exists. Then it must not fit,
so that the rotation is tried again. -/
def clear (w : Wal) (payload : List UInt8) : Bool :=
  (w.dir.file (w.activeId + 1)).isNone ||
    decide (w.segmentSize < w.activeLen + (headerLen + payload.length))

theorem Laid.clear (h : w.Laid l) (hnext : l.next = []) (payload : List UInt8) :
    w.clear payload = true := by
  have hnone : w.dir.file (w.activeId + 1) = none := by
    rw [h.lists, h.activeId, Layout.files, hnext, List.getElem?_eq_none (by simp)]
  simp [Wal.clear, hnone]

/-- The outcome of an append. If it succeeds, its record is the last one; if it fails, the records
before it are still there. -/
structure Appends (w : Wal) (l : Layout) (record : Record) (r : Except WalError Lsn × Wal)
    (l' : Layout) : Prop where
  laid : r.2.Laid l'
  options : r.2.options = w.options
  grows : l.Grows l'
  added : ∀ {lsn}, r.1 = .ok lsn → l.Adds l' ⟨lsn, record⟩
  healthy : ∀ {lsn}, r.1 = .ok lsn → r.2.poisoned = false
  next : ∀ {lsn}, r.1 = .ok lsn → l'.next = []
  durable : ∀ {lsn}, r.1 = .ok lsn → w.options.syncOnAppend = true → l'.synced = l'.stored
  place : ∀ {lsn}, r.1 = .ok lsn → lsn = ⟨w.activeId, w.activeLen⟩ ∨
    w.activeLen ≠ 0 ∧ lsn = ⟨w.activeId + 1, 0⟩

theorem Appends.of_error {record : Record} {e : WalError} {w' : Wal} {l' : Layout}
    (hlaid : w'.Laid l') (hoptions : w'.options = w.options) (hgrows : l.Grows l') :
    w.Appends l record (.error e, w') l' :=
  ⟨hlaid, hoptions, hgrows, nofun, nofun, nofun, nofun, nofun⟩

theorem writeRecord_lsn {faults : AppendFaults} {encoded : List UInt8} {nextLen nextTotal : ℕ}
    {lsn : Lsn} (h : (w.writeRecord faults encoded nextLen nextTotal).1 = .ok lsn) :
    lsn = ⟨w.activeId, w.activeLen⟩ := by
  simp only [writeRecord] at h
  split at h
  · exact absurd h (by simp)
  · split at h
    · split at h
      · exact absurd h (by simp)
      · exact (Except.ok.inj h).symm
    · exact (Except.ok.inj h).symm

theorem writeRecord_laid (h : w.Laid l) (hp : w.poisoned = false) (hnext : l.next = [])
    (faults : AppendFaults) {kind : RecordKind} {payload encoded : List UInt8}
    (hencoded : encodeRecord kind payload = .ok encoded)
    (hfits : w.activeLen + encoded.length ≤ w.segmentSize)
    (hroom : w.totalLen + encoded.length ≤ w.maxSize) :
    ∃ l', w.Appends l ⟨kind, payload⟩ (w.writeRecord faults encoded
      (w.activeLen + encoded.length) (w.totalLen + encoded.length)) l' := by
  have hgrows : ∀ k, l.Grows (Laid.written l ⟨kind, payload⟩ encoded k) := fun k =>
    .of_closed rfl rfl (List.prefix_append _ _) (Nat.le_refl _)
  have hwrite := h.write hp hnext hencoded hfits hroom
  unfold writeRecord
  cases faults.write with
  | some k => exact ⟨_, .of_error (hwrite _ k rfl rfl rfl nofun) rfl (hgrows k)⟩
  | none =>
    set w₁ : Wal := { w with
      dir := w.dir.update w.activeId (·.write encoded)
      activeLen := w.activeLen + encoded.length
      totalLen := w.totalLen + encoded.length }
    set l₁ := Laid.written l ⟨kind, payload⟩ encoded encoded.length
    have hlaid : w₁.Laid l₁ := by
      refine hwrite w₁ encoded.length rfl rfl ?_ fun _ => ⟨Nat.le_refl _, rfl, rfl⟩
      rw [List.take_length]
    have hadded : l.Adds l₁ ⟨⟨w.activeId, w.activeLen⟩, ⟨kind, payload⟩⟩ := by
      rw [h.activeId, h.activeLen hp]
      exact ⟨l.frames, _, rfl, rfl, rfl⟩
    have hp₁ : w₁.poisoned = false := hp
    simp only [sync_healthy hp₁]
    cases hoption : w.options.syncOnAppend with
    | true =>
      cases faults.sync with
      | true => exact ⟨l₁, .of_error hlaid.poison rfl (hgrows _)⟩
      | false =>
        refine ⟨_, hlaid.sync, rfl,
          (hgrows encoded.length).trans
            (.of_closed rfl rfl List.prefix_rfl l₁.active.synced_le), ?_,
          fun _ => hp, fun _ => hnext, fun _ _ => ?_, ?_⟩
        · rintro lsn ⟨⟩
          exact hadded
        · exact hlaid.sync.synced_eq (congrArg List.length (hlaid.whole hp₁))
        · rintro lsn ⟨⟩
          exact .inl rfl
    | false =>
      refine ⟨l₁, hlaid, rfl, hgrows _, ?_, fun _ => hp, fun _ => hnext, fun _ h => ?_, ?_⟩
      · rintro lsn ⟨⟩
        exact hadded
      · rw [hoption] at h
        exact absurd h (by simp)
      · rintro lsn ⟨⟩
        exact .inl rfl

/-- The part of an append after its rotation. -/
theorem Rotates.append {w₁ : Wal} {l₁ : Layout} {kind : RecordKind} {payload encoded : List UInt8}
    (h : w.Laid l) (hclear : w.clear payload = true)
    (hrotate : w.Rotates l (headerLen + payload.length) (.ok (), w₁) l₁)
    (hroom : w.totalLen + (headerLen + payload.length) ≤ w.maxSize) (faults : AppendFaults)
    (hencoded : encodeRecord kind payload = .ok encoded) :
    ∃ l', w.Appends l ⟨kind, payload⟩ (w₁.writeRecord faults encoded
      (w₁.activeLen + encoded.length) (w.totalLen + (headerLen + payload.length))) l' := by
  have hlength : encoded.length = headerLen + payload.length := length_encodeRecord hencoded
  have hnext : l₁.next = [] := by
    rcases hrotate.next rfl with hnext | ⟨rfl, hfits⟩
    · exact hnext
    · rcases h.next with hnext | ⟨hnext, -, -⟩
      · exact hnext
      · -- the next segment exists, so the record does not fit
        have hsome : w.dir.file (w.activeId + 1) = some File.empty := by
          rw [h.lists, h.activeId, Layout.files, hnext]
          simp
        simp [Wal.clear, hsome] at hclear
        omega
  have hsize : w₁.segmentSize = w.segmentSize :=
    congrArg (fun o => o.segmentSize.toNat) hrotate.options
  have hmax : w₁.maxSize = w.maxSize := congrArg (fun o => o.maxSize.toNat) hrotate.options
  have htotal : w₁.totalLen = w.totalLen := hrotate.totalLen
  have hfits : w₁.activeLen + (headerLen + payload.length) ≤ w.segmentSize := hrotate.fits rfl
  obtain ⟨l', hwrite⟩ := writeRecord_laid hrotate.laid (hrotate.healthy rfl) hnext faults hencoded
    (by show w₁.activeLen + _ ≤ w₁.segmentSize; omega)
    (by show w₁.totalLen + _ ≤ w₁.maxSize; omega)
  rw [htotal, hlength] at hwrite
  rw [hlength]
  refine ⟨l', hwrite.laid, hwrite.options.trans hrotate.options, hrotate.grows.trans hwrite.grows,
    ?_, hwrite.healthy, hwrite.next, fun hlsn hsync => ?_, ?_⟩
  · intro lsn hlsn
    obtain ⟨frames, f, hframes, hf, hstored⟩ := hwrite.added hlsn
    exact ⟨frames, f, hframes, hf, hstored.trans hrotate.stored⟩
  · refine hwrite.durable hlsn ?_
    rw [show w₁.options = w.options from hrotate.options]
    exact hsync
  · intro lsn hlsn
    have hplace := writeRecord_lsn hlsn
    rcases hrotate.place rfl with ⟨hid, hlen⟩ | ⟨hne, hid, hlen⟩
    · simp only at hid hlen
      rw [hid, hlen] at hplace
      exact .inl hplace
    · simp only at hid hlen
      rw [hid, hlen] at hplace
      exact .inr ⟨hne, hplace⟩

/-- **What an append does**, whatever fails. -/
theorem append_laid (h : w.Laid l) (faults : AppendFaults) (kind : RecordKind)
    {payload : List UInt8} (hclear : w.clear payload = true) :
    ∃ l', w.Appends l ⟨kind, payload⟩ (w.append faults kind payload) l' := by
  unfold append
  cases hp : w.poisoned with
  | true => exact ⟨l, .of_error h rfl (.refl l)⟩
  | false =>
    simp only [Bool.false_eq_true, if_false]
    cases hlen : encodedLen payload.length with
    | error e => exact ⟨l, .of_error h rfl (.refl l)⟩
    | ok recordLen =>
      obtain ⟨hpayload, rfl⟩ := encodedLen_ok.1 hlen
      have hencoded : encodeRecord kind payload = .ok (header kind payload ++ payload) :=
        (encodeRecord_ok kind payload).2 ⟨hpayload, rfl⟩
      simp only [hencoded]
      cases htotal : checkedAddLen w.totalLen (headerLen + payload.length) with
      | error e => exact ⟨l, .of_error h rfl (.refl l)⟩
      | ok nextTotal =>
        obtain rfl := checkedAddLen_ok htotal
        by_cases hfull : w.totalLen + (headerLen + payload.length) > w.maxSize
        · simp only [if_pos hfull]
          exact ⟨l, .of_error h rfl (.refl l)⟩
        · simp only [if_neg hfull]
          obtain ⟨l₁, hrotate⟩ := rotateIfNeeded_laid h hp faults (headerLen + payload.length)
          generalize w.rotateIfNeeded faults (headerLen + payload.length) = r at hrotate ⊢
          obtain ⟨e | _, w₁⟩ := r
          · exact ⟨l₁, .of_error hrotate.laid hrotate.options hrotate.grows⟩
          · simp only
            cases hlen : checkedAddLen w₁.activeLen (header kind payload ++ payload).length with
            | error e => exact ⟨l₁, .of_error hrotate.laid hrotate.options hrotate.grows⟩
            | ok nextLen =>
              obtain rfl := checkedAddLen_ok hlen
              exact hrotate.append h hclear (by omega) faults hencoded

end Wal

end Cloud9
