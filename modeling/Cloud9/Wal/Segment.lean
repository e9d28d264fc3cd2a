import Mathlib.Algebra.GroupWithZero.Nat
import Cloud9.Wal.Format
import Mathlib.Logic.Function.Basic

/-!
# Segment files

`segment.rs`: the numbered files of a log directory, and what opening the directory does with them.
Every segment is scanned from its start. An incomplete record at the end of the last one is cut off,
anywhere else it is an error.

**The file system.** A file has its bytes and the number of them that the last successful sync has
put on stable storage; a directory has the segment files by number. Other files in the directory,
and the lock file, are not modelled. Reading does not fail.

**The abstraction.** `Dir.Lists` says that a directory has the files of a list, without a gap, and
`Segments` that these files are whole records; what `recover`, `totalLen` and the record stream do
is then stated over the list.
-/

namespace Cloud9

/-! ## Files and directories -/

structure File where
  bytes : List UInt8
  /-- The bytes that the last successful sync has covered. -/
  synced : ℕ
  synced_le : synced ≤ bytes.length

namespace File

def empty : File := ⟨[], 0, Nat.le_refl 0⟩

/-- Writes go to the end: segments are opened for appending. -/
def write (f : File) (bytes : List UInt8) : File :=
  ⟨f.bytes ++ bytes, f.synced, by
    rw [List.length_append]
    exact Nat.le_add_right_of_le f.synced_le⟩

def sync (f : File) : File := ⟨f.bytes, f.bytes.length, Nat.le_refl _⟩

/-- `set_len` and `sync_all`. -/
def truncate (f : File) (len : ℕ) : File := sync ⟨f.bytes.take len, 0, Nat.zero_le _⟩

@[simp] theorem bytes_empty : empty.bytes = [] := rfl

@[simp] theorem bytes_write (f : File) (bytes : List UInt8) :
    (f.write bytes).bytes = f.bytes ++ bytes := rfl

@[simp] theorem bytes_sync (f : File) : f.sync.bytes = f.bytes := rfl

@[simp] theorem bytes_truncate (f : File) (len : ℕ) : (f.truncate len).bytes = f.bytes.take len :=
  rfl

end File

structure Dir where
  file : ℕ → Option File
  bound : ℕ
  file_eq_none : ∀ id, bound ≤ id → file id = none

namespace Dir

def empty : Dir := ⟨fun _ => none, 0, fun _ _ => rfl⟩

def set (d : Dir) (id : ℕ) (f : File) : Dir where
  file := Function.update d.file id (some f)
  bound := max d.bound (id + 1)
  file_eq_none i hi := by
    have hne : i ≠ id := by omega
    rw [Function.update_of_ne hne]
    exact d.file_eq_none i (by omega)

def update (d : Dir) (id : ℕ) (g : File → File) : Dir :=
  match d.file id with
  | some f => d.set id (g f)
  | none => d

/-- Open for appending, and create what does not exist. -/
def create (d : Dir) (id : ℕ) : Dir :=
  match d.file id with
  | some _ => d
  | none => d.set id File.empty

end Dir

/-! ## `segment.rs` -/

/-- The numbers found must be 0, 1, 2, .. -/
def checkNumbered : ℕ → List ℕ → Except WalError Unit
  | _, [] => .ok ()
  | expected, found :: rest =>
    if found ≠ expected then .error (.missingSegment expected found)
    else checkNumbered (expected + 1) rest

/-- The numbers of the segments, in order. -/
def segmentIds (d : Dir) : Except WalError (List ℕ) :=
  let ids := (List.range d.bound).filter fun id => (d.file id).isSome
  match checkNumbered 0 ids with
  | .error e => .error e
  | .ok () => .ok ids

inductive SegmentScan where
  | clean (len : ℕ)
  | incompleteTail (len : ℕ)

def validLen (d : Dir) (id segmentSize : ℕ) : Except WalError SegmentScan :=
  match d.file id with
  | none => .error (.io (.segment id))
  | some f =>
    let s := (segmentReader id segmentSize).scan f.bytes
    match s.stop with
    | .failed e => .error e
    | .done => .ok (.clean s.offset)
    | .torn => .ok (.incompleteTail s.offset)

def segmentLen (d : Dir) (id : ℕ) : Except WalError ℕ :=
  match d.file id with
  | none => .error (.io (.segment id))
  | some f => .ok f.bytes.length

def totalFrom (d : Dir) : ℕ → List ℕ → Except WalError ℕ
  | total, [] => .ok total
  | total, id :: rest =>
    match segmentLen d id with
    | .error e => .error e
    | .ok len => match checkedAdd total len with
      | none => .error (.walFull u64Max u64Max)
      | some total => totalFrom d total rest

def totalLen (d : Dir) : Except WalError ℕ :=
  match segmentIds d with
  | .error e => .error e
  | .ok ids => totalFrom d 0 ids

/-- The loop of `recover`. It returns at the last segment; the directory had one. -/
def recoverFrom (d : Dir) (segmentSize : ℕ) : List ℕ → Dir × Except WalError (ℕ × ℕ)
  | [] => (d, .error .segmentIdExhausted)
  | id :: rest =>
    match validLen d id segmentSize with
    | .error e => (d, .error e)
    | .ok (.clean len) =>
      if rest.isEmpty then (d, .ok (id, len)) else recoverFrom d segmentSize rest
    | .ok (.incompleteTail len) =>
      if rest.isEmpty then (d.update id (·.truncate len), .ok (id, len))
      else (d, .error (.corruptRecord ⟨id, len⟩ .incompleteRecord))

/-- The last segment and its length. -/
def recover (d : Dir) (segmentSize : ℕ) : Dir × Except WalError (ℕ × ℕ) :=
  match segmentIds d with
  | .error e => (d, .error e)
  | .ok ids =>
    if ids.isEmpty then recoverFrom (d.set 0 File.empty) segmentSize [0]
    else recoverFrom d segmentSize ids

/-- The record found in a frame of a segment. -/
def storedAt (id : ℕ) (f : Frame Record) : StoredRecord := ⟨⟨id, f.offset⟩, f.record⟩

/-- What the iterator yields: records, and at most one error, after which it ends. -/
def recordsFrom (d : Dir) (segmentSize : ℕ) : List ℕ → List StoredRecord × Option WalError
  | [] => ([], none)
  | id :: rest =>
    match d.file id with
    | none => ([], some (.io (.segment id)))
    | some f =>
      let s := (segmentReader id segmentSize).scan f.bytes
      let found := s.frames.map (storedAt id)
      match s.stop with
      | .failed e => (found, some e)
      | .torn => (found, some (.corruptRecord ⟨id, s.offset⟩ .incompleteRecord))
      | .done =>
        let (records, error) := recordsFrom d segmentSize rest
        (found ++ records, error)

/-! ## Directories as lists of files -/

/-- The directory has these files, numbered from 0. -/
def Dir.Lists (d : Dir) (files : List File) : Prop := ∀ id, d.file id = files[id]?

namespace Dir

variable {d : Dir} {files : List File} {id : ℕ} {f : File}

theorem lists_empty : Dir.empty.Lists [] := fun _ => rfl

theorem Lists.set (h : d.Lists files) (hid : id < files.length) :
    (d.set id f).Lists (files.set id f) := by
  intro i
  by_cases hi : i = id
  · subst hi
    simp [Dir.set, hid]
  · rw [List.getElem?_set_ne (Ne.symm hi), ← h i]
    simp [Dir.set, hi]

theorem Lists.push (h : d.Lists files) : (d.set files.length f).Lists (files ++ [f]) := by
  intro i
  by_cases hi : i = files.length
  · subst hi
    simp [Dir.set]
  · have hlast : (files ++ [f])[i]? = files[i]? := by
      rcases Nat.lt_or_gt_of_ne hi with hlt | hgt
      · rw [List.getElem?_append_left hlt]
      · rw [List.getElem?_eq_none (by simp; omega), List.getElem?_eq_none (by omega)]
    rw [hlast, ← h i]
    simp [Dir.set, hi]

theorem Lists.update (h : d.Lists files) {g : File → File} (hf : files[id]? = some f) :
    (d.update id g).Lists (files.set id (g f)) := by
  obtain ⟨hid, -⟩ := List.getElem?_eq_some_iff.1 hf
  have hfile : d.file id = some f := by rw [h id, hf]
  simp only [Dir.update, hfile]
  exact h.set hid

/-- Updating the file after those of a list. -/
theorem Lists.update_append {closed next : List File} (h : d.Lists (closed ++ f :: next))
    (g : File → File) : (d.update closed.length g).Lists (closed ++ g f :: next) := by
  have := @Lists.update _ _ closed.length f h g (by simp)
  rwa [List.set_append_right _ _ (Nat.le_refl _), Nat.sub_self, List.set_cons_zero] at this

/-- The directory has these files, numbered from `id` on, and perhaps others. -/
def HasFrom (d : Dir) (id : ℕ) (files : List File) : Prop :=
  ∀ j < files.length, d.file (id + j) = files[j]?

theorem Lists.hasFrom (h : d.Lists files) : d.HasFrom 0 files := by
  intro j _
  rw [Nat.zero_add, h j]

theorem HasFrom.left {files' : List File} (h : d.HasFrom id (files ++ files')) :
    d.HasFrom id files := by
  intro j hj
  rw [h j (by rw [List.length_append]; omega), List.getElem?_append_left hj]

theorem HasFrom.head (h : d.HasFrom id (f :: files)) : d.file id = some f := h 0 (by simp)

theorem HasFrom.tail (h : d.HasFrom id (f :: files)) : d.HasFrom (id + 1) files := by
  intro j hj
  have := h (j + 1) (by simpa using hj)
  rwa [List.getElem?_cons_succ, Nat.add_comm j, ← Nat.add_assoc] at this

theorem Lists.bound_le (h : d.Lists files) : files.length ≤ d.bound := by
  by_contra hlt
  have hnone := d.file_eq_none d.bound (Nat.le_refl _)
  rw [h, List.getElem?_eq_none_iff] at hnone
  omega

end Dir

/-! ## The numbers of the segments -/

theorem checkNumbered_range' (n : ℕ) :
    ∀ start, checkNumbered start (List.range' start n) = .ok () := by
  induction n with
  | zero => exact fun _ => rfl
  | succ n ih =>
    intro start
    simp [List.range'_succ, checkNumbered, ih]

theorem eq_range'_of_checkNumbered {ids : List ℕ} : ∀ {start : ℕ},
    checkNumbered start ids = .ok () → ids = List.range' start ids.length := by
  induction ids with
  | nil => exact fun _ => rfl
  | cons id ids ih =>
    intro start h
    rw [checkNumbered] at h
    split_ifs at h with hid
    obtain rfl : id = start := by simpa using hid
    rw [List.length_cons, List.range'_succ, ← ih h]

theorem filter_lt_range (n : ℕ) : ∀ {m : ℕ}, n ≤ m →
    (List.range m).filter (fun i => decide (i < n)) = List.range n := by
  intro m h
  obtain ⟨k, rfl⟩ := Nat.exists_eq_add_of_le h
  rw [List.range_add, List.filter_append, List.filter_eq_self.2 (by simp),
    List.filter_eq_nil_iff.2 (by simp), List.append_nil]

/-- A directory without a gap passes the check. -/
theorem segmentIds_of_lists {d : Dir} {files : List File} (h : d.Lists files) :
    segmentIds d = .ok (List.range files.length) := by
  have hids : ((List.range d.bound).filter fun id => (d.file id).isSome) =
      List.range files.length := by
    rw [← filter_lt_range files.length h.bound_le]
    refine List.filter_congr fun id _ => ?_
    rw [h id]
    by_cases hid : id < files.length
    · simp [hid]
    · simp [hid]
  have hcheck := checkNumbered_range' files.length 0
  rw [← List.range_eq_range'] at hcheck
  simp only [segmentIds, hids, hcheck]

/-- Only a directory without a gap passes the check. -/
theorem lists_of_segmentIds {d : Dir} {ids : List ℕ} (h : segmentIds d = .ok ids) :
    ∃ files, d.Lists files ∧ ids = List.range files.length := by
  simp only [segmentIds] at h
  split at h
  · exact absurd h (by simp)
  · rename_i hcheck
    obtain rfl := Except.ok.inj h
    set ids := (List.range d.bound).filter fun id => (d.file id).isSome with hids
    have hrange : ids = List.range ids.length := by
      rw [List.range_eq_range']
      exact eq_range'_of_checkNumbered hcheck
    have hmem : ∀ id, (d.file id).isSome = true ↔ id < ids.length := by
      intro id
      rw [← List.mem_range, ← hrange, hids, List.mem_filter, List.mem_range]
      refine ⟨fun hid => ⟨?_, hid⟩, And.right⟩
      by_contra hbound
      rw [d.file_eq_none id (Nat.not_lt.1 hbound)] at hid
      exact absurd hid (by simp)
    refine ⟨(List.range ids.length).map fun id => (d.file id).getD File.empty, fun id => ?_, ?_⟩
    · rw [List.getElem?_map]
      by_cases hid : id < ids.length
      · obtain ⟨f, hf⟩ := Option.isSome_iff_exists.1 ((hmem id).2 hid)
        simp [List.getElem?_range hid, hf]
      · have hnone : d.file id = none := by
          rw [← Option.not_isSome_iff_eq_none, hmem]
          exact hid
        rw [hnone, List.getElem?_eq_none (by simpa using hid), Option.map_none]
    · simpa using hrange

/-! ## Whole segments -/

/-- The files, numbered from some number on, consist of whole records: these. -/
inductive Segments (segmentSize : ℕ) : ℕ → List File → List StoredRecord → Prop
  | nil (id : ℕ) : Segments segmentSize id [] []
  | cons {id : ℕ} {f : File} {files : List File} {frames : List (Frame Record)}
      {records : List StoredRecord}
      (hframed : (segmentReader id segmentSize).Framed 0 f.bytes frames)
      (hrest : Segments segmentSize (id + 1) files records) :
      Segments segmentSize id (f :: files) (frames.map (storedAt id) ++ records)

namespace Segments

variable {segmentSize id : ℕ} {files : List File} {records : List StoredRecord} {d : Dir}

theorem append {files' : List File} {records' : List StoredRecord}
    (h : Segments segmentSize id files records)
    (h' : Segments segmentSize (id + files.length) files' records') :
    Segments segmentSize id (files ++ files') (records ++ records') := by
  induction h with
  | nil id => exact h'
  | cons hframed _ ih =>
    rw [List.append_assoc]
    refine .cons hframed (ih ?_)
    rwa [Nat.add_assoc, Nat.add_comm 1]

theorem push {f : File} {frames : List (Frame Record)} (h : Segments segmentSize id files records)
    (hframed : (segmentReader (id + files.length) segmentSize).Framed 0 f.bytes frames) :
    Segments segmentSize id (files ++ [f])
      (records ++ frames.map (storedAt (id + files.length))) := by
  have := h.append (.cons hframed (.nil _))
  rwa [List.append_nil] at this

/-- Only the bytes count. -/
theorem congr {files' : List File} (h : Segments segmentSize id files records)
    (hbytes : files.map File.bytes = files'.map File.bytes) :
    Segments segmentSize id files' records := by
  induction h generalizing files' with
  | nil id =>
    obtain rfl : files' = [] := by simpa using hbytes.symm
    exact .nil id
  | cons hframed _ ih =>
    obtain ⟨f', files', rfl⟩ : ∃ f rest, files' = f :: rest := by
      cases files' with
      | nil => simp at hbytes
      | cons f rest => exact ⟨f, rest, rfl⟩
    rw [List.map_cons, List.map_cons, List.cons.injEq] at hbytes
    refine .cons ?_ (ih hbytes.2)
    rw [← hbytes.1]
    exact hframed

/-- Every whole segment that is not the last is passed. -/
theorem recoverFrom_range' (h : Segments segmentSize id files records)
    (hd : d.HasFrom id files) {n : ℕ} :
    recoverFrom d segmentSize (List.range' id (files.length + (n + 1))) =
      recoverFrom d segmentSize (List.range' (id + files.length) (n + 1)) := by
  induction h with
  | nil id => simp
  | @cons id f files frames records hframed _ ih =>
    have hscan := hframed.scan_eq
    have hlength : (f :: files).length + (n + 1) = (files.length + (n + 1)) + 1 := by
      rw [List.length_cons]
      omega
    have hne : (List.range' (id + 1) (files.length + (n + 1))).isEmpty = false := by
      simp
    rw [hlength, List.range'_succ, recoverFrom]
    simp only [validLen, hd.head, hscan, hne, Bool.false_eq_true, if_false]
    rw [ih hd.tail, List.length_cons, Nat.add_assoc id 1, Nat.add_comm 1]

/-- The stream yields the records of whole segments, and goes on with those that follow. -/
theorem recordsFrom_range' (h : Segments segmentSize id files records)
    (hd : d.HasFrom id files) :
    recordsFrom d segmentSize (List.range' id files.length) = (records, none) := by
  induction h with
  | nil id => rfl
  | @cons id f files frames records hframed _ ih =>
    rw [List.length_cons, List.range'_succ, recordsFrom]
    simp only [hd.head, hframed.scan_eq, ih hd.tail]

end Segments

/-- The bytes of all files. -/
def totalBytes (files : List File) : ℕ := (files.map fun f => f.bytes.length).sum

theorem totalFrom_range' {d : Dir} {files : List File} : ∀ {id total : ℕ}, d.HasFrom id files →
    total < 2 ^ 64 → totalFrom d total (List.range' id files.length) =
      if total + totalBytes files < 2 ^ 64 then .ok (total + totalBytes files)
      else .error (.walFull u64Max u64Max) := by
  induction files with
  | nil =>
    intro id total _ htotal
    exact (if_pos htotal).symm
  | cons f files ih =>
    intro id total hd htotal
    have hsum : totalBytes (f :: files) = f.bytes.length + totalBytes files := rfl
    rw [hsum, List.length_cons, List.range'_succ, totalFrom]
    simp only [segmentLen, hd.head, checkedAdd]
    by_cases hadd : total + f.bytes.length < 2 ^ 64
    · simp only [if_pos hadd, ih hd.tail hadd, Nat.add_assoc]
    · have hnot : ¬total + (f.bytes.length + totalBytes files) < 2 ^ 64 := by omega
      simp only [if_neg hadd, if_neg hnot]

theorem totalLen_of_lists {d : Dir} {files : List File} (h : d.Lists files) :
    totalLen d = if totalBytes files < 2 ^ 64 then .ok (totalBytes files)
      else .error (.walFull u64Max u64Max) := by
  rw [totalLen, segmentIds_of_lists h, List.range_eq_range']
  have := @totalFrom_range' _ _ 0 0 h.hasFrom (by decide)
  rwa [Nat.zero_add] at this

/-! ## Recovery -/

section

variable {segmentSize : ℕ} {d : Dir}

/-- **Recovery of a directory whose last segment was cut**: every whole record stays, and what is
left of the next one is removed. -/
theorem recover_of_cut {closed : List File} {f : File} {full : List UInt8}
    {records : List StoredRecord} {frames : List (Frame Record)} {k : ℕ}
    (hd : d.Lists (closed ++ [f])) (hclosed : Segments segmentSize 0 closed records)
    (hfull : (segmentReader closed.length segmentSize).Framed 0 full frames)
    (hbytes : f.bytes = full.take k) (hk : k ≤ full.length) :
    ∃ n ≤ k, ∃ d' f', recover d segmentSize = (d', .ok (closed.length, n)) ∧
      d'.Lists (closed ++ [f']) ∧ f'.bytes = full.take n ∧
      (segmentReader closed.length segmentSize).Framed 0 f'.bytes
        (FrameReader.Framed.whole 0 k frames) := by
  obtain ⟨n, hn, hframed, hscan⟩ := hfull.scan_take hk
  have hfile : d.file closed.length = some f := by
    rw [hd]
    simp
  have hrecover : recover d segmentSize = recoverFrom d segmentSize [closed.length] := by
    have hpass := hclosed.recoverFrom_range' (d := d) hd.hasFrom.left (n := 0)
    simp only [recover, segmentIds_of_lists hd, List.length_append, List.length_singleton,
      List.range_eq_range', hpass]
    simp
  rw [hrecover, recoverFrom]
  simp only [validLen, hfile, hbytes, hscan, List.isEmpty_nil, if_true]
  by_cases hdone : n = k
  · subst hdone
    refine ⟨n, hn, d, f, by simp, hd, hbytes, ?_⟩
    rw [hbytes]
    exact hframed
  · have htake : (f.truncate n).bytes = full.take n := by
      rw [File.bytes_truncate, hbytes, List.take_take, Nat.min_eq_left hn]
    refine ⟨n, hn, d.update closed.length (·.truncate n), f.truncate n, by simp [hdone],
      hd.update_append _, htake, ?_⟩
    rw [htake]
    exact hframed

theorem recoverFrom_ok {files : List File} {a len : ℕ} {d' : Dir} : ∀ {id : ℕ}, d.HasFrom id files →
    recoverFrom d segmentSize (List.range' id files.length) = (d', .ok (a, len)) →
    ∃ closed f records frames, files = closed ++ [f] ∧ a = id + closed.length ∧
      Segments segmentSize id closed records ∧ len ≤ f.bytes.length ∧
      (segmentReader a segmentSize).Framed 0 (f.bytes.take len) frames ∧
      (d' = d ∧ len = f.bytes.length ∨ d' = d.update a (·.truncate len)) := by
  induction files with
  | nil =>
    intro id _ h
    simp [recoverFrom] at h
  | cons f files ih =>
    intro id hd h
    obtain ⟨n, hn, hoffset, hframed, hdone⟩ :=
      @FrameReader.Framed.of_scanFrom _ _ _ (segmentReader id segmentSize) _ 0 f.bytes
        (Nat.lt_succ_self f.bytes.length)
    rw [Nat.zero_add] at hoffset
    have hempty : (List.range' (id + 1) files.length).isEmpty = true ↔ files = [] := by
      rw [List.isEmpty_iff, List.range'_eq_nil_iff, List.length_eq_zero_iff]
    rw [List.length_cons, List.range'_succ, recoverFrom] at h
    cases hstop : ((segmentReader id segmentSize).scanFrom (f.bytes.length + 1) 0 f.bytes).stop with
    | failed e =>
      simp [validLen, hd.head, FrameReader.scan, hstop] at h
    | done =>
      simp only [validLen, hd.head, FrameReader.scan, hstop, hoffset] at h
      obtain rfl := hdone hstop
      split_ifs at h with hlast
      · obtain rfl := hempty.1 hlast
        simp only [Prod.mk.injEq, Except.ok.injEq] at h
        obtain ⟨rfl, rfl, rfl⟩ := h
        exact ⟨[], f, [], _, rfl, rfl, .nil id, Nat.le_refl _, hframed, .inl ⟨rfl, rfl⟩⟩
      · obtain ⟨closed, g, records, frames, rfl, rfl, hclosed, hrest⟩ := ih hd.tail h
        rw [List.take_length] at hframed
        refine ⟨f :: closed, g, _, frames, rfl, ?_, .cons hframed hclosed, hrest⟩
        rw [List.length_cons]
        omega
    | torn =>
      simp only [validLen, hd.head, FrameReader.scan, hstop, hoffset] at h
      split_ifs at h with hlast
      · obtain rfl := hempty.1 hlast
        simp only [Prod.mk.injEq, Except.ok.injEq] at h
        obtain ⟨rfl, rfl, rfl⟩ := h
        exact ⟨[], f, [], _, rfl, rfl, .nil id, hn, hframed, .inr rfl⟩
      · exact absurd h (by simp)

theorem recoverFrom_lists {files : List File} {a len : ℕ} {d' : Dir} (hd : d.Lists files)
    (h : recoverFrom d segmentSize (List.range files.length) = (d', .ok (a, len))) :
    ∃ closed f records frames, d'.Lists (closed ++ [f]) ∧ a = closed.length ∧
      Segments segmentSize 0 closed records ∧
      (segmentReader closed.length segmentSize).Framed 0 f.bytes frames ∧ len = f.bytes.length := by
  rw [List.range_eq_range'] at h
  obtain ⟨closed, f, records, frames, rfl, ha, hclosed, hle, hframed, hd'⟩ :=
    recoverFrom_ok hd.hasFrom h
  rw [Nat.zero_add] at ha
  subst ha
  rcases hd' with ⟨rfl, rfl⟩ | rfl
  · rw [List.take_length] at hframed
    exact ⟨closed, f, records, frames, hd, rfl, hclosed, hframed, rfl⟩
  · refine ⟨closed, f.truncate len, records, frames, hd.update_append _, rfl, hclosed, hframed, ?_⟩
    rw [File.bytes_truncate, List.length_take, Nat.min_eq_left hle]

/-- What recovery leaves: whole records, in every segment. -/
theorem recover_ok {a len : ℕ} {d' : Dir} (h : recover d segmentSize = (d', .ok (a, len))) :
    ∃ closed f records frames, d'.Lists (closed ++ [f]) ∧ a = closed.length ∧
      Segments segmentSize 0 closed records ∧
      (segmentReader closed.length segmentSize).Framed 0 f.bytes frames ∧ len = f.bytes.length := by
  unfold recover at h
  cases hids : segmentIds d with
  | error e => simp [hids] at h
  | ok ids =>
    obtain ⟨files, hd, rfl⟩ := lists_of_segmentIds hids
    simp only [hids] at h
    split_ifs at h with hempty
    · obtain rfl : files = [] := by simpa using hempty
      exact @recoverFrom_lists _ _ [File.empty] _ _ _ hd.push h
    · exact recoverFrom_lists hd h

end

end Cloud9
