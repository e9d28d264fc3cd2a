import Cloud9.Wal.Wal

/-!
# Recovery after a crash

Records are appended to an empty directory, and a crash leaves some first bytes of the highest
segment. Opening the directory again finds exactly the records that are whole, removes what is left
of the next one, and goes on from there (`recovery_exact`).
-/

namespace Cloud9

/-- Where the bytes of a record end. -/
def StoredRecord.stop (s : StoredRecord) : ℕ :=
  s.lsn.offset + (headerLen + s.record.payload.length)

section

variable {id segmentSize offset : ℕ} {bytes : List UInt8} {frames : List (Frame Record)}

theorem size_eq (h : (segmentReader id segmentSize).Framed offset bytes frames) :
    ∀ f ∈ frames, f.size = headerLen + f.record.payload.length := by
  induction h with
  | nil => simp
  | @cons offset size bytes record frames hread _ ih =>
    rw [List.forall_mem_cons]
    refine ⟨?_, ih⟩
    obtain ⟨n, hsize, hlen, -, hpayload, -⟩ := readHead_frame.1 hread
    have hlength : record.payload.length = n := by
      rw [hpayload, List.length_take, List.length_drop]
      omega
    rw [hlength]
    exact hsize

theorem stop_storedAt (h : (segmentReader id segmentSize).Framed offset bytes frames)
    {f : Frame Record} (hf : f ∈ frames) : (storedAt id f).stop = f.stop := by
  rw [StoredRecord.stop, Frame.stop, size_eq h f hf]
  rfl

end

theorem Segments.segmentId_lt {segmentSize id : ℕ} {files : List File}
    {records : List StoredRecord} (h : Segments segmentSize id files records) :
    ∀ s ∈ records, s.lsn.segmentId < id + files.length := by
  induction h with
  | nil => simp
  | @cons id f files frames records _ _ ih =>
    intro s hs
    rw [List.length_cons]
    rcases List.mem_append.1 hs with hs | hs
    · obtain ⟨f, -, rfl⟩ := List.mem_map.1 hs
      show id < _
      omega
    · have := ih s hs
      omega

theorem takeWhile_congr {α : Type*} {p q : α → Bool} {as : List α} (h : ∀ a ∈ as, p a = q a) :
    as.takeWhile p = as.takeWhile q := by
  induction as with
  | nil => rfl
  | cons a as ih =>
    rw [List.forall_mem_cons] at h
    rw [List.takeWhile_cons, List.takeWhile_cons, h.1, ih h.2]

namespace Wal

variable {w : Wal} {l : Layout} {options : WalOptions}

/-- The files of a healthy handle are whole records: those of the layout. -/
theorem Laid.segments_files (h : w.Laid l) (hp : w.poisoned = false) :
    Segments w.segmentSize 0 l.files l.stored := by
  have hactive : (segmentReader (0 + l.closed.length) w.segmentSize).Framed 0 l.active.bytes
      l.frames := by
    rw [Nat.zero_add, h.whole hp]
    exact h.framed
  have hpush := h.segments.push hactive
  rcases h.next with hnext | ⟨hnext, -, -⟩
  · simpa [Layout.files, Layout.stored, hnext] using hpush
  · have hempty : (segmentReader (0 + (l.closed ++ [l.active]).length) w.segmentSize).Framed 0
        File.empty.bytes [] := .nil 0
    simpa [Layout.files, Layout.stored, hnext] using hpush.push hempty

/-- A healthy handle streams the records of the layout. -/
theorem Laid.records_eq (h : w.Laid l) (hp : w.poisoned = false) :
    w.records = .ok (l.stored, none) := by
  have hstream := (h.segments_files hp).recordsFrom_range' h.lists.hasFrom
  rw [← List.range_eq_range'] at hstream
  simp only [records, hp, segmentIds_of_lists h.lists, hstream, Bool.false_eq_true, if_false]

section

variable {d d' : Dir} {closed : List File} {f : File} {records : List StoredRecord}
  {frames : List (Frame Record)}

/-- Opening, once recovery has left whole records. -/
theorem open_of_recover (hvalid : validateOptions options = .ok ())
    (hrecover : recover d options.segmentSize.toNat = (d', .ok (closed.length, f.bytes.length)))
    (hd' : d'.Lists (closed ++ [f]))
    (hclosed : Segments options.segmentSize.toNat 0 closed records)
    (hframed : (segmentReader closed.length options.segmentSize.toNat).Framed 0 f.bytes frames)
    (htotal : totalBytes (closed ++ [f]) ≤ options.maxSize.toNat) :
    ∃ w, Wal.open d options = (w.dir, .ok w) ∧ w.options = options ∧ w.poisoned = false ∧
      w.Laid ⟨closed, f, [], records, f.bytes, frames⟩ := by
  have htotalLen : Cloud9.totalLen d' = .ok (totalBytes (closed ++ [f])) := by
    rw [totalLen_of_lists hd', if_pos (Nat.lt_of_le_of_lt htotal (UInt64.toNat_lt _))]
  refine ⟨⟨d', options, closed.length, f.bytes.length, totalBytes (closed ++ [f]), false⟩, ?_, rfl,
    rfl, hd', rfl, hclosed, hframed, List.prefix_rfl, htotal, fun _ => rfl, fun _ => rfl,
    fun _ => rfl, .inl rfl⟩
  simp only [Wal.open, hvalid, hrecover, htotalLen, if_neg (Nat.not_lt.2 htotal)]

/-- **Opening a directory whose last segment was cut.** -/
theorem open_of_cut {full : List UInt8} {k : ℕ} (hvalid : validateOptions options = .ok ())
    (hd : d.Lists (closed ++ [f]))
    (hclosed : Segments options.segmentSize.toNat 0 closed records)
    (hfull : (segmentReader closed.length options.segmentSize.toNat).Framed 0 full frames)
    (hbytes : f.bytes = full.take k) (hk : k ≤ full.length)
    (htotal : totalBytes (closed ++ [f]) ≤ options.maxSize.toNat) :
    ∃ w f', Wal.open d options = (w.dir, .ok w) ∧ w.options = options ∧ w.poisoned = false ∧
      f'.bytes <+: f.bytes ∧
      w.Laid ⟨closed, f', [], records, f'.bytes, FrameReader.Framed.whole 0 k frames⟩ := by
  obtain ⟨n, hn, d', f', hrecover, hd', hbytes', hframed⟩ :=
    recover_of_cut hd hclosed hfull hbytes hk
  have hcut : f'.bytes <+: f.bytes := by
    rw [hbytes, hbytes']
    exact List.take_prefix_take_left hn
  have hlength : f'.bytes.length = n := by
    rw [hbytes', List.length_take]
    omega
  have htotal' : totalBytes (closed ++ [f']) ≤ options.maxSize.toNat := by
    refine Nat.le_trans ?_ htotal
    have hlen := hcut.length_le
    rw [totalBytes_append, totalBytes_append, totalBytes_cons, totalBytes_cons]
    omega
  rw [← hlength] at hrecover
  obtain ⟨w, hopen, hoptions, hp, hlaid⟩ :=
    open_of_recover hvalid hrecover hd' hclosed hframed htotal'
  exact ⟨w, f', hopen, hoptions, hp, hcut, hlaid⟩

end

theorem open_options {d d' : Dir} {w : Wal} (h : Wal.open d options = (d', .ok w)) :
    w.options = options := by
  unfold Wal.open at h
  split at h
  · cases h
  · split at h
    · cases h
    · split at h
      · cases h
      · split_ifs at h
        · cases h
        · cases h
          rfl

/-- Opening after the active segment was cut. -/
theorem Laid.open_truncated (h : w.Laid l) (hp : w.poisoned = false) (hnext : l.next = [])
    (hvalid : validateOptions options = .ok ()) (hoptions : w.options = options) (k : ℕ) :
    ∃ w' f', Wal.open (w.dir.update w.activeId (·.truncate k)) options = (w'.dir, .ok w') ∧
      w'.poisoned = false ∧ f'.bytes <+: l.active.bytes ∧
      w'.Laid ⟨l.closed, f', [], l.records, f'.bytes, FrameReader.Framed.whole 0 k l.frames⟩ := by
  subst hoptions
  have hlists := h.lists
  rw [Layout.files, hnext] at hlists
  have htake : (l.active.truncate k).bytes = l.full.take (min k l.full.length) := by
    rw [File.bytes_truncate, h.whole hp, List.take_eq_take_min]
  have htotal : totalBytes (l.closed ++ [l.active.truncate k]) ≤ w.maxSize := by
    refine Nat.le_trans ?_ h.total
    rw [Layout.files, hnext, totalBytes_append, totalBytes_append, totalBytes_cons, totalBytes_cons,
      File.bytes_truncate, List.length_take]
    omega
  obtain ⟨w', f', hopen, -, hp', hcut, hlaid⟩ := open_of_cut hvalid
    (hlists.update_append (·.truncate k)) h.segments h.framed htake (Nat.min_le_right _ _) htotal
  rw [h.framed.whole_min] at hlaid
  rw [h.activeId]
  exact ⟨w', f', hopen, hp', hcut.trans <| List.take_prefix k _, hlaid⟩

theorem open_empty (hvalid : validateOptions options = .ok ()) :
    ∃ w, Wal.open Dir.empty options = (w.dir, .ok w) ∧ w.options = options ∧ w.poisoned = false ∧
      w.Laid ⟨[], File.empty, [], [], [], []⟩ :=
  @open_of_recover _ _ _ [] File.empty _ _ hvalid rfl Dir.lists_empty.push (.nil 0) (.nil 0)
    (Nat.zero_le _)

/-! ## Runs of appends -/

/-- Append records one after the other, without an error of the file system. -/
def appendAll (w : Wal) : List Record → Except WalError (List StoredRecord × Wal)
  | [] => .ok ([], w)
  | r :: rs => match w.append {} r.kind r.payload with
    | (.error e, _) => .error e
    | (.ok lsn, w) => match w.appendAll rs with
      | .error e => .error e
      | .ok (stored, w) => .ok (⟨lsn, r⟩ :: stored, w)

/-- What was appended is what the layout holds. -/
theorem appendAll_laid {rs : List Record} :
    ∀ {w w' : Wal} {l : Layout} {stored : List StoredRecord},
    w.Laid l → w.poisoned = false → l.next = [] → w.appendAll rs = .ok (stored, w') →
    ∃ l', w'.Laid l' ∧ w'.options = w.options ∧ w'.poisoned = false ∧ l'.next = [] ∧ l.Grows l' ∧
      l'.stored = l.stored ++ stored := by
  induction rs with
  | nil =>
    intro w w' l stored h hp hnext hrun
    cases hrun
    exact ⟨l, h, rfl, hp, hnext, .refl l, by rw [List.append_nil]⟩
  | cons r rs ih =>
    intro w w' l stored h hp hnext hrun
    obtain ⟨l₁, happend⟩ := append_laid h {} r.kind (h.clear hnext r.payload)
    rw [appendAll] at hrun
    generalize w.append {} r.kind r.payload = result at happend hrun
    obtain ⟨e | lsn, w₁⟩ := result
    · exact absurd hrun (by simp)
    · simp only at hrun
      cases hrest : w₁.appendAll rs with
      | error e => simp [hrest] at hrun
      | ok out =>
        obtain ⟨rest, w₂⟩ := out
        simp only [hrest, Except.ok.injEq, Prod.mk.injEq] at hrun
        obtain ⟨rfl, rfl⟩ := hrun
        obtain ⟨l₂, hlaid, hoptions, hp', hnext', hgrows, hstored⟩ :=
          ih happend.laid (happend.healthy rfl) (happend.next rfl) hrest
        refine ⟨l₂, hlaid, hoptions.trans happend.options, hp', hnext',
          happend.grows.trans hgrows, ?_⟩
        rw [hstored, (happend.added rfl).stored_eq, List.append_assoc]
        rfl

/-- The place after some records. -/
def endLsn (stored : List StoredRecord) : Lsn :=
  match stored.getLast? with
  | none => ⟨0, 0⟩
  | some s => ⟨s.lsn.segmentId, s.stop⟩

/-- A record goes right after the last one, or to the start of the next segment. -/
theorem Laid.append_place (h : w.Laid l) (hp : w.poisoned = false) (hdense : l.Dense)
    (hnext : l.next = []) {faults : AppendFaults} {kind : RecordKind} {payload : List UInt8}
    {lsn : Lsn} (hlsn : (w.append faults kind payload).1 = .ok lsn) :
    lsn = endLsn l.stored ∨ ∃ s, l.stored.getLast? = some s ∧ lsn = ⟨s.lsn.segmentId + 1, 0⟩ := by
  obtain ⟨l', happend⟩ := append_laid h faults kind (h.clear hnext payload)
  have hplace := happend.place hlsn
  rw [h.activeId, h.activeLen hp] at hplace
  have hlength := h.framed.length_eq
  rw [Nat.zero_add] at hlength
  rcases List.eq_nil_or_concat l.frames with hnil | ⟨frames, last, hframes⟩
  · -- the active segment is empty
    have hfull : l.full.length = 0 := by rw [hlength, hnil]; rfl
    have hstored : l.stored = l.records := by simp [Layout.stored, hnil]
    rw [hfull] at hplace
    obtain rfl : lsn = ⟨l.closed.length, 0⟩ := by simpa using hplace
    rw [hstored]
    by_cases hclosed : l.closed = []
    · have hrecords : l.records = [] := by
        refine List.eq_nil_iff_forall_not_mem.2 fun s hs => ?_
        have := h.segments.segmentId_lt s hs
        simp [hclosed] at this
      left
      rw [hrecords, hclosed]
      rfl
    · obtain ⟨s, hs, hid⟩ := hdense hclosed
      exact .inr ⟨s, hs, by rw [hid]⟩
  · have hstored : l.stored.getLast? = some (storedAt l.closed.length last) := by
      simp [Layout.stored, hframes]
    have hstop : (storedAt l.closed.length last).stop = l.full.length := by
      rw [stop_storedAt h.framed (by simp [hframes]), hlength, hframes]
      simp
    rcases hplace with rfl | ⟨-, rfl⟩
    · left
      simp only [endLsn, hstored, hstop]
      rfl
    · exact .inr ⟨_, hstored, rfl⟩

/-- The records that survive whole when the segment `id`, the highest, is cut to `k` bytes. -/
def surviving (id k : ℕ) (stored : List StoredRecord) : List StoredRecord :=
  stored.takeWhile fun s => decide (s.lsn.segmentId < id ∨ s.stop ≤ k)

/-- The whole frames of the cut segment are its surviving records. -/
theorem Laid.surviving_eq (h : w.Laid l) (k : ℕ) :
    surviving l.closed.length k l.stored =
      l.records ++ (FrameReader.Framed.whole 0 k l.frames).map (storedAt l.closed.length) := by
  have hclosed : ∀ s ∈ l.records,
      decide (s.lsn.segmentId < l.closed.length ∨ s.stop ≤ k) = true := by
    intro s hs
    have := h.segments.segmentId_lt s hs
    simp at this
    simp [this]
  have hframes : (l.frames.map (storedAt l.closed.length)).takeWhile
        (fun s => decide (s.lsn.segmentId < l.closed.length ∨ s.stop ≤ k)) =
      (FrameReader.Framed.whole 0 k l.frames).map (storedAt l.closed.length) := by
    rw [List.takeWhile_map, FrameReader.Framed.whole]
    refine congrArg _ (takeWhile_congr fun f hf => ?_)
    simp only [Function.comp_apply, stop_storedAt h.framed hf, Nat.zero_add]
    simp [storedAt]
  rw [surviving, Layout.stored, List.takeWhile_append_of_pos hclosed, hframes]

end Wal

/-- The segment with the highest number. -/
def Dir.Highest (d : Dir) (id : ℕ) : Prop :=
  (d.file id).isSome = true ∧ ∀ j, id < j → d.file j = none

theorem Wal.Laid.eq_of_highest {w : Wal} {l : Layout} {id : ℕ} (h : w.Laid l) (hnext : l.next = [])
    (hid : w.dir.Highest id) : id = l.closed.length := by
  have hlists := h.lists
  rw [Layout.files, hnext] at hlists
  have hlt : id < l.closed.length + 1 := by
    have := hid.1
    rw [hlists] at this
    simpa using this
  by_contra hne
  have hnone := hid.2 l.closed.length (by omega)
  rw [hlists] at hnone
  simp at hnone

/-- The length of what the surviving records leave of a segment: the end of the last of them. -/
def survivingLen (id : ℕ) (stored : List StoredRecord) : ℕ :=
  ((stored.filter fun s => s.lsn.segmentId == id).getLast?.map StoredRecord.stop).getD 0

theorem Wal.Laid.survivingLen_eq {w : Wal} {l : Layout} (h : w.Laid l) :
    survivingLen l.closed.length l.stored = l.full.length := by
  have hrecords : l.records.filter (fun s => s.lsn.segmentId == l.closed.length) = [] := by
    refine List.filter_eq_nil_iff.2 fun s hs => ?_
    have := h.segments.segmentId_lt s hs
    simp
    omega
  have hframes : (l.frames.map (storedAt l.closed.length)).filter
      (fun s => s.lsn.segmentId == l.closed.length) = l.frames.map (storedAt l.closed.length) := by
    refine List.filter_eq_self.2 fun s hs => ?_
    obtain ⟨f, -, rfl⟩ := List.mem_map.1 hs
    simp [storedAt]
  have hlength := h.framed.length_eq
  rw [Nat.zero_add] at hlength
  rw [survivingLen, Layout.stored, List.filter_append, hrecords, hframes, List.nil_append, hlength,
    List.getLast?_map]
  cases hlast : l.frames.getLast? with
  | none => rfl
  | some f => exact stop_storedAt h.framed (List.mem_of_getLast? hlast)

/-- **Recovery keeps exactly the whole records.** Whatever is left of the highest segment, opening
succeeds, the records are those that survive whole, what is left of the next one is removed, and
appending goes on after the last survivor or at the start of the next segment. -/
theorem recovery_exact {options : WalOptions} (hvalid : validateOptions options = .ok ())
    {w₀ w : Wal} (hopen : Wal.open Dir.empty options = (w₀.dir, .ok w₀)) {rs : List Record}
    {stored : List StoredRecord} (hrun : w₀.appendAll rs = .ok (stored, w)) {id : ℕ}
    (hid : w.dir.Highest id) {f : File} (hf : w.dir.file id = some f) (k : ℕ) :
    ∃ w' f', Wal.open (w.dir.update id (·.truncate k)) options = (w'.dir, .ok w') ∧
      w'.records = .ok (Wal.surviving id k stored, none) ∧
      w'.dir.file id = some f' ∧
      f'.bytes = f.bytes.take (survivingLen id (Wal.surviving id k stored)) ∧
      (∀ j, j ≠ id → w'.dir.file j = w.dir.file j) ∧
      ∀ {kind payload lsn}, (w'.append {} kind payload).1 = .ok lsn →
        lsn = Wal.endLsn (Wal.surviving id k stored) ∨
          ∃ s, (Wal.surviving id k stored).getLast? = some s ∧ lsn = ⟨s.lsn.segmentId + 1, 0⟩ := by
  obtain ⟨w₀', hopen', hoptions₀, hp₀, hlaid₀⟩ := Wal.open_empty hvalid
  obtain rfl : w₀ = w₀' := by
    rw [hopen] at hopen'
    exact Except.ok.inj (Prod.mk.inj hopen').2
  obtain ⟨l, hlaid, hoptions, hp, hnext, hgrows, hstored⟩ :=
    Wal.appendAll_laid hlaid₀ hp₀ rfl hrun
  obtain rfl := hlaid.eq_of_highest hnext hid
  have hstored' : l.stored = stored := hstored
  have hlists := hlaid.lists
  rw [Layout.files, hnext] at hlists
  obtain rfl : f = l.active := by
    rw [hlists] at hf
    simpa [eq_comm] using hf
  obtain ⟨w', f', hopen', hp', hcut, hlaid'⟩ :=
    hlaid.open_truncated hp hnext hvalid (hoptions.trans hoptions₀) k
  rw [hlaid.activeId] at hopen'
  set l' : Layout := ⟨l.closed, f', [], l.records, f'.bytes, FrameReader.Framed.whole 0 k l.frames⟩
  have hsurviving : Wal.surviving l.closed.length k stored = l'.stored := by
    rw [← hstored', hlaid.surviving_eq]
    rfl
  have hdense : l'.Dense := hgrows.dense fun hne => absurd rfl hne
  refine ⟨w', f', hopen', ?_, ?_, ?_, ?_, ?_⟩
  · rw [hsurviving]
    exact hlaid'.records_eq hp'
  · rw [hlaid'.lists]
    simp [Layout.files, l']
  · rw [hsurviving, hlaid'.survivingLen_eq, ← List.prefix_iff_eq_take]
    exact hcut
  · intro j hj
    have hfiles : l'.files = l.closed ++ [f'] := rfl
    rw [hlaid'.lists, hlists, hfiles]
    rcases Nat.lt_or_gt_of_ne hj with hlt | hgt
    · rw [List.getElem?_append_left hlt, List.getElem?_append_left hlt]
    · have hlength : ∀ g : File, (l.closed ++ [g]).length ≤ j := by
        intro g
        rw [List.length_append, List.length_singleton]
        omega
      rw [List.getElem?_eq_none (hlength _), List.getElem?_eq_none (hlength _)]
  · intro kind payload lsn hlsn
    rw [hsurviving]
    exact hlaid'.append_place hp' hdense rfl hlsn

def anyKind : RecordKind := ⟨1, by decide, by decide⟩

/-- Two records of which only one fits a segment. -/
def rotatingPair : List Record := [⟨anyKind, [1, 2, 3]⟩, ⟨⟨2, by decide, by decide⟩, [4]⟩]

def smallOptions : WalOptions := { segmentSize := 40, maxSize := 200 }

/-- The handle on an empty directory. -/
def smallWal : Wal := ⟨Dir.empty.set 0 File.empty, smallOptions, 0, 0, 0, false⟩

theorem recovery_exact_rotated :
    ∃ stored w, smallWal.appendAll rotatingPair = .ok (stored, w) ∧
      stored.map (·.lsn) = [⟨0, 0⟩, ⟨1, 0⟩] ∧
      ∃ w', Wal.open (w.dir.update 1 (·.truncate 32)) smallOptions = (w'.dir, .ok w') ∧
        w'.records = .ok (stored.take 1, none) := by
  have hlsn : (smallWal.appendAll rotatingPair).toOption.map (fun out => out.1.map (·.lsn)) =
      some [⟨0, 0⟩, ⟨1, 0⟩] := by
    decide +kernel
  have hsurviving : (smallWal.appendAll rotatingPair).toOption.map
      (fun out => decide (Wal.surviving 1 32 out.1 = out.1.take 1)) = some true := by
    decide +kernel
  have hdir : (smallWal.appendAll rotatingPair).toOption.map
      (fun out => ((out.2.dir.file 1).isSome, out.2.dir.bound)) = some (true, 2) := by
    decide +kernel
  cases hrun : smallWal.appendAll rotatingPair with
  | error e => simp [hrun, Except.toOption] at hlsn
  | ok out =>
    obtain ⟨stored, w⟩ := out
    simp only [hrun, Except.toOption, Option.map_some, Option.some.injEq, Prod.mk.injEq,
      decide_eq_true_eq] at hlsn hsurviving hdir
    obtain ⟨f, hf⟩ := Option.isSome_iff_exists.1 hdir.1
    have hid : w.dir.Highest 1 := ⟨hdir.1, fun j hj => w.dir.file_eq_none j (by omega)⟩
    obtain ⟨w', f', hopen, hrecords, -⟩ :=
      @recovery_exact smallOptions rfl smallWal w rfl _ _ hrun 1 hid f hf 32
    rw [hsurviving] at hrecords
    exact ⟨stored, w, rfl, hlsn, w', hopen, hrecords⟩

end Cloud9
