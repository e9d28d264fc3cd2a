import Cloud9.Lib.Run
import Cloud9.Wal.Recovery

/-!
# Failed calls and crashes

A handle is used as long as the caller likes, while any file-system call may fail, and then a crash
cuts the segment last written to some bytes that include those of its last successful sync.

A rotation that fails after the next segment was created leaves the handle healthy and on the old
segment. If a smaller record is then written there and torn by the crash, the torn record is not in
the last segment, and opening fails (`torn_behind_rotation`). If no record is written to a segment
while the next one exists, opening succeeds and every record that was followed by a successful sync
is there (`faulty_run_recovers`).
-/

namespace Cloud9

/-- A call of the caller, with the file-system calls that fail. -/
inductive WalCall where
  | append (faults : AppendFaults) (kind : RecordKind) (payload : List UInt8)
  | sync (fails : Bool)

/-- A handle, the records whose append has returned `Ok`, and those of them before a later
successful sync. With `sync_on_append` an append that returns `Ok` has synced its record. -/
structure Session where
  wal : Wal
  acked : List StoredRecord
  durable : List StoredRecord

namespace Session

def step (s : Session) : WalCall → Session
  | .append faults kind payload => match s.wal.append faults kind payload with
    | (.error _, wal) => { s with wal }
    | (.ok lsn, wal) =>
      let acked := s.acked ++ [⟨lsn, ⟨kind, payload⟩⟩]
      ⟨wal, acked, if s.wal.options.syncOnAppend then acked else s.durable⟩
  | .sync fails => match s.wal.sync fails with
    | (.error _, wal) => { s with wal }
    | (.ok (), wal) => ⟨wal, s.acked, s.acked⟩

/-- No record is written while the segment after the active one exists. -/
def clear (s : Session) : WalCall → Bool
  | .append _ _ payload => s.wal.clear payload
  | .sync _ => true

def run (ok : Session → WalCall → Bool) (s : Session) (calls : List WalCall) : Option Session :=
  runWhile (fun s call => some (s.step call)) ok s calls

/-- The records that a successful sync of their segment has covered, whichever call made it. -/
def covered (s : Session) : List StoredRecord :=
  s.acked.filter fun r => match s.wal.dir.file r.lsn.segmentId with
    | some f => decide (r.stop ≤ f.synced)
    | none => false

/-- What holds between calls. -/
structure Inv (options : WalOptions) (base : ℕ) (s : Session) : Prop where
  options : s.wal.options = options
  layout : ∃ l, s.wal.Laid l ∧ l.Settled base ∧ s.acked.Sublist l.stored ∧
    s.durable.Sublist l.synced

theorem covered_sublist {s : Session} {l : Layout} (h : s.wal.Laid l)
    (hacked : s.acked.Sublist l.stored) : s.covered.Sublist l.synced := by
  refine (hacked.filter _).trans ?_
  rw [Layout.stored, List.filter_append, Layout.synced, List.filter_map]
  refine List.filter_sublist.append (List.Sublist.map _ ?_)
  have hactive : s.wal.dir.file l.closed.length = some l.active := by
    rw [h.lists, Layout.files]
    simp
  rw [List.filter_congr fun f hf => ?_]
  simp only [Function.comp_apply, stop_storedAt h.framed hf]
  simp only [storedAt, hactive]

theorem step_inv {options : WalOptions} {base : ℕ} {s : Session} {call : WalCall}
    (h : s.Inv options base) (hclear : s.clear call = true) : (s.step call).Inv options base := by
  obtain ⟨hoptions, l, hlaid, hsettled, hacked, hdurable⟩ := h
  cases call with
  | append faults kind payload =>
    obtain ⟨l', happend⟩ := Wal.append_laid hlaid faults kind hclear
    simp only [step]
    generalize s.wal.append faults kind payload = r at happend ⊢
    have hacked' := hacked.trans happend.grows.stored.sublist
    have hdurable' := hdurable.trans happend.grows.synced
    have hoptions' := happend.options.trans hoptions
    have hsettled' := happend.grows.settled hsettled
    obtain ⟨e | lsn, w⟩ := r
    · exact ⟨hoptions', l', happend.laid, hsettled', hacked', hdurable'⟩
    · have hnew : (s.acked ++ [(⟨lsn, ⟨kind, payload⟩⟩ : StoredRecord)]).Sublist l'.stored := by
        rw [(happend.added rfl).stored_eq]
        exact hacked.append (List.Sublist.refl _)
      refine ⟨hoptions', l', happend.laid, hsettled', hnew, ?_⟩
      split_ifs with hsync
      · rw [happend.durable rfl hsync]
        exact hnew
      · exact hdurable'
  | sync fails =>
    simp only [step]
    cases hp : s.wal.poisoned with
    | true =>
      simp only [Wal.sync, hp, if_true]
      exact ⟨hoptions, l, hlaid, hsettled, hacked, hdurable⟩
    | false =>
      rw [Wal.sync_healthy hp]
      cases fails with
      | true => exact ⟨hoptions, l, hlaid.poison, hsettled, hacked, hdurable⟩
      | false =>
        have hsynced := hlaid.sync.synced_eq (congrArg List.length (hlaid.whole hp))
        refine ⟨hoptions, _, hlaid.sync, hsettled, hacked, ?_⟩
        rw [hsynced]
        exact hacked

end Session

/-! ## The crash -/

section

variable {w : Wal} {l : Layout} {options : WalOptions} {d : Dir}

theorem totalBytes_map (files : List File) :
    totalBytes files = ((files.map File.bytes).map List.length).sum := by
  simp [totalBytes, Function.comp_def]

/-- What a crash leaves opens, as long as the files are the same up to a cut of the active segment
that spares the synced bytes. -/
theorem Wal.Laid.open_cut (h : w.Laid l) (hvalid : validateOptions options = .ok ())
    (hoptions : w.options = options) {closed next : List File} {active : File} {k : ℕ}
    (hd : d.Lists (closed ++ active :: next))
    (hclosed : closed.map File.bytes = l.closed.map File.bytes)
    (hactive : active.bytes = l.active.bytes.take k) (hk : l.active.synced ≤ k)
    (hnext : next.map File.bytes = l.next.map File.bytes) :
    ∃ w' records, Wal.open d options = (w'.dir, .ok w') ∧ w'.records = .ok (records, none) ∧
      l.synced.Sublist records := by
  subst hoptions
  have hlength : closed.length = l.closed.length := by
    simpa using congrArg List.length hclosed
  have hsegments : Segments w.segmentSize 0 closed l.records := h.segments.congr hclosed.symm
  have hle : active.bytes.length ≤ l.active.bytes.length := by
    rw [hactive, List.length_take]
    omega
  have htotal : totalBytes (closed ++ active :: next) ≤ w.maxSize := by
    refine Nat.le_trans ?_ h.total
    rw [Layout.files, totalBytes_append, totalBytes_append, totalBytes_cons, totalBytes_cons,
      totalBytes_map closed, totalBytes_map next, hclosed, hnext, ← totalBytes_map,
      ← totalBytes_map]
    omega
  rcases h.next with hnil | ⟨hempty, hwhole, hsynced⟩
  · -- the active segment is the last one
    obtain rfl : next = [] := by simpa [hnil] using hnext
    have hbytes : active.bytes = l.full.take (min k l.active.bytes.length) := by
      rw [hactive, ← List.take_take, ← List.prefix_iff_eq_take.1 h.cut]
    have hframed := h.framed
    rw [← hlength] at hframed
    obtain ⟨w', f', hopen, -, hp, -, hlaid⟩ := Wal.open_of_cut hvalid hd hsegments hframed hbytes
      (Nat.le_trans (Nat.min_le_right _ _) h.cut.length_le) htotal
    refine ⟨w', _, hopen, hlaid.records_eq hp, ?_⟩
    rw [Layout.synced, Layout.stored, ← hlength]
    refine (List.Sublist.refl _).append (List.Sublist.map _ ?_)
    refine h.framed.filter_sublist_takeWhile ?_
    have := l.active.synced_le
    omega
  · -- the segment that a failed rotation has left is the last one
    obtain ⟨f, rfl, hf⟩ : ∃ f, next = [f] ∧ f.bytes = [] := by
      rw [hempty] at hnext
      cases next with
      | nil => simp at hnext
      | cons f rest => exact ⟨f, by simpa using (List.cons.inj hnext).2, (List.cons.inj hnext).1⟩
    have hbytes : active.bytes = l.full := by
      rw [hactive, hwhole, List.take_of_length_le (by omega)]
    have hpush : Segments w.segmentSize 0 (closed ++ [active]) l.stored := by
      have hframed : (segmentReader (0 + closed.length) w.segmentSize).Framed 0 active.bytes
          l.frames := by
        rw [Nat.zero_add, hlength, hbytes]
        exact h.framed
      have := hsegments.push hframed
      rwa [Nat.zero_add, hlength] at this
    have hd' : d.Lists ((closed ++ [active]) ++ [f]) := by
      simpa using hd
    have htotal' : totalBytes ((closed ++ [active]) ++ [f]) ≤ w.maxSize := by
      simpa using htotal
    obtain ⟨w', f', hopen, -, hp, -, hlaid⟩ :=
      @Wal.open_of_cut _ _ _ _ _ [] [] 0 hvalid hd' hpush (.nil 0) hf (Nat.le_refl 0) htotal'
    refine ⟨w', _, hopen, hlaid.records_eq hp, ?_⟩
    simpa [Layout.stored, FrameReader.Framed.whole] using l.synced_sublist_stored

/-- A handle that was opened has a layout, whatever the directory was. -/
theorem Wal.laid_of_open {d' : Dir} (hopen : Wal.open d options = (d', .ok w)) :
    ∃ l, w.Laid l ∧ w.options = options ∧ validateOptions options = .ok () := by
  unfold Wal.open at hopen
  cases hvalid : validateOptions options with
  | error e => simp [hvalid] at hopen
  | ok u =>
    simp only [hvalid] at hopen
    obtain ⟨d₁, r, hrecover⟩ : ∃ d₁ r, recover d options.segmentSize.toNat = (d₁, r) := ⟨_, _, rfl⟩
    simp only [hrecover] at hopen
    cases r with
    | error e => simp at hopen
    | ok place =>
      obtain ⟨activeId, activeLen⟩ := place
      obtain ⟨closed, f, records, frames, hd, rfl, hsegments, hframed, rfl⟩ := recover_ok hrecover
      simp only [totalLen_of_lists hd] at hopen
      split_ifs at hopen with hlt
      · simp only at hopen
        split_ifs at hopen with hfull
        · exact absurd hopen (by simp)
        · cases hopen
          exact ⟨⟨closed, f, [], records, f.bytes, frames⟩, ⟨hd, rfl, hsegments, hframed,
            List.prefix_rfl, Nat.not_lt.1 hfull, fun _ => rfl, fun _ => rfl, fun _ => rfl,
            .inl rfl⟩, rfl, rfl⟩
      · exact absurd hopen (by simp)

/-- A file that is cut after its end stays as it is. -/
theorem map_bytes_set_truncate {files : List File} {id k : ℕ} {f : File} (hf : files[id]? = some f)
    (hk : f.bytes.length ≤ k) :
    (files.set id (f.truncate k)).map File.bytes = files.map File.bytes := by
  obtain ⟨hid, rfl⟩ := List.getElem?_eq_some_iff.1 hf
  rw [List.map_set, File.bytes_truncate, List.take_of_length_le hk]
  have hid' : id < (files.map File.bytes).length := by simpa using hid
  rw [← List.getElem_map File.bytes (h := hid'), List.set_getElem_self]

/-- A crash that cuts one of the segments that are not older than the handle, and leaves what its
last sync has covered. -/
theorem Wal.Laid.open_crash (h : w.Laid l) (hvalid : validateOptions options = .ok ())
    (hoptions : w.options = options) {base id k : ℕ} {f : File} (hsettled : l.Settled base)
    (hbase : base ≤ id) (hf : w.dir.file id = some f) (hk : f.synced ≤ k) :
    ∃ w' records, Wal.open (w.dir.update id (·.truncate k)) options = (w'.dir, .ok w') ∧
      w'.records = .ok (records, none) ∧ l.synced.Sublist records := by
  rw [h.lists, Layout.files] at hf
  have hd := h.lists.update (g := (·.truncate k)) hf
  rw [Layout.files] at hd
  have hactive : l.active.bytes = l.active.bytes.take l.active.bytes.length := by
    rw [List.take_length]
  rcases Nat.lt_trichotomy id l.closed.length with hlt | rfl | hgt
  · -- a closed segment was synced as a whole
    rw [List.getElem?_append_left hlt] at hf
    rw [List.set_append_left _ _ hlt] at hd
    have hlen : f.bytes.length ≤ k := by
      rw [← hsettled id f hbase hf]
      exact hk
    exact h.open_cut hvalid hoptions hd (map_bytes_set_truncate hf hlen) hactive l.active.synced_le
      rfl
  · rw [List.getElem?_append_right (Nat.le_refl _), Nat.sub_self, List.getElem?_cons_zero,
      Option.some.injEq] at hf
    subst hf
    rw [List.set_append_right _ _ (Nat.le_refl _), Nat.sub_self, List.set_cons_zero] at hd
    exact h.open_cut hvalid hoptions hd rfl (File.bytes_truncate _ _) hk rfl
  · -- the segment after the active one is empty
    obtain ⟨i, rfl⟩ : ∃ i, id = l.closed.length + (i + 1) := ⟨id - l.closed.length - 1, by omega⟩
    rw [List.getElem?_append_right (by omega), Nat.add_sub_cancel_left,
      List.getElem?_cons_succ] at hf
    rw [List.set_append_right _ _ (by omega), Nat.add_sub_cancel_left, List.set_cons_succ] at hd
    have hlen : f.bytes.length ≤ k := by
      have hmem := List.mem_of_getElem? hf
      rcases h.next with hnext | ⟨hnext, -, -⟩
      · simp [hnext] at hmem
      · obtain rfl : f = File.empty := by simpa [hnext] using hmem
        exact Nat.zero_le k
    exact h.open_cut hvalid hoptions hd rfl hactive l.active.synced_le
      (map_bytes_set_truncate hf hlen)

end

/-- **Failed calls and a crash lose no synced record**, as long as no record is written to a segment
while the next one exists. The handle may have been opened on any directory; the crash cuts any of
the segments it has worked on, and spares what the last sync of that segment has covered. -/
theorem faulty_run_recovers {options : WalOptions} {d d' : Dir} {w₀ : Wal}
    (hopen : Wal.open d options = (d', .ok w₀)) {calls : List WalCall} {s : Session}
    (hrun : Session.run Session.clear ⟨w₀, [], []⟩ calls = some s) {id k : ℕ} {f : File}
    (hid : w₀.activeId ≤ id) (hf : s.wal.dir.file id = some f) (hk : f.synced ≤ k) :
    ∃ w records, Wal.open (s.wal.dir.update id (·.truncate k)) options = (w.dir, .ok w) ∧
      w.records = .ok (records, none) ∧ s.durable.Sublist records ∧ s.covered.Sublist records := by
  obtain ⟨l₀, hlaid₀, hoptions₀, hvalid⟩ := Wal.laid_of_open hopen
  have hstart : Session.Inv options w₀.activeId ⟨w₀, [], []⟩ := by
    refine ⟨hoptions₀, l₀, hlaid₀, fun i f hi hf => ?_, List.nil_sublist _, List.nil_sublist _⟩
    rw [hlaid₀.activeId] at hi
    rw [List.getElem?_eq_none hi] at hf
    exact absurd hf (by simp)
  have hinv : s.Inv options w₀.activeId := by
    refine runWhile_invariant (I := Session.Inv options w₀.activeId) ?_ hstart hrun
    intro s call s' h hclear hstep
    cases hstep
    exact Session.step_inv h hclear
  obtain ⟨hoptions, l, hlaid, hsettled, hacked, hdurable⟩ := hinv
  obtain ⟨w, records, hreopen, hrecords, hsynced⟩ :=
    hlaid.open_crash hvalid hoptions hsettled hid hf hk
  exact ⟨w, records, hreopen, hrecords, hdurable.trans hsynced,
    (Session.covered_sublist hlaid hacked).trans hsynced⟩

/-- Room for 72 bytes: two records of at most four bytes each. -/
def narrowOptions : WalOptions := { segmentSize := 72, maxSize := 1000 }

def narrowWal : Wal := ⟨Dir.empty.set 0 File.empty, narrowOptions, 0, 0, 0, false⟩

/-- A rotation that fails in the directory sync, and is tried again. -/
def retriedRotation : List WalCall :=
  [.append {} anyKind [1, 2, 3, 4], .append { syncDir := true } anyKind (List.replicate 10 5),
    .append {} anyKind (List.replicate 10 5), .sync false, .append {} anyKind []]

theorem faulty_run_recovers_retried :
    let s := retriedRotation.foldl Session.step ⟨narrowWal, [], []⟩
    s.durable.map (·.lsn) = [⟨0, 0⟩, ⟨1, 0⟩] ∧
      ∃ w records, Wal.open (s.wal.dir.update 2 (·.truncate 10)) narrowOptions = (w.dir, .ok w) ∧
        w.records = .ok (records, none) ∧ s.durable.Sublist records := by
  intro s
  have hrun : Session.run Session.clear ⟨narrowWal, [], []⟩ retriedRotation = some s := by
    refine runWhile_cons.2 ⟨by decide +kernel, _, rfl, ?_⟩
    refine runWhile_cons.2 ⟨by decide +kernel, _, rfl, ?_⟩
    refine runWhile_cons.2 ⟨by decide +kernel, _, rfl, ?_⟩
    refine runWhile_cons.2 ⟨by decide +kernel, _, rfl, ?_⟩
    exact runWhile_cons.2 ⟨by decide +kernel, _, rfl, rfl⟩
  have hfile : ((s.wal.dir.file 2).map File.synced) = some 0 := by decide +kernel
  obtain ⟨f, hf, hsynced⟩ := Option.map_eq_some_iff.1 hfile
  obtain ⟨w, records, hopen, hrecords, hdurable, -⟩ :=
    @faulty_run_recovers narrowOptions Dir.empty narrowWal.dir narrowWal rfl _ _ hrun 2 10 f
      (by decide) hf (by omega)
  exact ⟨by decide +kernel, w, records, hopen, hrecords, hdurable⟩

/-- A rotation that fails in the directory sync; then a record that fits the old segment. -/
def abandonedRotation : List WalCall :=
  [.append {} anyKind [1, 2, 3, 4], .append { syncDir := true } anyKind (List.replicate 10 5),
    .append {} anyKind []]

/-- **A torn record behind a failed rotation**: the segment last written is cut inside its last
record, after all synced bytes, and the directory does not open any more, since the empty segment
that the failed rotation has left is now the last one. The first record had been synced. -/
theorem torn_behind_rotation :
    let s := abandonedRotation.foldl Session.step ⟨narrowWal, [], []⟩
    Wal.open Dir.empty narrowOptions = (narrowWal.dir, .ok narrowWal) ∧
      Session.run (fun _ _ => true) ⟨narrowWal, [], []⟩ abandonedRotation = some s ∧
      s.wal.poisoned = false ∧ s.covered.map (·.lsn) = [⟨0, 0⟩] ∧
      (s.wal.dir.file 0).map File.synced = some 36 ∧ 36 ≤ 40 ∧
      (∀ j g, 0 < j → s.wal.dir.file j = some g → g.bytes = []) ∧
      (Wal.open (s.wal.dir.update 0 (·.truncate 40)) narrowOptions).2.map (fun _ => ()) =
        .error (.corruptRecord ⟨0, 36⟩ .incompleteRecord) := by
  intro s
  refine ⟨rfl, rfl, by decide +kernel, by decide +kernel, by decide +kernel, by decide, ?_,
    by decide +kernel⟩
  intro j g hj hg
  have hbound : s.wal.dir.bound = 2 := by decide +kernel
  have hempty : (s.wal.dir.file 1).map File.bytes = some [] := by decide +kernel
  obtain rfl : j = 1 := by
    by_contra hne
    rw [s.wal.dir.file_eq_none j (by omega)] at hg
    exact absurd hg (by simp)
  rw [hg] at hempty
  simpa using hempty

end Cloud9
