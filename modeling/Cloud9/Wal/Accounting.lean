import Cloud9.Wal.Faults

/-!
# What the handle knows about its files

A handle has the number and the length of the active segment and the length of all of them in
memory. Without errors of the file system these agree with the directory after every sequence of
calls, however often it is opened again in between: the segments are numbered without a gap, each
within its size and all within the limit, and the positions that `append` has returned go up and are
those that `records` finds the records at (`Wal.Accounted`, `accounts_kept`).

An append that is rejected for a size changes nothing. The three limits are checked around a
rotation that may itself happen, but a rotation happens only for a record that is then written: what
is checked after it cannot fail any more (`append_error`). What is left is a segment number that is
used up; this is found after the old segment was synced.
-/

namespace Cloud9

/-- The order of positions that `Ord` derives for `Lsn`. -/
def Lsn.Before (a b : Lsn) : Prop :=
  a.segmentId < b.segmentId ∨ a.segmentId = b.segmentId ∧ a.offset < b.offset

/-! ## Segments within their size, records in order -/

theorem offset_add_length_le {id segmentSize offset : ℕ} {bytes : List UInt8}
    {frames : List (Frame Record)} (h : (segmentReader id segmentSize).Framed offset bytes frames)
    (hoffset : offset ≤ segmentSize) : offset + bytes.length ≤ segmentSize := by
  induction h with
  | nil offset => exact hoffset
  | @cons offset size bytes record frames hread _ ih =>
    obtain ⟨n, rfl, hlen, hgood, -⟩ := readHead_frame.1 hread
    have hrest := ih hgood.fits
    rw [List.length_drop] at hrest
    omega

namespace Segments

variable {segmentSize id : ℕ} {files : List File} {records : List StoredRecord}

theorem length_le (h : Segments segmentSize id files records) :
    ∀ f ∈ files, f.bytes.length ≤ segmentSize := by
  induction h with
  | nil => simp
  | cons hframed _ ih =>
    rw [List.forall_mem_cons]
    refine ⟨?_, ih⟩
    have := offset_add_length_le hframed (Nat.zero_le _)
    omega

theorem le_segmentId (h : Segments segmentSize id files records) :
    ∀ s ∈ records, id ≤ s.lsn.segmentId := by
  induction h with
  | nil => simp
  | @cons id f files frames records _ _ ih =>
    intro s hs
    rcases List.mem_append.1 hs with hs | hs
    · obtain ⟨f, -, rfl⟩ := List.mem_map.1 hs
      exact Nat.le_refl id
    · have := ih s hs
      omega

/-- The records are in the order of their positions. -/
theorem pairwise_before (h : Segments segmentSize id files records) :
    records.Pairwise fun s t => s.lsn.Before t.lsn := by
  induction h with
  | nil => exact List.Pairwise.nil
  | @cons id f files frames records hframed hrest ih =>
    refine List.pairwise_append.2 ⟨?_, ih, fun s hs t ht => ?_⟩
    · refine List.pairwise_map.2 (hframed.pairwise_offset.imp fun hlt => ?_)
      exact .inr ⟨rfl, hlt⟩
    · obtain ⟨f, -, rfl⟩ := List.mem_map.1 hs
      exact .inl (hrest.le_segmentId t ht)

end Segments

/-! ## Appends that fail -/

/-- The errors of an append that is refused for a size. -/
def WalError.isRejection : WalError → Bool
  | .walFull _ _ => true
  | .recordTooLarge _ _ => true
  | .payloadTooLarge _ => true
  | _ => false

namespace Wal

variable {w w' : Wal} {l : Layout} {e : WalError}

/-- The handle after a failed call, when no file-system call has failed: it is unchanged, except
that the active segment is synced before the next number is looked at. -/
def Declined (w : Wal) (e : WalError) (w' : Wal) : Prop :=
  w' = w ∨ e = .segmentIdExhausted ∧ w' = { w with dir := w.dir.update w.activeId File.sync }

theorem rotateIfNeeded_error (hp : w.poisoned = false) {recordLen : ℕ}
    (h : w.rotateIfNeeded {} recordLen = (.error e, w')) : w.Declined e w' := by
  unfold rotateIfNeeded at h
  by_cases hlarge : recordLen > w.segmentSize
  · rw [if_pos hlarge] at h
    cases h
    exact .inl rfl
  rw [if_neg hlarge] at h
  cases hadd : checkedAdd w.activeLen recordLen with
  | none =>
    rw [hadd] at h
    cases h
    exact .inl rfl
  | some nextLen =>
    simp only [hadd] at h
    by_cases hrotate : w.activeLen ≠ 0 ∧ nextLen > w.segmentSize
    · simp only [if_pos hrotate, sync_healthy hp, Bool.false_eq_true, if_false] at h
      cases hid : checkedAdd w.activeId 1 with
      | none =>
        simp only [hid] at h
        cases h
        exact .inr ⟨rfl, rfl⟩
      | some activeId => simp [hid] at h
    · simp [if_neg hrotate] at h

/-- Without errors of the file system the write succeeds. -/
theorem writeRecord_ok (hp : w.poisoned = false) (encoded : List UInt8) (nextLen nextTotal : ℕ) :
    (w.writeRecord {} encoded nextLen nextTotal).1 = .ok ⟨w.activeId, w.activeLen⟩ := by
  simp only [writeRecord]
  split_ifs
  · simp only [Wal.sync, hp, Bool.false_eq_true, if_false]
  · rfl

/-- **An append fails only before it has changed anything**, if the file system does not. -/
theorem append_error (h : w.Laid l) (hp : w.poisoned = false) {kind : RecordKind}
    {payload : List UInt8} (herror : w.append {} kind payload = (.error e, w')) :
    w.Declined e w' := by
  unfold append at herror
  simp only [hp, Bool.false_eq_true, if_false] at herror
  cases hlen : encodedLen payload.length with
  | error e =>
    rw [hlen] at herror
    cases herror
    exact .inl rfl
  | ok recordLen =>
    obtain ⟨hpayload, rfl⟩ := encodedLen_ok.1 hlen
    have hencoded : encodeRecord kind payload = .ok (header kind payload ++ payload) :=
      (encodeRecord_ok kind payload).2 ⟨hpayload, rfl⟩
    simp only [hlen, hencoded] at herror
    cases htotal : checkedAddLen w.totalLen (headerLen + payload.length) with
    | error e =>
      rw [htotal] at herror
      cases herror
      exact .inl rfl
    | ok nextTotal =>
      simp only [htotal] at herror
      by_cases hfull : nextTotal > w.maxSize
      · rw [if_pos hfull] at herror
        cases herror
        exact .inl rfl
      · rw [if_neg hfull] at herror
        obtain ⟨l₁, hrotate⟩ := rotateIfNeeded_laid h hp {} (headerLen + payload.length)
        generalize hr : w.rotateIfNeeded {} (headerLen + payload.length) = r at hrotate herror
        obtain ⟨e₁ | _, w₁⟩ := r
        · cases herror
          exact rotateIfNeeded_error hp hr
        · -- the record fits, so that neither the sum nor the write can fail
          have hfits : w₁.activeLen + (headerLen + payload.length) ≤ w.segmentSize :=
            hrotate.fits rfl
          have hsum : w₁.activeLen + (header kind payload ++ payload).length < 2 ^ 64 := by
            rw [length_encodeRecord hencoded]
            exact Nat.lt_of_le_of_lt hfits (UInt64.toNat_lt _)
          simp only [checkedAddLen, checkedAdd, if_pos hsum] at herror
          have hok := writeRecord_ok (hrotate.healthy rfl) (header kind payload ++ payload)
            (w₁.activeLen + (header kind payload ++ payload).length) nextTotal
          rw [herror] at hok
          cases hok

/-- A rejected append leaves the handle, and with it every file, as it was. -/
theorem Declined.eq_of_isRejection (h : w.Declined e w') (he : e.isRejection = true) : w' = w := by
  rcases h with rfl | ⟨rfl, -⟩
  · rfl
  · cases he

end Wal

/-! ## Runs -/

/-- A call of the caller, without errors of the file system. To open the log again is to drop the
handle and open the directory with the same options. -/
inductive WalUse where
  | append (kind : RecordKind) (payload : List UInt8)
  | sync
  | reopen

namespace Session

/-- A call; there is no session any more when the directory cannot be opened. -/
def use (s : Session) : WalUse → Option Session
  | .append kind payload => some (s.step (.append {} kind payload))
  | .sync => some (s.step (.sync false))
  | .reopen => match Wal.open s.wal.dir s.wal.options with
    | (_, .ok wal) => some { s with wal }
    | (_, .error _) => none

def uses (s : Session) (calls : List WalUse) : Option Session :=
  runWhile use (fun _ _ => true) s calls

/-- What holds between the calls: the acknowledged records are those of the layout. -/
structure Tidy (options : WalOptions) (s : Session) : Prop where
  options : s.wal.options = options
  healthy : s.wal.poisoned = false
  layout : ∃ l, s.wal.Laid l ∧ l.next = [] ∧ l.stored = s.acked

section

variable {options : WalOptions} {s : Session}

theorem Tidy.append (h : s.Tidy options) (kind : RecordKind) (payload : List UInt8) :
    (s.step (.append {} kind payload)).Tidy options := by
  obtain ⟨hoptions, hp, l, hlaid, hnext, hstored⟩ := h
  obtain ⟨l', happend⟩ := Wal.append_laid hlaid {} kind (hlaid.clear hnext payload)
  simp only [step]
  generalize hresult : s.wal.append {} kind payload = result at happend
  obtain ⟨e | lsn, w'⟩ := result
  · rcases Wal.append_error hlaid hp hresult with rfl | ⟨-, rfl⟩
    · exact ⟨hoptions, hp, l, hlaid, hnext, hstored⟩
    · exact ⟨hoptions, hp, _, hlaid.sync, hnext, hstored⟩
  · refine ⟨happend.options.trans hoptions, happend.healthy rfl, l', happend.laid,
      happend.next rfl, ?_⟩
    rw [(happend.added rfl).stored_eq, hstored]

theorem Tidy.sync (h : s.Tidy options) : (s.step (.sync false)).Tidy options := by
  obtain ⟨hoptions, hp, l, hlaid, hnext, hstored⟩ := h
  simp only [step, Wal.sync_healthy hp, Bool.false_eq_true, if_false]
  exact ⟨hoptions, hp, _, hlaid.sync, hnext, hstored⟩

/-- Opening again finds the same records. -/
theorem Tidy.reopen (hvalid : validateOptions options = .ok ()) (h : s.Tidy options) :
    ∃ s', s.use .reopen = some s' ∧ s'.Tidy options := by
  obtain ⟨rfl, hp, l, hlaid, hnext, hstored⟩ := h
  have hlists := hlaid.lists
  have htotal := hlaid.total
  rw [Layout.files, hnext] at hlists htotal
  have hbytes : l.active.bytes = l.full.take l.full.length := by
    rw [List.take_length]
    exact hlaid.whole hp
  obtain ⟨w', f', hopen, hoptions, hp', -, hlaid'⟩ := Wal.open_of_cut hvalid hlists hlaid.segments
    hlaid.framed hbytes (Nat.le_refl _) htotal
  refine ⟨{ s with wal := w' }, by simp only [use, hopen], hoptions, hp', _, hlaid', rfl, ?_⟩
  rw [← hstored, Layout.stored, Layout.stored, hlaid.framed.whole_of_le (Nat.le_refl _)]

theorem Tidy.use (hvalid : validateOptions options = .ok ()) (h : s.Tidy options) (call : WalUse) :
    ∃ s', s.use call = some s' ∧ s'.Tidy options := by
  cases call with
  | append kind payload => exact ⟨_, rfl, h.append kind payload⟩
  | sync => exact ⟨_, rfl, h.sync⟩
  | reopen => exact h.reopen hvalid

/-- Every sequence of calls can be made, and leaves the handle tidy. -/
theorem Tidy.uses (hvalid : validateOptions options = .ok ()) {calls : List WalUse} :
    ∀ {s : Session}, s.Tidy options → ∃ s', s.uses calls = some s' ∧ s'.Tidy options := by
  induction calls with
  | nil => exact fun h => ⟨_, rfl, h⟩
  | cons call calls ih =>
    intro s h
    obtain ⟨s₁, huse, h₁⟩ := h.use hvalid call
    obtain ⟨s', huses, h'⟩ := ih h₁
    exact ⟨s', runWhile_cons.2 ⟨rfl, s₁, huse, huses⟩, h'⟩

end

end Session

/-- The handle's counters agree with the files of the directory, and its positions with what has
been acknowledged. -/
structure Wal.Accounted (w : Wal) (files : List File) (acked : List StoredRecord) : Prop where
  numbered : w.dir.Lists files
  activeId : files.length = w.activeId + 1
  fits : ∀ f ∈ files, f.bytes.length ≤ w.segmentSize
  activeLen : files[w.activeId]?.map (fun f => f.bytes.length) = some w.activeLen
  totalLen : w.totalLen = totalBytes files
  bounded : w.totalLen ≤ w.maxSize
  increasing : acked.Pairwise fun s t => s.lsn.Before t.lsn
  records : w.records = .ok (acked, none)
  rejects : ∀ {kind payload e w'}, w.append {} kind payload = (.error e, w') →
    e.isRejection = true → w' = w

theorem Session.Tidy.accounted {options : WalOptions} {s : Session} (h : s.Tidy options) :
    ∃ files, s.wal.Accounted files s.acked := by
  obtain ⟨-, hp, l, hlaid, hnext, hstored⟩ := h
  have hfiles : l.files = l.closed ++ [l.active] := by rw [Layout.files, hnext]
  have hsegments := hlaid.segments_files hp
  rw [hstored] at hsegments
  refine ⟨l.files, hlaid.lists, ?_, hsegments.length_le, ?_, hlaid.totalLen hp, ?_,
    hsegments.pairwise_before, ?_, ?_⟩
  · rw [hfiles, hlaid.activeId]
    simp
  · rw [hfiles, hlaid.activeId, hlaid.activeLen hp, ← hlaid.whole hp]
    simp
  · rw [hlaid.totalLen hp]
    exact hlaid.total
  · rw [← hstored]
    exact hlaid.records_eq hp
  · intro kind payload e w' herror he
    exact (Wal.append_error hlaid hp herror).eq_of_isRejection he

/-- **The counters agree with the files after every run**: with options that are accepted, from an
empty directory, whatever is appended, synced and opened again. -/
theorem accounts_kept {options : WalOptions} (hvalid : validateOptions options = .ok ())
    (calls : List WalUse) :
    ∃ w₀ s files, Wal.open Dir.empty options = (w₀.dir, .ok w₀) ∧
      Session.uses ⟨w₀, [], []⟩ calls = some s ∧ s.wal.options = options ∧
      s.wal.Accounted files s.acked := by
  obtain ⟨w₀, hopen, hoptions, hp, hlaid⟩ := Wal.open_empty hvalid
  have hstart : Session.Tidy options ⟨w₀, [], []⟩ := ⟨hoptions, hp, _, hlaid, rfl, rfl⟩
  obtain ⟨s, huses, hs⟩ := hstart.uses hvalid
  obtain ⟨files, haccounted⟩ := hs.accounted
  exact ⟨w₀, s, files, hopen, huses, hs.options, haccounted⟩

/-- Two records with a rotation between them, and a third one after the log was opened again. -/
def reopenedRun : List WalUse :=
  [.append anyKind [1, 2, 3], .sync, .append anyKind [4], .reopen, .append anyKind [5, 6]]

theorem accounts_kept_reopened :
    ∃ s files, Session.uses ⟨smallWal, [], []⟩ reopenedRun = some s ∧
      s.acked.map (·.lsn) = [⟨0, 0⟩, ⟨1, 0⟩, ⟨2, 0⟩] ∧ s.wal.Accounted files s.acked := by
  obtain ⟨w₀, s, files, hopen, huses, -, haccounted⟩ :=
    @accounts_kept smallOptions rfl reopenedRun
  obtain rfl : smallWal = w₀ := Except.ok.inj (Prod.mk.inj hopen).2
  have hlsn : (Session.uses ⟨smallWal, [], []⟩ reopenedRun).map (fun s => s.acked.map (·.lsn)) =
      some [⟨0, 0⟩, ⟨1, 0⟩, ⟨2, 0⟩] := by
    decide +kernel
  rw [huses] at hlsn
  exact ⟨s, files, huses, Option.some.inj hlsn, haccounted⟩

end Cloud9
