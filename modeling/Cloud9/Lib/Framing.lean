import Mathlib.Data.List.TakeWhile
import Mathlib.Tactic.Common

/-!
# Framed byte strings

A byte string that is a sequence of frames, each of which says where it ends, is read by a loop that
reads one frame after the other. A `FrameReader` reads the frame at the head of a string; its laws
say that what it reads depends on the bytes of the frame alone, and that a frame cut short is
recognised as such.

Main results: `FrameReader.Framed.scan_eq`, the loop finds the frames of a framed string, and
`FrameReader.Framed.scan_take`, of a framed string that is cut anywhere the loop finds exactly the
frames that are whole.
-/

/-- What is at the head of a string: a frame of some size, nothing, or a part of a frame. -/
inductive Head (ρ : Type*) where
  | frame (record : ρ) (size : ℕ)
  | done
  | torn

/-- A frame, with the place it was found at. -/
structure Frame (ρ : Type*) where
  offset : ℕ
  size : ℕ
  record : ρ

def Frame.stop {ρ : Type*} (f : Frame ρ) : ℕ := f.offset + f.size

/-- Why the loop ends. -/
inductive Stop (ε : Type*) where
  | done
  | torn
  | failed (error : ε)

/-- What the loop has read, where it has stopped, and why. -/
structure Scan (ρ ε : Type*) where
  frames : List (Frame ρ)
  offset : ℕ
  stop : Stop ε

/-- A reader of frames; it may use the offset, for its checks and its errors. -/
structure FrameReader (β ρ ε : Type*) where
  read : ℕ → List β → Except ε (Head ρ)
  read_done : ∀ {offset bytes}, read offset bytes = .ok .done ↔ bytes = []
  size_pos : ∀ {offset bytes record size}, read offset bytes = .ok (.frame record size) → 0 < size
  size_le : ∀ {offset bytes record size}, read offset bytes = .ok (.frame record size) →
    size ≤ bytes.length
  read_take : ∀ {offset bytes record size}, read offset bytes = .ok (.frame record size) →
    ∀ rest, read offset (bytes.take size ++ rest) = .ok (.frame record size)
  read_torn : ∀ {offset bytes record size}, read offset bytes = .ok (.frame record size) →
    ∀ {k}, 0 < k → k < size → read offset (bytes.take k) = .ok .torn

namespace FrameReader

variable {β ρ ε : Type*}

/-- The loop. Every turn takes at least one byte, so one turn more than there are bytes is
enough. -/
def scanFrom (R : FrameReader β ρ ε) : ℕ → ℕ → List β → Scan ρ ε
  | 0, offset, _ => ⟨[], offset, .torn⟩
  | fuel + 1, offset, bytes =>
    match R.read offset bytes with
    | .error e => ⟨[], offset, .failed e⟩
    | .ok .done => ⟨[], offset, .done⟩
    | .ok .torn => ⟨[], offset, .torn⟩
    | .ok (.frame record size) =>
      let s := scanFrom R fuel (offset + size) (bytes.drop size)
      ⟨⟨offset, size, record⟩ :: s.frames, s.offset, s.stop⟩

def scan (R : FrameReader β ρ ε) (bytes : List β) : Scan ρ ε :=
  R.scanFrom (bytes.length + 1) 0 bytes

variable {R : FrameReader β ρ ε}

theorem read_nil (R : FrameReader β ρ ε) (offset : ℕ) : R.read offset [] = .ok .done :=
  R.read_done.2 rfl

/-- The fuel does not matter as long as there is enough of it. -/
theorem scanFrom_fuel {fuel : ℕ} : ∀ {fuel' offset : ℕ} {bytes : List β}, bytes.length < fuel →
    bytes.length < fuel' → R.scanFrom fuel offset bytes = R.scanFrom fuel' offset bytes := by
  induction fuel with
  | zero =>
    intro fuel' offset bytes h
    omega
  | succ fuel ih =>
    intro fuel' offset bytes h h'
    obtain ⟨fuel', rfl⟩ : ∃ k, fuel' = k + 1 := ⟨fuel' - 1, by omega⟩
    unfold scanFrom
    cases hread : R.read offset bytes with
    | error e => rfl
    | ok head =>
      cases head with
      | done => rfl
      | torn => rfl
      | frame record size =>
        have hpos := R.size_pos hread
        have hle := R.size_le hread
        have hlen : (bytes.drop size).length < bytes.length := by
          rw [List.length_drop]
          omega
        have hrest : R.scanFrom fuel (offset + size) (bytes.drop size) =
            R.scanFrom fuel' (offset + size) (bytes.drop size) := ih (by omega) (by omega)
        simp only [hrest]

/-! ## Framed strings -/

/-- The string consists of these frames, from an offset on. -/
inductive Framed (R : FrameReader β ρ ε) : ℕ → List β → List (Frame ρ) → Prop
  | nil (offset : ℕ) : Framed R offset [] []
  | cons {offset size : ℕ} {bytes : List β} {record : ρ} {frames : List (Frame ρ)}
      (hread : R.read offset bytes = .ok (.frame record size))
      (hrest : Framed R (offset + size) (bytes.drop size) frames) :
      Framed R offset bytes (⟨offset, size, record⟩ :: frames)

namespace Framed

variable {offset : ℕ} {bytes : List β} {frames : List (Frame ρ)}

theorem eq_nil (h : Framed R offset bytes []) : bytes = [] := by
  generalize hframes : ([] : List (Frame ρ)) = frames at h
  cases h with
  | nil => rfl
  | cons _ _ => exact absurd hframes (by simp)

/-- The string ends where its last frame does. -/
theorem length_eq (h : Framed R offset bytes frames) :
    offset + bytes.length = (frames.getLast?.map Frame.stop).getD offset := by
  induction h with
  | nil offset => rfl
  | @cons offset size bytes record frames hread _ ih =>
    have hle := R.size_le hread
    rw [List.length_drop] at ih
    have hstop : offset + size + (bytes.length - size) = offset + bytes.length := by omega
    rw [List.getLast?_cons, ← hstop, ih]
    cases frames.getLast? with
    | none => rfl
    | some f => rfl

/-- A frame is read in the same way whatever follows. -/
theorem read_append {record : ρ} {size : ℕ}
    (h : R.read offset bytes = .ok (.frame record size)) (tail : List β) :
    R.read offset (bytes ++ tail) = .ok (.frame record size) := by
  have := R.read_take h (bytes.drop size ++ tail)
  rwa [← List.append_assoc, List.take_append_drop] at this

/-- It is there as soon as the string is long enough. -/
theorem read_take_of_le {record : ρ} {size k : ℕ}
    (h : R.read offset bytes = .ok (.frame record size)) (hk : size ≤ k) :
    R.read offset (bytes.take k) = .ok (.frame record size) := by
  have := R.read_take h ((bytes.take k).drop size)
  rwa [← List.take_append_drop size (bytes.take k), List.take_take, Nat.min_eq_left hk]

theorem append {bytes' : List β} {frames' : List (Frame ρ)} (h : Framed R offset bytes frames)
    (h' : Framed R (offset + bytes.length) bytes' frames') :
    Framed R offset (bytes ++ bytes') (frames ++ frames') := by
  induction h with
  | nil offset => exact h'
  | @cons offset size bytes record frames hread _ ih =>
    have hle := R.size_le hread
    refine .cons (read_append hread bytes') ?_
    rw [List.drop_append_of_le_length hle]
    refine ih ?_
    rw [List.length_drop, Nat.add_assoc, Nat.add_sub_cancel' hle]
    exact h'

/-- A string that is one frame. -/
theorem single {record : ρ} (h : R.read offset bytes = .ok (.frame record bytes.length)) :
    Framed R offset bytes [⟨offset, bytes.length, record⟩] := by
  refine .cons h ?_
  rw [List.drop_length]
  exact .nil _

/-- **The loop finds the frames of a framed string**, and goes on with what follows. -/
theorem scanFrom_append (h : Framed R offset bytes frames) (tail : List β) : ∀ {fuel : ℕ},
    (bytes ++ tail).length < fuel →
    R.scanFrom fuel offset (bytes ++ tail) =
      let s := R.scanFrom (tail.length + 1) (offset + bytes.length) tail
      ⟨frames ++ s.frames, s.offset, s.stop⟩ := by
  induction h with
  | nil offset =>
    intro fuel hfuel
    exact scanFrom_fuel hfuel (by simp)
  | @cons offset size bytes record frames hread _ ih =>
    intro fuel hfuel
    obtain ⟨fuel, rfl⟩ : ∃ k, fuel = k + 1 := ⟨fuel - 1, by omega⟩
    have hpos := R.size_pos hread
    have hle := R.size_le hread
    have hfuel' : (bytes.drop size ++ tail).length < fuel := by
      rw [List.length_append] at hfuel ⊢
      rw [List.length_drop]
      omega
    have hstop : offset + size + (bytes.drop size).length = offset + bytes.length := by
      rw [List.length_drop]
      omega
    rw [scanFrom, read_append hread tail]
    simp only [List.drop_append_of_le_length hle, ih hfuel', hstop, List.cons_append]

/-- **What the loop has read is framed**; if it has not stopped before the end, that is all. -/
theorem of_scanFrom {fuel : ℕ} : ∀ {offset : ℕ} {bytes : List β}, bytes.length < fuel →
    ∃ n ≤ bytes.length, (R.scanFrom fuel offset bytes).offset = offset + n ∧
      Framed R offset (bytes.take n) (R.scanFrom fuel offset bytes).frames ∧
      ((R.scanFrom fuel offset bytes).stop = .done → n = bytes.length) := by
  induction fuel with
  | zero =>
    intro offset bytes h
    omega
  | succ fuel ih =>
    intro offset bytes h
    unfold scanFrom
    cases hread : R.read offset bytes with
    | error e => exact ⟨0, Nat.zero_le _, rfl, .nil offset, nofun⟩
    | ok head =>
      cases head with
      | done =>
        rw [R.read_done.1 hread]
        exact ⟨0, Nat.le_refl 0, rfl, .nil offset, fun _ => rfl⟩
      | torn => exact ⟨0, Nat.zero_le _, rfl, .nil offset, nofun⟩
      | frame record size =>
        have hpos := R.size_pos hread
        have hle := R.size_le hread
        have hlength : (bytes.drop size).length = bytes.length - size := List.length_drop
        obtain ⟨n, hn, hoffset, hframed, hdone⟩ :=
          @ih (offset + size) (bytes.drop size) (by omega)
        refine ⟨size + n, by omega, by rw [hoffset, Nat.add_assoc], ?_, fun h => ?_⟩
        · refine .cons (read_take_of_le hread (Nat.le_add_right size n)) ?_
          rw [List.drop_take, Nat.add_sub_cancel_left]
          exact hframed
        · have := hdone h
          omega

theorem scan_eq (h : Framed R 0 bytes frames) : R.scan bytes = ⟨frames, bytes.length, .done⟩ := by
  have hscan := @scanFrom_append _ _ _ _ _ _ _ h [] (bytes.length + 1) (by simp)
  have hnil : R.scanFrom 1 bytes.length [] = ⟨[], bytes.length, .done⟩ := by
    simp [scanFrom, R.read_nil]
  simpa [scan, hnil] using hscan

/-- The loop ends at the first place that cannot be read. -/
theorem scan_of_failed (h : Framed R 0 bytes frames) {tail : List β} {e : ε}
    (hread : R.read bytes.length tail = .error e) :
    R.scan (bytes ++ tail) = ⟨frames, bytes.length, .failed e⟩ := by
  have hstop :
      R.scanFrom (tail.length + 1) (0 + bytes.length) tail = ⟨[], bytes.length, .failed e⟩ := by
    rw [Nat.zero_add, scanFrom, hread]
  rw [scan, h.scanFrom_append tail (Nat.lt_succ_self _), hstop]
  simp only [List.append_nil]

/-! ## Cut strings -/

/-- The frames that are whole in the first `k` bytes. -/
def whole (offset k : ℕ) (frames : List (Frame ρ)) : List (Frame ρ) :=
  frames.takeWhile fun f => decide (f.stop ≤ offset + k)

theorem stop_le (h : Framed R offset bytes frames) :
    ∀ f ∈ frames, f.stop ≤ offset + bytes.length := by
  induction h with
  | nil => simp
  | @cons offset size bytes record frames hread _ ih =>
    have hle := R.size_le hread
    rw [List.length_drop] at ih
    rw [List.forall_mem_cons]
    refine ⟨Nat.add_le_add_left hle offset, fun f hf => ?_⟩
    have := ih f hf
    omega

theorem le_offset (h : Framed R offset bytes frames) : ∀ f ∈ frames, offset ≤ f.offset := by
  induction h with
  | nil => simp
  | cons _ _ ih =>
    rw [List.forall_mem_cons]
    refine ⟨Nat.le_refl _, fun f hf => ?_⟩
    have := ih f hf
    omega

theorem le_stop (h : Framed R offset bytes frames) : ∀ f ∈ frames, offset ≤ f.stop := fun f hf =>
  Nat.le_add_right_of_le (h.le_offset f hf)

/-- Every frame begins where those before it have ended. -/
theorem pairwise (h : Framed R offset bytes frames) :
    frames.Pairwise fun g f => g.stop ≤ f.offset := by
  induction h with
  | nil => exact List.Pairwise.nil
  | cons _ hrest ih => exact List.pairwise_cons.2 ⟨fun f hf => hrest.le_offset f hf, ih⟩

theorem pairwise_offset (h : Framed R offset bytes frames) :
    frames.Pairwise fun g f => g.offset < f.offset := by
  induction h with
  | nil => exact List.Pairwise.nil
  | cons hread hrest ih =>
    refine List.pairwise_cons.2 ⟨fun f hf => ?_, ih⟩
    exact Nat.lt_of_lt_of_le (Nat.lt_add_of_pos_right (R.size_pos hread)) (hrest.le_offset f hf)

/-- A cut that is not before the last frame spares the others. -/
theorem whole_concat {f : Frame ρ} (h : Framed R offset bytes (frames ++ [f])) {k : ℕ}
    (hk : f.offset ≤ offset + k) :
    whole offset k (frames ++ [f]) = frames ++ if f.stop ≤ offset + k then [f] else [] := by
  have hall : ∀ g ∈ frames, decide (g.stop ≤ offset + k) = true := by
    intro g hg
    have := (List.pairwise_append.1 h.pairwise).2.2 g hg f (by simp)
    exact decide_eq_true (by omega)
  rw [whole, List.takeWhile_append_of_pos hall, List.takeWhile_cons]
  simp

/-- Frames that end before some place are whole when the cut is not before it. -/
theorem filter_sublist_takeWhile (h : Framed R offset bytes frames) {a b : ℕ} (hab : a ≤ b) :
    (frames.filter fun f => decide (f.stop ≤ a)).Sublist
      (frames.takeWhile fun f => decide (f.stop ≤ b)) := by
  induction h with
  | nil => simp
  | @cons offset size bytes record frames _ hrest ih =>
    by_cases hb : offset + size ≤ b
    · rw [List.takeWhile_cons_of_pos (by simp [Frame.stop, hb]), List.filter_cons]
      split
      · exact ih.cons_cons _
      · exact ih.cons _
    · rw [List.filter_eq_nil_iff.2]
      · exact List.nil_sublist _
      · rw [List.forall_mem_cons]
        refine ⟨fun h => ?_, fun f hf h => ?_⟩
        · have hstop : offset + size ≤ a := of_decide_eq_true h
          omega
        · have hstop : f.stop ≤ a := of_decide_eq_true h
          have := hrest.le_stop f hf
          omega

/-- A cut at the end of the string, or beyond it, spares all frames. -/
theorem whole_of_le (h : Framed R offset bytes frames) {k : ℕ} (hk : bytes.length ≤ k) :
    whole offset k frames = frames := by
  refine List.takeWhile_eq_self_iff.2 fun f hf => ?_
  have := h.stop_le f hf
  exact decide_eq_true (by omega)

/-- Beyond the end of the string the place of the cut does not matter. -/
theorem whole_min (h : Framed R offset bytes frames) (k : ℕ) :
    whole offset (min k bytes.length) frames = whole offset k frames := by
  rcases Nat.le_total k bytes.length with hk | hk
  · rw [Nat.min_eq_left hk]
  · rw [h.whole_of_le hk, h.whole_of_le (by omega)]

/-- **Of a framed string that is cut anywhere, the loop finds exactly the whole frames.** It stops
at the end of the last of them, and what it leaves is less than a frame. -/
theorem scanFrom_take (h : Framed R offset bytes frames) : ∀ {k fuel : ℕ}, k ≤ bytes.length →
    k < fuel → ∃ n ≤ k, Framed R offset (bytes.take n) (whole offset k frames) ∧
      R.scanFrom fuel offset (bytes.take k) =
        ⟨whole offset k frames, offset + n, if n = k then .done else .torn⟩ := by
  induction h with
  | nil offset =>
    intro k fuel hk hfuel
    obtain ⟨fuel, rfl⟩ : ∃ j, fuel = j + 1 := ⟨fuel - 1, by omega⟩
    obtain rfl : k = 0 := by simpa using hk
    exact ⟨0, Nat.le_refl 0, .nil offset, by simp [scanFrom, R.read_nil, whole]⟩
  | @cons offset size bytes record frames hread _ ih =>
    intro k fuel hk hfuel
    obtain ⟨fuel, rfl⟩ : ∃ j, fuel = j + 1 := ⟨fuel - 1, by omega⟩
    have hpos := R.size_pos hread
    have hle := R.size_le hread
    by_cases hsize : size ≤ k
    · -- the first frame is whole
      obtain ⟨n, hn, hframed, hscan⟩ := @ih (k - size) fuel
        (by rw [List.length_drop]; omega) (by omega)
      have hwhole : whole offset k (⟨offset, size, record⟩ :: frames) =
          ⟨offset, size, record⟩ :: whole (offset + size) (k - size) frames := by
        have hadd : offset + size + (k - size) = offset + k := by omega
        unfold whole
        rw [List.takeWhile_cons_of_pos (by simp [Frame.stop, hsize]), hadd]
      refine ⟨size + n, by omega, ?_, ?_⟩
      · rw [hwhole]
        refine .cons (read_take_of_le hread (Nat.le_add_right size n)) ?_
        rw [List.drop_take, Nat.add_sub_cancel_left]
        exact hframed
      · have hiff : (size + n = k) = (n = k - size) := propext (by omega)
        rw [scanFrom, read_take_of_le hread hsize]
        simp only [List.drop_take, hscan, hwhole, hiff, Nat.add_assoc]
    · -- the cut is inside the first frame, or before it
      have hwhole : whole offset k (⟨offset, size, record⟩ :: frames) = [] := by
        have hnot : ¬offset + size ≤ offset + k := by omega
        simp [whole, Frame.stop, hnot]
      refine ⟨0, Nat.zero_le _, ?_, ?_⟩
      · rw [hwhole, List.take_zero]
        exact .nil offset
      · rw [hwhole, scanFrom]
        by_cases hk0 : k = 0
        · simp [hk0, R.read_nil]
        · rw [R.read_torn hread (Nat.pos_of_ne_zero hk0) (by omega)]
          have hne : ¬0 = k := fun h => hk0 h.symm
          simp [hne]

theorem scan_take (h : Framed R 0 bytes frames) {k : ℕ} (hk : k ≤ bytes.length) :
    ∃ n ≤ k, Framed R 0 (bytes.take n) (whole 0 k frames) ∧
      R.scan (bytes.take k) = ⟨whole 0 k frames, n, if n = k then .done else .torn⟩ := by
  have hlen : (bytes.take k).length = k := by
    rw [List.length_take]
    omega
  obtain ⟨n, hn, hframed, hscan⟩ := h.scanFrom_take hk (Nat.lt_succ_self k)
  refine ⟨n, hn, hframed, ?_⟩
  rw [scan, hlen, hscan, Nat.zero_add]

end Framed

end FrameReader
