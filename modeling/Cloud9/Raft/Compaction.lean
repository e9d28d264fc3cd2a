import Cloud9.Lib.Run
import Cloud9.Raft.Contiguous

/-!
# A compacted log observes like the full log

`Log::truncate_prefix` discards entries and keeps, of everything up to the snapshot, one term and
one configuration. Every accessor of `log.rs` does its own arithmetic around the snapshot index.

`Log.compacted es k` is what a log with the entries `es` looks like after it was compacted at `k`;
for `k = 0` it is the full log. The operations of `log.rs` take such logs to such logs, and the
accessors read from them what the list `es` says, whatever `k` is, as long as they are asked about
what is not discarded. So a log that is compacted now and then cannot be told from one that never is
(`compacted_observes_full`).
-/

namespace Cloud9

namespace Log

/-- The log with these entries, compacted at `k`. -/
def compacted (es : List Entry) (k : ℕ) : Log where
  entries := es.drop k
  snapshotIndex := k
  snapshotTerm := entryTerm es k
  snapshotConfig := lastConfig (es.take k)

variable {es : List Entry} {k : ℕ}

@[simp] theorem snapshotIndex_compacted : (compacted es k).snapshotIndex = k := rfl

theorem lastConfig_append (es fs : List Entry) :
    lastConfig (es ++ fs) = (lastConfig fs).or (lastConfig es) := by
  simp only [lastConfig, List.reverse_append, List.findSome?_append]

/-! ## What the accessors read -/

theorem contiguous_compacted (hes : Indexed es) : (compacted es k).Contiguous := by
  intro i e he
  simp only [compacted, List.getElem?_drop] at he
  obtain ⟨hi, rfl⟩ := List.getElem?_eq_some_iff.1 he
  rw [hes _ hi]
  rfl

theorem lastIndex_compacted (hes : Indexed es) (hk : k ≤ es.length) :
    (compacted es k).lastIndex = es.length := by
  rw [(contiguous_compacted hes).lastIndex]
  simp only [compacted, List.length_drop]
  omega

theorem get_compacted {j : ℕ} (hj : k < j) : (compacted es k).get j = entryAt es j := by
  have hsnap : ¬j ≤ (compacted es k).snapshotIndex := Nat.not_le.2 hj
  rw [get_eq, if_neg hsnap, entryAt, if_neg (by omega)]
  simp only [compacted, List.getElem?_drop]
  congr 1
  omega

theorem termAt_compacted {j : ℕ} (hj : k ≤ j) : (compacted es k).termAt j = entryTerm es j := by
  rcases Nat.eq_or_lt_of_le hj with rfl | hlt
  · unfold termAt
    split_ifs with h0 hk
    · simp only [compacted, Nat.lt_irrefl, or_false] at h0
      simp [h0, entryTerm, entryAt]
    · rfl
    · exact absurd rfl hk
  · rw [termAt_eq _ hlt, get_compacted hlt, entryTerm]

theorem lastTerm_compacted (hk : k ≤ es.length) :
    (compacted es k).lastTerm = entryTerm es es.length := by
  unfold lastTerm
  rcases Nat.eq_or_lt_of_le hk with rfl | hlt
  · simp [compacted]
  · have hlast : (es.drop k).getLast? = es[es.length - 1]? := by
      rw [List.getLast?_eq_getElem?, List.getElem?_drop, List.length_drop]
      congr 1
      omega
    have hsome : es[es.length - 1]? = some es[es.length - 1] := List.getElem?_eq_getElem (by omega)
    simp only [compacted, hlast, entryTerm, entryAt, if_neg (show ¬es.length = 0 by omega), hsome,
      Option.map_some, Option.getD_some]

theorem configAt_compacted {j : ℕ} (hj : k ≤ j) :
    (compacted es k).configAt j = lastConfig (es.take j) := by
  unfold configAt
  rcases Nat.eq_or_lt_of_le hj with rfl | hlt
  · exact if_pos le_rfl
  · have hsnap : ¬j ≤ (compacted es k).snapshotIndex := Nat.not_le.2 hlt
    rw [if_neg hsnap, toVecIndex, if_neg hsnap]
    simp only [Option.map_some, Option.getD_some, compacted]
    have hsplit : es.take j = es.take k ++ (es.drop k).take (j - k) := by
      rw [← List.take_add, Nat.add_sub_cancel' hj]
    rw [← List.take_eq_take_min, show j - k - 1 + 1 = j - k by omega, hsplit, lastConfig_append]

theorem slice_compacted (hes : Indexed es) {a : ℕ} (ha : k < a) (b : ℕ) :
    (compacted es k).slice a b = (es.take b).drop (a - 1) := by
  rw [(contiguous_compacted hes).slice ha]
  simp only [compacted]
  rw [← List.drop_take, List.drop_drop]
  congr 1
  omega

/-- No entry up to the snapshot is above an index from there on. -/
theorem find_config_take (hes : Indexed es) {commit : ℕ} (hc : k ≤ commit) :
    ((es.take k).reverse.find? fun e => e.payload.isConfig && decide (e.index > commit)) =
      none := by
  refine List.find?_eq_none.2 fun e he => ?_
  obtain ⟨i, hi, rfl⟩ := List.mem_iff_getElem.1 (List.mem_reverse.1 he)
  rw [List.length_take] at hi
  have hindex : ((es.take k)[i]).index = i + 1 := (hes.take k) i _
  simp only [hindex, Bool.and_eq_true, decide_eq_true_eq, not_and]
  omega

theorem pendingConfigIndex_compacted (hes : Indexed es) {commit : ℕ} (hc : k ≤ commit) :
    (compacted es k).pendingConfigIndex commit =
      (es.reverse.find? fun e => e.payload.isConfig && decide (e.index > commit)).map
        Entry.index := by
  have hsplit : es.reverse = (es.drop k).reverse ++ (es.take k).reverse := by
    rw [← List.reverse_append, List.take_append_drop]
  rw [pendingConfigIndex, hsplit, List.find?_append, find_config_take hes hc, Option.or_none]
  rfl

/-! ## What the operations do -/

theorem entryAt_append_of_le {e : Entry} {j : ℕ} (hj : j ≤ es.length) :
    entryAt (es ++ [e]) j = entryAt es j := by
  unfold entryAt
  split_ifs with h0
  · rfl
  · rw [List.getElem?_append_left (by omega)]

theorem append_compacted (hk : k ≤ es.length) (e : Entry) :
    (compacted es k).append e = compacted (es ++ [e]) k := by
  simp only [append, compacted, List.drop_append_of_le_length hk, List.take_append_of_le_length hk,
    entryTerm, entryAt_append_of_le hk]

theorem entryAt_take {i j : ℕ} (hj : j ≤ i) : entryAt (es.take i) j = entryAt es j := by
  unfold entryAt
  split_ifs with h0
  · rfl
  · rw [List.getElem?_take_of_lt (by omega)]

theorem truncateAfter_compacted {i : ℕ} (hi : k ≤ i) :
    (compacted es k).truncateAfter i = compacted (es.take i) k := by
  have hentries : (compacted es k).truncateAfter i =
      { compacted es k with entries := (es.drop k).take (i - k) } := by
    unfold truncateAfter toVecIndex
    rcases Nat.eq_or_lt_of_le hi with rfl | hlt
    · simp [compacted]
    · rw [if_neg (show ¬i ≤ (compacted es k).snapshotIndex from Nat.not_le.2 hlt)]
      simp only [compacted]
      rw [show i - k - 1 + 1 = i - k by omega]
  rw [hentries]
  simp only [compacted, entryTerm, entryAt_take hi, List.drop_take, List.take_take,
    Nat.min_eq_left hi]

theorem truncatePrefix_compacted {i : ℕ} (hi : k ≤ i) :
    (compacted es k).truncatePrefix i ((compacted es k).termAt i) = compacted es i := by
  rcases Nat.eq_or_lt_of_le hi with rfl | hlt
  · exact if_pos le_rfl
  · rw [Contiguous.truncatePrefix_eq hlt, termAt_compacted hi, configAt_compacted hi]
    simp only [compacted, List.drop_drop]
    rw [show k + (i - k) = i by omega]

end Log

/-! ## Runs -/

/-- An operation on a log. -/
inductive LogOp where
  | append (e : Entry)
  | truncateAfter (index : ℕ)
  | truncatePrefix (index : ℕ)

namespace LogOp

/-- What a log in use is asked to do: an append is of the next index, and neither its snapshot nor
what is beyond its end is discarded. -/
def allowed (log : Log) : LogOp → Bool
  | .append e => decide (e.index = log.lastIndex + 1)
  | .truncateAfter index => decide (log.snapshotIndex ≤ index)
  | .truncatePrefix index => decide (log.snapshotIndex ≤ index ∧ index ≤ log.lastIndex)

def apply (log : Log) : LogOp → Log
  | .append e => log.append e
  | .truncateAfter index => log.truncateAfter index
  | .truncatePrefix index => log.truncatePrefix index (log.termAt index)

/-- The same without compaction. -/
def applyFull (log : Log) : LogOp → Log
  | .append e => log.append e
  | .truncateAfter index => log.truncateAfter index
  | .truncatePrefix _ => log

/-- A log and its full counterpart after some operations, if the log allows them. -/
def run : Log × Log → List LogOp → Option (Log × Log) :=
  runWhile (fun logs op => some (op.apply logs.1, op.applyFull logs.2)) fun logs => allowed logs.1

end LogOp

/-- Two logs with the same entries, the first compacted and the second not. -/
def Log.Compacts (c f : Log) : Prop :=
  ∃ es k, Log.Indexed es ∧ k ≤ es.length ∧ c = .compacted es k ∧ f = .compacted es 0

theorem Log.Compacts.apply {c f : Log} (h : c.Compacts f) {op : LogOp}
    (hop : op.allowed c = true) : (op.apply c).Compacts (op.applyFull f) := by
  obtain ⟨es, k, hes, hk, rfl, rfl⟩ := h
  cases op with
  | append e =>
    have hidx : e.index = es.length + 1 := by
      rw [← Log.lastIndex_compacted hes hk]
      exact of_decide_eq_true hop
    refine ⟨es ++ [e], k, hes.concat hidx, ?_, Log.append_compacted hk e,
      Log.append_compacted (Nat.zero_le _) e⟩
    rw [List.length_append]
    omega
  | truncateAfter index =>
    have hlo : k ≤ index := of_decide_eq_true hop
    refine ⟨es.take index, k, hes.take index, ?_, Log.truncateAfter_compacted hlo,
      Log.truncateAfter_compacted (Nat.zero_le _)⟩
    rw [List.length_take]
    omega
  | truncatePrefix index =>
    obtain ⟨hlo, hhi⟩ := of_decide_eq_true hop
    rw [Log.lastIndex_compacted hes hk] at hhi
    exact ⟨es, index, hes, hhi, Log.truncatePrefix_compacted hlo, rfl⟩

theorem Log.Compacts.run {ops : List LogOp} {c f : Log}
    (hrun : LogOp.run (Log.empty, Log.empty) ops = some (c, f)) : c.Compacts f :=
  runWhile_invariant (I := fun logs : Log × Log => logs.1.Compacts logs.2)
    (fun h hok hs => by cases hs; exact h.apply hok)
    ⟨[], 0, fun _ h => absurd h (Nat.not_lt_zero _), le_rfl, rfl, rfl⟩ hrun

/-- **A compacted log observes like the full log.** After any sequence of appends, truncations above
the snapshot and compactions within the log, every accessor that is asked about indices from the
snapshot on (above it, where an entry is asked for) answers as on the log that was never
compacted. -/
theorem compacted_observes_full {ops : List LogOp} {c f : Log}
    (hrun : LogOp.run (Log.empty, Log.empty) ops = some (c, f)) :
    c.lastIndex = f.lastIndex ∧ c.lastTerm = f.lastTerm ∧
      (∀ j, c.snapshotIndex ≤ j → j ≤ c.lastIndex →
        c.termAt j = f.termAt j ∧ c.configAt j = f.configAt j) ∧
      (∀ j, c.snapshotIndex < j → c.get j = f.get j) ∧
      (∀ a b, c.snapshotIndex < a → c.slice a b = f.slice a b) ∧
      ∀ commit, c.snapshotIndex ≤ commit →
        c.pendingConfigIndex commit = f.pendingConfigIndex commit := by
  obtain ⟨es, k, hes, hk, rfl, rfl⟩ := Log.Compacts.run hrun
  have h0 := Nat.zero_le es.length
  simp only [Log.snapshotIndex_compacted]
  refine ⟨?_, ?_, fun j hj _ => ⟨?_, ?_⟩, fun j hj => ?_, fun a b ha => ?_, fun commit hc => ?_⟩
  · rw [Log.lastIndex_compacted hes hk, Log.lastIndex_compacted hes h0]
  · rw [Log.lastTerm_compacted hk, Log.lastTerm_compacted h0]
  · rw [Log.termAt_compacted hj, Log.termAt_compacted (Nat.zero_le j)]
  · rw [Log.configAt_compacted hj, Log.configAt_compacted (Nat.zero_le j)]
  · rw [Log.get_compacted hj, Log.get_compacted (Nat.zero_lt_of_lt hj)]
  · rw [Log.slice_compacted hes ha, Log.slice_compacted hes (Nat.zero_lt_of_lt ha)]
  · rw [Log.pendingConfigIndex_compacted hes hc,
      Log.pendingConfigIndex_compacted hes (Nat.zero_le commit)]

/-- A configuration and a command are discarded; the configuration is still found, and one that was
truncated is not. -/
theorem compacted_observes_full_config :
    let trio := Configuration.simpleOf [0, 1, 2]
    let ops : List LogOp := [.append ⟨1, 1, .config trio⟩, .append ⟨1, 2, .command [7]⟩,
      .truncatePrefix 2, .append ⟨2, 3, .config (.simpleOf [0, 1])⟩, .truncateAfter 2,
      .append ⟨3, 3, .command [8]⟩]
    let c : Log := ⟨[⟨3, 3, .command [8]⟩], 2, 1, some trio⟩
    let f : Log := { Log.empty with
      entries := [⟨1, 1, .config trio⟩, ⟨1, 2, .command [7]⟩, ⟨3, 3, .command [8]⟩] }
    LogOp.run (Log.empty, Log.empty) ops = some (c, f) ∧ c.configAt 3 = f.configAt 3 ∧
      c.configAt 3 = some trio := by
  intro trio ops c f
  have hrun : LogOp.run (Log.empty, Log.empty) ops = some (c, f) := by decide +kernel
  exact ⟨hrun, ((compacted_observes_full hrun).2.2.1 3 (by decide) (by decide)).2,
    by decide +kernel⟩

end Cloud9
