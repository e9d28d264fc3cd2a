import Cloud9.Raft.Follower

/-!
# Contiguous logs

A log whose entries carry the indices above its snapshot, one by one. Every operation of `log.rs`
keeps this, except an append out of sequence, which the follower's append loop makes when a request
skips an index.

Main results: `Follower.appendEntries_loopResult`, what the loop does to a contiguous log when the
request skips none, and `Log.Contiguous.installSnapshot`.
-/

namespace Cloud9

namespace Log

variable {l l' : Log}

/-- The entries carry the indices `snapshotIndex + 1`, `snapshotIndex + 2`, ... -/
def Contiguous (l : Log) : Prop :=
  ∀ (i : ℕ) (e : Entry), l.entries[i]? = some e → e.index = l.snapshotIndex + i + 1

theorem get_eq (l : Log) (index : ℕ) :
    l.get index =
      if index ≤ l.snapshotIndex then none else l.entries[index - l.snapshotIndex - 1]? := by
  unfold get toVecIndex
  by_cases h : index ≤ l.snapshotIndex
  · simp [h]
  · have h0 : ¬index = 0 := by omega
    simp [h, h0]

theorem termAt_eq (l : Log) {index : ℕ} (h : l.snapshotIndex < index) :
    l.termAt index = ((l.get index).map Entry.term).getD 0 := by
  have h0 : ¬(index = 0 ∨ index < l.snapshotIndex) := by omega
  have h1 : ¬index = l.snapshotIndex := by omega
  have h2 : ¬index ≤ l.snapshotIndex := by omega
  rw [termAt, if_neg h0, if_neg h1, get_eq, if_neg h2]
  simp [toVecIndex, h2]

/-- The two logs have the same snapshot and, up to an index, the same entries. -/
structure Agree (k : ℕ) (l l' : Log) : Prop where
  snapshotIndex : l'.snapshotIndex = l.snapshotIndex
  snapshotTerm : l'.snapshotTerm = l.snapshotTerm
  get : ∀ {i : ℕ}, i ≤ k → l'.get i = l.get i

theorem Agree.refl (k : ℕ) (l : Log) : Agree k l l := ⟨rfl, rfl, fun _ => rfl⟩

theorem Agree.trans {l'' : Log} {k : ℕ} (h : Agree k l l') (h' : Agree k l' l'') : Agree k l l'' :=
  ⟨h'.snapshotIndex.trans h.snapshotIndex, h'.snapshotTerm.trans h.snapshotTerm,
    fun hi => (h'.get hi).trans (h.get hi)⟩

theorem Agree.termAt {k i : ℕ} (h : Agree k l l') (hi : i ≤ k) : l'.termAt i = l.termAt i := by
  by_cases hsnap : l.snapshotIndex < i
  · rw [l.termAt_eq hsnap, l'.termAt_eq (by rw [h.snapshotIndex]; exact hsnap), h.get hi]
  · unfold Log.termAt
    by_cases heq : i = l.snapshotIndex
    · simp [heq, h.snapshotIndex, h.snapshotTerm]
    · have hlt : i < l.snapshotIndex := by omega
      simp [h.snapshotIndex, hlt]

/-! ## Operations -/

theorem agree_truncateAfter (l : Log) (k : ℕ) : Agree k l (l.truncateAfter k) := by
  unfold truncateAfter toVecIndex
  by_cases hk : k ≤ l.snapshotIndex
  · rw [if_pos hk]
    refine ⟨rfl, rfl, fun {i} hi => ?_⟩
    have hle : i ≤ l.snapshotIndex := by omega
    simp [get_eq, hle]
  · rw [if_neg hk]
    refine ⟨rfl, rfl, fun {i} hi => ?_⟩
    simp only [get_eq]
    by_cases hle : i ≤ l.snapshotIndex
    · simp [hle]
    · rw [if_neg hle, if_neg hle, List.getElem?_take, if_pos (by omega)]

/-- What is in a log stays in it when something is appended. -/
theorem get_append {i : ℕ} {e : Entry} (h : l.get i = some e) (e' : Entry) :
    (l.append e').get i = some e := by
  rw [get_eq] at h ⊢
  split_ifs at h with hle
  have hlt := (List.getElem?_eq_some_iff.1 h).1
  rw [append_snapshotIndex, if_neg hle]
  exact (List.getElem?_append_left hlt).trans h

theorem Plain.contiguous (h : l.Plain) : l.Contiguous := by
  intro i e he
  obtain ⟨hi, rfl⟩ := List.getElem?_eq_some_iff.1 he
  rw [h.indexed i hi, h.snapshotIndex, Nat.zero_add]

namespace Contiguous

theorem empty : Log.empty.Contiguous := by
  intro i e h
  simp [Log.empty] at h

theorem lastIndex (h : l.Contiguous) : l.lastIndex = l.snapshotIndex + l.entries.length := by
  unfold Log.lastIndex
  rcases List.eq_nil_or_concat l.entries with hnil | ⟨es, e, hes⟩
  · simp [hnil]
  · have hlast : l.entries[es.length]? = some e := by simp [hes]
    have hidx := h _ _ hlast
    simp only [hes, List.concat_eq_append, List.getLast?_append, List.getLast?_singleton,
      Option.some_or, Option.map_some, Option.getD_some, List.length_append, List.length_singleton]
    omega

theorem index_le (h : l.Contiguous) {e : Entry} (he : e ∈ l.entries) : e.index ≤ l.lastIndex := by
  obtain ⟨i, hi⟩ := List.mem_iff_getElem?.1 he
  have hlen := (List.getElem?_eq_some_iff.1 hi).1
  rw [h.lastIndex, h i e hi]
  omega

theorem get_index (h : l.Contiguous) {i : ℕ} {e : Entry} (he : l.get i = some e) : e.index = i := by
  rw [get_eq] at he
  split_ifs at he with hle
  have := h _ _ he
  omega

theorem get_isSome (h : l.Contiguous) {i : ℕ} (hlo : l.snapshotIndex < i) (hhi : i ≤ l.lastIndex) :
    ∃ e, l.get i = some e := by
  rw [h.lastIndex] at hhi
  have hlen : i - l.snapshotIndex - 1 < l.entries.length := by omega
  rw [get_eq, if_neg (by omega)]
  exact ⟨_, List.getElem?_eq_getElem hlen⟩

theorem le_lastIndex (h : l.Contiguous) {i : ℕ} {e : Entry} (he : l.get i = some e) :
    i ≤ l.lastIndex := by
  rw [get_eq] at he
  split_ifs at he with hle
  have := (List.getElem?_eq_some_iff.1 he).1
  rw [h.lastIndex]
  omega

/-- Where there is a term, there is an entry or the snapshot. -/
theorem le_lastIndex_of_termAt (h : l.Contiguous) {i : ℕ} (ht : l.termAt i ≠ 0) :
    i ≤ l.lastIndex := by
  by_cases hsnap : l.snapshotIndex < i
  · rw [l.termAt_eq hsnap] at ht
    cases he : l.get i with
    | none => simp [he] at ht
    | some e => exact h.le_lastIndex he
  · have := h.lastIndex
    omega

theorem truncateAfter (h : l.Contiguous) (k : ℕ) : (l.truncateAfter k).Contiguous := by
  unfold Log.truncateAfter
  split
  · intro i e he
    simp at he
  · intro i e he
    have he' := he
    simp only [List.getElem?_take] at he'
    split_ifs at he'
    exact h _ _ he'

theorem lastIndex_truncateAfter (h : l.Contiguous) {k : ℕ} (hlo : l.snapshotIndex ≤ k)
    (hhi : k ≤ l.lastIndex) : (l.truncateAfter k).lastIndex = k := by
  rw [(h.truncateAfter k).lastIndex]
  rw [h.lastIndex] at hhi
  unfold Log.truncateAfter toVecIndex
  by_cases hk : k ≤ l.snapshotIndex
  · simp only [hk, if_true, List.length_nil]
    omega
  · simp only [hk, if_false, List.length_take]
    omega

theorem append (h : l.Contiguous) {e : Entry} (he : e.index = l.lastIndex + 1) :
    (l.append e).Contiguous := by
  intro i e' hget
  rw [h.lastIndex] at he
  simp only [Log.append, List.getElem?_append] at hget
  split_ifs at hget with hlt
  · exact h _ _ hget
  · rw [List.getElem?_singleton] at hget
    split_ifs at hget with hi
    cases hget
    simp only [Log.append]
    omega

theorem get_append_self (h : l.Contiguous) (e : Entry) :
    (l.append e).get (l.lastIndex + 1) = some e := by
  have hlast := h.lastIndex
  have hpos : l.lastIndex + 1 - l.snapshotIndex - 1 = l.entries.length := by omega
  rw [get_eq, Log.append]
  dsimp only
  rw [if_neg (by omega), hpos, List.getElem?_concat_length]

theorem agree_append (h : l.Contiguous) (e : Entry) {k : ℕ} (hk : k ≤ l.lastIndex) :
    Agree k l (l.append e) := by
  refine ⟨rfl, rfl, fun {i} hi => ?_⟩
  by_cases hsnap : l.snapshotIndex < i
  · obtain ⟨e', he'⟩ := h.get_isSome hsnap (Nat.le_trans hi hk)
    rw [he', get_append he' e]
  · have hle : i ≤ l.snapshotIndex := by omega
    simp [get_eq, Log.append, hle]

theorem slice (h : l.Contiguous) {a : ℕ} (ha : l.snapshotIndex < a) (b : ℕ) :
    l.slice a b = (l.entries.take (b - l.snapshotIndex)).drop (a - l.snapshotIndex - 1) :=
  slice_eq h.lastIndex ha b

/-! ## Snapshots -/

theorem truncatePrefix_eq {index : ℕ} (hidx : l.snapshotIndex < index) (term : ℕ) :
    l.truncatePrefix index term =
      ⟨l.entries.drop (index - l.snapshotIndex), index, term, l.configAt index⟩ :=
  if_neg (by omega)

theorem installSnapshot_snapshotIndex {index : ℕ} (hidx : l.snapshotIndex < index) (term : ℕ)
    (config : Configuration) : (l.installSnapshot index term config).snapshotIndex = index := by
  unfold Log.installSnapshot
  split
  · rw [truncatePrefix_eq hidx]
  · rfl

theorem installSnapshot (h : l.Contiguous) {index : ℕ} (hidx : l.snapshotIndex < index) (term : ℕ)
    (config : Configuration) : (l.installSnapshot index term config).Contiguous := by
  unfold Log.installSnapshot
  split
  · rw [truncatePrefix_eq hidx]
    intro i e he
    rw [List.getElem?_drop] at he
    have := h _ _ he
    dsimp only
    omega
  · intro i e he
    simp at he

/-- A snapshot of a prefix keeps the entries after it. -/
theorem installSnapshot_matches (h : l.Contiguous) {index term : ℕ}
    (hmatch : l.snapshotMatchesPrefix index term = true) (config : Configuration) :
    (l.installSnapshot index term config).lastIndex = max index l.lastIndex ∧
      ∀ {i : ℕ}, index < i → (l.installSnapshot index term config).get i = l.get i := by
  have hidx : l.snapshotIndex < index := by
    simp only [snapshotMatchesPrefix, Bool.and_eq_true, decide_eq_true_eq] at hmatch
    exact hmatch.1
  have heq : l.installSnapshot index term config =
      ⟨l.entries.drop (index - l.snapshotIndex), index, term, some config⟩ := by
    unfold Log.installSnapshot
    rw [if_pos hmatch, truncatePrefix_eq hidx]
  constructor
  · rw [(h.installSnapshot hidx term config).lastIndex, h.lastIndex, heq]
    simp only [List.length_drop]
    omega
  · intro i hi
    have hpos : index - l.snapshotIndex + (i - index - 1) = i - l.snapshotIndex - 1 := by omega
    rw [heq, get_eq, get_eq, if_neg (by dsimp only; omega), if_neg (by omega), List.getElem?_drop,
      hpos]

/-- Any other snapshot replaces the log. -/
theorem installSnapshot_differs {index term : ℕ}
    (hmatch : l.snapshotMatchesPrefix index term = false) (config : Configuration) :
    (l.installSnapshot index term config).lastIndex = index := by
  unfold Log.installSnapshot
  simp [hmatch, Log.lastIndex]

end Contiguous

end Log

namespace Follower

/-- A request's entry meets an entry, or the snapshot, of another term. -/
def entryConflicts (l : Log) (e : Entry) : Bool :=
  decide (l.termAt e.index ≠ 0 ∧ l.termAt e.index ≠ e.term)

/-- No entry skips an index: the first is at most one beyond `last`, each of the others at most one
beyond the entry before it. -/
def gapless : ℕ → List Entry → Bool
  | _, [] => true
  | last, e :: es => decide (e.index ≤ last + 1) && gapless e.index es

/-- One turn of the append loop on a contiguous log. -/
theorem appendEntry_cases {l : Log} (h : l.Contiguous) {e : Entry}
    (hgap : e.index ≤ l.lastIndex + 1)
    (hconf : entryConflicts l e = true → l.snapshotIndex < e.index) (b : Bool) :
    (entryConflicts l e = true ∧
      appendEntry (l, b) e = ((l.truncateAfter (e.index - 1)).append e, true)) ∨
    (e.index = l.lastIndex + 1 ∧ appendEntry (l, b) e = (l.append e, true)) ∨
    (e.index ≤ l.lastIndex ∧ appendEntry (l, b) e = (l, b)) := by
  by_cases hc : entryConflicts l e = true
  · have hc' : l.termAt e.index ≠ 0 ∧ l.termAt e.index ≠ e.term := by
      simpa [entryConflicts] using hc
    have hlo := hconf hc
    have hhi := h.le_lastIndex_of_termAt hc'.1
    have hlast := h.lastIndex_truncateAfter (k := e.index - 1) (by omega) (by omega)
    refine .inl ⟨hc, ?_⟩
    simp only [appendEntry, if_pos hc', hlast]
    rw [if_pos (by omega)]
  · have hc' : ¬(l.termAt e.index ≠ 0 ∧ l.termAt e.index ≠ e.term) := by
      simpa [entryConflicts] using hc
    refine .inr ?_
    simp only [appendEntry, hc', if_false]
    by_cases hlt : e.index > l.lastIndex
    · exact .inl ⟨by omega, if_pos hlt⟩
    · exact .inr ⟨by omega, if_neg hlt⟩

/-- What the append loop makes of a contiguous log. -/
structure LoopResult (k : ℕ) (l : Log) (b : Bool) (r : Log × Bool) : Prop where
  contiguous : r.1.Contiguous
  agree : Log.Agree k l r.1
  le : k ≤ r.1.lastIndex
  flag : r = (l, b) ∨ r.2 = true

theorem appendEntry_loopResult {k : ℕ} {l : Log} (h : l.Contiguous) (hlo : l.snapshotIndex ≤ k)
    (hhi : k ≤ l.lastIndex) {e : Entry} (hgap : e.index ≤ l.lastIndex + 1)
    (hconf : e.index ≤ k → entryConflicts l e = false) (b : Bool) :
    LoopResult k l b (appendEntry (l, b) e) ∧ e.index ≤ (appendEntry (l, b) e).1.lastIndex := by
  have habove : entryConflicts l e = true → k < e.index := by
    intro hc
    by_contra hle
    rw [hconf (by omega)] at hc
    cases hc
  rcases appendEntry_cases h hgap (fun hc => by have := habove hc; omega) b with
    ⟨hc, heq⟩ | ⟨hidx, heq⟩ | ⟨hle, heq⟩
  · have hk := habove hc
    have hc' : l.termAt e.index ≠ 0 := by
      simp only [entryConflicts, decide_eq_true_eq] at hc
      exact hc.1
    have hlast := h.lastIndex_truncateAfter (k := e.index - 1) (by omega)
      (by have := h.le_lastIndex_of_termAt hc'; omega)
    have htrunc := h.truncateAfter (e.index - 1)
    have hagree : Log.Agree k l (l.truncateAfter (e.index - 1)) := by
      have := l.agree_truncateAfter (e.index - 1)
      exact ⟨this.snapshotIndex, this.snapshotTerm, fun hi => this.get (by omega)⟩
    rw [heq]
    refine ⟨⟨htrunc.append (by omega), hagree.trans (htrunc.agree_append e (by omega)), ?_,
      .inr rfl⟩, ?_⟩
    · rw [Log.lastIndex_append]
      omega
    · rw [Log.lastIndex_append]
  · rw [heq]
    refine ⟨⟨h.append hidx, h.agree_append e hhi, ?_, .inr rfl⟩, ?_⟩
    · rw [Log.lastIndex_append]
      omega
    · rw [Log.lastIndex_append]
  · rw [heq]
    exact ⟨⟨h, .refl k l, hhi, .inl rfl⟩, hle⟩

/-- **The append loop on a request that skips no index and conflicts with nothing up to `k`**: the
log stays contiguous and keeps what it has up to `k`, and the flag tells whether it has changed. -/
theorem foldl_appendEntry_loopResult {k : ℕ} {es : List Entry} : ∀ {l : Log} {b : Bool} {last : ℕ},
    l.Contiguous → l.snapshotIndex ≤ k → k ≤ l.lastIndex → last ≤ l.lastIndex →
    gapless last es = true → (∀ e ∈ es, e.index ≤ k → entryConflicts l e = false) →
    LoopResult k l b (es.foldl appendEntry (l, b)) := by
  induction es with
  | nil => exact fun h hlo hhi _ _ _ => ⟨h, .refl k _, hhi, .inl rfl⟩
  | cons e es ih =>
    intro l b last h hlo hhi hlast hgap hconf
    simp only [gapless, Bool.and_eq_true, decide_eq_true_eq] at hgap
    obtain ⟨hturn, hle⟩ := appendEntry_loopResult h hlo hhi (e := e) (by omega)
      (hconf e List.mem_cons_self) b
    rw [List.foldl_cons]
    generalize appendEntry (l, b) e = r at hturn hle ⊢
    obtain ⟨l', b'⟩ := r
    have hrest : ∀ e' ∈ es, e'.index ≤ k → entryConflicts l' e' = false := by
      intro e' he' hk
      have := hconf e' (List.mem_cons_of_mem e he') hk
      rwa [entryConflicts, hturn.agree.termAt hk]
    have hlo' : l'.snapshotIndex ≤ k := by
      rw [hturn.agree.snapshotIndex]
      exact hlo
    have hloop := ih (b := b') hturn.contiguous hlo' hturn.le hle hgap.2 hrest
    refine ⟨hloop.contiguous, hturn.agree.trans hloop.agree, hloop.le, ?_⟩
    rcases hloop.flag with heq | hflag
    · rw [heq]
      exact hturn.flag
    · exact .inr hflag

theorem appendEntries_loopResult {k : ℕ} {l : Log} {es : List Entry} (h : l.Contiguous)
    (hlo : l.snapshotIndex ≤ k) (hhi : k ≤ l.lastIndex) (hgap : gapless l.lastIndex es = true)
    (hconf : ∀ e ∈ es, e.index ≤ k → entryConflicts l e = false) :
    LoopResult k l false (appendEntries l es) :=
  foldl_appendEntry_loopResult h hlo hhi (Nat.le_refl _) hgap hconf

/-- Nothing conflicts with index 0. -/
theorem appendEntries_loopResult_zero {l : Log} {es : List Entry} (h : l.Contiguous)
    (hsnap : l.snapshotIndex = 0) (hgap : gapless l.lastIndex es = true) :
    LoopResult 0 l false (appendEntries l es) := by
  refine appendEntries_loopResult h (Nat.le_of_eq hsnap) (Nat.zero_le _) hgap fun e _ hle => ?_
  have hzero : l.termAt e.index = 0 := by rw [Nat.le_zero.1 hle]; rfl
  simp [entryConflicts, hzero]

end Follower

end Cloud9
