import Mathlib.Data.List.Induction
import Cloud9.Raft.Membership

/-!
# The replicated log

`log.rs`: entries indexed from 1, above an optional snapshot. Log indices and terms are naturals.
Every operation is translated for any log; the second half reads them off for a snapshot-free
contiguous log (`Log.Plain`), where the log is nothing but its list of entries and index `i` is
position `i - 1` of the list.
-/

namespace Cloud9

/-- The bytes of a state machine command. -/
abbrev Command := List UInt8

inductive EntryPayload where
  | command (cmd : Command)
  | config (configuration : Configuration)
  deriving DecidableEq

namespace EntryPayload

def isConfig : EntryPayload → Bool
  | .command _ => false
  | .config _ => true

def asConfig : EntryPayload → Option Configuration
  | .command _ => none
  | .config c => some c

end EntryPayload

structure Entry where
  term : ℕ
  index : ℕ
  payload : EntryPayload
  deriving DecidableEq

/-- The entries above the snapshot, and the snapshot's metadata. -/
structure Log where
  entries : List Entry
  snapshotIndex : ℕ
  snapshotTerm : ℕ
  snapshotConfig : Option Configuration
  deriving DecidableEq

namespace Log

/-- `Log::default`. -/
def empty : Log := ⟨[], 0, 0, none⟩

/-- Position of an index in the entry list. -/
def toVecIndex (l : Log) (index : ℕ) : Option ℕ :=
  if index ≤ l.snapshotIndex then none else some (index - l.snapshotIndex - 1)

def lastIndex (l : Log) : ℕ := (l.entries.getLast?.map Entry.index).getD l.snapshotIndex

def lastTerm (l : Log) : ℕ := (l.entries.getLast?.map Entry.term).getD l.snapshotTerm

/-- Term at an index; 0 where there is no entry. -/
def termAt (l : Log) (index : ℕ) : ℕ :=
  if index = 0 ∨ index < l.snapshotIndex then 0
  else if index = l.snapshotIndex then l.snapshotTerm
  else (((l.toVecIndex index).bind (l.entries[·]?)).map Entry.term).getD 0

def get (l : Log) (index : ℕ) : Option Entry :=
  if index = 0 ∨ index ≤ l.snapshotIndex then none
  else (l.toVecIndex index).bind (l.entries[·]?)

def append (l : Log) (entry : Entry) : Log := { l with entries := l.entries ++ [entry] }

/-- Keep only the entries up to and including `index`. -/
def truncateAfter (l : Log) (index : ℕ) : Log :=
  match l.toVecIndex index with
  | none => { l with entries := [] }
  | some i => { l with entries := l.entries.take (i + 1) }

/-- The entries from `start` to `last`, both included, as far as they exist. -/
def slice (l : Log) (start last : ℕ) : List Entry :=
  let actualStart := max start (l.snapshotIndex + 1)
  if actualStart > last ∨ l.entries = [] then []
  else match l.toVecIndex actualStart with
    | none => []
    | some s =>
      let e := ((l.toVecIndex (min last l.lastIndex)).map (· + 1)).getD l.entries.length
      if s ≥ l.entries.length ∨ s ≥ e then [] else (l.entries.take e).drop s

/-- `Log::slice` with the check of its bounds: `none` is the panic when the last index lies beyond
the entries there are, as it can in a log with gaps. Elsewhere this is `slice`. -/
def slice? (l : Log) (start last : ℕ) : Option (List Entry) :=
  let actualStart := max start (l.snapshotIndex + 1)
  if actualStart > last ∨ l.entries = [] then some []
  else match l.toVecIndex actualStart with
    | none => some []
    | some s =>
      let e := ((l.toVecIndex (min last l.lastIndex)).map (· + 1)).getD l.entries.length
      if s ≥ l.entries.length ∨ s ≥ e then some []
      else if e ≤ l.entries.length then some ((l.entries.take e).drop s) else none

/-- The latest configuration entry of a list. -/
def lastConfig (es : List Entry) : Option Configuration :=
  es.reverse.findSome? fun e => e.payload.asConfig

/-- The latest configuration at or before `index`, the snapshot's included. -/
def configAt (l : Log) (index : ℕ) : Option Configuration :=
  if index ≤ l.snapshotIndex then l.snapshotConfig
  else
    let stop := ((l.toVecIndex index).map fun i => min (i + 1) l.entries.length).getD
      l.entries.length
    (lastConfig (l.entries.take stop)).or l.snapshotConfig

/-- Index of the latest configuration entry above `commitIndex`. -/
def pendingConfigIndex (l : Log) (commitIndex : ℕ) : Option ℕ :=
  (l.entries.reverse.find? fun e => e.payload.isConfig && decide (e.index > commitIndex)).map
    Entry.index

/-- Discard the entries up to and including `index`, of term `term`, after a snapshot. -/
def truncatePrefix (l : Log) (index : ℕ) (term : ℕ) : Log :=
  if index ≤ l.snapshotIndex then l
  else
    { entries := l.entries.drop (index - l.snapshotIndex)
      snapshotIndex := index
      snapshotTerm := term
      snapshotConfig := l.configAt index }

/-- Whether installing this snapshot would retain the log entries after it. -/
def snapshotMatchesPrefix (l : Log) (index : ℕ) (term : ℕ) : Bool :=
  decide (index > l.snapshotIndex) && decide (l.termAt index = term)

def installSnapshot (l : Log) (index : ℕ) (term : ℕ) (config : Configuration) : Log :=
  if l.snapshotMatchesPrefix index term then
    { l.truncatePrefix index term with snapshotConfig := some config }
  else
    { entries := [], snapshotIndex := index, snapshotTerm := term, snapshotConfig := some config }

@[simp] theorem append_snapshotIndex (l : Log) (e : Entry) :
    (l.append e).snapshotIndex = l.snapshotIndex := rfl

@[simp] theorem lastIndex_append (l : Log) (e : Entry) : (l.append e).lastIndex = e.index := by
  simp [append, lastIndex]

theorem lastConfig_concat (es : List Entry) (e : Entry) :
    lastConfig (es ++ [e]) = (e.payload.asConfig).or (lastConfig es) := by
  simp only [lastConfig, List.reverse_append, List.reverse_singleton, List.singleton_append,
    List.findSome?_cons]
  cases e.payload.asConfig <;> rfl

/-- A slice, when the last index counts the entries above the snapshot. -/
theorem slice_eq {l : Log} (hlast : l.lastIndex = l.snapshotIndex + l.entries.length) {a : ℕ}
    (ha : l.snapshotIndex < a) (b : ℕ) :
    l.slice a b = (l.entries.take (b - l.snapshotIndex)).drop (a - l.snapshotIndex - 1) := by
  unfold slice
  have hmax : max a (l.snapshotIndex + 1) = a := by omega
  have hvec : ∀ i, l.snapshotIndex < i → l.toVecIndex i = some (i - l.snapshotIndex - 1) :=
    fun i hi => if_neg (by omega)
  simp only [hmax, hvec a ha, hlast]
  split_ifs with h₁ h₂
  · rcases h₁ with h₁ | h₁
    · rw [List.drop_eq_nil_of_le (by rw [List.length_take]; omega)]
    · simp [h₁]
  all_goals
    have hpos := List.length_pos_iff.2 (not_or.1 h₁).2
    rw [hvec _ (by omega)] at *
  · symm
    apply List.drop_eq_nil_of_le
    rw [List.length_take]
    simp only [Option.map_some, Option.getD_some] at h₂
    omega
  · have hstop : min b (l.snapshotIndex + l.entries.length) - l.snapshotIndex - 1 + 1 =
        min (b - l.snapshotIndex) l.entries.length := by omega
    simp only [Option.map_some, Option.getD_some, hstop]
    rw [← List.take_eq_take_min]

theorem slice_of_slice? {l : Log} {start last : ℕ} {es : List Entry}
    (h : l.slice? start last = some es) : l.slice start last = es := by
  simp only [slice?] at h
  simp only [slice]
  by_cases hout : max start (l.snapshotIndex + 1) > last ∨ l.entries = []
  · rw [if_pos hout] at h ⊢
    exact Option.some.inj h
  · rw [if_neg hout] at h ⊢
    generalize l.toVecIndex (max start (l.snapshotIndex + 1)) = pos at h ⊢
    cases pos with
    | none => exact Option.some.inj h
    | some s =>
      simp only at h ⊢
      split_ifs at h ⊢
      all_goals exact Option.some.inj h

/-- No panic, when the last index counts the entries above the snapshot. -/
theorem slice?_eq {l : Log} (hlast : l.lastIndex = l.snapshotIndex + l.entries.length)
    (start last : ℕ) : l.slice? start last = some (l.slice start last) := by
  simp only [slice?, slice]
  by_cases hout : max start (l.snapshotIndex + 1) > last ∨ l.entries = []
  · rw [if_pos hout, if_pos hout]
  · rw [if_neg hout, if_neg hout]
    have hpos := List.length_pos_iff.2 (not_or.1 hout).2
    have hvec : l.toVecIndex (min last l.lastIndex) =
        some (min last l.lastIndex - l.snapshotIndex - 1) := if_neg (by omega)
    have hstop : min last l.lastIndex - l.snapshotIndex - 1 + 1 ≤ l.entries.length := by omega
    simp only [hvec, Option.map_some, Option.getD_some, if_pos hstop]
    cases l.toVecIndex (max start (l.snapshotIndex + 1)) with
    | none => rfl
    | some s => exact (apply_ite some _ _ _).symm

/-! ## Snapshot-free contiguous logs -/

/-- The entries carry the indices 1, 2, 3, ... -/
def Indexed (es : List Entry) : Prop := ∀ i, ∀ h : i < es.length, es[i].index = i + 1

instance (es : List Entry) : Decidable (Indexed es) :=
  inferInstanceAs (Decidable (∀ i, ∀ h : i < es.length, es[i].index = i + 1))

theorem Indexed.of_isPrefix {es fs : List Entry} (h : Indexed fs) (hp : es <+: fs) :
    Indexed es := by
  intro i hi
  rw [hp.getElem hi]
  exact h i _

theorem Indexed.take {es : List Entry} (h : Indexed es) (n : ℕ) : Indexed (es.take n) :=
  h.of_isPrefix <| List.take_prefix n es

theorem Indexed.concat {es : List Entry} (h : Indexed es) {e : Entry}
    (he : e.index = es.length + 1) : Indexed (es ++ [e]) := by
  intro i hi
  rcases Nat.lt_or_ge i es.length with hlt | hge
  · rw [List.getElem_append_left hlt]
    exact h i hlt
  · have hi' : i = es.length := by
      rw [List.length_append, List.length_singleton] at hi
      omega
    subst hi'
    simpa using he

/-- A log without snapshot whose entries carry their positions. -/
@[mk_iff]
structure Plain (l : Log) : Prop where
  snapshotIndex : l.snapshotIndex = 0
  snapshotTerm : l.snapshotTerm = 0
  snapshotConfig : l.snapshotConfig = none
  indexed : Indexed l.entries

instance (l : Log) : Decidable l.Plain := decidable_of_iff' _ (plain_iff l)

theorem plain_empty : empty.Plain := ⟨rfl, rfl, rfl, fun _ h => absurd h (by simp [empty])⟩

/-- The entry at an index, in the list of a snapshot-free log. -/
def entryAt (es : List Entry) (index : ℕ) : Option Entry :=
  if index = 0 then none else es[index - 1]?

/-- The term at an index, in the list of a snapshot-free log. -/
def entryTerm (es : List Entry) (index : ℕ) : ℕ := ((entryAt es index).map Entry.term).getD 0

/-- The configuration at an index, if there is a configuration entry. -/
def entryConfig (es : List Entry) (index : ℕ) : Option Configuration :=
  (entryAt es index).bind fun e => e.payload.asConfig

/-- The latest configuration entry of a list. -/
def Newest (es : List Entry) (index : ℕ) (cfg : Configuration) : Prop :=
  entryConfig es index = some cfg ∧ ∀ later, index < later → entryConfig es later = none

theorem entryConfig_bounds {es : List Entry} {index : ℕ} {cfg : Configuration}
    (h : entryConfig es index = some cfg) : 0 < index ∧ index ≤ es.length := by
  obtain ⟨e, he, -⟩ := Option.bind_eq_some_iff.1 h
  unfold entryAt at he
  split_ifs at he with h0
  have := (List.getElem?_eq_some_iff.1 he).1
  omega

theorem entryConfig_eq_none_of_lt {es : List Entry} {index : ℕ} (h : es.length < index) :
    entryConfig es index = none := by
  rcases hcfg : entryConfig es index with _ | cfg
  · rfl
  · have := (entryConfig_bounds hcfg).2
    omega

theorem entryConfig_concat (es : List Entry) (e : Entry) (index : ℕ) :
    entryConfig (es ++ [e]) index =
      if index = es.length + 1 then e.payload.asConfig else entryConfig es index := by
  unfold entryConfig entryAt
  rcases index with _ | i
  · simp
  · simp only [Nat.add_one_ne_zero, if_false, Nat.add_sub_cancel, Nat.add_right_cancel_iff]
    split_ifs with hi
    · simp [hi]
    · rcases Nat.lt_or_ge i es.length with hlt | hge
      · rw [List.getElem?_append_left hlt]
      · rw [List.getElem?_eq_none (by simp; omega), List.getElem?_eq_none hge]

theorem Newest.unique {es : List Entry} {i j : ℕ} {cfg cfg' : Configuration} (h : Newest es i cfg)
    (h' : Newest es j cfg') : i = j ∧ cfg = cfg' := by
  rcases Nat.lt_trichotomy i j with hlt | rfl | hlt
  · exact absurd h'.1 (by simp [h.2 j hlt])
  · exact ⟨rfl, Option.some.inj (h.1.symm.trans h'.1)⟩
  · exact absurd h.1 (by simp [h'.2 i hlt])

theorem newest_concat_config {es : List Entry} {e : Entry} {cfg : Configuration}
    (he : e.payload.asConfig = some cfg) : Newest (es ++ [e]) (es.length + 1) cfg := by
  refine ⟨by rw [entryConfig_concat, if_pos rfl, he], fun later hlater => ?_⟩
  exact entryConfig_eq_none_of_lt (by rw [List.length_append, List.length_singleton]; omega)

theorem newest_concat_command {es : List Entry} {e : Entry} (he : e.payload.asConfig = none)
    {index : ℕ} {cfg : Configuration} : Newest (es ++ [e]) index cfg ↔ Newest es index cfg := by
  have hsame : ∀ i, entryConfig (es ++ [e]) i = entryConfig es i := by
    intro i
    rw [entryConfig_concat]
    split_ifs with hi
    · rw [he, entryConfig_eq_none_of_lt (by omega)]
    · rfl
  simp only [Newest, hsame]

theorem lastConfig_eq_some_iff {es : List Entry} {cfg : Configuration} :
    lastConfig es = some cfg ↔ ∃ index, Newest es index cfg := by
  induction es using List.reverseRecOn with
  | nil => exact ⟨nofun, fun ⟨_, h, _⟩ => absurd (entryConfig_bounds h) (by simp; omega)⟩
  | append_singleton es e ih =>
    rw [lastConfig_concat]
    rcases he : e.payload.asConfig with _ | new
    · simp only [newest_concat_command he, Option.none_or, ih]
    · constructor
      · rintro ⟨⟩
        exact ⟨_, newest_concat_config he⟩
      · rintro ⟨index, h⟩
        rw [(h.unique (newest_concat_config he)).2]
        rfl

/-- Above `k`, the latest configuration entry is the newest one of the whole list. -/
theorem find_config_eq_some_iff {es : List Entry} (hes : Indexed es) {k i : ℕ} :
    (es.reverse.find? fun e => e.payload.isConfig && decide (e.index > k)).map Entry.index = some i
      ↔ k < i ∧ ∃ cfg, Newest es i cfg := by
  induction es using List.reverseRecOn with
  | nil => exact ⟨nofun, fun ⟨_, _, h, _⟩ => absurd (entryConfig_bounds h) (by simp; omega)⟩
  | append_singleton es e ih =>
    have hidx : e.index = es.length + 1 := by
      simpa using hes es.length (by simp)
    have ih := ih (hes.of_isPrefix (List.prefix_append es [e]))
    rw [List.reverse_append, List.reverse_singleton, List.singleton_append, List.find?_cons]
    cases hp : e.payload with
    | command cmd =>
      have he : e.payload.asConfig = none := by rw [hp]; rfl
      simp only [newest_concat_command he]
      exact ih
    | config cfg =>
      have he : e.payload.asConfig = some cfg := by rw [hp]; rfl
      have hnew : Newest (es ++ [e]) (es.length + 1) cfg := newest_concat_config he
      simp only [EntryPayload.isConfig, Bool.true_and, hidx]
      rcases Nat.lt_or_ge k (es.length + 1) with hlt | hge
      · simp only [decide_eq_true hlt, Option.map_some, hidx, Option.some.injEq]
        constructor
        · rintro rfl
          exact ⟨hlt, cfg, hnew⟩
        · rintro ⟨-, cfg', h'⟩
          exact (hnew.unique h').1
      · simp only [decide_eq_false (Nat.not_lt.2 hge)]
        refine ih.trans (iff_of_false ?_ ?_)
        · rintro ⟨hk, cfg', h'⟩
          have := (entryConfig_bounds h'.1).2
          omega
        · rintro ⟨hk, cfg', h'⟩
          have := (hnew.unique h').1
          omega

namespace Plain

variable {l : Log}

theorem toVecIndex (h : l.Plain) {i : ℕ} (hi : 0 < i) : l.toVecIndex i = some (i - 1) := by
  simp [Log.toVecIndex, h.snapshotIndex, Nat.pos_iff_ne_zero.1 hi]

theorem lastIndex (h : l.Plain) : l.lastIndex = l.entries.length := by
  unfold Log.lastIndex
  rcases hl : l.entries.getLast? with _ | e
  · simp [List.getLast?_eq_none_iff.1 hl, h.snapshotIndex]
  · have hpos : 0 < l.entries.length := by
      rw [List.length_pos_iff]
      rintro h0
      simp [h0] at hl
    rw [List.getLast?_eq_getElem?, List.getElem?_eq_getElem (by omega)] at hl
    have hidx := h.indexed (l.entries.length - 1) (by omega)
    rw [Option.some.inj hl] at hidx
    simp only [Option.map_some, Option.getD_some, hidx]
    omega

theorem lastTerm (h : l.Plain) : l.lastTerm = entryTerm l.entries l.entries.length := by
  unfold Log.lastTerm entryTerm entryAt
  rw [List.getLast?_eq_getElem?, h.snapshotTerm]
  split_ifs with h0
  · simp [List.length_eq_zero_iff.1 h0]
  · rfl

theorem get (h : l.Plain) (i : ℕ) : l.get i = entryAt l.entries i := by
  unfold Log.get entryAt
  rcases Nat.eq_zero_or_pos i with rfl | hi
  · simp
  · simp [h.snapshotIndex, h.toVecIndex hi, Nat.pos_iff_ne_zero.1 hi]

theorem termAt (h : l.Plain) (i : ℕ) : l.termAt i = entryTerm l.entries i := by
  unfold Log.termAt entryTerm entryAt
  rcases Nat.eq_zero_or_pos i with rfl | hi
  · simp
  · simp [h.snapshotIndex, h.toVecIndex hi, Nat.pos_iff_ne_zero.1 hi]

theorem truncateAfter (h : l.Plain) (i : ℕ) :
    l.truncateAfter i = { l with entries := l.entries.take i } := by
  unfold Log.truncateAfter
  rcases Nat.eq_zero_or_pos i with rfl | hi
  · simp [Log.toVecIndex]
  · rw [h.toVecIndex hi]
    simp only [Nat.sub_add_cancel hi]

theorem slice (h : l.Plain) {a : ℕ} (ha : 0 < a) (b : ℕ) :
    l.slice a b = (l.entries.take b).drop (a - 1) := by
  have hlast : l.lastIndex = l.snapshotIndex + l.entries.length := by
    rw [h.lastIndex, h.snapshotIndex, Nat.zero_add]
  rw [slice_eq hlast (by rw [h.snapshotIndex]; exact ha), h.snapshotIndex]
  rfl

theorem configAt (h : l.Plain) (i : ℕ) : l.configAt i = lastConfig (l.entries.take i) := by
  unfold Log.configAt
  rcases Nat.eq_zero_or_pos i with rfl | hi
  · simp [h.snapshotConfig, lastConfig]
  · rw [if_neg (by rw [h.snapshotIndex]; omega), h.toVecIndex hi, h.snapshotConfig]
    simp only [Option.map_some, Option.getD_some, Option.or_none, Nat.sub_add_cancel hi]
    rw [← List.take_eq_take_min]

theorem pendingConfigIndex_eq_some_iff (h : l.Plain) {k i : ℕ} :
    l.pendingConfigIndex k = some i ↔ k < i ∧ ∃ cfg, Newest l.entries i cfg :=
  find_config_eq_some_iff h.indexed

theorem append (h : l.Plain) {e : Entry} (he : e.index = l.entries.length + 1) :
    (l.append e).Plain :=
  ⟨h.snapshotIndex, h.snapshotTerm, h.snapshotConfig, h.indexed.concat he⟩

theorem withEntries (h : l.Plain) {es : List Entry} (hes : Indexed es) :
    ({ l with entries := es } : Log).Plain :=
  ⟨h.snapshotIndex, h.snapshotTerm, h.snapshotConfig, hes⟩

end Plain

end Log

end Cloud9
