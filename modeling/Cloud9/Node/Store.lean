import Cloud9.Node.Format
import Cloud9.Raft.Core
import Cloud9.Wal.Recovery
import Mathlib.Data.List.Chain

/-!
# The durable Raft state

`store.rs`: every save appends to the write-ahead log the hard state and the part of the log that
has changed, found by comparing terms from the end; opening replays these deltas.

If consecutive values satisfy Log Matching, replaying the delta between them leads from one to the
other (`applyDelta_persistentDelta`), and so a store that is opened after a crash in the last save
has the last value that was saved whole (`store_recovers`).

The format is a parameter: of `serde_json` only that it decodes what it has encoded is used.
-/

namespace Cloud9

inductive StoreError where
  | wal (error : WalError)
  | encode
  | decode
  | unexpectedKind (found : ℕ)
  | termRegression (previous next : ℕ)
  | invalidTruncation (index lastIndex : ℕ)
  | noncontiguousEntry (expected found : ℕ)
  | snapshotUnsupported
  deriving DecidableEq, Repr

structure PersistentDelta where
  term : ℕ
  votedFor : Option NodeId
  bootstrapConfig : Configuration
  truncateAfter : ℕ
  entries : List Entry
  deriving DecidableEq

structure RaftStore where
  wal : Wal
  kind : RecordKind
  durable : Persistent

theorem raftStateKind_lt : 1 < 2 ^ 16 := by decide

def raftStateKind : RecordKind := ⟨1, Nat.one_pos, raftStateKind_lt⟩

/-- The file-system calls of one save that fail. -/
structure SaveFaults where
  append : AppendFaults := {}
  sync : Bool := false

/-- The loop of `common_prefix`, downwards from an index. -/
def commonPrefixFrom (durable current : Log) (floor : ℕ) : ℕ → ℕ
  | 0 => 0
  | index + 1 =>
    if index + 1 > floor ∧ durable.termAt (index + 1) ≠ current.termAt (index + 1) then
      commonPrefixFrom durable current floor index
    else index + 1

def commonPrefix (durable current : Persistent) : ℕ :=
  commonPrefixFrom durable.log current.log
    (max durable.log.snapshotIndex current.log.snapshotIndex)
    (min durable.log.lastIndex current.log.lastIndex)

/-- The loop of `apply_delta`. -/
def appendDelta (log : Log) : List Entry → Except StoreError Log
  | [] => .ok log
  | entry :: rest =>
    let expected := log.lastIndex + 1
    if entry.index ≠ expected then .error (.noncontiguousEntry expected entry.index)
    else appendDelta (log.append entry) rest

def applyDelta (state : Persistent) (delta : PersistentDelta) : Except StoreError Persistent :=
  if delta.term < state.term then .error (.termRegression state.term delta.term)
  else
    let lastIndex := state.log.lastIndex
    if delta.truncateAfter > lastIndex then
      .error (.invalidTruncation delta.truncateAfter lastIndex)
    else match appendDelta (state.log.truncateAfter delta.truncateAfter) delta.entries with
      | .error e => .error e
      | .ok log => .ok ⟨delta.term, delta.votedFor, log, delta.bootstrapConfig⟩

/-- What a save writes. -/
def persistentDelta (durable current : Persistent) : PersistentDelta where
  term := current.term
  votedFor := current.votedFor
  bootstrapConfig := current.bootstrapConfig
  truncateAfter := commonPrefix durable current
  entries := current.log.slice (commonPrefix durable current + 1) current.log.lastIndex

namespace RaftStore

def save (format : Serializer PersistentDelta) (s : RaftStore) (faults : SaveFaults)
    (current : Persistent) : Except StoreError Unit × RaftStore :=
  if current.log.snapshotIndex ≠ s.durable.log.snapshotIndex then (.error .snapshotUnsupported, s)
  else match format.encode (persistentDelta s.durable current) with
    | none => (.error .encode, s)
    | some encoded => match s.wal.append faults.append s.kind encoded with
      | (.error e, wal) => (.error (.wal e), { s with wal })
      | (.ok _, wal) => match wal.sync faults.sync with
        | (.error e, wal) => (.error (.wal e), { s with wal })
        | (.ok (), wal) => (.ok (), { s with wal, durable := current })

/-- Replay the records of the stream; its error, if there is one, comes at the end. -/
def replay (format : Serializer PersistentDelta) (kind : RecordKind) (state : Persistent) :
    List StoredRecord → Option WalError → Except StoreError Persistent
  | [], none => .ok state
  | [], some e => .error (.wal e)
  | stored :: rest, error =>
    if stored.record.kind ≠ kind then .error (.unexpectedKind stored.record.kind.get)
    else match format.decode stored.record.payload with
      | none => .error .decode
      | some delta => match applyDelta state delta with
        | .error e => .error e
        | .ok state => replay format kind state rest error

def recover (format : Serializer PersistentDelta) (s : RaftStore) : Except StoreError RaftStore :=
  match s.wal.records with
  | .error e => .error (.wal e)
  | .ok (stored, error) => match replay format s.kind s.durable stored error with
    | .error e => .error e
    | .ok durable => .ok { s with durable }

/-- `RaftStore::open`, with the directory it leaves. -/
def «open» (format : Serializer PersistentDelta) (d : Dir) (initial : Persistent) :
    Dir × Except StoreError RaftStore :=
  match Wal.open d {} with
  | (d, .error e) => (d, .error (.wal e))
  | (d, .ok wal) => (d, recover format ⟨wal, raftStateKind, initial⟩)

end RaftStore

/-! ## One delta -/

/-- Log Matching: the same term at an index means the same entries up to it. -/
def Log.Matches (l l' : Log) : Prop :=
  ∀ i, i ≤ l.lastIndex → i ≤ l'.lastIndex → l.termAt i = l'.termAt i →
    l.entries.take i = l'.entries.take i

/-- What consecutive values of the durable state satisfy. -/
structure Persistent.Precedes (p q : Persistent) : Prop where
  plain : p.log.Plain
  plain' : q.log.Plain
  term_le : p.term ≤ q.term
  log_matches : p.log.Matches q.log

section

variable {p q : Persistent}

theorem commonPrefixFrom_spec {l l' : Log} (h : l.Matches l') {index : ℕ} :
    index ≤ l.lastIndex → index ≤ l'.lastIndex → commonPrefixFrom l l' 0 index ≤ index ∧
      l.entries.take (commonPrefixFrom l l' 0 index) =
        l'.entries.take (commonPrefixFrom l l' 0 index) := by
  induction index with
  | zero => exact fun _ _ => ⟨Nat.le_refl 0, rfl⟩
  | succ index ih =>
    intro hl hl'
    rw [commonPrefixFrom]
    split_ifs with hne
    · obtain ⟨hle, htake⟩ := ih (by omega) (by omega)
      exact ⟨by omega, htake⟩
    · have hterm : l.termAt (index + 1) = l'.termAt (index + 1) := by
        by_contra hdiff
        exact hne ⟨Nat.succ_pos index, hdiff⟩
      exact ⟨Nat.le_refl _, h _ hl hl' hterm⟩

theorem Persistent.Precedes.commonPrefix_spec (h : p.Precedes q) :
    commonPrefix p q ≤ p.log.entries.length ∧ commonPrefix p q ≤ q.log.entries.length ∧
      p.log.entries.take (commonPrefix p q) = q.log.entries.take (commonPrefix p q) := by
  have hspec := commonPrefixFrom_spec h.log_matches (Nat.min_le_left _ _) (Nat.min_le_right _ _)
  rw [commonPrefix, h.plain.snapshotIndex, h.plain'.snapshotIndex, Nat.max_self]
  have hlast := h.plain.lastIndex
  have hlast' := h.plain'.lastIndex
  exact ⟨by omega, by omega, hspec.2⟩

/-- Entries in sequence are appended. -/
theorem appendDelta_indexed {es : List Entry} : ∀ {l : Log}, l.Plain →
    Log.Indexed (l.entries ++ es) →
      appendDelta l es = .ok { l with entries := l.entries ++ es } := by
  induction es with
  | nil =>
    intro l _ _
    rw [appendDelta, List.append_nil]
  | cons e es ih =>
    intro l hl hes
    have hindex : e.index = l.entries.length + 1 := by
      have := hes l.entries.length (by simp)
      simpa using this
    have hassoc : l.entries ++ e :: es = (l.append e).entries ++ es := by simp [Log.append]
    have hplain : (l.append e).Plain := hl.append hindex
    rw [hassoc] at hes ⊢
    rw [appendDelta, if_neg (by rw [hl.lastIndex]; exact not_not_intro hindex), ih hplain hes]
    rfl

theorem Log.Plain.eq_of_entries {l l' : Log} (h : l.Plain) (h' : l'.Plain)
    (hentries : l.entries = l'.entries) : l = l' := by
  obtain ⟨es, i, t, c⟩ := l
  obtain ⟨es', i', t', c'⟩ := l'
  obtain ⟨rfl, rfl, rfl, -⟩ := h
  obtain ⟨rfl, rfl, rfl, -⟩ := h'
  obtain rfl : es = es' := hentries
  rfl

/-- **Replaying the delta leads from one value to the next.** -/
theorem applyDelta_persistentDelta (h : p.Precedes q) :
    applyDelta p (persistentDelta p q) = .ok q := by
  obtain ⟨hle, -, htake⟩ := h.commonPrefix_spec
  have hslice : (persistentDelta p q).entries = q.log.entries.drop (commonPrefix p q) := by
    show q.log.slice (commonPrefix p q + 1) q.log.lastIndex = _
    rw [h.plain'.slice (Nat.succ_pos _), h.plain'.lastIndex, List.take_length]
    rfl
  set l := p.log.truncateAfter (commonPrefix p q) with hl
  have hentries : l.entries = q.log.entries.take (commonPrefix p q) := by
    rw [hl, h.plain.truncateAfter, ← htake]
  have hplain : l.Plain := by
    rw [hl, h.plain.truncateAfter]
    exact h.plain.withEntries (h.plain.indexed.take _)
  have hwhole : l.entries ++ (persistentDelta p q).entries = q.log.entries := by
    rw [hentries, hslice, List.take_append_drop]
  have hlog : appendDelta l (persistentDelta p q).entries = .ok q.log := by
    rw [appendDelta_indexed hplain (by rw [hwhole]; exact h.plain'.indexed), hwhole]
    exact congrArg _ ((hplain.withEntries h.plain'.indexed).eq_of_entries h.plain' rfl)
  have hterm : ¬(persistentDelta p q).term < p.term := Nat.not_lt.2 h.term_le
  have hlast : ¬(persistentDelta p q).truncateAfter > p.log.lastIndex := by
    rw [h.plain.lastIndex]
    exact Nat.not_lt.2 hle
  have htruncate : p.log.truncateAfter (persistentDelta p q).truncateAfter = l := rfl
  simp only [applyDelta, if_neg hterm, if_neg hlast, htruncate, hlog]
  rfl

end

/-! ## Chains of saves -/

namespace RaftStore

variable {format : Serializer PersistentDelta}

theorem replay_append {kind : RecordKind} {rs rs' : List StoredRecord} {error : Option WalError} :
    ∀ {p q : Persistent}, replay format kind p rs none = .ok q →
      replay format kind p (rs ++ rs') error = replay format kind q rs' error := by
  induction rs with
  | nil =>
    intro p q h
    cases h
    rfl
  | cons r rs ih =>
    intro p q h
    rw [replay] at h
    rw [List.cons_append, replay]
    split_ifs at h ⊢ with hkind
    cases hdecode : format.decode r.record.payload with
    | none => simp [hdecode] at h
    | some delta =>
      simp only [hdecode] at h ⊢
      cases happly : applyDelta p delta with
      | error e => simp [happly] at h
      | ok p' =>
        simp only [happly] at h ⊢
        exact ih h

/-- The loop of `apply_delta` checks the indices. -/
theorem appendDelta_plain {es : List Entry} : ∀ {l l' : Log}, l.Plain →
    appendDelta l es = .ok l' → l'.Plain := by
  induction es with
  | nil =>
    intro l l' hl h
    cases h
    exact hl
  | cons e es ih =>
    intro l l' hl h
    rw [appendDelta] at h
    split_ifs at h with hindex
    exact ih (hl.append (by rw [not_not.1 hindex, hl.lastIndex])) h

theorem applyDelta_plain {p q : Persistent} {delta : PersistentDelta} (hp : p.log.Plain)
    (h : applyDelta p delta = .ok q) : q.log.Plain := by
  unfold applyDelta at h
  dsimp only at h
  split_ifs at h
  split at h
  · cases h
  · next log happend =>
    cases h
    refine appendDelta_plain ?_ happend
    rw [hp.truncateAfter]
    exact hp.withEntries (hp.indexed.take _)

theorem replay_plain {kind : RecordKind} {rs : List StoredRecord} {error : Option WalError} :
    ∀ {p q : Persistent}, p.log.Plain → replay format kind p rs error = .ok q → q.log.Plain := by
  induction rs with
  | nil =>
    intro p q hp h
    cases error with
    | some e => cases h
    | none =>
      cases h
      exact hp
  | cons r rs ih =>
    intro p q hp h
    rw [replay] at h
    split_ifs at h
    split at h
    · cases h
    · split at h
      · cases h
      · next happly => exact ih (applyDelta_plain hp happly) h

/-- Whatever the directory holds, a store is only opened with a log in sequence. -/
theorem open_plain {d d' : Dir} {initial : Persistent} {s : RaftStore}
    (hinitial : initial.log.Plain) (h : RaftStore.open format d initial = (d', .ok s)) :
    s.durable.log.Plain := by
  unfold RaftStore.open at h
  split at h
  · cases h
  · next d₁ wal _ =>
    simp only [Prod.mk.injEq] at h
    have hrecover := h.2
    unfold recover at hrecover
    split at hrecover
    · cases hrecover
    · split at hrecover
      · cases hrecover
      · next hreplay =>
        cases hrecover
        exact replay_plain hinitial hreplay

/-- A save that succeeds makes the value durable. It never changes the snapshot. -/
theorem save_ok {s s' : RaftStore} {faults : SaveFaults} {current : Persistent}
    (h : s.save format faults current = (.ok (), s')) :
    s'.durable = current ∧ current.log.snapshotIndex = s.durable.log.snapshotIndex := by
  unfold save at h
  split_ifs at h with hsnap
  · cases h
  · split at h
    · cases h
    · split at h
      · cases h
      · split at h
        · cases h
        · cases h
          exact ⟨rfl, not_not.1 hsnap⟩

/-- Save values one after the other, without an error of the file system. -/
def saveAll (format : Serializer PersistentDelta) (s : RaftStore) :
    List Persistent → Except StoreError RaftStore
  | [] => .ok s
  | p :: ps => match s.save format {} p with
    | (.error e, _) => .error e
    | (.ok (), s) => s.saveAll format ps

/-- What is in the log leads from the initial value to the durable one. -/
structure Holds (format : Serializer PersistentDelta) (initial : Persistent) (s : RaftStore)
    (l : Layout) : Prop where
  laid : s.wal.Laid l
  options : s.wal.options = {}
  healthy : s.wal.poisoned = false
  next : l.next = []
  kind : s.kind = raftStateKind
  replayed : replay format raftStateKind initial l.stored none = .ok s.durable

/-- A save adds a record, behind all that was written before. -/
theorem save_adds {initial current : Persistent} {s s' : RaftStore} {l : Layout}
    (h : Holds format initial s l) (hprec : s.durable.Precedes current)
    (hsave : s.save format {} current = (.ok (), s')) :
    ∃ l' r, Holds format initial s' l' ∧ l.Adds l' r ∧ s'.durable = current ∧
      (r.lsn = ⟨s.wal.activeId, s.wal.activeLen⟩ ∨ r.lsn = ⟨s.wal.activeId + 1, 0⟩) := by
  unfold save at hsave
  by_cases hsnap : current.log.snapshotIndex ≠ s.durable.log.snapshotIndex
  · rw [if_pos hsnap] at hsave
    exact absurd hsave (by simp)
  rw [if_neg hsnap] at hsave
  cases hencode : format.encode (persistentDelta s.durable current) with
  | none => simp [hencode] at hsave
  | some encoded =>
    simp only [hencode] at hsave
    obtain ⟨l₁, happend⟩ := Wal.append_laid h.laid {} s.kind (h.laid.clear h.next encoded)
    generalize s.wal.append {} s.kind encoded = out at happend hsave
    obtain ⟨e | lsn, w₁⟩ := out
    · exact absurd hsave (by simp)
    · have hp₁ : w₁.poisoned = false := happend.healthy rfl
      simp only [Wal.sync_healthy hp₁, Bool.false_eq_true, if_false, Prod.mk.injEq,
        true_and] at hsave
      subst hsave
      have hadds : l.Adds { l₁ with active := l₁.active.sync } ⟨lsn, ⟨s.kind, encoded⟩⟩ :=
        happend.added rfl
      refine ⟨_, _,
        ⟨happend.laid.sync, happend.options.trans h.options, hp₁, happend.next rfl, h.kind,
        ?_⟩, hadds, rfl, (happend.place rfl).imp_right And.right⟩
      rw [hadds.stored_eq, replay_append h.replayed, replay, h.kind]
      simp [format.decode_of_encode hencode, applyDelta_persistentDelta hprec, replay]

theorem save_holds {initial current : Persistent} {s s' : RaftStore} {l : Layout}
    (h : Holds format initial s l) (hprec : s.durable.Precedes current)
    (hsave : s.save format {} current = (.ok (), s')) :
    ∃ l' r, Holds format initial s' l' ∧ l.Adds l' r ∧ s'.durable = current := by
  obtain ⟨l', r, h', hadds, hdurable, -⟩ := save_adds h hprec hsave
  exact ⟨l', r, h', hadds, hdurable⟩

theorem saveAll_holds {initial : Persistent} {ps : List Persistent} : ∀ {s s' : RaftStore}
    {l : Layout}, Holds format initial s l → (s.durable :: ps).IsChain Persistent.Precedes →
    s.saveAll format ps = .ok s' →
    ∃ l', Holds format initial s' l' ∧ s'.durable = ps.getLastD s.durable := by
  induction ps with
  | nil =>
    intro s s' l h _ hrun
    cases hrun
    exact ⟨l, h, rfl⟩
  | cons p ps ih =>
    intro s s' l h hchain hrun
    rw [List.isChain_cons_cons] at hchain
    obtain ⟨result, s₁, hsave⟩ : ∃ result s₁, s.save format {} p = (result, s₁) := ⟨_, _, rfl⟩
    rw [saveAll, hsave] at hrun
    cases result with
    | error e => exact absurd hrun (by simp)
    | ok u =>
      obtain ⟨l₁, -, h₁, -, hdurable⟩ := save_holds h hchain.1 hsave
      rw [← hdurable] at hchain
      obtain ⟨l', h', hlast⟩ := ih h₁ hchain.2 hrun
      exact ⟨l', h', by rw [hlast, hdurable, List.getLastD_cons]⟩

theorem open_empty (format : Serializer PersistentDelta) (initial : Persistent) :
    ∃ s l, RaftStore.open format Dir.empty initial = (s.wal.dir, .ok s) ∧
      Holds format initial s l ∧ s.durable = initial := by
  obtain ⟨w, hopen, hoptions, hp, hlaid⟩ := @Wal.open_empty {} rfl
  refine ⟨⟨w, raftStateKind, initial⟩, _, ?_, ⟨hlaid, hoptions, hp, rfl, rfl, rfl⟩, rfl⟩
  simp only [RaftStore.open, hopen, recover, hlaid.records_eq hp]
  rfl

/-- Opening after the last segment was cut. -/
theorem Holds.reopen {initial : Persistent} {s : RaftStore} {l : Layout}
    (h : Holds format initial s l) (k : ℕ) {q : Persistent}
    (hq : replay format raftStateKind initial (l.records ++
      (FrameReader.Framed.whole 0 k l.frames).map (storedAt l.closed.length)) none = .ok q) :
    ∃ s' l', RaftStore.open format (s.wal.dir.update s.wal.activeId (·.truncate k)) initial =
        (s'.wal.dir, .ok s') ∧ Holds format initial s' l' ∧ s'.durable = q := by
  obtain ⟨w, f', hopen, hp, -, hlaid⟩ :=
    @Wal.Laid.open_truncated _ _ {} h.laid h.healthy h.next rfl h.options k
  have hrecords := hlaid.records_eq hp
  refine ⟨⟨w, raftStateKind, q⟩, _, ?_, ⟨hlaid, Wal.open_options hopen, hp, rfl, rfl, hq⟩, rfl⟩
  simp only [RaftStore.open, hopen, recover, hrecords, Layout.stored, hq]

/-- Opening after the record of the last save was cut. -/
theorem Holds.reopen_cut {initial : Persistent} {s s' : RaftStore} {l l' : Layout}
    {r : StoredRecord} (h : Holds format initial s l) (h' : Holds format initial s' l')
    (hadds : l.Adds l' r) {k : ℕ} (hk : r.lsn.offset ≤ k) :
    ∃ s'' l'', RaftStore.open format (s'.wal.dir.update s'.wal.activeId (·.truncate k)) initial =
        (s''.wal.dir, .ok s'') ∧ Holds format initial s'' l'' ∧
      s''.durable = if r.stop ≤ k then s'.durable else s.durable := by
  obtain ⟨frames, f, hframes, rfl, hstored⟩ := hadds
  have hstop : (storedAt l'.closed.length f).stop = f.stop :=
    stop_storedAt h'.laid.framed (by simp [hframes])
  have hframed := h'.laid.framed
  rw [hframes] at hframed
  have hwhole := hframed.whole_concat (k := k) (by rw [Nat.zero_add]; exact hk)
  rw [Nat.zero_add] at hwhole
  refine h'.reopen k ?_
  rw [hframes, hwhole, hstop]
  split_ifs with hwhole
  · rw [← hframes]
    exact h'.replayed
  · rw [List.append_nil, hstored]
    exact h.replayed

theorem Holds.open_cut {initial : Persistent} {s s' : RaftStore} {l l' : Layout} {r : StoredRecord}
    (h : Holds format initial s l) (h' : Holds format initial s' l') (hadds : l.Adds l' r) {k : ℕ}
    (hk : r.lsn.offset ≤ k) :
    ∃ s'', RaftStore.open format (s'.wal.dir.update r.lsn.segmentId (·.truncate k)) initial =
        (s''.wal.dir, .ok s'') ∧
      s''.durable = if r.stop ≤ k then s'.durable else s.durable := by
  obtain ⟨s'', -, hopen, -, hdurable⟩ := h.reopen_cut h' hadds hk
  obtain ⟨frames, f, -, rfl, -⟩ := hadds
  have hid : (storedAt l'.closed.length f).lsn.segmentId = s'.wal.activeId := h'.laid.activeId.symm
  exact ⟨s'', hid ▸ hopen, hdurable⟩

end RaftStore

/-- **Recovery returns the last value that was saved whole.** The values satisfy Log Matching one
after the other. If a crash leaves any first bytes of the record of the last save, opening with the
same initial value gives the last value if the record is complete, and the one before it
otherwise. -/
theorem store_recovers (format : Serializer PersistentDelta) {p₀ p : Persistent}
    {ps : List Persistent} {s₀ s s' : RaftStore}
    (hchain : (p₀ :: (ps ++ [p])).IsChain Persistent.Precedes)
    (hopen : RaftStore.open format Dir.empty p₀ = (s₀.wal.dir, .ok s₀))
    (hsaved : s₀.saveAll format ps = .ok s) (hlast : s.save format {} p = (.ok (), s')) :
    s₀.durable = p₀ ∧ s.durable = ps.getLastD p₀ ∧ s'.durable = p ∧
      ∃ stored r, s.wal.records = .ok (stored, none) ∧ s'.wal.records = .ok (stored ++ [r], none) ∧
        ∀ k, r.lsn.offset ≤ k → ∃ s'',
          RaftStore.open format (s'.wal.dir.update r.lsn.segmentId (·.truncate k)) p₀ =
            (s''.wal.dir, .ok s'') ∧
          s''.durable = if r.stop ≤ k then p else ps.getLastD p₀ := by
  obtain ⟨s₁, l₀, hopen', h₀, hinitial⟩ := RaftStore.open_empty format p₀
  obtain rfl : s₀ = s₁ := by
    rw [hopen] at hopen'
    exact Except.ok.inj (Prod.mk.inj hopen').2
  rw [← hinitial, ← List.cons_append, List.isChain_append] at hchain
  obtain ⟨hps, -, hjoin⟩ := hchain
  obtain ⟨l, h, hdurable⟩ := RaftStore.saveAll_holds h₀ hps hsaved
  have hprec : s.durable.Precedes p := by
    refine hjoin s.durable ?_ p (by simp)
    rw [List.getLast?_cons, hdurable, List.getLastD_eq_getLast?]
    rfl
  obtain ⟨l', r, h', hadds, hdurable'⟩ := RaftStore.save_holds h hprec hlast
  rw [hinitial] at hdurable
  refine ⟨hinitial, hdurable, hdurable', l.stored, r, h.laid.records_eq h.healthy, ?_,
    fun k hk => ?_⟩
  · rw [← hadds.stored_eq]
    exact h'.laid.records_eq h'.healthy
  · rw [← hdurable, ← hdurable']
    exact h.open_cut h' hadds hk

/-! ## The JSON of deltas -/

namespace PersistentDelta

open Json (Decodes Value)
open Json.Value (u64 list option)

def toJson (delta : PersistentDelta) : List UInt8 :=
  Json.object [
    ("term", Json.decimal delta.term),
    ("voted_for", delta.votedFor.elim (Json.utf8 "null") Json.decimal),
    ("bootstrap_config", delta.bootstrapConfig.toJson),
    ("truncate_after", Json.decimal delta.truncateAfter),
    ("entries", Json.array (delta.entries.map Entry.toJson))]

def ofJson (v : Value) : Option PersistentDelta :=
  (v.structWith ["voted_for"] (.cons "term" u64 (.cons "voted_for" (option u64)
    (.cons "bootstrap_config" Configuration.ofJson (.cons "truncate_after" u64
      (.one "entries" (list Entry.ofJson))))))).map
    fun p => ⟨p.1, p.2.1, p.2.2.1, p.2.2.2.1, p.2.2.2.2⟩

def numbers (delta : PersistentDelta) : List ℕ :=
  delta.term :: delta.truncateAfter :: (delta.votedFor.toList ++ delta.bootstrapConfig.numbers ++
    delta.entries.flatMap Entry.numbers)

theorem decodes {delta : PersistentDelta} (h : Fits64 delta.numbers) :
    Decodes delta.toJson ofJson delta := by
  simp only [numbers, fits64_cons, fits64_append, fits64_flatMap] at h
  obtain ⟨hterm, htruncate, ⟨hvote, hconfig⟩, hentries⟩ := h
  have hvotes : Decodes (delta.votedFor.elim (Json.utf8 "null") Json.decimal) (option u64)
      delta.votedFor :=
    Json.decodes_option (fun id hid => Json.decodes_u64 (hvote id (Option.mem_toList.2 hid))) rfl
  exact Json.Decodes.map (Json.decodes_structWith (.cons _ (Json.decodes_u64 hterm)
    (.cons _ hvotes (.cons _ (Configuration.decodes hconfig) (.cons _ (Json.decodes_u64 htruncate)
      (.one _ (Json.decodes_list fun e he => Entry.decodes (hentries e he)))))))
    (by decide) rfl) rfl

end PersistentDelta

def jsonDelta : Serializer PersistentDelta :=
  Json.serializer PersistentDelta.toJson PersistentDelta.ofJson (fun delta => Fits64 delta.numbers)
    fun _ => PersistentDelta.decodes

/-- A node's state with one entry, of its own term. -/
def singleEntry (term : ℕ) (cmd : Command) : Persistent :=
  { Core.initialPersistent [0] with
    term
    votedFor := some 0
    log := Log.empty.append ⟨term, 1, .command cmd⟩ }

theorem singleEntry_plain (term : ℕ) (cmd : Command) : (singleEntry term cmd).log.Plain :=
  Log.plain_empty.append rfl

/-- A store on an empty directory. -/
def freshStore : RaftStore :=
  ⟨⟨Dir.empty.set 0 File.empty, {}, 0, 0, 0, false⟩, raftStateKind, Core.initialPersistent [0]⟩

/-- An entry that is overwritten in a later term: after a crash that leaves five bytes of the
record, the first one is there. -/
theorem store_recovers_overwritten :
    ∃ (s s' s'' : RaftStore) (stored : List StoredRecord) (r : StoredRecord),
      freshStore.saveAll jsonDelta [singleEntry 1 [7]] = .ok s ∧
      s.save jsonDelta {} (singleEntry 2 [9]) = (.ok (), s') ∧
      s'.wal.records = .ok (stored ++ [r], none) ∧
      RaftStore.open jsonDelta
          (s'.wal.dir.update r.lsn.segmentId (·.truncate (r.lsn.offset + 5)))
          (Core.initialPersistent [0]) = (s''.wal.dir, .ok s'') ∧
      s''.durable = singleEntry 1 [7] := by
  have hchain : (Core.initialPersistent [0] :: ([singleEntry 1 [7]] ++ [singleEntry 2 [9]])).IsChain
      Persistent.Precedes := by
    refine List.isChain_cons_cons.2 ⟨⟨Log.plain_empty, singleEntry_plain _ _, by decide, ?_⟩,
      List.isChain_cons_cons.2 ⟨⟨singleEntry_plain _ _, singleEntry_plain _ _, by decide, ?_⟩,
        List.isChain_singleton _⟩⟩
    · intro i hi _ _
      obtain rfl : i = 0 := Nat.le_zero.1 hi
      rfl
    · intro i hi _ hterm
      rcases Nat.le_one_iff_eq_zero_or_eq_one.1 hi with rfl | rfl
      · rfl
      · exact absurd hterm (by decide)
  have heval : (freshStore.saveAll jsonDelta [singleEntry 1 [7]]).toOption.map
      (fun s => (s.save jsonDelta {} (singleEntry 2 [9])).1.isOk) = some true := by
    decide +kernel
  cases hsaved : freshStore.saveAll jsonDelta [singleEntry 1 [7]] with
  | error e => simp [hsaved, Except.toOption] at heval
  | ok s =>
    simp only [hsaved, Except.toOption, Option.map_some, Option.some.injEq] at heval
    obtain ⟨result, s', hlast⟩ : ∃ result s',
        s.save jsonDelta {} (singleEntry 2 [9]) = (result, s') := ⟨_, _, rfl⟩
    rw [hlast] at heval
    cases result with
    | error e => exact absurd heval (by simp [Except.isOk, Except.toBool])
    | ok u =>
      obtain ⟨-, -, -, stored, r, -, hrecords, hcut⟩ :=
        store_recovers jsonDelta hchain rfl hsaved hlast
      obtain ⟨s'', hopen, hdurable⟩ := hcut (r.lsn.offset + 5) (Nat.le_add_right _ _)
      have htorn : ¬r.stop ≤ r.lsn.offset + 5 := by
        unfold StoredRecord.stop headerLen
        omega
      rw [if_neg htorn] at hdurable
      exact ⟨s, s', s'', stored, r, rfl, hlast, hrecords, hopen, hdurable⟩

end Cloud9
