import Mathlib.Data.Finset.Card
import Cloud9.Raft.LeaderCalls
import Cloud9.Raft.Words

/-!
# The commit loop ends

The loop of `Leader.maybe_commit` may append to the log whose entries it commits. It goes on only
after it has passed a joint configuration, and what it appends is simple, so there are fewer joint
configurations above the commit index after every such turn (`jointsAbove_ssubset`).

`commitTurns` is the loop without a last turn. It ends, with the result of `maybeCommit`, and unless
the leader steps down nothing is left to be committed. The loop of the source counts in words, and
the broadcast in it can panic; on a contiguous log with room for the targets it moves the commit
index and appends as `commitTurns` does, so it ends, too, and a second call does nothing
(`maybeCommit_terminates`). On a log with gaps it can panic (`maybeCommit_panics`).
-/

namespace Cloud9

namespace Leader

/-- The loop of `maybe_commit`, or nothing if it has not ended after `n` turns. -/
def commitTurns : ℕ → Leader → Core → Effects → Option (Leader × Core × Effects × Bool)
  | 0, _, _, _ => none
  | n + 1, l, core, effects =>
    let oldCommit := core.commitIndex
    let core := l.advanceCommitIndex core
    if core.commitIndex = oldCommit then some (l, core, effects, false)
    else match l.processCommittedConfigs core oldCommit with
      | (l, core, .continue e) => commitTurns n l core (effects.merge e)
      | (l, core, .stepDown e) => some (l, core, effects.merge e, true)
      | (l, core, .done) => some (l, core, effects, false)

/-! ## The number of turns -/

/-- The positions of the joint configurations above the commit index. -/
def jointsAbove (core : Core) : Finset ℕ :=
  (Finset.range core.log.entries.length).filter fun i =>
    core.commitIndex < core.log.snapshotIndex + 1 + i ∧
      targetAt core (core.log.snapshotIndex + 1 + i) ≠ none

theorem targetAt_position (core : Core) (i : ℕ) :
    targetAt core (core.log.snapshotIndex + 1 + i) =
      (core.log.entries[i]?.bind fun e => e.payload.asConfig).bind
        Configuration.transitionTarget := by
  rw [targetAt, core.log.get_eq, if_neg (by omega)]
  congr 3
  omega

/-- A turn that goes on leaves fewer of them. -/
theorem jointsAbove_ssubset {core : Core} {idx k : ℕ} {target : Configuration}
    (hlo : core.commitIndex < idx) (hhi : idx ≤ k) (h : targetAt core idx = some target) :
    jointsAbove (appendEntry (core.setCommitIndex k) (.config target)) ⊂ jointsAbove core := by
  obtain ⟨cfg, hcfg, htarget⟩ := Option.bind_eq_some_iff.1 h
  have hsnap : core.log.snapshotIndex < idx := by
    by_contra hle
    obtain ⟨e, he, -⟩ := Option.bind_eq_some_iff.1 hcfg
    rw [core.log.get_eq, if_pos (Nat.le_of_not_lt hle)] at he
    cases he
  obtain ⟨i, rfl⟩ : ∃ i, idx = core.log.snapshotIndex + 1 + i :=
    ⟨idx - (core.log.snapshotIndex + 1), by omega⟩
  refine Finset.ssubset_iff_subset_ne.2 ⟨fun j hj => ?_, fun heq => ?_⟩
  · have hentries : (appendEntry (core.setCommitIndex k) (.config target)).log.entries =
        core.log.entries ++ [⟨core.term, core.log.lastIndex + 1, .config target⟩] := rfl
    obtain ⟨hj, hk, hpos⟩ := Finset.mem_filter.1 hj
    have hk : k < core.log.snapshotIndex + 1 + j := hk
    rw [targetAt_position, hentries] at hpos
    rw [Finset.mem_range, hentries, List.length_append, List.length_singleton] at hj
    rcases Nat.lt_or_ge j core.log.entries.length with hlt | hge
    · rw [List.getElem?_append_left hlt, ← targetAt_position] at hpos
      exact Finset.mem_filter.2 ⟨Finset.mem_range.2 hlt, by omega, hpos⟩
    · obtain rfl : j = core.log.entries.length := by omega
      rw [List.getElem?_concat_length] at hpos
      exact absurd (Configuration.transitionTarget_target htarget) hpos
  · have hi : i < core.log.entries.length := by
      rw [targetAt_position] at h
      obtain ⟨_, hcfg', -⟩ := Option.bind_eq_some_iff.1 h
      obtain ⟨e, he, -⟩ := Option.bind_eq_some_iff.1 hcfg'
      exact (List.getElem?_eq_some_iff.1 he).1
    have hmem : i ∈ jointsAbove core :=
      Finset.mem_filter.2 ⟨Finset.mem_range.2 hi, hlo, by rw [h]; exact Option.some_ne_none _⟩
    rw [← heq] at hmem
    have hk : k < core.log.snapshotIndex + 1 + i := (Finset.mem_filter.1 hmem).2.1
    omega

/-- With more turns than there are joint configurations above the commit index the loop ends. -/
theorem exists_commitTurns {n : ℕ} : ∀ (l : Leader) (core : Core) (effects : Effects),
    (jointsAbove core).card < n → ∃ r, commitTurns n l core effects = some r := by
  induction n with
  | zero => exact fun _ _ _ h => absurd h (Nat.not_lt_zero _)
  | succ n ih =>
    intro l core effects h
    obtain ⟨k, hadv, -⟩ := l.advanceCommitIndex_spec core
    unfold commitTurns
    simp only [hadv]
    split_ifs with hsame
    · exact ⟨_, rfl⟩
    rcases l.processCommittedConfigs_split core k with
      ⟨hr, -⟩ | ⟨idx, cfg, hlo, hhi, hcfg, ⟨-, hr⟩ | ⟨-, target, htarget, hr⟩⟩
    · rw [hr]
      exact ⟨_, rfl⟩
    · rw [hr]
      exact ⟨_, rfl⟩
    · rw [hr]
      have hfewer := Finset.card_lt_card (jointsAbove_ssubset hlo hhi
        (Option.bind_eq_some_iff.2 ⟨cfg, hcfg, htarget⟩))
      exact ih _ _ _ (Nat.lt_of_lt_of_le hfewer (Nat.le_of_lt_succ h))

/-- A loop that has ended gives its result for every larger number of turns. -/
theorem maybeCommitLoop_of_commitTurns {n : ℕ} {r : Leader × Core × Effects × Bool} (extra : ℕ) :
    ∀ {l : Leader} {core : Core} {effects : Effects}, commitTurns n l core effects = some r →
      maybeCommitLoop (n + extra) l core effects = r := by
  induction n with
  | zero => exact fun h => by cases h
  | succ n ih =>
    intro l core effects h
    rw [Nat.succ_add_eq_add_succ, Nat.add_succ]
    unfold commitTurns at h
    unfold maybeCommitLoop
    simp only at h ⊢
    split_ifs at h ⊢ with hsame
    · exact Option.some.inj h
    · generalize l.processCommittedConfigs (l.advanceCommitIndex core) core.commitIndex = out at h ⊢
      obtain ⟨l', core', result⟩ := out
      cases result with
      | «continue» e => exact ih h
      | stepDown e => exact Option.some.inj h
      | done => exact Option.some.inj h

/-- `maybeCommit` allows as many turns as there are entries and one more. -/
theorem card_jointsAbove_le (core : Core) : (jointsAbove core).card ≤ core.log.entries.length :=
  (Finset.card_filter_le _ _).trans (Nat.le_of_eq (Finset.card_range _))

/-- **`maybe_commit` ends**: after one turn more than there are joint configurations above the
commit index, or earlier. -/
theorem commitTurns_eq (l : Leader) (core : Core) :
    commitTurns ((jointsAbove core).card + 1) l core Effects.none = some (l.maybeCommit core) := by
  obtain ⟨r, hr⟩ := exists_commitTurns l core Effects.none
    (Nat.lt_succ_self (jointsAbove core).card)
  have hle := card_jointsAbove_le core
  have hloop := maybeCommitLoop_of_commitTurns
    (core.log.entries.length - (jointsAbove core).card) hr
  rw [hr, maybeCommit, ← hloop]
  congr 2
  omega

/-- The bound on the turns is never the reason that the loop of `maybeCommit` ends. -/
theorem maybeCommit_turns (l : Leader) (core : Core) (extra : ℕ) :
    maybeCommitLoop (core.log.entries.length + 1 + extra) l core Effects.none =
      l.maybeCommit core := by
  have hle := card_jointsAbove_le core
  have hloop := maybeCommitLoop_of_commitTurns
    (core.log.entries.length - (jointsAbove core).card + extra) (l.commitTurns_eq core)
  rw [← hloop]
  congr 1
  omega

/-! ## Nothing is left to be committed -/

/-- No entry above the commit index can be committed. -/
def Rests (l : Leader) (core : Core) : Prop :=
  ∀ k, core.commitIndex < k → k ≤ core.log.lastIndex → l.committable core k = false

theorem Rests.advanceCommitIndex {l : Leader} {core : Core} (h : l.Rests core) :
    l.advanceCommitIndex core = core := by
  obtain ⟨k, hadv, rfl | ⟨hlt, hle, hcommit⟩⟩ := l.advanceCommitIndex_spec core
  · exact hadv
  · rw [h k hlt hle] at hcommit
    cases hcommit

/-- A search from above finds the highest number. -/
theorem eq_false_of_find?_reverse_range' {p : ℕ → Bool} {start n k : ℕ}
    (h : ((List.range' start n).reverse.find? p) = some k) {j : ℕ} (hlo : k < j)
    (hhi : j < start + n) : p j = false := by
  induction n with
  | zero => simp at h
  | succ n ih =>
    rw [List.range'_concat, List.reverse_append, List.reverse_singleton, List.singleton_append,
      List.find?_cons, Nat.one_mul] at h
    cases hp : p (start + n) with
    | true =>
      rw [hp] at h
      have := Option.some.inj h
      omega
    | false =>
      rw [hp] at h
      rcases Nat.lt_or_ge j (start + n) with hlt | hge
      · exact ih h hlt
      · obtain rfl : j = start + n := by omega
        exact hp

/-- The commit index goes to the highest entry that can be committed. -/
theorem rests_advanceCommitIndex (l : Leader) (core : Core) :
    l.Rests (l.advanceCommitIndex core) := by
  unfold Leader.advanceCommitIndex
  split
  · next k hfind =>
    intro j hlo hhi
    refine eq_false_of_find?_reverse_range' (p := l.committable core) hfind hlo ?_
    have hhi : j ≤ core.log.lastIndex := hhi
    have hlo : k < j := hlo
    omega
  · next hfind =>
    intro j hlo hhi
    have hmem : j ∈ commitCandidates core := by
      rw [commitCandidates, List.mem_reverse, List.mem_range'_1]
      omega
    simpa using List.find?_eq_none.1 hfind j hmem

/-- A loop that ends without stepping down leaves nothing to be committed. -/
theorem rests_of_commitTurns {n : ℕ} {r : Leader × Core × Effects × Bool} :
    ∀ {l : Leader} {core : Core} {effects : Effects}, commitTurns n l core effects = some r →
      r.2.2.2 = false → r.1.Rests r.2.1 := by
  induction n with
  | zero => exact fun h => by cases h
  | succ n ih =>
    intro l core effects h hstays
    have hrests := l.rests_advanceCommitIndex core
    obtain ⟨k, hadv, -⟩ := l.advanceCommitIndex_spec core
    rw [hadv] at hrests
    unfold commitTurns at h
    simp only [hadv] at h
    split_ifs at h with hsame
    · cases h
      exact hrests
    rcases l.processCommittedConfigs_split core k with
      ⟨hr, -⟩ | ⟨_, cfg, -, -, -, ⟨-, hr⟩ | ⟨-, target, -, hr⟩⟩
    · rw [hr] at h
      cases h
      exact hrests
    · rw [hr] at h
      cases h
      cases hstays
    · rw [hr] at h
      exact ih h hstays

/-! ## The loop on words -/

/-- How the search through the committed configurations `idxs` ends, on naturals with the leader `l`
and on words with `l'`: at the same place. What a leader has sent so far plays no part in it. -/
inductive Stops (l l' : Leader) (core : Core) (idxs : List ℕ) :
    Leader × Core × ConfigCommitResult → Option (Leader × Core × ConfigCommitResult) → Prop
  | done : Stops l l' core idxs (l, core, .done) (some (l', core, .done))
  | down (idx : ℕ) (hidx : idx ∈ idxs) (cfg : Configuration)
      (hcfg : configEntry core idx = some cfg)
      (hvoter : cfg.isVoter core.id = false) (e e' : Effects) :
    Stops l l' core idxs (l, core, .stepDown e) (some (l', core, .stepDown e'))
  | joint (idx : ℕ) (hidx : idx ∈ idxs) (target : Configuration)
      (htarget : targetAt core idx = some target) :
    Stops l l' core idxs ((l.appendTransitionTarget core target).1,
        (l.appendTransitionTarget core target).2.1,
        .continue (l.appendTransitionTarget core target).2.2)
      ((l'.appendTransitionTarget? core target).map fun r => (r.1, r.2.1, .continue r.2.2))

theorem Stops.cons {l l' : Leader} {core : Core} {idxs : List ℕ}
    {r : Leader × Core × ConfigCommitResult} {r' : Option (Leader × Core × ConfigCommitResult)}
    (h : Stops l l' core idxs r r') (idx : ℕ) : Stops l l' core (idx :: idxs) r r' := by
  cases h with
  | done => exact .done
  | down i hi cfg hcfg hvoter e e' =>
    exact .down i (List.mem_cons_of_mem _ hi) cfg hcfg hvoter e e'
  | joint i hi target htarget => exact .joint i (List.mem_cons_of_mem _ hi) target htarget

theorem processConfigs_stops (l l' : Leader) (core : Core) (idxs : List ℕ) :
    Stops l l' core idxs (l.processConfigs core idxs) (l'.processConfigs? core idxs) := by
  induction idxs with
  | nil => exact .done
  | cons idx rest ih =>
    rw [processConfigs, processConfigs?]
    generalize hcfg : ((core.log.get idx).bind fun e => e.payload.asConfig) = entry
    cases entry with
    | none => exact ih.cons idx
    | some cfg =>
      dsimp only
      cases hvoter : cfg.isVoter core.id with
      | false => exact .down idx List.mem_cons_self cfg hcfg hvoter _ _
      | true =>
        rw [Bool.not_true, if_neg Bool.false_ne_true, if_neg Bool.false_ne_true]
        generalize htarget : cfg.transitionTarget = next
        cases next with
        | none => exact ih.cons idx
        | some target =>
          exact .joint idx List.mem_cons_self target
            (Option.bind_eq_some_iff.2 ⟨cfg, hcfg, htarget⟩)

theorem processCommittedConfigs_stops (l l' : Leader) (core : Core) {oldCommit : ℕ}
    (hcommit : oldCommit + 1 < 2 ^ 64) :
    Stops l l' core (List.range' (oldCommit + 1) (core.commitIndex - oldCommit))
      (l.processCommittedConfigs core oldCommit) (l'.processCommittedConfigs? core oldCommit) := by
  have hwords : l'.processCommittedConfigs? core oldCommit =
      l'.processConfigs? core (List.range' (oldCommit + 1) (core.commitIndex - oldCommit)) := by
    rw [processCommittedConfigs?, wrappingAdd_of_lt hcommit, Nat.add_sub_add_right]
  rw [hwords]
  exact processConfigs_stops l l' core _

theorem advanceCommitIndex_congr {l l' : Leader} (h : l'.matchIndex = l.matchIndex) (core : Core) :
    l'.advanceCommitIndex core = l.advanceCommitIndex core := by
  have hcommittable : l'.committable core = l.committable core := by
    funext k
    rw [committable, committable, h]
  rw [advanceCommitIndex, advanceCommitIndex, hcommittable]

/-- With room for one more entry, the target of a joint configuration is appended as on naturals. -/
theorem appendTransitionTarget?_eq {l l' : Leader} {core : Core}
    (hmatch : l'.matchIndex = l.matchIndex) (hlog : core.log.Contiguous)
    (hlast : core.log.lastIndex + 1 < 2 ^ 64) (target : Configuration) :
    ∃ r, l'.appendTransitionTarget? core target = some r ∧
      r.1.matchIndex = (l.appendTransitionTarget core target).1.matchIndex ∧
      r.2.1 = appendEntry core (.config target) := by
  have hcont : (appendEntry core (.config target)).log.Contiguous := hlog.append rfl
  have hentry := appendEntry64_eq hlast (.config target)
  obtain ⟨r, hr⟩ := broadcastAppend?_of_contiguous
    (l := l'.reinitProgress64 (appendEntry core (.config target))) hcont
  refine ⟨(r.1, _, r.2.withPersist), by rw [appendTransitionTarget?, hentry, hr]; rfl, ?_, rfl⟩
  show r.1.matchIndex = ((l.reinitProgress _).broadcastAppend _).1.matchIndex
  rw [broadcastAppend?_matchIndex hr, broadcastAppend_matchIndex, reinitProgress64, reinitProgress,
    hmatch]

/-- **The loop on words** commits and appends as the loop on naturals does, if the log is contiguous
and there is room for the targets of the joint configurations above the commit index. -/
theorem commitTurns?_simulates {turns : ℕ} {r : Leader × Core × Effects × Bool} :
    ∀ {l l' : Leader} {core : Core} {e e' : Effects}, l'.matchIndex = l.matchIndex →
      core.log.Contiguous → core.commitIndex + 1 < 2 ^ 64 →
      core.log.lastIndex + (jointsAbove core).card + 1 < 2 ^ 64 →
      commitTurns turns l core e = some r →
      ∃ r', commitTurns? turns l' core e' = some r' ∧ r'.1.matchIndex = r.1.matchIndex ∧
        r'.2.1 = r.2.1 ∧ r'.2.2.2 = r.2.2.2 ∧ r.2.1.commitIndex + 1 < 2 ^ 64 := by
  induction turns with
  | zero => exact fun _ _ _ _ h => by cases h
  | succ turns ih =>
    intro l l' core e e' hmatch hlog hcommit hroom h
    have hadv' : l'.advanceCommitIndex64 core = l.advanceCommitIndex core := by
      rw [advanceCommitIndex64_eq hcommit, advanceCommitIndex_congr hmatch]
    obtain ⟨k, hadv, hk⟩ := l.advanceCommitIndex_spec core
    unfold commitTurns at h
    unfold commitTurns?
    simp only [hadv] at h
    simp only [hadv', hadv]
    split_ifs at h ⊢ with hsame
    · cases h
      exact ⟨_, rfl, hmatch, rfl, rfl, by rwa [hsame]⟩
    have hlo : core.commitIndex < k := lt_of_le_of_ne hk.le (Ne.symm hsame)
    have hhi : k ≤ core.log.lastIndex := hk.within.resolve_left (Ne.symm (Nat.ne_of_lt hlo))
    have hstops := processCommittedConfigs_stops l l' (core.setCommitIndex k) hcommit
    generalize l.processCommittedConfigs (core.setCommitIndex k) core.commitIndex = out at h hstops
    generalize l'.processCommittedConfigs? (core.setCommitIndex k) core.commitIndex =
      out' at hstops ⊢
    cases hstops with
    | done =>
      cases h
      exact ⟨_, rfl, hmatch, rfl, rfl, by show k + 1 < _; omega⟩
    | down =>
      cases h
      exact ⟨_, rfl, hmatch, rfl, rfl, by show k + 1 < _; omega⟩
    | joint idx hidx target htarget =>
      have hlog' : (core.setCommitIndex k).log.Contiguous := hlog
      have hlast : (core.setCommitIndex k).log.lastIndex + 1 < 2 ^ 64 := by
        show core.log.lastIndex + 1 < _
        omega
      obtain ⟨r', hr', hmatch', hcore'⟩ := appendTransitionTarget?_eq hmatch hlog' hlast target
      -- One more entry, and one joint configuration fewer.
      have hfewer : jointsAbove (appendEntry (core.setCommitIndex k) (.config target)) ⊂
          jointsAbove core := by
        obtain ⟨hfirst, hstop⟩ := List.mem_range'_1.1 hidx
        have hstop : idx < core.commitIndex + 1 + (k - core.commitIndex) := hstop
        exact jointsAbove_ssubset hfirst (by omega) htarget
      have hcard := Finset.card_lt_card hfewer
      have hnew : (appendEntry (core.setCommitIndex k) (.config target)).log.lastIndex =
          core.log.lastIndex + 1 := Log.lastIndex_append _ _
      rw [hr']
      simp only [Option.map_some, hcore']
      exact ih hmatch' (hlog.append rfl) (by show k + 1 < _; omega) (by rw [hnew]; omega) h

/-- If all configurations above the commit index are simple ones with the leader as a voter, only
the commit index changes. -/
theorem maybeCommit?_of_passes {l : Leader} {core : Core} (hcommit : core.commitIndex + 1 < 2 ^ 64)
    (hpass : ∀ idx, core.commitIndex < idx → passes core idx) (turns : ℕ) :
    l.maybeCommit? (turns + 1) core = some (l, l.advanceCommitIndex core, Effects.none, false) := by
  obtain ⟨k, hadv, -⟩ := l.advanceCommitIndex_spec core
  rw [maybeCommit?, commitTurns?]
  simp only [advanceCommitIndex64_eq hcommit, hadv]
  split_ifs with hsame
  · rfl
  have hstops := processCommittedConfigs_stops l l (core.setCommitIndex k) hcommit
  generalize l.processCommittedConfigs (core.setCommitIndex k) core.commitIndex = out at hstops
  generalize l.processCommittedConfigs? (core.setCommitIndex k) core.commitIndex = out' at hstops ⊢
  cases hstops with
  | done => rfl
  | down idx hidx cfg hcfg hvoter =>
    have hpass := hpass idx (List.mem_range'_1.1 hidx).1 cfg hcfg
    exact absurd hpass.1 (by rw [Bool.not_eq_true]; exact hvoter)
  | joint idx hidx target htarget =>
    obtain ⟨cfg, hcfg, hjoint⟩ := Option.bind_eq_some_iff.1 htarget
    have hpass := hpass idx (List.mem_range'_1.1 hidx).1 cfg hcfg
    rw [hpass.2] at hjoint
    cases hjoint

/-- Nothing is left to be committed, so that another call returns at once. -/
theorem Rests.maybeCommit? {l l' : Leader} {core : Core} (h : l.Rests core)
    (hmatch : l'.matchIndex = l.matchIndex) (hcommit : core.commitIndex + 1 < 2 ^ 64) (turns : ℕ) :
    l'.maybeCommit? (turns + 1) core = some (l', core, Effects.none, false) := by
  have hadv : l'.advanceCommitIndex64 core = core := by
    rw [advanceCommitIndex64_eq hcommit, advanceCommitIndex_congr hmatch, h.advanceCommitIndex]
  rw [Leader.maybeCommit?, commitTurns?]
  simp only [hadv, if_true]

/-- **The commit loop terminates in a fixpoint**, for every leader state and every core with a
contiguous log that has room: the index after the commit index is a `u64`, and so are the indices of
the targets that the loop may append, one for each joint configuration above the commit index, and
the one after them. It takes at most one turn more than the log has entries, and does not panic; and
unless it reports that the leader must step down, calling `maybe_commit` again changes nothing,
neither the log nor the commit index nor the leader's own state, and emits no effects. -/
theorem maybeCommit_terminates {l : Leader} {core : Core} (hlog : core.log.Contiguous)
    (hcommit : core.commitIndex + 1 < 2 ^ 64)
    (hroom : core.log.lastIndex + (jointsAbove core).card + 1 < 2 ^ 64) :
    ∃ turns ≤ core.log.entries.length + 1, ∃ r, l.maybeCommit? turns core = some r ∧
      (r.2.2.2 = false → ∀ more,
        r.1.maybeCommit? (more + 1) r.2.1 = some (r.1, r.2.1, Effects.none, false)) := by
  have hbase := l.commitTurns_eq core
  obtain ⟨r, hr, hmatch, hcore, hdown, hcommit'⟩ :=
    commitTurns?_simulates (l := l) rfl hlog hcommit hroom hbase
  refine ⟨_, Nat.succ_le_succ (card_jointsAbove_le core), r, hr, fun hstays more => ?_⟩
  rw [hcore]
  exact (rests_of_commitTurns hbase (hdown ▸ hstays)).maybeCommit? hmatch hcommit' more

/-- A node with two entries, the first of them a joint configuration that keeps node 0 as the only
voter and node 1 as a learner. -/
def jointAlone (second : Entry) : Core :=
  Core.restore { Config.new 0 with parallelDiskWrite := false }
    { Core.initialPersistent [0] with
      term := 1
      log := { Log.empty with
        entries := [⟨1, 1, .config (.joint (.ofList [0]) (.ofList [0]) (.ofList [1]))⟩, second] } }

/-- Node 0 leads and has everything, and sends to node 1 from the beginning. -/
def aloneLeader (core : Core) : Leader :=
  { Leader.initial core with
    nextIndex := IndexMap.empty.insert 1 1
    matchIndex := IndexMap.empty.insert 0 2 }

/-- It commits the joint configuration and, in the turn after, the target that it has appended in
between. -/
theorem maybeCommit_terminates_alone :
    let core := jointAlone ⟨1, 2, .command []⟩
    ((aloneLeader core).maybeCommit? 1 core).isNone = true ∧
      ∃ turns ≤ 3, ∃ r, (aloneLeader core).maybeCommit? turns core = some r ∧
        (r.2.2.2 = false → ∀ more,
          r.1.maybeCommit? (more + 1) r.2.1 = some (r.1, r.2.1, Effects.none, false)) := by
  intro core
  have hplain : core.log.Plain := by decide
  exact ⟨by decide +kernel,
    maybeCommit_terminates hplain.contiguous (by decide) (by decide +kernel)⟩

/-- A panic in the first turn. -/
theorem maybeCommit?_eq_none {l : Leader} {core : Core}
    (hmoved : (l.advanceCommitIndex64 core).commitIndex ≠ core.commitIndex)
    (hpanic : (l.processCommittedConfigs? (l.advanceCommitIndex64 core) core.commitIndex).isNone =
      true) (turns : ℕ) : l.maybeCommit? turns core = none := by
  cases turns with
  | zero => rfl
  | succ turns =>
    rw [maybeCommit?, commitTurns?]
    simp only [if_neg hmoved, Option.isNone_iff_eq_none.1 hpanic]

/-- **The commit loop can panic.** The second entry has index 7, as a follower takes it from a
request that skips indices. The leader commits both entries and appends the target with index 8 to a
log of three entries, and reading what to send to node 1 panics: the loop has no result, whatever
the number of turns. -/
theorem maybeCommit_panics :
    let core := jointAlone ⟨1, 7, .command []⟩
    (appendEntry64 core (.config (.simple (.ofList [0]) (.ofList [1])))).log.slice? 1 9 = none ∧
      ∀ turns, (aloneLeader core).maybeCommit? turns core = none := by
  intro core
  exact ⟨by decide +kernel, maybeCommit?_eq_none (by decide +kernel) (by decide +kernel)⟩

end Leader

end Cloud9
