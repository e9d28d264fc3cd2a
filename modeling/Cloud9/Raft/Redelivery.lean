import Cloud9.Raft.SendWindow

/-!
# One append request at a follower

A request that was built from a leader's log `L`, or from an earlier state of it, reaches a follower
whose log matches `L`. However late it comes and however often, it does not take anything of `L`
away from the follower, and the second time it changes nothing (`redelivery_harmless`).

The answer says more than the request has shown: it names the whole log of the follower, and what is
beyond the request was not compared with `L`. `acknowledged_iff` says when the answer is right all
the same.

The leader may have discarded the first part of its log (`Log.Represents`).
-/

namespace Cloud9

namespace Log

/-- `log` is what is left of the log `L` after its first part became a snapshot. -/
@[mk_iff]
structure Represents (log : Log) (L : List Entry) : Prop where
  indexed : Indexed L
  positive : PositiveTerms L
  snapshotIndex : log.snapshotIndex ≤ L.length
  snapshotTerm : log.snapshotTerm = entryTerm L log.snapshotIndex
  entries : log.entries = L.drop log.snapshotIndex

/-- A snapshot-free log with positive terms that matches `L`. -/
@[mk_iff]
structure Comparable (log : Log) (L : List Entry) : Prop where
  plain : log.Plain
  positive : PositiveTerms log.entries
  matching : Matching log.entries L

instance (log : Log) (L : List Entry) : Decidable (log.Represents L) :=
  decidable_of_iff' _ (represents_iff log L)

instance (log : Log) (L : List Entry) : Decidable (log.Comparable L) :=
  decidable_of_iff' _ (comparable_iff log L)

namespace Represents

variable {log : Log} {L : List Entry}

theorem contiguous (h : log.Represents L) : log.Contiguous := by
  intro i e he
  rw [h.entries, List.getElem?_drop] at he
  exact h.indexed.index_eq he

theorem wellFormed (h : log.Represents L) : log.WellFormed where
  contiguous := h.contiguous
  terms e he := by
    rw [h.entries] at he
    exact h.positive e (List.mem_of_mem_drop he)
  snapshotTerm hpos := by
    rw [h.snapshotTerm]
    refine Nat.pos_of_ne_zero fun hzero => ?_
    have hle := h.snapshotIndex
    rcases (entryTerm_eq_zero_iff h.positive).1 hzero with h0 | hlt <;> omega

theorem lastIndex (h : log.Represents L) : log.lastIndex = L.length := by
  have hle := h.snapshotIndex
  rw [h.contiguous.lastIndex, h.entries, List.length_drop]
  omega

theorem get (h : log.Represents L) {i : ℕ} (hi : log.snapshotIndex < i + 1) :
    log.get (i + 1) = L[i]? := by
  rw [log.get_eq, if_neg (Nat.not_le.2 hi), h.entries, List.getElem?_drop]
  congr 1
  omega

theorem termAt (h : log.Represents L) {i : ℕ} (hi : log.snapshotIndex ≤ i) :
    log.termAt i = entryTerm L i := by
  rcases i with _ | i
  · rfl
  · rcases Nat.eq_or_lt_of_le hi with heq | hlt
    · rw [← heq, ← h.snapshotTerm]
      simp [Log.termAt, heq]
    · rw [log.termAt_eq hlt, h.get hlt, entryTerm_succ]

end Represents

end Log

theorem Follower.Inside.of_trueWindow {log : Log} {L : List Entry} {req : AppendRequest}
    (hlog : log.Represents L) (h : TrueWindow log req) : Inside L req := by
  have hstart := h.start
  refine ⟨by rw [← hlog.lastIndex]; exact h.prev, by rw [h.term, hlog.termAt hstart], ?_⟩
  rw [List.prefix_iff_getElem?]
  intro k hk
  have hentry := h.entries k _ (List.getElem?_eq_getElem hk)
  rw [Nat.add_right_comm, hlog.get (by omega)] at hentry
  rw [List.getElem?_drop]
  exact hentry

/-- `req` is an append request that `send_append_to` emits. -/
def Leader.Sends (l : Leader) (core : Core) (peer : NodeId) (req : AppendRequest) : Prop :=
  ∃ m ∈ (l.sendAppendTo64 core peer).2.messages, m.payload = .appendRequest req

instance (l : Leader) (core : Core) (peer : NodeId) (req : AppendRequest) :
    Decidable (l.Sends core peer req) :=
  inferInstanceAs
    (Decidable (∃ m ∈ (l.sendAppendTo64 core peer).2.messages, m.payload = .appendRequest req))

namespace Leader.Sends

variable {l : Leader} {core : Core} {peer : NodeId} {req : AppendRequest} {L : List Entry}

/-- The request starts right before `next_index`, wherever its batch ends. -/
theorem eq_slice (h : l.Sends core peer req) :
    core.log.snapshotIndex < (l.nextIndex peer).getD 1 ∧ ∃ stop, req =
      ⟨(l.nextIndex peer).getD 1 - 1, core.log.termAt ((l.nextIndex peer).getD 1 - 1),
        core.log.slice ((l.nextIndex peer).getD 1) stop, core.commitIndex⟩ := by
  obtain ⟨m, hm, hreq⟩ := h
  rcases Nat.lt_or_ge core.log.snapshotIndex ((l.nextIndex peer).getD 1) with hsnap | hsnap
  · rw [sendAppendTo64_sends hsnap] at hm
    obtain rfl := List.mem_singleton.1 hm
    cases hreq
    exact ⟨hsnap, _, rfl⟩
  · rw [sendAppendTo64_snapshot hsnap] at hm
    cases hm

theorem prevLogIndex (h : l.Sends core peer req) :
    req.prevLogIndex + 1 = (l.nextIndex peer).getD 1 := by
  obtain ⟨hsnap, stop, rfl⟩ := h.eq_slice
  exact Nat.sub_add_cancel (Nat.zero_lt_of_lt hsnap)

theorem inside (h : l.Sends core peer req) (hlog : core.log.Represents L)
    (hle : req.prevLogIndex ≤ L.length) : Follower.Inside L req := by
  have hnext : (l.nextIndex peer).getD 1 ≤ core.log.lastIndex + 1 := by
    rw [← h.prevLogIndex, hlog.lastIndex]
    exact Nat.succ_le_succ hle
  obtain ⟨hsnap, stop, rfl⟩ := h.eq_slice
  exact .of_trueWindow hlog (hlog.wellFormed.window hsnap hnext)

end Leader.Sends

namespace Follower

/-! ## Handling a request -/

/-- The core once the request is handled; only the timer and its generator change besides. -/
theorem handleAppendRequest_cases (f : Follower) (core : Core) (sender : NodeId)
    (req : AppendRequest) : ∃ core₀ : Core, core₀.log = core.log ∧
      core₀.commitIndex = core.commitIndex ∧
      ((prevMatches core req = true ∧
          (f.handleAppendRequest core sender req).2.1 = acceptAppend core₀ req ∧
          (f.handleAppendRequest core sender req).2.2.effects.messages =
            [(acceptAppend core₀ req).message sender
              (.appendResponse ⟨true, (acceptAppend core₀ req).log.lastIndex⟩)]) ∨
        (prevMatches core req = false ∧
          (f.handleAppendRequest core sender req).2.1 = core₀ ∧
          (f.handleAppendRequest core sender req).2.2.effects.messages =
            [core₀.message sender (.appendResponse ⟨false, core₀.log.lastIndex⟩)])) := by
  unfold handleAppendRequest
  refine ⟨(({ f with leader := some sender }.recordContact core).resetDeadline core).2, rfl,
    rfl, ?_⟩
  have hprev : prevMatches (({ f with leader := some sender }.recordContact core).resetDeadline
      core).2 req = prevMatches core req := rfl
  cases h : prevMatches core req with
  | true =>
    refine .inl ⟨rfl, ?_, ?_⟩ <;> simp only [hprev, h, if_true]
    split_ifs <;> rfl
  | false =>
    refine .inr ⟨rfl, ?_, ?_⟩ <;> simp only [hprev, h, Bool.false_eq_true, if_false]
    rfl

/-- The request is answered with success. -/
def accepts (f : Follower) (core : Core) (sender : NodeId) (req : AppendRequest) : Bool :=
  (f.handleAppendRequest core sender req).2.2.effects.messages.any fun m =>
    match m.payload with
    | .appendResponse resp => resp.success
    | _ => false

theorem accepts_eq (f : Follower) (core : Core) (sender : NodeId) (req : AppendRequest) :
    f.accepts core sender req = prevMatches core req := by
  unfold accepts
  obtain ⟨core₀, -, -, ⟨hprev, -, hm⟩ | ⟨hprev, -, hm⟩⟩ :=
    f.handleAppendRequest_cases core sender req
  all_goals
    rw [hm, hprev]
    rfl

section

variable {L : List Entry} (hL : Log.Indexed L) (hLpos : Log.PositiveTerms L) {core : Core}
  (hg : core.log.Comparable L) {req : AppendRequest} (hin : Inside L req)
include hL hLpos hg hin

/-- **An accepted request**: the log stays if it holds what the request covers of `L`, and is that
part of `L` otherwise. -/
theorem accepted_log (hprev : prevMatches core req = true) {core₀ : Core}
    (hlog : core₀.log = core.log) : (acceptAppend core₀ req).log = { core.log with
      entries := merged L core.log.entries (req.prevLogIndex + req.entries.length) } := by
  have hend := (accepted_inside hLpos hg.plain hg.matching hin hprev).2.1
  rw [acceptAppend_log, hlog, ← hend]
  exact accepted_entries hL hLpos hg.plain hg.positive hg.matching hin.window hprev

/-- What the request leaves is again comparable with `L`. -/
theorem accepted_comparable (hprev : prevMatches core req = true) {core₀ : Core}
    (hlog : core₀.log = core.log) : (acceptAppend core₀ req).log.Comparable L := by
  rw [accepted_log hL hLpos hg hin hprev hlog]
  refine ⟨hg.plain.withEntries (merged_indexed hL hg.plain.indexed _), ?_, ?_⟩
  all_goals
    rcases merged_cases L core.log.entries (req.prevLogIndex + req.entries.length) with h | h
  · rw [h]
    exact hg.positive
  · exact hLpos.of_isPrefix h
  · rw [h]
    exact hg.matching
  · exact .of_isPrefix h

/-! ## Twice -/

/-- The check passes again. -/
theorem accepted_again (hprev : prevMatches core req = true) {core₀ : Core}
    (hlog : core₀.log = core.log) : prevMatches (acceptAppend core₀ req) req = true := by
  have hagain := accepted_comparable hL hLpos hg hin hprev hlog
  have hpart : L.take req.prevLogIndex <+: (acceptAppend core₀ req).log.entries := by
    rw [accepted_log hL hLpos hg hin hprev hlog]
    exact (List.take_prefix_take_left (Nat.le_add_right _ _)).trans (merged_isPrefix ..)
  have hterm : 0 < req.prevLogIndex →
      (acceptAppend core₀ req).log.termAt req.prevLogIndex = req.prevLogTerm := by
    intro hpos
    obtain ⟨i, hi⟩ : ∃ i, req.prevLogIndex = i + 1 := ⟨_, (Nat.sub_add_cancel hpos).symm⟩
    have hlen := hin.prev
    have hLi : L[i]? = some (L.get ⟨i, by omega⟩) := List.getElem?_eq_getElem _
    have hthere : (L.take req.prevLogIndex)[i]? = some (L.get ⟨i, by omega⟩) := by
      rw [List.getElem?_take_of_lt (by omega), hLi]
    rw [hagain.plain.termAt, hin.term, hi, Log.entryTerm_of_getElem? hLi,
      Log.entryTerm_of_getElem? (hpart.getElem?_eq_some hthere)]
  rcases Nat.eq_zero_or_pos req.prevLogIndex with h0 | hpos
  · simp [prevMatches, h0]
  · simp [prevMatches, hterm hpos]

/-- Accepted for the second time, the request finds everything done. -/
theorem accepted_twice (hprev : prevMatches core req = true) {core₀ core₁ : Core}
    (hlog : core₀.log = core.log) (hlog₁ : core₁.log = (acceptAppend core₀ req).log)
    (hcommit₁ : core₁.commitIndex = (acceptAppend core₀ req).commitIndex) :
    (acceptAppend core₁ req).log = (acceptAppend core₀ req).log ∧
      (acceptAppend core₁ req).commitIndex = (acceptAppend core₀ req).commitIndex := by
  have hagain := accepted_again hL hLpos hg hin hprev hlog
  have hkeep : (acceptAppend core₁ req).log = (acceptAppend core₀ req).log := by
    rw [accepted_log hL hLpos (accepted_comparable hL hLpos hg hin hprev hlog) hin hagain hlog₁,
      accepted_log hL hLpos hg hin hprev hlog]
    dsimp only
    rw [merged_merged (Nat.le_refl _)]
  refine ⟨hkeep, ?_⟩
  have hlast : (appendEntries core₁.log req.entries).1.lastIndex =
      (appendEntries core₀.log req.entries).1.lastIndex := by
    rw [← acceptAppend_log, ← acceptAppend_log, hkeep]
  rw [acceptAppend_commitIndex core₁, hcommit₁, hlast, acceptAppend_commitIndex core₀]
  split_ifs <;> omega

end

end Follower

/-- **Delayed or repeated appends undo nothing.** A request that was built from `L'`, an earlier or
the current state of the log `L`, reaches a follower whose log is comparable with `L`. The part of
`L` that the follower holds does not shrink, an accepted request adds what it covers, and the same
request handled once more changes neither the log nor the commit index. -/
theorem redelivery_harmless {L L' : List Entry} {l : Leader} {lead : Core}
    (hlead : lead.log.Represents L') (hgrow : L' <+: L) (hL : Log.Indexed L)
    (hLpos : Log.PositiveTerms L) {peer : NodeId} {req : AppendRequest}
    (hnext : 1 ≤ (l.nextIndex peer).getD 1 ∧ (l.nextIndex peer).getD 1 ≤ L'.length + 1)
    (hsends : l.Sends lead peer req) {core : Core} (hcore : core.log.Comparable L)
    (f : Follower) (sender : NodeId) :
    let core' := (f.handleAppendRequest core sender req).2.1
    List.commonLength L core.log.entries ≤ List.commonLength L core'.log.entries ∧
      (f.accepts core sender req = true →
        req.prevLogIndex + req.entries.length ≤ List.commonLength L core'.log.entries) ∧
      ∀ (f' : Follower) (sender' : NodeId),
        (f'.handleAppendRequest core' sender' req).2.1.log = core'.log ∧
        (f'.handleAppendRequest core' sender' req).2.1.commitIndex = core'.commitIndex := by
  have hin : Follower.Inside L req := by
    refine (hsends.inside hlead ?_).mono hgrow
    have := hsends.prevLogIndex
    omega
  rw [f.accepts_eq]
  obtain ⟨core₀, hlog, hcommit, ⟨hprev, heq, -⟩ | ⟨hprev, heq, -⟩⟩ :=
    f.handleAppendRequest_cases core sender req
  · simp only [heq]
    have hmerged := Follower.accepted_log hL hLpos hcore hin hprev hlog
    refine ⟨?_, fun _ => ?_, fun f' sender' => ?_⟩
    · -- The common part is a prefix of both logs, and so of what the request leaves.
      have hle := List.commonLength_le_left L core.log.entries
      have hboth := (List.take_prefix_iff_commonLength hle).2 (Nat.le_refl _)
      rw [hmerged, ← List.take_prefix_iff_commonLength hle]
      exact Follower.prefix_merged hboth <| List.take_prefix _ _
    · have hle := (Follower.accepted_inside hLpos hcore.plain hcore.matching hin hprev).2.2
      rw [hmerged, ← List.take_prefix_iff_commonLength hle]
      exact Follower.merged_isPrefix ..
    · obtain ⟨core₁, hlog₁, hcommit₁, ⟨-, heq', -⟩ | ⟨hprev', -, -⟩⟩ :=
        f'.handleAppendRequest_cases (Follower.acceptAppend core₀ req) sender' req
      · rw [heq']
        exact Follower.accepted_twice hL hLpos hcore hin hprev hlog hlog₁ hcommit₁
      · rw [Follower.accepted_again hL hLpos hcore hin hprev hlog] at hprev'
        cases hprev'
  · simp only [heq, hlog, hprev]
    refine ⟨Nat.le_refl _, (fun h => by cases h), fun f' sender' => ?_⟩
    have hsame : Follower.prevMatches core₀ req = false := by
      rw [← hprev, Follower.prevMatches, Follower.prevMatches, hlog]
    obtain ⟨core₁, hlog₁, hcommit₁, ⟨hprev', -, -⟩ | ⟨-, heq', -⟩⟩ :=
      f'.handleAppendRequest_cases core₀ sender' req
    · rw [hsame] at hprev'
      cases hprev'
    · rw [heq', hlog₁, hcommit₁]
      exact ⟨hlog, rfl⟩

/-- A log with entries of the given terms. -/
def Log.ofTerms (terms : List ℕ) : Log :=
  { Log.empty with entries := terms.mapIdx fun i t => ⟨t, i + 1, .command []⟩ }

/-- A node of term 3 that sends two entries at a time. -/
def coreOf (id : NodeId) (terms : List ℕ) (commitIndex : ℕ) : Core :=
  { Core.restore { Config.new id with maxEntriesPerMsg := 1 }
      { Core.initialPersistent [0, 1, 2] with term := 3, log := .ofTerms terms } with
    commitIndex := commitIndex }

/-- A leader that has just been elected, but resumes at `next` with node 1. -/
def leaderAt (core : Core) (next : ℕ) : Leader :=
  let l := Leader.initial core
  { l with nextIndex := l.nextIndex.insert 1 next }

/-- A follower that parts from the leader at index 2 is brought in line by a request that was sent
before the leader appended its own entry. -/
theorem redelivery_harmless_late :
    let lead := coreOf 0 [1, 1] 0
    let L := (Log.ofTerms [1, 1, 3]).entries
    let core := coreOf 1 [1, 2, 2] 0
    let f := (Follower.new core none).1
    let req : AppendRequest := ⟨1, 1, [⟨1, 2, .command []⟩], 0⟩
    let core' := (f.handleAppendRequest core 0 req).2.1
    (leaderAt lead 2).Sends lead 1 req ∧ List.commonLength L core.log.entries = 1 ∧
      2 ≤ List.commonLength L core'.log.entries ∧
      (f.handleAppendRequest core' 0 req).2.1.log = core'.log := by
  intro lead L core f req core'
  have hlead : lead.log.Represents lead.log.entries := by decide
  have hgrow : lead.log.entries <+: L := by decide
  have hsends : (leaderAt lead 2).Sends lead 1 req := by decide
  have hcore : core.log.Comparable L := by decide
  obtain ⟨-, hadds, htwice⟩ := redelivery_harmless hlead hgrow (by decide) (by decide) (by decide)
    hsends hcore f 0
  exact ⟨hsends, by decide, hadds (by decide), (htwice f 0).1⟩

/-- **Without positive terms** the loop takes an entry of term 0 for none and does not replace it:
the request is accepted, and the follower has nothing of what it carries. -/
theorem zero_term_kept :
    let lead := coreOf 0 [1] 0
    let core := coreOf 1 [0] 0
    let f := (Follower.new core none).1
    let req : AppendRequest := ⟨0, 0, [⟨1, 1, .command []⟩], 0⟩
    lead.log.Represents lead.log.entries ∧ (leaderAt lead 1).Sends lead 1 req ∧
      core.log.Plain ∧ Log.Matching core.log.entries lead.log.entries ∧
      f.accepts core 0 req = true ∧ List.commonLength lead.log.entries
        (f.handleAppendRequest core 0 req).2.1.log.entries = 0 := by
  decide

/-! ## What the answer says -/

/-- The log holds the entries of `L` at the indices from 1 to `n`. -/
def Log.EqualsUpTo (log : Log) (L : List Entry) (n : ℕ) : Prop :=
  ∀ i, 1 ≤ i → i ≤ n → log.get i = Log.entryAt L i

theorem Log.Plain.equalsUpTo_iff {log : Log} (h : log.Plain) {L : List Entry} :
    log.EqualsUpTo L log.lastIndex ↔ log.entries <+: L := by
  rw [h.lastIndex, List.prefix_iff_getElem?]
  constructor
  · intro heq i hi
    have := heq (i + 1) (Nat.succ_pos i) hi
    rw [h.get, Log.entryAt, Log.entryAt, if_neg (Nat.succ_ne_zero i), if_neg (Nat.succ_ne_zero i),
      Nat.add_sub_cancel, List.getElem?_eq_getElem hi] at this
    exact this.symm
  · intro hpre i hpos hi
    rw [h.get, Log.entryAt, Log.entryAt, if_neg (by omega), if_neg (by omega),
      hpre (i - 1) (by omega), List.getElem?_eq_getElem (by omega)]

/-- What the follower acknowledges and what it commits is part of `L`. -/
def Follower.AnswersRight (f : Follower) (core : Core) (sender : NodeId) (req : AppendRequest)
    (L : List Entry) : Prop :=
  let core' := (f.handleAppendRequest core sender req).2.1
  (∀ m ∈ (f.handleAppendRequest core sender req).2.2.effects.messages, ∀ n,
      m.payload = .appendResponse ⟨true, n⟩ → core'.log.EqualsUpTo L n) ∧
    (core.commitIndex < core'.commitIndex → core'.log.EqualsUpTo L core'.commitIndex)

namespace Follower

section

variable {L : List Entry} (hL : Log.Indexed L) (hLpos : Log.PositiveTerms L) {core : Core}
  (hg : core.log.Comparable L) {req : AppendRequest} (hin : Inside L req)
  (hprev : prevMatches core req = true)
include hL hLpos hg hin hprev

/-- A longer log that the request does not cut holds what the request covers. -/
theorem covered_of_not_conflicts (hc : conflicts core.log req = false)
    (hlen : req.prevLogIndex + req.entries.length ≤ core.log.entries.length) :
    L.take (req.prevLogIndex + req.entries.length) <+: core.log.entries := by
  obtain ⟨hp, -, hle⟩ := accepted_inside hLpos hg.plain hg.matching hin hprev
  rcases List.eq_nil_or_concat' req.entries with hnil | ⟨init, e, hes⟩
  · rw [hnil]
    exact hp
  · -- The last entry of the request has the term of the follower's entry, so the logs match up to
    -- there.
    have hlast : req.entries[init.length]? = some e := by simp [hes]
    have hcount : req.entries.length = init.length + 1 := by simp [hes]
    have hLe : L[req.prevLogIndex + init.length]? = some e := by
      rw [← List.getElem?_drop]
      exact hin.entries.getElem?_eq_some hlast
    have hFe : core.log.entries[req.prevLogIndex + init.length]? =
        some (core.log.entries.get ⟨req.prevLogIndex + init.length, by omega⟩) :=
      List.getElem?_eq_getElem _
    have hterm := (List.any_eq_false.1 hc) e (List.mem_of_getElem? hlast)
    rw [hL.index_eq hLe, hg.plain.get, Log.entryAt, if_neg (Nat.succ_ne_zero _), Nat.add_sub_cancel,
      hFe] at hterm
    have heq := hg.matching _ _ _ hFe hLe (by simpa using hterm)
    rw [hcount, ← Nat.add_assoc, ← heq]
    exact List.take_prefix _ _

theorem merged_prefix_iff :
    merged L core.log.entries (req.prevLogIndex + req.entries.length) <+: L ↔
      core.log.lastIndex ≤ req.prevLogIndex + req.entries.length ∨
        conflicts core.log req = true ∨ core.log.entries <+: L := by
  obtain ⟨-, hend, hle⟩ := accepted_inside hLpos hg.plain hg.matching hin hprev
  rw [hg.plain.lastIndex]
  by_cases hcov : L.take (req.prevLogIndex + req.entries.length) <+: core.log.entries
  · rw [merged, if_pos hcov]
    refine ⟨fun h => .inr (.inr h), ?_⟩
    rintro (hshort | hc | h)
    · rw [← hcov.eq_of_length_le (by rw [List.length_take]; omega)]
      exact List.take_prefix _ _
    · have hcut := not_prefix_of_conflicts hL hLpos hg.plain hg.positive hg.matching hin.window
        hprev hc
      rw [hend] at hcut
      exact absurd hcov hcut
    · exact h
  · rw [merged, if_neg hcov]
    refine ⟨fun _ => ?_, fun _ => List.take_prefix _ _⟩
    by_contra hcon
    simp only [not_or, Nat.not_le, Bool.not_eq_true] at hcon
    exact hcov (covered_of_not_conflicts hL hLpos hg hin hprev hcon.2.1 (Nat.le_of_lt hcon.1))

end

end Follower

/-- **When an answer to an append request is right**: the request is refused, or the follower's log
ends within it, or is cut by it, or was part of the leader's log before. -/
theorem acknowledged_iff {L : List Entry} {l : Leader} {lead : Core}
    (hlead : lead.log.Represents L) {peer : NodeId} {req : AppendRequest}
    (hsends : l.Sends lead peer req) (hle : req.prevLogIndex ≤ L.length) {core : Core}
    (hcore : core.log.Comparable L) (f : Follower) (sender : NodeId) :
    f.AnswersRight core sender req L ↔ (Follower.prevMatches core req = true →
      core.log.lastIndex ≤ req.prevLogIndex + req.entries.length ∨
        Follower.conflicts core.log req = true ∨ core.log.entries <+: L) := by
  have hin := hsends.inside hlead hle
  have hL := hlead.indexed
  have hLpos := hlead.positive
  unfold Follower.AnswersRight
  obtain ⟨core₀, hlog, hcommit, ⟨hprev, heq, hm⟩ | ⟨hprev, heq, hm⟩⟩ :=
    f.handleAppendRequest_cases core sender req
  · have hplain := (Follower.accepted_comparable hL hLpos hcore hin hprev hlog).plain
    have hright := hplain.equalsUpTo_iff (L := L)
    rw [Follower.accepted_log hL hLpos hcore hin hprev hlog,
      Follower.merged_prefix_iff hL hLpos hcore hin hprev,
      ← Follower.accepted_log hL hLpos hcore hin hprev hlog] at hright
    simp only [heq, hm, hprev, List.mem_singleton, forall_eq, true_implies, ← hright]
    constructor
    · rintro ⟨hack, -⟩
      exact hack _ rfl
    · intro hall
      refine ⟨fun n hn => ?_, fun hrise i hpos hi => hall i hpos (Nat.le_trans hi ?_)⟩
      · cases hn
        exact hall
      · -- A commit index that rises is bounded by the last index.
        rw [Follower.acceptAppend_commitIndex] at hrise ⊢
        rw [Follower.acceptAppend_log]
        split_ifs at hrise ⊢ <;> omega
  · simp only [heq, hm, hprev, hcommit, Bool.false_eq_true, false_implies, iff_true,
      List.mem_singleton, forall_eq]
    exact ⟨nofun, fun h => absurd h (Nat.lt_irrefl _)⟩

/-- A follower that parts from the leader's log where the request reaches is cut, and its answer is
right. -/
theorem acknowledged_iff_cut :
    let lead := coreOf 0 [1, 1, 3] 3
    let core := coreOf 1 [1, 1, 2, 2] 0
    let f := (Follower.new core none).1
    let req : AppendRequest := ⟨1, 1, [⟨1, 2, .command []⟩, ⟨3, 3, .command []⟩], 3⟩
    (leaderAt lead 2).Sends lead 1 req ∧ f.accepts core 0 req = true ∧
      f.AnswersRight core 0 req lead.log.entries := by
  intro lead core f req
  have hsends : (leaderAt lead 2).Sends lead 1 req := by decide
  have hlead : lead.log.Represents lead.log.entries := by decide
  have hcore : core.log.Comparable lead.log.entries := by decide
  have hiff := acknowledged_iff hlead hsends (by decide) hcore f 0
  exact ⟨hsends, by decide, hiff.2 fun _ => .inr (.inl (by decide))⟩

/-- **The answer names entries that were not compared**: a batch that ends before the follower's log
parts from the leader's is accepted. The follower acknowledges index 3 and commits up to 3, where it
holds an entry of term 2 and the leader one of term 3. -/
theorem acknowledged_unverified :
    let lead := coreOf 0 [1, 1, 3] 3
    let core := coreOf 1 [1, 1, 2] 0
    let f := (Follower.new core none).1
    let req : AppendRequest := ⟨0, 0, [⟨1, 1, .command []⟩, ⟨1, 2, .command []⟩], 3⟩
    let core' := (f.handleAppendRequest core 0 req).2.1
    lead.log.Represents lead.log.entries ∧ (leaderAt lead 1).Sends lead 1 req ∧
      core.log.Comparable lead.log.entries ∧
      (f.handleAppendRequest core 0 req).2.2.effects.messages =
        [⟨1, 0, 3, .appendResponse ⟨true, 3⟩⟩] ∧ core'.commitIndex = 3 ∧
      core'.log.get 3 = some ⟨2, 3, .command []⟩ ∧
      Log.entryAt lead.log.entries 3 = some ⟨3, 3, .command []⟩ := by
  decide

end Cloud9
