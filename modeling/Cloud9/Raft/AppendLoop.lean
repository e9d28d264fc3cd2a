import Cloud9.Lib.ListPrefix
import Cloud9.Raft.Cluster

/-!
# What an accepted append request does to a log

The append loop of `Follower.handleAppendRequest` walks over the entries of the request, cuts the
log where it conflicts and appends what is missing. Against a leader's log `L` that matches the
follower's (`Log.Matching`) the loop has a closed form: with the request covering `L` up to
position `n`, the log stays as it is if `L.take n` is already part of it, and becomes `L.take n`
otherwise (`appendEntries_eq`).

The follower then answers with its *whole* last index, and moves its commit index with that as the
only bound. In the first case nothing beyond position `n` was compared with the leader's log.
`Follower.verified` names the requests for which something was: either the log ends within the
compared part, or it is cut, or its last entry was sent by this leader before.

Main results: `appendEntries_eq`, `accepted_entries` and `verified_prefix`.
-/

namespace Cloud9

namespace Log

/-- Logs that hold an entry of the same term at a position agree up to it. -/
def Matching (l l' : List Entry) : Prop :=
  ∀ i e e', l[i]? = some e → l'[i]? = some e' → e.term = e'.term → l.take (i + 1) = l'.take (i + 1)

/-- It is enough to look at the positions of one of the logs. -/
theorem matching_iff {l l' : List Entry} : Matching l l' ↔ ∀ i < l.length,
    l[i]?.map Entry.term = l'[i]?.map Entry.term → l.take (i + 1) = l'.take (i + 1) := by
  constructor
  · intro h i hi hterm
    rw [List.getElem?_eq_getElem hi] at hterm
    obtain ⟨e', he', heq⟩ := Option.map_eq_some_iff.1 hterm.symm
    exact h i _ e' (List.getElem?_eq_getElem hi) he' heq.symm
  · intro h i e e' he he' hterm
    exact h i (List.getElem?_eq_some_iff.1 he).1 (by rw [he, he', Option.map_some, hterm]; rfl)

instance (l l' : List Entry) : Decidable (Matching l l') := decidable_of_iff' _ matching_iff

def PositiveTerms (l : List Entry) : Prop := ∀ e ∈ l, 0 < e.term

instance (l : List Entry) : Decidable (PositiveTerms l) :=
  inferInstanceAs (Decidable (∀ e ∈ l, 0 < e.term))

theorem Matching.of_isPrefix {l l' : List Entry} (h : l <+: l') : Matching l l' := by
  intro i e e' he _ _
  exact (h.take_eq (List.getElem?_eq_some_iff.1 he).1).symm

theorem PositiveTerms.of_isPrefix {l l' : List Entry} (h : PositiveTerms l') (hp : l <+: l') :
    PositiveTerms l := fun e he => h e (hp.subset he)

theorem Indexed.index_eq {l : List Entry} (h : Indexed l) {i : ℕ} {e : Entry}
    (he : l[i]? = some e) : e.index = i + 1 := by
  obtain ⟨hlt, rfl⟩ := List.getElem?_eq_some_iff.1 he
  exact h i hlt

@[simp] theorem entryTerm_zero (l : List Entry) : entryTerm l 0 = 0 := rfl

theorem entryTerm_succ (l : List Entry) (i : ℕ) :
    entryTerm l (i + 1) = (l[i]?.map Entry.term).getD 0 := by
  simp [entryTerm, entryAt]

theorem entryTerm_of_getElem? {l : List Entry} {i : ℕ} {e : Entry} (h : l[i]? = some e) :
    entryTerm l (i + 1) = e.term := by
  rw [entryTerm_succ, h]
  rfl

/-- Terms are positive, so a position without term holds no entry. -/
theorem entryTerm_eq_zero_iff {l : List Entry} (hpos : PositiveTerms l) {i : ℕ} :
    entryTerm l i = 0 ↔ i = 0 ∨ l.length < i := by
  rcases i with _ | i
  · simp
  · rw [entryTerm_succ]
    rcases hi : l[i]? with _ | e
    · have := List.getElem?_eq_none_iff.1 hi
      simp only [Option.map_none, Option.getD_none, true_iff]
      omega
    · have hlt := (List.getElem?_eq_some_iff.1 hi).1
      have := hpos e (List.mem_of_getElem? hi)
      simp only [Option.map_some, Option.getD_some]
      omega

/-- Terms are positive, so equal terms at a position of the leader's log mean that the follower
has an entry there. -/
theorem Matching.take_isPrefix {gs L : List Entry} (hm : Matching gs L) (hpos : PositiveTerms L)
    {p : ℕ} (hp : p ≤ L.length) (hterm : 0 < p → entryTerm gs p = entryTerm L p) :
    L.take p <+: gs := by
  rcases p with _ | p
  · simp
  have hL : L[p]? = some (L.get ⟨p, hp⟩) := List.getElem?_eq_getElem hp
  have ht := hterm (Nat.succ_pos p)
  rw [entryTerm_of_getElem? hL] at ht
  rcases hg : gs[p]? with _ | e
  · have hlt := hpos _ (List.mem_of_getElem? hL)
    rw [entryTerm_succ, hg] at ht
    simp only [Option.map_none, Option.getD_none] at ht
    omega
  · rw [entryTerm_of_getElem? hg] at ht
    rw [← hm p _ _ hg hL ht]
    exact List.take_prefix _ _

end Log

namespace Follower

open Log

/-- The log after the loop, of a request that covers the leader's log `L` up to `n`. -/
def merged (L gs : List Entry) (n : ℕ) : List Entry := if L.take n <+: gs then gs else L.take n

theorem merged_isPrefix (L gs : List Entry) (n : ℕ) : L.take n <+: merged L gs n := by
  unfold merged
  split_ifs with h
  · exact h
  · exact List.prefix_rfl

theorem merged_cases (L gs : List Entry) (n : ℕ) : merged L gs n = gs ∨ merged L gs n <+: L := by
  unfold merged
  split_ifs with h
  · exact .inl rfl
  · exact .inr <| List.take_prefix n L

/-- The loop keeps what the two logs have in common. -/
theorem prefix_merged {L gs p : List Entry} {n : ℕ} (hg : p <+: gs) (hL : p <+: L) :
    p <+: merged L gs n := by
  unfold merged
  split_ifs with h
  · exact hg
  · rcases List.prefix_or_prefix_of_prefix hL <| List.take_prefix n L with hp | hp
    · exact hp
    · exact absurd (hp.trans hg) h

/-- Covering `L` further after a first part is covering it at once. -/
theorem merged_merged {L gs : List Entry} {n m : ℕ} (hnm : n ≤ m) :
    merged L (merged L gs n) m = merged L gs m := by
  have hpre : L.take n <+: L.take m := List.take_prefix_take_left hnm
  by_cases hn : L.take n <+: gs
  · rw [show merged L gs n = gs from if_pos hn]
  · have hm : ¬L.take m <+: gs := fun h => hn (hpre.trans h)
    rw [show merged L gs n = L.take n from if_neg hn, show merged L gs m = L.take m from if_neg hm]
    unfold merged
    split_ifs with h
    · exact hpre.eq_of_length_le h.length_le
    · rfl

section

variable {L : List Entry} (hL : Indexed L)
include hL

/-- One turn of the loop. -/
theorem appendEntry_eq {g : Log} (hg : g.Plain) (hpos : PositiveTerms g.entries)
    (hm : Matching g.entries L) {p : ℕ} {e : Entry} (hp : L.take p <+: g.entries)
    (he : L[p]? = some e) (flag : Bool) :
    (appendEntry (g, flag) e).1 = { g with entries := merged L g.entries (p + 1) } := by
  have hplen : (L.take p).length = p := by
    have := (List.getElem?_eq_some_iff.1 he).1
    rw [List.length_take]
    omega
  have htake : L.take (p + 1) = L.take p ++ [e] := by
    rw [List.take_add_one, he]
    rfl
  unfold appendEntry
  simp only [hL.index_eq he, hg.termAt, Nat.add_sub_cancel]
  rcases hget : g.entries[p]? with _ | e'
  -- The log ends here: the entry is appended.
  · have hlen : g.entries.length ≤ p := List.getElem?_eq_none_iff.1 hget
    have hgs : L.take p = g.entries := hp.eq_of_length_le (by omega)
    have hnot : ¬L.take (p + 1) <+: g.entries := fun h => by
      have := h.length_le
      rw [htake, List.length_append, hplen, List.length_singleton] at this
      omega
    have hzero : ¬(entryTerm g.entries (p + 1) ≠ 0 ∧ entryTerm g.entries (p + 1) ≠ e.term) := by
      rw [entryTerm_succ, hget]
      simp
    have hend : p + 1 > g.lastIndex := by
      rw [hg.lastIndex]
      omega
    rw [if_neg hzero, if_pos hend, merged, if_neg hnot, htake, hgs]
    rfl
  rw [entryTerm_of_getElem? hget]
  have hlt := (List.getElem?_eq_some_iff.1 hget).1
  by_cases hterm : e'.term = e.term
  -- The entry is there already.
  · have hthere : L.take (p + 1) <+: g.entries := by
      rw [← hm p e' e hget he hterm]
      exact List.take_prefix _ _
    have hagree : ¬(e'.term ≠ 0 ∧ e'.term ≠ e.term) := fun h => h.2 hterm
    have hin : ¬p + 1 > g.lastIndex := by
      rw [hg.lastIndex]
      omega
    rw [if_neg hagree, if_neg hin, merged, if_pos hthere]
  -- The log conflicts: it is cut and the entry appended.
  · have hne : e'.term ≠ 0 := Nat.pos_iff_ne_zero.1 (hpos e' (List.mem_of_getElem? hget))
    have hnot : ¬L.take (p + 1) <+: g.entries := fun h => by
      have hthere : (L.take (p + 1))[p]? = some e := by
        rw [List.getElem?_take_of_lt (Nat.lt_succ_self p), he]
      have := h.getElem?_eq_some hthere
      rw [hget] at this
      exact hterm (congrArg Entry.term (Option.some.inj this))
    have hcut : g.entries.take p = L.take p := by
      rw [hp.take_eq (by omega), List.take_take, min_self]
    have hend : p + 1 > (g.truncateAfter p).lastIndex := by
      rw [hg.truncateAfter, (hg.withEntries (hg.indexed.take p)).lastIndex, List.length_take]
      omega
    have hconflict : e'.term ≠ 0 ∧ e'.term ≠ e.term := ⟨hne, hterm⟩
    rw [if_pos hconflict, if_pos hend, merged, if_neg hnot, htake, hg.truncateAfter, hcut]
    rfl

theorem merged_indexed {gs : List Entry} (hgs : Indexed gs) (n : ℕ) : Indexed (merged L gs n) := by
  rcases merged_cases L gs n with h | h
  · rwa [h]
  · exact hL.of_isPrefix h

theorem foldl_appendEntry_eq (hLpos : PositiveTerms L) (es : List Entry) :
    ∀ {g : Log} (flag : Bool) {p : ℕ}, g.Plain → PositiveTerms g.entries →
      Matching g.entries L → L.take p <+: g.entries → es <+: L.drop p →
      (es.foldl appendEntry (g, flag)).1 =
        { g with entries := merged L g.entries (p + es.length) } := by
  induction es with
  | nil =>
    intro g flag p _ _ _ hp _
    rw [List.length_nil, Nat.add_zero, merged, if_pos hp]
    rfl
  | cons e es ih =>
    intro g flag p hg hpos hm hp hes
    have he : L[p]? = some e := by
      have := hes.getElem?_eq_some (show (e :: es)[0]? = some e from rfl)
      rwa [List.getElem?_drop, Nat.add_zero] at this
    have hrest : es <+: L.drop (p + 1) := by
      obtain ⟨t, ht⟩ := hes
      refine ⟨t, ?_⟩
      rw [← List.drop_drop, ← ht]
      rfl
    have hstep := appendEntry_eq hL hg hpos hm hp he flag
    -- What the invariant of the loop needs of the log after one turn.
    have hnext : PositiveTerms (merged L g.entries (p + 1)) ∧
        Matching (merged L g.entries (p + 1)) L := by
      rcases merged_cases L g.entries (p + 1) with h | h
      · rw [h]
        exact ⟨hpos, hm⟩
      · exact ⟨hLpos.of_isPrefix h, .of_isPrefix h⟩
    rw [List.foldl_cons, ← Prod.eta (appendEntry (g, flag) e), hstep,
      ih _ (hg.withEntries (merged_indexed hL hg.indexed _)) hnext.1 hnext.2
        (merged_isPrefix L g.entries (p + 1)) hrest,
      merged_merged (by omega), List.length_cons, Nat.add_assoc, Nat.add_comm 1]

/-- **The append loop**: a request that continues a shared prefix with entries of `L`. -/
theorem appendEntries_eq (hLpos : PositiveTerms L) {g : Log} (hg : g.Plain)
    (hpos : PositiveTerms g.entries) (hm : Matching g.entries L) {p : ℕ} {es : List Entry}
    (hp : L.take p <+: g.entries) (hes : es <+: L.drop p) :
    (appendEntries g es).1 = { g with entries := merged L g.entries (p + es.length) } :=
  foldl_appendEntry_eq hL hLpos es false hg hpos hm hp hes

end

/-! ## Requests of a leader -/

/-- A request that a leader with log `L` builds: the entries after `prevLogIndex`, or none when
that index is beyond the log. -/
def Window (L : List Entry) (req : AppendRequest) : Prop :=
  (req.prevLogIndex ≤ L.length ∧ req.prevLogTerm = entryTerm L req.prevLogIndex ∧
    req.entries <+: L.drop req.prevLogIndex) ∨
  (0 < req.prevLogIndex ∧ req.prevLogTerm = 0 ∧ req.entries = [])

/-- The first of these: a request that starts at a position of `L`. -/
structure Inside (L : List Entry) (req : AppendRequest) : Prop where
  prev : req.prevLogIndex ≤ L.length
  term : req.prevLogTerm = entryTerm L req.prevLogIndex
  entries : req.entries <+: L.drop req.prevLogIndex

theorem Inside.mono {L L' : List Entry} {req : AppendRequest} (h : Inside L req) (hp : L <+: L') :
    Inside L' req := by
  refine ⟨Nat.le_trans h.prev hp.length_le, ?_, h.entries.trans (List.IsPrefix.drop hp _)⟩
  rw [h.term]
  rcases hi : req.prevLogIndex with _ | i
  · rfl
  · have hprev := h.prev
    have hL : L[i]? = some (L.get ⟨i, by omega⟩) := List.getElem?_eq_getElem _
    rw [entryTerm_of_getElem? hL, entryTerm_of_getElem? (hp.getElem?_eq_some hL)]

theorem Inside.window {L : List Entry} {req : AppendRequest} (h : Inside L req) : Window L req :=
  .inl ⟨h.prev, h.term, h.entries⟩

theorem Window.mono {L L' : List Entry} {req : AppendRequest} (h : Window L req) (hp : L <+: L') :
    Window L' req := by
  rcases h with ⟨hprev, hterm, hes⟩ | h
  · exact (Inside.mono ⟨hprev, hterm, hes⟩ hp).window
  · exact .inr h

theorem Window.mem {L : List Entry} {req : AppendRequest} (h : Window L req) {e : Entry}
    (he : e ∈ req.entries) : e ∈ L := by
  rcases h with ⟨-, -, hes⟩ | ⟨-, -, hnil⟩
  · exact List.mem_of_mem_drop (hes.subset he)
  · rw [hnil] at he
    cases he

/-- The request a leader sends from a position of its log. -/
theorem window_slice {g : Log} (hg : g.Plain) {next : ℕ} (hnext : 0 < next) (stop commit : ℕ) :
    Window g.entries ⟨next - 1, g.termAt (next - 1), g.slice next stop, commit⟩ := by
  rw [hg.slice hnext, hg.termAt]
  rcases Nat.lt_or_ge g.entries.length (next - 1) with hlt | hle
  · refine .inr ⟨Nat.zero_lt_of_lt hlt, ?_, ?_⟩
    · obtain ⟨i, hi⟩ : ∃ i, next - 1 = i + 1 := ⟨next - 2, by omega⟩
      simp only [hi, entryTerm_succ]
      rw [List.getElem?_eq_none (by omega)]
      rfl
    · exact List.drop_eq_nil_of_le (by rw [List.length_take]; omega)
  · have hpre := List.take_prefix stop g.entries
    exact .inl ⟨hle, rfl, hpre.drop _⟩

/-- How much of the log is compared with the leader's when the request is accepted. Nothing is,
if the request starts beyond the log. -/
def comparedEnd (log : Log) (req : AppendRequest) : ℕ :=
  if req.prevLogIndex = 0 ∨ (log.get req.prevLogIndex).isSome then
    req.prevLogIndex + req.entries.length
  else 0

theorem prevMatches_entryTerm {core : Core} (hg : core.log.Plain) {req : AppendRequest}
    (hprev : prevMatches core req = true) (h : 0 < req.prevLogIndex) :
    entryTerm core.log.entries req.prevLogIndex = req.prevLogTerm := by
  rw [← hg.termAt]
  simpa [prevMatches, h] using hprev

/-- The consistency check passed for a request that starts within the leader's log: the logs agree
up to `prevLogIndex`. -/
theorem accepted_inside {L : List Entry} (hLpos : PositiveTerms L) {core : Core}
    (hg : core.log.Plain) (hm : Matching core.log.entries L) {req : AppendRequest}
    (hin : Inside L req) (hprev : prevMatches core req = true) :
    L.take req.prevLogIndex <+: core.log.entries ∧
      comparedEnd core.log req = req.prevLogIndex + req.entries.length ∧
      req.prevLogIndex + req.entries.length ≤ L.length := by
  have hp : L.take req.prevLogIndex <+: core.log.entries :=
    hm.take_isPrefix hLpos hin.prev fun h => (prevMatches_entryTerm hg hprev h).trans hin.term
  have hlen := hin.prev
  refine ⟨hp, if_pos ?_, ?_⟩
  · have hget := hg.get req.prevLogIndex
    rcases hi : req.prevLogIndex with _ | i
    · exact .inl rfl
    · have := hp.length_le
      rw [List.length_take] at this
      rw [hi] at hget
      rw [hget, entryAt, if_neg (Nat.succ_ne_zero i), Nat.add_sub_cancel,
        List.getElem?_eq_getElem (by omega)]
      exact .inr rfl
  · have := hin.entries.length_le
    rw [List.length_drop] at this
    omega

section

variable {L : List Entry} (hL : Indexed L) (hLpos : PositiveTerms L) {core : Core}
  (hg : core.log.Plain) (hpos : PositiveTerms core.log.entries) (hm : Matching core.log.entries L)
  {req : AppendRequest} (hwin : Window L req) (hprev : prevMatches core req = true)
include hLpos hg hpos hm hwin hprev

/-- The consistency check passed: the logs agree up to `prevLogIndex`, or the request is beyond
the leader's log, has no entries and compares nothing. -/
theorem accepted_cases :
    (L.take req.prevLogIndex <+: core.log.entries ∧ req.entries <+: L.drop req.prevLogIndex ∧
      comparedEnd core.log req = req.prevLogIndex + req.entries.length ∧
      req.prevLogIndex + req.entries.length ≤ L.length) ∨
    (req.entries = [] ∧ comparedEnd core.log req = 0) := by
  rcases hwin with ⟨hlen, heq, hes⟩ | ⟨h0, heq, hes⟩
  · obtain ⟨hp, hend, hle⟩ := accepted_inside hLpos hg hm ⟨hlen, heq, hes⟩ hprev
    exact .inl ⟨hp, hes, hend, hle⟩
  · have hnone : core.log.get req.prevLogIndex = none := by
      by_contra hsome
      obtain ⟨e, he⟩ := Option.ne_none_iff_exists'.1 hsome
      have ht := prevMatches_entryTerm hg hprev h0
      rw [hg.get] at he
      rw [heq, entryTerm, he] at ht
      have hmem : e ∈ core.log.entries := by
        rw [entryAt, if_neg (by omega)] at he
        exact List.mem_of_getElem? he
      exact Nat.pos_iff_ne_zero.1 (hpos e hmem) ht
    refine .inr ⟨hes, ?_⟩
    rw [comparedEnd, hnone, if_neg]
    simp only [Option.isSome_none, Bool.false_eq_true, or_false]
    omega

theorem comparedEnd_le : comparedEnd core.log req ≤ L.length := by
  rcases accepted_cases hLpos hg hpos hm hwin hprev with ⟨-, -, hend, hle⟩ | ⟨-, hend⟩
  · rwa [hend]
  · rw [hend]
    exact Nat.zero_le _

include hL in
/-- **An accepted request** of a leader with log `L`. -/
theorem accepted_entries : (appendEntries core.log req.entries).1 =
    { core.log with entries := merged L core.log.entries (comparedEnd core.log req) } := by
  rcases accepted_cases hLpos hg hpos hm hwin hprev with ⟨hp, hes, hend, -⟩ | ⟨hes, hend⟩
  · rw [hend]
    exact appendEntries_eq hL hLpos hg hpos hm hp hes
  · rw [hend, hes, merged, if_pos (by simp)]
    rfl

end

/-! ## Verified requests -/

/-- The request replaces an entry of the log. -/
def conflicts (log : Log) (req : AppendRequest) : Bool :=
  req.entries.any fun e => (log.get e.index).any fun e' => e'.term ≠ e.term

def carries (term : ℕ) (e : Entry) (msg : Message) : Bool :=
  match msg.payload with
  | .appendRequest req => decide (msg.term = term ∧ e ∈ req.entries)
  | _ => false

/-- The last entry of the log was sent by the leader of the term. -/
def lastEntrySent (sent : List Message) (term : ℕ) (log : Log) : Bool :=
  log.entries.getLast?.any fun e => sent.any (carries term e)

/-- The leader of the term is known to hold everything that an accepted request leaves in the
log: the log ends where the comparison ends, or it is cut, or the leader sent its last entry. -/
def verified (sent : List Message) (log : Log) (msg : Message) : Bool :=
  match msg.payload with
  | .appendRequest req => decide (log.lastIndex ≤ comparedEnd log req) || conflicts log req ||
      lastEntrySent sent msg.term log
  | _ => true

theorem lastEntrySent_exists {sent : List Message} {term : ℕ} {log : Log}
    (h : lastEntrySent sent term log = true) : ∃ e, log.entries.getLast? = some e ∧
      ∃ m ∈ sent, m.term = term ∧ ∃ req, m.payload = .appendRequest req ∧ e ∈ req.entries := by
  unfold lastEntrySent at h
  rcases hlast : log.entries.getLast? with _ | e
  · simp [hlast] at h
  · rw [hlast, Option.any_some] at h
    obtain ⟨m, hm, hc⟩ := List.any_eq_true.1 h
    unfold carries at hc
    split at hc
    · next req hreq =>
      exact ⟨e, rfl, m, hm, (of_decide_eq_true hc).1, req, hreq, (of_decide_eq_true hc).2⟩
    · cases hc

section

variable {L : List Entry} (hL : Indexed L) (hLpos : PositiveTerms L) {core : Core}
  (hg : core.log.Plain) (hpos : PositiveTerms core.log.entries) (hm : Matching core.log.entries L)
  {req : AppendRequest} (hwin : Window L req) (hprev : prevMatches core req = true)
include hL hg hm

theorem prefix_of_lastEntrySent {sent : List Message} {term : ℕ}
    (hsent : ∀ m ∈ sent, m.term = term → ∀ req, m.payload = .appendRequest req → Window L req)
    (h : lastEntrySent sent term core.log = true) : core.log.entries <+: L := by
  obtain ⟨e, hlast, m, hmem, hterm, req, hreq, he⟩ := lastEntrySent_exists h
  obtain ⟨i, hi⟩ := List.mem_iff_getElem?.1 ((hsent m hmem hterm req hreq).mem he)
  rw [List.getLast?_eq_getElem?] at hlast
  have hlen := (List.getElem?_eq_some_iff.1 hlast).1
  have hidx : i = core.log.entries.length - 1 := by
    have h1 := hL.index_eq hi
    have h2 := hg.indexed.index_eq hlast
    omega
  have heq := hm _ e e hlast (hidx ▸ hi) rfl
  rw [Nat.sub_add_cancel (by omega), List.take_length] at heq
  rw [heq]
  exact List.take_prefix _ _

include hLpos hpos hwin hprev

theorem not_prefix_of_conflicts (hc : conflicts core.log req = true) :
    ¬L.take (comparedEnd core.log req) <+: core.log.entries := by
  intro hp
  obtain ⟨e, he, hany⟩ := List.any_eq_true.1 hc
  rcases accepted_cases hLpos hg hpos hm hwin hprev with ⟨-, hes, hend, -⟩ | ⟨hnil, -⟩
  · obtain ⟨j, hj⟩ := List.mem_iff_getElem?.1 he
    have hjlen := (List.getElem?_eq_some_iff.1 hj).1
    have hLj : L[req.prevLogIndex + j]? = some e := by
      rw [← List.getElem?_drop]
      exact hes.getElem?_eq_some hj
    -- The log holds this very entry, so it does not conflict there.
    have hthere : core.log.entries[req.prevLogIndex + j]? = some e := by
      refine hp.getElem?_eq_some ?_
      rw [hend, List.getElem?_take_of_lt (by omega), hLj]
    rw [hL.index_eq hLj, hg.get, entryAt, if_neg (Nat.succ_ne_zero _), Nat.add_sub_cancel,
      hthere] at hany
    simp at hany
  · rw [hnil] at he
    cases he

/-- **A verified request** leaves the follower with part of the leader's log. -/
theorem verified_prefix {sent : List Message}
    (hsent : ∀ m ∈ sent, m.term = core.term → ∀ req, m.payload = .appendRequest req →
      Window L req) {sender : NodeId}
    (hv : verified sent core.log ⟨sender, core.id, core.term, .appendRequest req⟩ = true) :
    merged L core.log.entries (comparedEnd core.log req) <+: L := by
  have hcases : (core.log.lastIndex ≤ comparedEnd core.log req ∨ conflicts core.log req = true) ∨
      lastEntrySent sent core.term core.log = true := by
    simpa [verified] using hv
  rcases hcases with (hend | hc) | hs
  · unfold merged
    split_ifs with hp
    -- The log ends within the compared part.
    · rw [hg.lastIndex] at hend
      have hlen := comparedEnd_le hLpos hg hpos hm hwin hprev
      have heq := hp.eq_of_length_le (by rw [List.length_take]; omega)
      rw [← heq]
      exact List.take_prefix _ _
    · exact List.take_prefix _ _
  · rw [merged, if_neg (not_prefix_of_conflicts hL hLpos hg hpos hm hwin hprev hc)]
    exact List.take_prefix _ _
  · rcases merged_cases L core.log.entries (comparedEnd core.log req) with h | h
    · rw [h]
      exact prefix_of_lastEntrySent hL hg hm hsent hs
    · exact h

end

end Follower

end Cloud9
