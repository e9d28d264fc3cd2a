import Cloud9.Lib.Run
import Cloud9.Raft.AppendLoop

/-!
# The repair of a log

A leader brings one follower's log in line with its own by a sequence of append requests. Seen
from the follower's log the exchange has three numbers: where the next request starts, how much
the leader believes to be matched, and how many entries a request holds. An accepted request
either reaches the place where the logs part, and cuts the follower's log there, or leaves it
alone. After a rejection the leader resumes at the end of the follower's log, wherever the two
logs part, so a rejected request can be followed by the same request again.

Main result: `Progress.reaches_iff`, the states from which the repair ends.
-/

namespace Cloud9

structure Progress where
  /-- Where the next request starts. -/
  next : ℕ
  /-- What the leader believes to be matched. -/
  matched : ℕ
  /-- The follower's log. -/
  log : List Entry

namespace Progress

open List

variable (pipelining : Bool) (batch : ℕ) (L : List Entry)

/-- The consistency check passes: the logs agree before the request, or both end before it. -/
def Accepts (s : Progress) : Prop :=
  s.next - 1 ≤ commonLength L s.log ∨ max L.length s.log.length < s.next - 1

instance (s : Progress) : Decidable (s.Accepts L) := by unfold Accepts; infer_instance

/-- The log after an accepted request of at most `batch + 1` entries. -/
def repaired (s : Progress) : List Entry :=
  if s.next - 1 ≤ commonLength L s.log then
    Follower.merged L s.log (min (s.next + batch) L.length)
  else s.log

/-- One exchange. -/
def round (s : Progress) : Progress :=
  if s.Accepts L then
    { next := if pipelining then max s.next (min (s.next + batch) L.length + 1)
        else (s.repaired batch L).length + 1
      matched := (s.repaired batch L).length
      log := s.repaired batch L }
  else
    { s with next := if pipelining then max (s.log.length + 1) (s.matched + 1)
        else s.log.length + 1 }

/-- The follower accepts, and its log contains the leader's. -/
def Done (s : Progress) : Prop := s.Accepts L ∧ L <+: s.repaired batch L

/-- A rejected request is followed by one that starts earlier. -/
def Lowers (s : Progress) : Prop := ¬s.Accepts L → (s.round pipelining batch L).next < s.next

/-- The repair ends. -/
def Repairs (s : Progress) : Prop :=
  Reaches (round pipelining batch L) (Lowers pipelining batch L) (Done batch L) s

/-- When the repair ends, by the lengths of the two logs and of their common prefix. -/
def Repairable (s : Progress) : Prop :=
  let c := commonLength L s.log
  if pipelining then
    s.next ≤ c + 1 ∨
    (s.log.length = c ∧ s.matched ≤ c ∧ s.next ≤ L.length + 1) ∨
    (c = L.length ∧ s.log.length + 1 < s.next)
  else
    s.log.length = c ∨
    (c < L.length ∧ s.next ≤ c + 1 ∧ c + 1 ≤ s.next + batch) ∨
    (c = L.length ∧ (s.next ≤ c + 1 ∨ s.log.length + 1 < s.next))

instance (s : Progress) : Decidable (s.Repairable pipelining batch L) := by
  unfold Repairable
  infer_instance

variable {pipelining batch L}

section

variable {s : Progress}

theorem round_of_accepts (h : s.Accepts L) : s.round pipelining batch L =
    { next := if pipelining then max s.next (min (s.next + batch) L.length + 1)
        else (s.repaired batch L).length + 1
      matched := (s.repaired batch L).length
      log := s.repaired batch L } := if_pos h

theorem round_of_rejects (h : ¬s.Accepts L) : s.round pipelining batch L =
    { s with next := if pipelining then max (s.log.length + 1) (s.matched + 1)
        else s.log.length + 1 } := if_neg h

theorem lowers_of_accepts (h : s.Accepts L) : s.Lowers pipelining batch L := fun hn =>
  absurd h hn

/-- An accepted request never shortens the common prefix. -/
theorem commonLength_repaired (batch : ℕ) (s : Progress) :
    commonLength L s.log ≤ commonLength L (s.repaired batch L) := by
  have hle := commonLength_le_left L s.log
  rw [← take_prefix_iff_commonLength hle]
  have hp := (take_prefix_iff_commonLength hle).2 le_rfl
  unfold repaired
  split_ifs
  · exact Follower.prefix_merged hp <| take_prefix _ _
  · exact hp

/-- The entries of an accepted request are in the log afterwards. -/
theorem batch_le_commonLength (batch : ℕ) (h : s.next - 1 ≤ commonLength L s.log) :
    min (s.next + batch) L.length ≤ commonLength L (s.repaired batch L) := by
  rw [← take_prefix_iff_commonLength (by omega), repaired, if_pos h]
  exact Follower.merged_isPrefix _ _ _

/-- A request that does not reach the place where the logs part leaves the log as it is. -/
theorem repaired_eq_log (h : s.next - 1 ≤ commonLength L s.log →
    min (s.next + batch) L.length ≤ commonLength L s.log) : s.repaired batch L = s.log := by
  unfold repaired
  split_ifs with hc
  · exact if_pos ((take_prefix_iff_commonLength (by omega)).2 (h hc))
  · rfl

/-- A request that reaches it cuts the log there. -/
theorem repaired_eq_take (h : s.next - 1 ≤ commonLength L s.log)
    (hreach : commonLength L s.log < min (s.next + batch) L.length) :
    s.repaired batch L = L.take (min (s.next + batch) L.length) := by
  rw [repaired, if_pos h]
  refine if_neg fun hp => ?_
  have := (take_prefix_iff_commonLength (by omega)).1 hp
  omega

theorem repaired_cases (batch : ℕ) (s : Progress) :
    s.repaired batch L = s.log ∨ s.repaired batch L <+: L := by
  unfold repaired
  split_ifs
  · exact Follower.merged_cases L s.log _
  · exact .inl rfl

theorem prefix_repaired (batch : ℕ) (h : s.log <+: L) : s.repaired batch L <+: L := by
  rcases s.repaired_cases (L := L) batch with heq | hp
  · rwa [heq]
  · exact hp

theorem commonLength_of_isPrefix {l : List Entry} (h : l <+: L) : commonLength L l = l.length := by
  have htake : L.take l.length <+: l := by rw [h.take_eq le_rfl, take_length]
  have h₁ := (take_prefix_iff_commonLength h.length_le).1 htake
  have h₂ := commonLength_le_right L l
  omega

theorem prefix_of_commonLength {l : List Entry} (h : l.length = commonLength L l) : l <+: L := by
  have hp := (take_prefix_iff_commonLength (commonLength_le_left L l)).2 le_rfl
  have hlen := commonLength_le_left L l
  have heq := hp.eq_of_length_le (by rw [length_take]; omega)
  rw [← heq]
  exact take_prefix _ _

/-- The repair stays below a bound. -/
structure Within (bound : ℕ) (L : List Entry) (s : Progress) : Prop where
  next : s.next ≤ bound
  matched : s.matched < bound
  log : s.log.length < bound
  leaderLog : L.length < bound

theorem Within.round {bound : ℕ} (h : s.Within bound L) :
    (s.round pipelining batch L).Within bound L := by
  have hnext := h.next
  have hmatched := h.matched
  have hlog := h.log
  have hleader := h.leaderLog
  have hrepaired : (s.repaired batch L).length < bound := by
    rcases s.repaired_cases (L := L) batch with heq | hp
    · rwa [heq]
    · exact lt_of_le_of_lt hp.length_le hleader
  by_cases hacc : s.Accepts L
  · rw [round_of_accepts hacc]
    refine ⟨?_, hrepaired, hrepaired, hleader⟩
    dsimp only
    split_ifs <;> omega
  · rw [round_of_rejects hacc]
    refine ⟨?_, hmatched, hlog, hleader⟩
    dsimp only
    split_ifs <;> omega

end

/-! ### Without pipelining -/

/-- The follower holds a prefix of the leader's log and is sent what comes next. -/
theorem repairs_at_end {s : Progress} (hlog : s.log <+: L) (hnext : s.next = s.log.length + 1) :
    Repairs false batch L s := by
  obtain ⟨k, hk⟩ : ∃ k, k = L.length - s.log.length := ⟨_, rfl⟩
  induction k using Nat.strong_induction_on generalizing s with
  | _ k ih =>
    have hc := commonLength_of_isPrefix hlog
    have hacc : s.Accepts L := .inl (by omega)
    by_cases hdone : L <+: s.repaired batch L
    · exact .now ⟨hacc, hdone⟩
    have hpre := prefix_repaired batch hlog
    have hc' := commonLength_of_isPrefix hpre
    have hb := batch_le_commonLength (s := s) (L := L) batch (by omega)
    -- The log is not complete yet, so it has grown.
    have hlt : (s.repaired batch L).length < L.length := by
      by_contra hge
      have heq := hpre.eq_of_length_le (by omega)
      exact hdone (by rw [heq])
    refine .later (lowers_of_accepts hacc) ?_
    rw [round_of_accepts hacc]
    exact ih (L.length - (s.repaired batch L).length) (by omega) hpre rfl rfl

/-- A follower that holds a prefix of the leader's log is repaired from anywhere. -/
theorem repairs_of_isPrefix {s : Progress} (hlog : s.log <+: L) : Repairs false batch L s := by
  have hc := commonLength_of_isPrefix hlog
  have hlen := hlog.length_le
  by_cases hacc : s.Accepts L
  · by_cases hdone : L <+: s.repaired batch L
    · exact .now ⟨hacc, hdone⟩
    · refine .later (lowers_of_accepts hacc) ?_
      rw [round_of_accepts hacc]
      exact repairs_at_end (prefix_repaired batch hlog) rfl
  · have hrej := hacc
    simp only [Accepts, not_or] at hrej
    refine .later (fun _ => ?_) ?_
    · rw [round_of_rejects hacc]
      show s.log.length + 1 < s.next
      omega
    · rw [round_of_rejects hacc]
      exact repairs_at_end hlog rfl

/-- Resuming at the end of a log that has parted from the leader's repeats the same request. -/
theorem not_repairs_at_end {s : Progress} (hlog : commonLength L s.log < s.log.length)
    (hnext : s.next = s.log.length + 1) : ¬Repairs false batch L s := by
  have hrej : ¬s.Accepts L := by
    simp only [Accepts, not_or]
    omega
  intro h
  refine hrej (h.goal_of_not_fine fun hl => ?_).1
  have := hl hrej
  rw [round_of_rejects hrej] at this
  simp only [Bool.false_eq_true, if_false] at this
  omega

theorem repairs_iff_of_sequential {s : Progress} (hnext : 0 < s.next) :
    Repairs false batch L s ↔ s.Repairable false batch L := by
  have hcf := commonLength_le_right L s.log
  by_cases hpre : s.log.length = commonLength L s.log
  · exact iff_of_true (repairs_of_isPrefix (prefix_of_commonLength hpre)) (.inl hpre)
  have hlt : commonLength L s.log < s.log.length := by omega
  constructor
  · intro h
    by_contra hcond
    simp only [Repairable, Bool.false_eq_true, if_false, not_or, not_and] at hcond
    have hcl := commonLength_le_left L s.log
    have hL : L <+: s.log ↔ commonLength L s.log = L.length := prefix_iff_commonLength
    -- An accepted request does not reach the place where the logs part.
    have hsame : s.repaired batch L = s.log := repaired_eq_log (by omega)
    cases h with
    | now hd =>
      have hacc := hd.1
      have hin := hd.2
      rw [hsame, hL] at hin
      unfold Accepts at hacc
      omega
    | later _ hs =>
      by_cases hacc : s.Accepts L
      · rw [round_of_accepts hacc, hsame] at hs
        exact absurd hs (not_repairs_at_end (show _ < s.log.length from hlt) rfl)
      · rw [round_of_rejects hacc] at hs
        exact absurd hs (not_repairs_at_end (show _ < s.log.length from hlt) rfl)
  · rintro (hp | ⟨hcl, hle, hreach⟩ | ⟨hc, hnext⟩)
    · exact absurd hp hpre
    · have hacc : s.Accepts L := .inl (by omega)
      have hcut : s.repaired batch L <+: L := by
        rw [repaired_eq_take (by omega) (by omega)]
        exact take_prefix _ _
      by_cases hdone : L <+: s.repaired batch L
      · exact .now ⟨hacc, hdone⟩
      · refine .later (lowers_of_accepts hacc) ?_
        rw [round_of_accepts hacc]
        exact repairs_at_end hcut rfl
    · refine .now ⟨?_, ?_⟩
      · unfold Accepts
        omega
      · rw [repaired_eq_log (by omega)]
        exact prefix_iff_commonLength.2 hc

/-! ### With pipelining -/

/-- A request that starts within the common prefix is followed by one that does, too. -/
theorem repairs_within {s : Progress} (hpos : 0 < s.next)
    (hnext : s.next ≤ commonLength L s.log + 1) : Repairs true batch L s := by
  obtain ⟨k, hk⟩ : ∃ k, k = L.length + 1 - s.next := ⟨_, rfl⟩
  induction k using Nat.strong_induction_on generalizing s with
  | _ k ih =>
    have hacc : s.Accepts L := .inl (by omega)
    by_cases hdone : L <+: s.repaired batch L
    · exact .now ⟨hacc, hdone⟩
    have hcl := commonLength_le_left L (s.repaired batch L)
    have hb := batch_le_commonLength (s := s) (L := L) batch (by omega)
    have hkeep := s.commonLength_repaired (L := L) batch
    have hlt : commonLength L (s.repaired batch L) < L.length := by
      have : commonLength L (s.repaired batch L) ≠ L.length := fun h =>
        hdone (prefix_iff_commonLength.2 h)
      omega
    refine .later (lowers_of_accepts hacc) ?_
    rw [round_of_accepts hacc]
    refine ih (L.length + 1 - max s.next (min (s.next + batch) L.length + 1)) (by omega) ?_ ?_ rfl
    · simp only [if_true]
      omega
    · simp only [if_true]
      omega

/-- The hint leads back to a position that is rejected again. -/
theorem not_repairs_at_hint {s : Progress}
    (hc : commonLength L s.log < max s.log.length s.matched)
    (hl : s.matched ≤ max L.length s.log.length)
    (hnext : s.next = max s.log.length s.matched + 1) : ¬Repairs true batch L s := by
  have hrej : ¬s.Accepts L := by
    simp only [Accepts, not_or]
    omega
  intro h
  refine hrej (h.goal_of_not_fine fun hlow => ?_).1
  have := hlow hrej
  rw [round_of_rejects hrej] at this
  simp only [if_true] at this
  omega

/-- A request beyond both logs is accepted and changes nothing. -/
theorem not_repairs_beyond {s : Progress} (hL : commonLength L s.log < L.length)
    (hnext : max L.length s.log.length + 1 < s.next) : ¬Repairs true batch L s := by
  refine Reaches.not_of_invariant
    (I := fun t => t.log = s.log ∧ max L.length s.log.length + 1 < t.next) ?_ ?_ ⟨rfl, hnext⟩
  · rintro t ⟨hlog, ht⟩ ⟨-, hin⟩
    have hcl := commonLength_le_left L s.log
    rw [repaired_eq_log (by rw [hlog]; omega), hlog, prefix_iff_commonLength] at hin
    omega
  · rintro t ⟨hlog, ht⟩ -
    have hcl := commonLength_le_left L s.log
    have hacc : t.Accepts L := by
      unfold Accepts
      rw [hlog]
      omega
    rw [round_of_accepts hacc, repaired_eq_log (by rw [hlog]; omega)]
    refine ⟨hlog, ?_⟩
    simp only [if_true]
    omega

theorem repairs_iff_of_pipelined {s : Progress} (hnext : 0 < s.next) :
    Repairs true batch L s ↔ s.Repairable true batch L := by
  have hcl := commonLength_le_left L s.log
  have hcf := commonLength_le_right L s.log
  simp only [Repairable, if_true]
  constructor
  · intro h
    by_contra hcond
    simp only [not_or, not_and] at hcond
    by_cases hacc : s.Accepts L
    · unfold Accepts at hacc
      exact not_repairs_beyond (by omega) (by omega) h
    · have hrej := hacc
      simp only [Accepts, not_or] at hrej
      cases h with
      | now hd => exact hacc hd.1
      | later hlow hs =>
        have hlt := hlow hacc
        rw [round_of_rejects hacc] at hs hlt
        simp only [if_true] at hs hlt
        exact not_repairs_at_hint (by simp only; omega) (by simp only; omega)
          (by simp only; omega) hs
  · rintro (hle | ⟨hf, hm, hle⟩ | ⟨hc, hlt⟩)
    · exact repairs_within hnext hle
    · by_cases hin : s.next ≤ commonLength L s.log + 1
      · exact repairs_within hnext hin
      have hrej : ¬s.Accepts L := by
        simp only [Accepts, not_or]
        omega
      refine .later (fun _ => ?_) ?_
      · rw [round_of_rejects hrej]
        simp only [if_true]
        omega
      · rw [round_of_rejects hrej]
        refine repairs_within ?_ ?_
        · simp only [if_true]
          omega
        · simp only [if_true]
          omega
    · refine .now ⟨?_, ?_⟩
      · unfold Accepts
        omega
      · rw [repaired_eq_log (by omega)]
        exact prefix_iff_commonLength.2 hc

/-- **When a log is repaired.** -/
theorem reaches_iff {s : Progress} (hnext : 0 < s.next) :
    Repairs pipelining batch L s ↔ s.Repairable pipelining batch L := by
  cases pipelining with
  | false => exact repairs_iff_of_sequential hnext
  | true => exact repairs_iff_of_pipelined hnext

end Progress

end Cloud9
