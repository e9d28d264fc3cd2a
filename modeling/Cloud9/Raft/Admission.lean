import Mathlib.Algebra.GroupWithZero.Nat
import Mathlib.Algebra.Order.BigOperators.Group.List
import Cloud9.Raft.Node

/-!
# Admission control

A leader refuses a proposal (`ProposeError.throttled`) when the uncommitted window, the entries
above its commit index, has no room for it. The commit index of a restored node starts at 0, so the
window of a fresh leader is everything in its log, committed long ago or not, and only an entry of
its own term can move the commit index. If the window leaves no room, that entry is never admitted.

Main results: `RaftNode.admits_iff`, what the window has to be for every command of an allowed size
to be admitted, and `RaftNode.restored_leader_throttled`, a fresh leader that admits nothing.
-/

namespace Cloud9

/-! ## The check -/

namespace Core

/-- The command bytes of a list of entries. -/
def totalBytes (entries : List Entry) : ℕ := (entries.filterMap commandBytes).sum

theorem foldlM_checkedAdd (sizes : List ℕ) {a : ℕ} (ha : a < 2 ^ 64) :
    sizes.foldlM checkedAdd a = if a + sizes.sum < 2 ^ 64 then some (a + sizes.sum) else none := by
  induction sizes generalizing a with
  | nil =>
    rw [List.sum_nil, Nat.add_zero, if_pos ha]
    rfl
  | cons s sizes ih =>
    rw [List.foldlM_cons, List.sum_cons, checkedAdd]
    split_ifs with h h'
    · rw [Option.bind_eq_bind, Option.bind_some, ih h, Nat.add_assoc, if_pos h']
    · rw [Option.bind_eq_bind, Option.bind_some, ih h, Nat.add_assoc, if_neg h']
    · omega
    · rfl

/-- The check, without the overflow that the bound on the bytes excludes. -/
theorem proposalLimitExceeded_iff (c : Core) (cmd : Command) :
    c.proposalLimitExceeded cmd = some true ↔ ∃ entries, c.uncommitted = some entries ∧
      (c.config.maxUncommittedEntries ≤ entries.length ∨
        c.config.maxUncommittedBytes.toNat < totalBytes entries + cmd.length) := by
  have hmax : c.config.maxUncommittedBytes.toNat < 2 ^ 64 := c.config.maxUncommittedBytes.toNat_lt
  rw [proposalLimitExceeded, Option.map_eq_some_iff]
  refine exists_congr fun entries => and_congr_right fun _ => ?_
  have hsum : (entries.filterMap commandBytes ++ [cmd.length]).sum =
      totalBytes entries + cmd.length := by
    rw [List.sum_append, List.sum_singleton, totalBytes]
  simp only [foldlM_checkedAdd _ (by decide : 0 < 2 ^ 64), Nat.zero_add, hsum]
  split_ifs with hlen hover
  · simp [hlen]
  · simp only [decide_eq_true_eq]
    omega
  · simp only [true_iff]
    omega

end Core

/-! ## Proposals -/

namespace RaftNode

/-- Every command of at most the allowed size that a vector can hold is admitted. -/
def Admits (n : RaftNode) : Prop :=
  ∀ cmd : Command, cmd.length ≤ n.core.config.maxUncommittedBytes.toNat → cmd.length ≤ isizeMax →
    ∀ n', n.propose cmd ≠ some (n', .error .throttled)

theorem propose_throttled_iff {n : RaftNode} (hlead : n.isLeader = true) (cmd : Command) :
    (∃ n', n.propose cmd = some (n', .error .throttled)) ↔
      n.core.proposalLimitExceeded cmd = some true := by
  obtain ⟨core, role⟩ := n
  cases role with
  | leader l =>
    simp only [propose]
    split
    · next h => simp [h]
    · next h => simp [h]
    · next h => simp [h]
  | _ => cases hlead

/-- **When a leader admits every command**: there are fewer uncommitted entries than allowed, and
beside their bytes there is room for the longest command. If the limit is no more than a vector can
hold, the uncommitted entries hold no bytes at all then. -/
theorem admits_iff {n : RaftNode} (hlead : n.isLeader = true) :
    n.Admits ↔ ∀ entries, n.core.uncommitted = some entries →
      entries.length < n.core.config.maxUncommittedEntries ∧
      Core.totalBytes entries + min n.core.config.maxUncommittedBytes.toNat isizeMax ≤
        n.core.config.maxUncommittedBytes.toNat := by
  have hadmits : ∀ cmd, (∀ n', n.propose cmd ≠ some (n', .error .throttled)) ↔
      ∀ entries, n.core.uncommitted = some entries →
        entries.length < n.core.config.maxUncommittedEntries ∧
        Core.totalBytes entries + cmd.length ≤ n.core.config.maxUncommittedBytes.toNat := by
    intro cmd
    rw [← not_exists, propose_throttled_iff hlead, Core.proposalLimitExceeded_iff, not_exists]
    refine forall_congr' fun entries => ?_
    rw [not_and, not_or, Nat.not_le, Nat.not_lt]
  constructor
  · intro h entries hentries
    -- The longest command there can be.
    have hlong := (hadmits (List.replicate
      (min n.core.config.maxUncommittedBytes.toNat isizeMax) 0)).1
      (h _ (by simp) (by simp)) entries hentries
    rwa [List.length_replicate] at hlong
  · intro h cmd hlimit hvec
    refine (hadmits cmd).2 fun entries hentries => ⟨(h entries hentries).1, ?_⟩
    have := (h entries hentries).2
    omega

/-- The only voter, restored with `length` commands of term 1 in its log, after the tick that makes
it the leader of term 2. -/
def restoredLeader (length : ℕ) : RaftNode :=
  (restore { Config.new 0 with electionTimeout := ⟨1, 2, Nat.one_lt_two⟩, prevote := false }
    { term := 1
      votedFor := some 0
      log := { Log.empty with
        entries := (List.range length).map fun i => ⟨1, i + 1, .command []⟩ }
      bootstrapConfig := Configuration.simpleOf [0] }).tick.1

/-- A leader restored with a short log of empty commands admits everything. -/
theorem admits_iff_short : (restoredLeader 2).isLeader = true ∧ (restoredLeader 2).Admits := by
  have hlead : (restoredLeader 2).isLeader = true := by decide +kernel
  refine ⟨hlead, (admits_iff hlead).2 fun entries hentries => ?_⟩
  have hwindow : (restoredLeader 2).core.uncommitted =
      some [⟨1, 1, .command []⟩, ⟨1, 2, .command []⟩] := by decide +kernel
  obtain rfl := Option.some.inj (hwindow.symm.trans hentries)
  decide +kernel

/-- **A fresh leader can be wedged**: with 1024 commands in the restored log, the default limit, the
leader of term 2 holds no entry of term 2 and refuses even the empty command. -/
theorem restored_leader_throttled : (restoredLeader 1024).isLeader = true ∧
    (restoredLeader 1024).term = 2 ∧
    (∀ e ∈ (restoredLeader 1024).core.log.entries, e.term ≠ 2) ∧
    ∃ n', (restoredLeader 1024).propose [] = some (n', .error .throttled) := by
  have hlead : (restoredLeader 1024).isLeader = true := by decide +kernel
  refine ⟨hlead, by decide +kernel, by decide +kernel, (propose_throttled_iff hlead []).2 ?_⟩
  decide +kernel

end RaftNode

end Cloud9
