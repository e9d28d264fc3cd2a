import Mathlib.Algebra.Group.Nat.Defs
import Mathlib.Tactic.Common

/-!
# Checked arithmetic on 64-bit words
-/

namespace Cloud9

/-- `u64::MAX`. -/
def u64Max : ℕ := 2 ^ 64 - 1

/-- `isize::MAX`: no vector holds more bytes. -/
def isizeMax : ℕ := 2 ^ 63 - 1

/-- `u64::checked_add`. -/
def checkedAdd (a b : ℕ) : Option ℕ := if a + b < 2 ^ 64 then some (a + b) else none

/-- The sum of two `u64` without overflow checks. -/
def wrappingAdd (a b : ℕ) : ℕ := (a + b) % 2 ^ 64

theorem wrappingAdd_of_lt {a b : ℕ} (h : a + b < 2 ^ 64) : wrappingAdd a b = a + b :=
  Nat.mod_eq_of_lt h

theorem wrappingAdd_wrappingAdd (a b c : ℕ) :
    wrappingAdd (wrappingAdd a b) c = wrappingAdd a (b + c) := by
  rw [wrappingAdd, wrappingAdd, Nat.mod_add_mod, Nat.add_assoc, wrappingAdd]

/-- A sum that overflows is smaller than its terms. -/
theorem wrappingAdd_lt {a b : ℕ} (hb : b < 2 ^ 64) (ha : a < 2 ^ 64) (h : 2 ^ 64 ≤ a + b) :
    wrappingAdd a b < a := by
  rw [wrappingAdd, Nat.mod_eq_sub_mod h, Nat.mod_eq_of_lt (by omega)]
  omega

theorem checkedAdd_eq_some {a b c : ℕ} : checkedAdd a b = some c ↔ a + b < 2 ^ 64 ∧ c = a + b := by
  unfold checkedAdd
  split_ifs with h
  · exact ⟨fun heq => ⟨h, (Option.some.inj heq).symm⟩, fun heq => congrArg some heq.2.symm⟩
  · exact ⟨nofun, fun heq => absurd heq.1 h⟩

end Cloud9
