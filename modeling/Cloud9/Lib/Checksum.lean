import Mathlib.Logic.Function.Basic
import Mathlib.Tactic.Common

/-!
# Checksums that are folds

A checksum reads a string symbol by symbol into a register. When no symbol merges two registers, and
no register merges two symbols, strings that differ in one place leave different registers
(`foldl_set_ne`): the registers part at that place and stay apart.
-/

namespace Checksum

variable {σ β : Type*} {step : σ → β → σ}

/-- Registers that differ stay apart, whatever is read. -/
theorem foldl_injective (hregister : ∀ b, Function.Injective fun s => step s b) (bs : List β) :
    Function.Injective fun s => bs.foldl step s := by
  induction bs with
  | nil => exact Function.injective_id
  | cons b bs ih =>
    intro s t h
    exact hregister b (ih h)

/-- **One changed symbol changes the register.** -/
theorem foldl_set_ne (hregister : ∀ b, Function.Injective fun s => step s b)
    (hsymbol : ∀ s, Function.Injective (step s)) {bs : List β} {p : ℕ} {b : β} (hp : p < bs.length)
    (hb : b ≠ bs[p]) (s : σ) : (bs.set p b).foldl step s ≠ bs.foldl step s := by
  induction bs generalizing p s with
  | nil => exact absurd hp (Nat.not_lt_zero p)
  | cons c bs ih =>
    cases p with
    | zero =>
      intro h
      exact hb (hsymbol s (foldl_injective hregister bs h))
    | succ p => exact ih (Nat.lt_of_succ_lt_succ hp) hb (step s c)

end Checksum
