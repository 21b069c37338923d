import Patchwork.Text.Basic

/-!
# Decimal numerals

Numbers are written without leading zeros and read with any, so reading undoes writing
(`value?_digits`).
-/
namespace Patchwork.Text.Decimal

def digits (n : Nat) : Text := Nat.toDigits 10 n

/-- The number that a non-empty run of the digits `0` to `9` stands for. -/
def value? (t : Text) : Option Nat :=
  if t ≠ [] ∧ t.all Char.isDigit then some (Nat.ofDigitChars 10 t 0) else none

/-- Numbers below the width of a machine word. -/
def word? (t : Text) : Option Nat := (value? t).filter (· < UInt64.size)

theorem all_isDigit_digits (n : Nat) : (digits n).all Char.isDigit = true := by
  simp only [digits, List.all_eq_true]
  exact fun c hc => Nat.isDigit_of_mem_toDigits (by decide) (by decide) hc

theorem digits_ne_nil (n : Nat) : digits n ≠ [] := Nat.toDigits_ne_nil

theorem value?_digits (n : Nat) : value? (digits n) = some n := by
  rw [value?, if_pos ⟨digits_ne_nil n, all_isDigit_digits n⟩, digits,
    Nat.ofDigitChars_toDigits (by decide) (by decide)]

end Patchwork.Text.Decimal
