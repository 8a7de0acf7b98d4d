import Mathlib.Algebra.Group.Int.Defs
import Mathlib.Algebra.Group.Nat.Defs
import Mathlib.Data.List.TakeWhile
import Mathlib.Tactic.Common

/-!
# Decimal text and the C library's `atoi`

* `decimal` : what a stream insertion of an unsigned number writes;
* `strtol`, `atoi` : leading white space, one sign, digits; the `long` saturates and is then converted to `int`;
* `atoi_decimal` : a nonnegative `int` is read back.
-/

namespace Text

/-- The decimal digits of `n`. -/
def decimal (n : Nat) : List Char := Nat.toDigits 10 n

/-- `isspace` in the C locale. -/
def isSpace (c : Char) : Bool := c = ' ' || (9 ≤ c.toNat && c.toNat ≤ 13)

/-- The longest prefix of digits, as a number; 0 without digits. -/
def digits (s : List Char) : Nat := Nat.ofDigitChars 10 (s.takeWhile Char.isDigit) 0

/-- `strtol(s, NULL, 10)` with a 64-bit `long`. -/
def strtol (s : List Char) : Int :=
  match s.dropWhile isSpace with
  | '-' :: s => max (-(digits s : Int)) (-2 ^ 63)
  | '+' :: s => min (digits s) (2 ^ 63 - 1)
  | s => min (digits s) (2 ^ 63 - 1)

/-- `atoi`. -/
def atoi (s : List Char) : Int := (strtol s).bmod (2 ^ 32)

theorem digits_decimal (n : Nat) : digits (decimal n) = n := by
  have hall : (decimal n).takeWhile Char.isDigit = decimal n := by
    apply List.takeWhile_eq_self_iff.mpr
    intro c hc
    exact Nat.isDigit_of_mem_toDigits (by decide) (by decide) hc
  rw [digits, hall, decimal, Nat.ofDigitChars_ten_toDigits]

/-- A digit string starts neither with white space nor with a sign. -/
theorem strtol_decimal (n : Nat) (hn : n < 2 ^ 63) : strtol (decimal n) = n := by
  have hne : decimal n ≠ [] := Nat.toDigits_ne_nil
  obtain ⟨c, cs, hc⟩ := List.exists_cons_of_ne_nil hne
  have hdig : c.isDigit = true := by
    apply Nat.isDigit_of_mem_toDigits (b := 10) (n := n) (by decide) (by decide)
    show c ∈ decimal n
    rw [hc]
    exact List.mem_cons_self
  have hrange : 48 ≤ c.toNat ∧ c.toNat ≤ 57 := by
    simpa [Char.isDigit, Char.le_def, UInt32.le_iff_toNat_le] using hdig
  have hspace : isSpace c = false := by
    unfold isSpace
    rw [Bool.or_eq_false_iff]
    refine ⟨decide_eq_false ?_, ?_⟩
    · rintro rfl
      exact absurd hrange (by decide)
    · rw [Bool.and_eq_false_iff]
      exact .inr (decide_eq_false (by omega))
  have hdrop : (decimal n).dropWhile isSpace = c :: cs := by
    rw [hc, List.dropWhile_cons, hspace]
    rfl
  have hmin : min (n : Int) (2 ^ 63 - 1) = n := by omega
  unfold strtol
  rw [hdrop]
  split
  · next h =>
    cases h
    exact absurd hrange (by decide)
  · next h =>
    cases h
    exact absurd hrange (by decide)
  · rw [← hc, digits_decimal, hmin]

theorem atoi_decimal (n : Nat) (hn : n < 2 ^ 31) : atoi (decimal n) = n := by
  rw [atoi, strtol_decimal n (by omega), Int.bmod_eq_of_le (by omega) (by omega)]

end Text
