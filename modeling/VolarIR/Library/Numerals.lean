import Mathlib.Data.List.Induction
import Mathlib.Tactic.Common
import Mathlib.Algebra.Order.Ring.Nat

/-!
# Decimal numerals

An unsigned number is read from its decimal digits, with a plus sign allowed before them,
and refused above a bound. A number that is printed is read back.
-/
namespace Numerals

def digits : List Char → List Char
  | '+' :: rest => rest
  | text => text

/-- `parse` of an unsigned type whose largest value is `max`. -/
def parse (max : ℕ) (text : List Char) : Option ℕ :=
  if digits text ≠ [] ∧ (digits text).all Char.isDigit ∧
      Nat.ofDigitChars 10 (digits text) 0 ≤ max then
    some (Nat.ofDigitChars 10 (digits text) 0)
  else none

variable {max n : ℕ} {text : List Char}

theorem parse_le (h : parse max text = some n) : n ≤ max := by
  rw [parse] at h
  split at h
  case isTrue hok =>
    rw [← Option.some.inj h]
    exact hok.2.2
  case isFalse => cases h

theorem length_digits_le (text : List Char) : (digits text).length ≤ text.length := by
  unfold digits
  split
  · exact Nat.le_succ _
  · exact le_refl _

theorem ofDigitChars_lt (h : text.all Char.isDigit) :
    Nat.ofDigitChars 10 text 0 < 10 ^ text.length := by
  induction text using List.reverseRecOn with
  | nil => decide
  | append_singleton rest c ih =>
      rw [List.all_append, Bool.and_eq_true] at h
      have hrest := ih h.1
      have hc : c.toNat - '0'.toNat < 10 := by
        have hdigit : c.isDigit = true := by simpa using h.2
        have hle := (Char.isDigit_iff_toNat.mp hdigit).2
        have hzero : '0'.toNat = 48 := rfl
        have hnine : '9'.toNat = 57 := rfl
        omega
      rw [Nat.ofDigitChars_append, List.length_append, List.length_singleton, pow_succ,
        Nat.ofDigitChars_cons, Nat.ofDigitChars_nil]
      omega

theorem lt_of_parse (h : parse max text = some n) : n < 10 ^ text.length := by
  rw [parse] at h
  split at h
  case isTrue hok =>
    rw [← Option.some.inj h]
    exact (ofDigitChars_lt hok.2.1).trans_le
      (Nat.pow_le_pow_right (by decide) (length_digits_le text))
  case isFalse => cases h

theorem isDigit_of_mem_toDigits {c : Char} (h : c ∈ Nat.toDigits 10 n) : c.isDigit = true :=
  Nat.isDigit_of_mem_toDigits (by decide) (by decide) h

theorem digits_toDigits (n : ℕ) : digits (Nat.toDigits 10 n) = Nat.toDigits 10 n := by
  unfold digits
  split
  case h_1 rest heq =>
    have hmem : '+' ∈ Nat.toDigits 10 n := by
      rw [heq]
      exact List.mem_cons_self
    exact absurd (isDigit_of_mem_toDigits hmem) (by decide)
  case h_2 => rfl

theorem parse_toDigits (h : n ≤ max) : parse max (Nat.toDigits 10 n) = some n := by
  rw [parse, digits_toDigits, Nat.ofDigitChars_ten_toDigits, if_pos]
  exact ⟨Nat.toDigits_ne_nil, List.all_eq_true.mpr fun c hc => isDigit_of_mem_toDigits hc, h⟩

end Numerals
