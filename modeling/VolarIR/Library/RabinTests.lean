import Mathlib.FieldTheory.Finite.Basic
import Mathlib.Tactic.Ring
import Mathlib.FieldTheory.Finite.Extension

/-!
# Rabin's tests

The Miller-Rabin condition for one base, that an odd prime meets it for every base it does not
divide, and the test of a polynomial's irreducibility over a finite field.
-/
namespace MillerRabin

/-- The sequence `a^d, a^(2d), a^(4d), ..` of `p - 1 = 2^s * d` starts at `1` or meets `-1`. -/
def Passes (p s d a : ℕ) : Prop :=
  a ^ d ≡ 1 [MOD p] ∨ ∃ r < s, a ^ (2 ^ r * d) ≡ p - 1 [MOD p]

/-- `p` is a strong probable prime to the base `a`. -/
def StrongProbablePrime (p a : ℕ) : Prop :=
  ∃ s d, Odd d ∧ p - 1 = 2 ^ s * d ∧ Passes p s d a

/-- The sequence may be read in the integers modulo `p`. -/
theorem passes_of_zmod {p s d a : ℕ} (hp : 1 ≤ p) (hs : 0 < s)
    (h : (a : ZMod p) ^ d = 1 ∨ (a : ZMod p) ^ d = -1) : Passes p s d a := by
  cases h with
  | inl hone =>
      apply Or.inl
      rw [← ZMod.natCast_eq_natCast_iff]
      simpa using hone
  | inr hneg =>
      refine Or.inr ⟨0, hs, ?_⟩
      rw [← ZMod.natCast_eq_natCast_iff, pow_zero, Nat.one_mul]
      simpa [Nat.cast_sub hp] using hneg

theorem two_pow_mul_odd_unique {s t d e : ℕ} (hd : Odd d) (he : Odd e)
    (h : 2 ^ s * d = 2 ^ t * e) : s = t ∧ d = e := by
  wlog hle : s ≤ t generalizing s t d e
  · have hsym := this he hd h.symm (Nat.le_of_lt (Nat.lt_of_not_le hle))
    exact ⟨hsym.1.symm, hsym.2.symm⟩
  have hdiff : d = 2 ^ (t - s) * e := by
    rw [← Nat.add_sub_cancel' hle, pow_add, Nat.mul_assoc] at h
    exact Nat.eq_of_mul_eq_mul_left (Nat.two_pow_pos s) h
  have hzero : t - s = 0 := by
    by_contra hne
    have heven : Even d := by
      rw [hdiff]
      exact (Nat.even_pow.mpr ⟨even_two, hne⟩).mul_right e
    exact Nat.not_even_iff_odd.mpr hd heven
  rw [hzero, pow_zero, Nat.one_mul] at hdiff
  exact ⟨by omega, hdiff⟩

theorem strongProbablePrime_iff {p s d a : ℕ} (hd : Odd d) (hp : p - 1 = 2 ^ s * d) :
    StrongProbablePrime p a ↔ Passes p s d a := by
  constructor
  · rintro ⟨t, e, he, hpe, hpass⟩
    have hsame := two_pow_mul_odd_unique hd he (hp.symm.trans hpe)
    rwa [hsame.1, hsame.2]
  · exact fun hpass => ⟨s, d, hd, hp, hpass⟩

/-- In a ring without zero divisors a root of `x^(2^s) = 1` is `1` or squares to `-1`. -/
theorem eq_one_or_pow_eq_neg_one {R : Type*} [CommRing R] [NoZeroDivisors R] {x : R} {s : ℕ}
    (h : x ^ 2 ^ s = 1) : x = 1 ∨ ∃ r < s, x ^ 2 ^ r = -1 := by
  induction s with
  | zero => exact Or.inl (by simpa using h)
  | succ s ih =>
      have hsq : x ^ 2 ^ s * x ^ 2 ^ s = 1 := by rw [← pow_add, ← Nat.two_mul, ← pow_succ', h]
      cases mul_self_eq_one_iff.mp hsq with
      | inl hone =>
          cases ih hone with
          | inl hx => exact Or.inl hx
          | inr hr =>
              obtain ⟨r, hlt, hneg⟩ := hr
              exact Or.inr ⟨r, Nat.lt_succ_of_lt hlt, hneg⟩
      | inr hneg => exact Or.inr ⟨s, Nat.lt_succ_self s, hneg⟩

theorem strongProbablePrime_of_prime {p a : ℕ} (hp : p.Prime) (ha : ¬ p ∣ a) :
    StrongProbablePrime p a := by
  have : Fact p.Prime := ⟨hp⟩
  have hpos : p - 1 ≠ 0 := Nat.sub_ne_zero_of_lt hp.one_lt
  obtain ⟨s, d, hd, hsplit⟩ := Nat.exists_eq_two_pow_mul_odd hpos
  have hne : (a : ZMod p) ≠ 0 := by rwa [Ne, ZMod.natCast_eq_zero_iff]
  have hroot : ((a : ZMod p) ^ d) ^ 2 ^ s = 1 := by
    rw [← pow_mul, Nat.mul_comm, ← hsplit, ZMod.pow_card_sub_one_eq_one hne]
  refine ⟨s, d, hd, hsplit, ?_⟩
  cases eq_one_or_pow_eq_neg_one hroot with
  | inl hone =>
      apply Or.inl
      rw [← ZMod.natCast_eq_natCast_iff]
      simpa using hone
  | inr hneg =>
      obtain ⟨r, hlt, hr⟩ := hneg
      apply Or.inr
      refine ⟨r, hlt, ?_⟩
      rw [← ZMod.natCast_eq_natCast_iff, Nat.mul_comm, pow_mul]
      simpa [Nat.cast_sub hp.one_le] using hr

end MillerRabin

/-!
## Rabin's test

A polynomial of degree `n` over a field of `q` elements is irreducible just when it divides
`X^(q^n) - X` and is coprime to `X^(q^(n/r)) - X` for each prime `r` dividing `n`.
-/

open Polynomial

namespace Rabin

variable {k : Type*} [Field k] [Finite k] {P : k[X]}

/-- A proper divisor divides `n / r` for some prime `r` of `n`. -/
theorem exists_prime_dvd_div {d n : ℕ} (hn : 0 < n) (hdvd : d ∣ n) (hne : d ≠ n) :
    ∃ r, r.Prime ∧ r ∣ n ∧ d ∣ n / r := by
  obtain ⟨m, rfl⟩ := hdvd
  have hm : m ≠ 1 := by
    rintro rfl
    exact hne (Nat.mul_one d).symm
  obtain ⟨r, hr, hrm⟩ := Nat.exists_prime_and_dvd hm
  refine ⟨r, hr, hrm.mul_left d, ?_⟩
  rw [Nat.mul_div_assoc d hrm]
  exact dvd_mul_right d _

theorem irreducible_of_test (hpos : 0 < P.natDegree)
    (hdvd : P ∣ X ^ Nat.card k ^ P.natDegree - X)
    (hcop : ∀ r, r.Prime → r ∣ P.natDegree →
      IsCoprime P (X ^ Nat.card k ^ (P.natDegree / r) - X)) : Irreducible P := by
  have hne : P ≠ 0 := ne_zero_of_natDegree_gt hpos
  have hunit : ¬ IsUnit P := fun h => Nat.ne_of_gt hpos (natDegree_eq_zero_of_isUnit h)
  obtain ⟨f, hf, hfP⟩ := WfDvdMonoid.exists_irreducible_factor hunit hne
  have hdeg : f.natDegree ∣ P.natDegree :=
    hf.natDegree_dvd_of_dvd_X_pow_card_pow_sub_X (hfP.trans hdvd)
  by_cases heq : f.natDegree = P.natDegree
  · exact (associated_of_dvd_of_natDegree_le hfP hne (Nat.le_of_eq heq.symm)).irreducible hf
  · obtain ⟨r, hr, hrn, hdvd'⟩ := exists_prime_dvd_div hpos hdeg heq
    have hfr := hf.natDegree_dvd_iff_dvd_X_pow_card_pow_sub_X.mp hdvd'
    exact absurd ((hcop r hr hrn).isUnit_of_dvd' hfP hfr) hf.not_isUnit

theorem test_of_irreducible (hP : Irreducible P) :
    P ∣ X ^ Nat.card k ^ P.natDegree - X ∧ ∀ r, r.Prime → r ∣ P.natDegree →
      IsCoprime P (X ^ Nat.card k ^ (P.natDegree / r) - X) := by
  refine ⟨hP.natDegree_dvd_iff_dvd_X_pow_card_pow_sub_X.mp (dvd_refl _), fun r hr hrn => ?_⟩
  rw [hP.coprime_iff_not_dvd]
  intro hdvd
  have hle := Nat.le_of_dvd (Nat.div_pos (Nat.le_of_dvd hP.natDegree_pos hrn) hr.pos)
    (hP.natDegree_dvd_of_dvd_X_pow_card_pow_sub_X hdvd)
  exact absurd hle (Nat.not_le_of_lt (Nat.div_lt_self hP.natDegree_pos hr.one_lt))

theorem irreducible_iff (hpos : 0 < P.natDegree) :
    Irreducible P ↔ P ∣ X ^ Nat.card k ^ P.natDegree - X ∧ ∀ r, r.Prime → r ∣ P.natDegree →
      IsCoprime P (X ^ Nat.card k ^ (P.natDegree / r) - X) :=
  ⟨test_of_irreducible, fun h => irreducible_of_test hpos h.1 h.2⟩

end Rabin
