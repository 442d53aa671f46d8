import VolarIR.Field.PolySound
import VolarIR.Library.RabinTests

/-!
# The irreducibility test

Rabin's two conditions are what the test computes, except that it wants the last remainder
of Euclid's algorithm to be one where coprimality only makes it a unit.
-/
namespace VolarIR
open Polynomial

theorem divideOut_spec {divisor : ℕ} (hprime : divisor.Prime) {fuel n : ℕ} (hn : 0 < n)
    (hfuel : n ≤ fuel) :
    (0 < divideOut divisor fuel n ∧ divideOut divisor fuel n ≤ n) ∧
      ∀ r, r.Prime → (r ∣ divideOut divisor fuel n ↔ r ∣ n ∧ r ≠ divisor) := by
  induction fuel generalizing n with
  | zero => omega
  | succ fuel ih =>
      rw [divideOut]
      by_cases hmod : n % divisor = 0
      · have hdvd : divisor ∣ n := Nat.dvd_of_mod_eq_zero hmod
        have hlt : n / divisor < n := Nat.div_lt_self hn hprime.one_lt
        have hpos : 0 < n / divisor := Nat.div_pos (Nat.le_of_dvd hn hdvd) hprime.pos
        have hrest := ih hpos (by omega)
        rw [if_pos hmod]
        refine ⟨⟨hrest.1.1, hrest.1.2.trans hlt.le⟩, fun r hr => ?_⟩
        rw [hrest.2 r hr]
        constructor
        · exact fun h => ⟨h.1.trans (Nat.div_dvd_of_dvd hdvd), h.2⟩
        · intro h
          rw [← Nat.div_mul_cancel hdvd, hr.dvd_mul] at h
          refine ⟨h.1.resolve_right fun heq => h.2 ?_, h.2⟩
          exact (Nat.prime_dvd_prime_iff_eq hr hprime).mp heq
      · rw [if_neg hmod]
        refine ⟨⟨hn, le_refl n⟩, fun r hr => ?_⟩
        constructor
        · rintro hdvd
          refine ⟨hdvd, ?_⟩
          rintro rfl
          exact hmod (Nat.mod_eq_zero_of_dvd hdvd)
        · exact fun h => h.1

/-- A number all whose primes reach `divisor`, the square of which exceeds it. -/
theorem prime_dvd_iff_of_lt_sq {n divisor : ℕ} (hn : 0 < n)
    (hmin : ∀ r, r.Prime → r ∣ n → divisor ≤ r) (hlt : n < divisor * divisor) (r : ℕ) :
    r ∈ (if n > 1 then [n] else []) ↔ r.Prime ∧ r ∣ n := by
  by_cases hone : n > 1
  · rw [if_pos hone, List.mem_singleton]
    have hprime : n.Prime := by
      by_contra hnot
      have hsq := Nat.minFac_sq_le_self hn hnot
      have hfac := hmin _ (Nat.minFac_prime (Nat.ne_of_gt hone)) (Nat.minFac_dvd n)
      have hle := Nat.mul_le_mul hfac hfac
      rw [sq] at hsq
      omega
    constructor
    · rintro rfl
      exact ⟨hprime, dvd_refl r⟩
    · exact fun h => (Nat.prime_dvd_prime_iff_eq h.1 hprime).mp h.2
  · have heq : n = 1 := by omega
    subst heq
    simp only [gt_iff_lt, lt_irrefl, if_false, List.not_mem_nil, false_iff, not_and]
    exact fun hr hdvd => hr.one_lt.ne' (Nat.dvd_one.mp hdvd)

/-- A prime above `divisor` is at least the next one tried. -/
theorem next_divisor_le {divisor r : ℕ} (hodd : divisor = 2 ∨ (2 < divisor ∧ divisor % 2 = 1))
    (hr : r.Prime) (hlt : divisor < r) :
    divisor + (if divisor = 2 then 1 else 2) ≤ r := by
  cases hodd with
  | inl htwo =>
      rw [if_pos htwo]
      omega
  | inr hodd =>
      have hrodd := hr.eq_two_or_odd
      rw [if_neg (by omega)]
      omega

/-- Trial division lists the primes of `n`; those below `divisor` are out already. -/
theorem mem_distinctPrimesFrom {fuel n divisor : ℕ} (hn : 0 < n)
    (hodd : divisor = 2 ∨ (2 < divisor ∧ divisor % 2 = 1))
    (hmin : ∀ r, r.Prime → r ∣ n → divisor ≤ r) (hfuel : n < fuel + divisor) (r : ℕ) :
    r ∈ distinctPrimesFrom fuel n divisor ↔ r.Prime ∧ r ∣ n := by
  have htwo : 2 ≤ divisor := by omega
  have hself : divisor ≤ divisor * divisor := Nat.le_mul_self divisor
  induction fuel generalizing n divisor with
  | zero => exact prime_dvd_iff_of_lt_sq hn hmin (by omega) r
  | succ fuel ih =>
      have hnext : divisor + (if divisor = 2 then 1 else 2) = 2 ∨
          (2 < divisor + (if divisor = 2 then 1 else 2) ∧
            (divisor + (if divisor = 2 then 1 else 2)) % 2 = 1) := by
        right
        split <;> omega
      have hgrow : divisor + 1 ≤ divisor + (if divisor = 2 then 1 else 2) := by split <;> omega
      rw [distinctPrimesFrom]
      by_cases hcont : min (divisor * divisor) u32Max ≤ n
      · rw [if_pos hcont]
        simp only
        by_cases hmod : n % divisor = 0
        · have hdvd : divisor ∣ n := Nat.dvd_of_mod_eq_zero hmod
          -- a smaller prime of `divisor` would be a smaller prime of `n`
          have hprime : divisor.Prime := by
            have hfac := hmin _ (Nat.minFac_prime (by omega)) ((Nat.minFac_dvd divisor).trans hdvd)
            have heq : divisor.minFac = divisor :=
              Nat.le_antisymm (Nat.minFac_le (by omega)) hfac
            rw [← heq]
            exact Nat.minFac_prime (by omega)
          have hout := divideOut_spec hprime hn (le_refl n)
          have hmin' : ∀ p, p.Prime → p ∣ divideOut divisor n n →
              divisor + (if divisor = 2 then 1 else 2) ≤ p := by
            intro p hp hpdvd
            have hpn := (hout.2 p hp).mp hpdvd
            exact next_divisor_le hodd hp
              (Nat.lt_of_le_of_ne (hmin p hp hpn.1) (Ne.symm hpn.2))
          have hrest := ih hout.1.1 hnext hmin' (by omega) (by omega) (Nat.le_mul_self _)
          rw [if_pos hmod, List.mem_cons]
          constructor
          · intro h
            cases h with
            | inl heq =>
                rw [heq]
                exact ⟨hprime, hdvd⟩
            | inr h =>
                have hr := hrest.mp h
                exact ⟨hr.1, ((hout.2 r hr.1).mp hr.2).1⟩
          · intro h
            by_cases heq : r = divisor
            · exact .inl heq
            · exact .inr (hrest.mpr ⟨h.1, (hout.2 r h.1).mpr ⟨h.2, heq⟩⟩)
        · rw [if_neg hmod]
          apply ih hn hnext _ (by omega) (by omega) (Nat.le_mul_self _)
          intro p hp hpdvd
          apply next_divisor_le hodd hp (Nat.lt_of_le_of_ne (hmin p hp hpdvd) _)
          rintro rfl
          exact hmod (Nat.mod_eq_zero_of_dvd hpdvd)
      · rw [if_neg hcont]
        exact prime_dvd_iff_of_lt_sq hn hmin (by omega) r

theorem mem_distinctPrimes {n : ℕ} (hn : 0 < n) (r : ℕ) :
    r ∈ distinctPrimes n ↔ r.Prime ∧ r ∣ n :=
  mem_distinctPrimesFrom hn (.inl rfl) (fun _ hr _ => hr.two_le) (by omega) r

section
variable {F : BitField} {wrapped : WrappedDesc} (hw : Describes wrapped F) {degree : ℕ}
  {irreducible : List U64} (hm : Modulus F degree irreducible)
include hw

/-- What the test looks at for the prime `r`: `X^(q^(n/r)) - X` modulo the polynomial. -/
noncomputable def frobeniusDefect (F : BitField) (degree : ℕ) (P : F.K[X]) (r : ℕ) : F.K[X] :=
  (X ^ 2 ^ (F.width * (degree / r)) - X) %ₘ P

include hm in
theorem denotes_modulusPoly (width : ℕ) :
    Denotes F (degree + 1) (modulusPoly ⟨degree, irreducible, wrapped, width⟩)
      (modulusOf F irreducible) := by
  have heq : modulusPoly ⟨degree, irreducible, wrapped, width⟩ = constants F irreducible := by
    apply List.ext_getElem
    · simp [modulusPoly, constants, hm.length_eq]
    · intro i hi hi'
      have hlt : i < irreducible.length := by simpa [constants] using hi'
      simp [modulusPoly, constants, u64Elem, hw.width_eq, List.getElem?_eq_getElem hlt]
  rw [heq]
  constructor
  · simp [constants, hm.length_eq]
  · intro c hc
    obtain ⟨value, -, rfl⟩ := List.mem_map.mp hc
    exact length_coeffConst value F.width
  · rfl

variable (irreducible) in
theorem denotes_monomialX (hn : 2 ≤ degree) (width : ℕ) :
    Denotes F degree (monomialX ⟨degree, irreducible, wrapped, width⟩) X := by
  have heq : monomialX ⟨degree, irreducible, wrapped, width⟩ =
      F.zeroBits :: F.oneBits :: List.replicate (degree - 2) F.zeroBits := by
    apply List.ext_getElem
    · simp [monomialX]
      omega
    · intro i hi hi'
      match i with
      | 0 =>
          simp only [monomialX, hw.width_eq, List.getElem_map, List.getElem_range]
          exact u64Elem_zero
      | 1 =>
          simp only [monomialX, hw.width_eq, List.getElem_map, List.getElem_range]
          exact coeffConst_one F
      | i + 2 =>
          have hne : ¬ i + 2 = 1 := by omega
          simp only [monomialX, hw.width_eq, List.getElem_map, List.getElem_range, if_neg hne,
            List.getElem_cons_succ, List.getElem_replicate]
          exact u64Elem_zero
  rw [heq]
  constructor
  · simp only [List.length_cons, List.length_replicate]
    omega
  · intro c hc
    simp only [List.mem_cons, List.mem_replicate] at hc
    rcases hc with rfl | rfl | ⟨-, rfl⟩
    · exact F.length_zeroBits
    · exact F.length_oneBits
    · exact F.length_zeroBits
  · simp [F.poly_replicate_zeroBits]

end

section
variable {F : BitField} {wrapped : WrappedDesc} (hw : Describes wrapped F) {degree : ℕ}
  {irreducible : List U64} (hm : Modulus F degree irreducible) (hn : 2 ≤ degree)
include hw hm hn

omit hw in
theorem modByMonic_X : X %ₘ modulusOf F irreducible = X := by
  rw [modByMonic_eq_self_iff hm.monic, degree_X, degree_eq_natDegree hm.monic.ne_zero,
    hm.natDegree_eq]
  exact_mod_cast hn

theorem denotes_frobenius (width times : ℕ) :
    Denotes F degree
      (frobeniusPow wrapped (monomialX ⟨degree, irreducible, wrapped, width⟩) times wrapped.width
        (modulusPoly ⟨degree, irreducible, wrapped, width⟩))
      (X ^ 2 ^ (F.width * times) %ₘ modulusOf F irreducible) := by
  have hx := denotes_monomialX hw irreducible hn width
  rw [← modByMonic_X hm hn] at hx
  rw [hw.width_eq]
  exact denotes_frobeniusPow hw (denotes_modulusPoly hw hm width) hm.monic hm.natDegree_eq hx times
    F.width

theorem frobenius_eq_iff (width : ℕ) :
    frobeniusPow wrapped (monomialX ⟨degree, irreducible, wrapped, width⟩) degree wrapped.width
        (modulusPoly ⟨degree, irreducible, wrapped, width⟩) =
      monomialX ⟨degree, irreducible, wrapped, width⟩ ↔
        modulusOf F irreducible ∣ X ^ 2 ^ (F.width * degree) - X := by
  have hx := denotes_monomialX hw irreducible hn width
  rw [(denotes_frobenius hw hm hn width degree).eq_iff hx, ← modByMonic_eq_zero_iff_dvd hm.monic,
    sub_modByMonic, modByMonic_X hm hn, sub_eq_zero]

def lastRemainder (field : FieldDesc) (r : ℕ) : List (List Bool) :=
  polyGcd field.wrapped (modulusPoly field)
    (polyAddAssign
      (frobeniusPow field.wrapped (monomialX field) (field.degree / r) field.wrapped.width
        (modulusPoly field))
      (monomialX field))

theorem denotes_lastRemainder (width r : ℕ) :
    ∃ k, Denotes F k (lastRemainder ⟨degree, irreducible, wrapped, width⟩ r)
      (euclid (frobeniusDefect F degree (modulusOf F irreducible) r)
        (modulusOf F irreducible)) := by
  have hx := denotes_monomialX hw irreducible hn width
  have hsum := (denotes_frobenius hw hm hn width (degree / r)).polyAddAssign F.width_pos hx
  have hdefect : frobeniusDefect F degree (modulusOf F irreducible) r =
      X ^ 2 ^ (F.width * (degree / r)) %ₘ modulusOf F irreducible + X := by
    have htwo := F.poly_add_self X
    rw [frobeniusDefect, sub_modByMonic, modByMonic_X hm hn]
    linear_combination -htwo
  rw [hdefect]
  exact denotes_polyGcd hw (denotes_modulusPoly hw hm width) hsum

theorem polyIsOne_lastRemainder (width r : ℕ) :
    polyIsOne (lastRemainder ⟨degree, irreducible, wrapped, width⟩ r) = true ↔
      euclid (frobeniusDefect F degree (modulusOf F irreducible) r)
        (modulusOf F irreducible) = 1 := by
  obtain ⟨k, h⟩ := denotes_lastRemainder hw hm hn width r
  exact polyIsOne_iff h

theorem isIrreducible_eq_true (width : ℕ) :
    isIrreducible ⟨degree, irreducible, wrapped, width⟩ = true ↔
      modulusOf F irreducible ∣ X ^ 2 ^ (F.width * degree) - X ∧
        ∀ r, r.Prime → r ∣ degree →
          euclid (frobeniusDefect F degree (modulusOf F irreducible) r)
            (modulusOf F irreducible) = 1 := by
  have hmem := mem_distinctPrimes (n := degree) (by omega)
  rw [isIrreducible, Bool.and_eq_true, decide_eq_true_iff, frobenius_eq_iff hw hm hn,
    List.all_eq_true]
  constructor
  · intro h
    exact ⟨h.1, fun r hr hdvd =>
      (polyIsOne_lastRemainder hw hm hn width r).mp (h.2 r ((hmem r).mpr ⟨hr, hdvd⟩))⟩
  · intro h
    refine ⟨h.1, fun r hr => (polyIsOne_lastRemainder hw hm hn width r).mpr ?_⟩
    have hr' := (hmem r).mp hr
    exact h.2 r hr'.1 hr'.2

omit hw hn in
theorem isUnit_euclid_defect (r : ℕ) :
    IsUnit (euclid (frobeniusDefect F degree (modulusOf F irreducible) r)
        (modulusOf F irreducible)) ↔
      IsCoprime (modulusOf F irreducible)
        (X ^ Nat.card F.K ^ ((modulusOf F irreducible).natDegree / r) - X) := by
  have hexp : Nat.card F.K ^ ((modulusOf F irreducible).natDegree / r) =
      2 ^ (F.width * (degree / r)) := by rw [F.natCard, ← pow_mul, hm.natDegree_eq]
  have hsplit : X ^ 2 ^ (F.width * (degree / r)) - X =
      frobeniusDefect F degree (modulusOf F irreducible) r + modulusOf F irreducible *
        ((X ^ 2 ^ (F.width * (degree / r)) - X) /ₘ modulusOf F irreducible) :=
    (modByMonic_add_div _ _).symm
  rw [isUnit_euclid, hexp, isCoprime_comm]
  conv_rhs => rw [hsplit]
  exact (IsCoprime.add_mul_left_right_iff).symm

omit hw in
theorem irreducible_iff_isUnit :
    Irreducible (modulusOf F irreducible) ↔
      modulusOf F irreducible ∣ X ^ 2 ^ (F.width * degree) - X ∧
        ∀ r, r.Prime → r ∣ degree →
          IsUnit (euclid (frobeniusDefect F degree (modulusOf F irreducible) r)
            (modulusOf F irreducible)) := by
  have hpos : 0 < (modulusOf F irreducible).natDegree := by
    rw [hm.natDegree_eq]
    omega
  have hexp : Nat.card F.K ^ (modulusOf F irreducible).natDegree = 2 ^ (F.width * degree) := by
    rw [F.natCard, ← pow_mul, hm.natDegree_eq]
  rw [Rabin.irreducible_iff hpos, hexp]
  simp only [isUnit_euclid_defect hm, hm.natDegree_eq]

/-- Irreducibility can be computed: look at the degree of the last remainder instead. -/
theorem irreducible_iff_polyDegree (width : ℕ) :
    Irreducible (modulusOf F irreducible) ↔
      frobeniusPow wrapped (monomialX ⟨degree, irreducible, wrapped, width⟩) degree wrapped.width
          (modulusPoly ⟨degree, irreducible, wrapped, width⟩) =
        monomialX ⟨degree, irreducible, wrapped, width⟩ ∧
      ∀ r ∈ distinctPrimes degree,
        polyDegree (lastRemainder ⟨degree, irreducible, wrapped, width⟩ r) = some 0 := by
  have hunit : ∀ r, polyDegree (lastRemainder ⟨degree, irreducible, wrapped, width⟩ r) = some 0 ↔
      IsUnit (euclid (frobeniusDefect F degree (modulusOf F irreducible) r)
        (modulusOf F irreducible)) := by
    intro r
    obtain ⟨k, h⟩ := denotes_lastRemainder hw hm hn width r
    rw [h.polyDegree_some, isUnit_iff_degree_eq_zero]
    exact Iff.rfl
  rw [irreducible_iff_isUnit hm hn, frobenius_eq_iff hw hm hn]
  simp only [hunit, mem_distinctPrimes (n := degree) (by omega), and_imp]

theorem isIrreducible_iff (width : ℕ) :
    isIrreducible ⟨degree, irreducible, wrapped, width⟩ = true ↔
      Irreducible (modulusOf F irreducible) ∧
        ∀ r, r.Prime → r ∣ degree →
          euclid (frobeniusDefect F degree (modulusOf F irreducible) r)
            (modulusOf F irreducible) = 1 := by
  rw [isIrreducible_eq_true hw hm hn, irreducible_iff_isUnit hm hn]
  constructor
  · intro h
    refine ⟨⟨h.1, fun r hr hdvd => ?_⟩, h.2⟩
    rw [h.2 r hr hdvd]
    exact isUnit_one
  · exact fun h => ⟨h.1.1, h.2⟩

end

end VolarIR
