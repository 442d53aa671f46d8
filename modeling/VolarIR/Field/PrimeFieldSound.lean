import VolarIR.Field.PrimeField
import VolarIR.Library.RabinTests
import Mathlib.Tactic.NormNum.Prime
import Mathlib.Tactic.ReduceModChar

/-!
# Which moduli are accepted

`prime_field` accepts a canonical modulus just when it is a strong probable prime to every
base of the fixed list: each prime is, and so are some composites.
-/
namespace VolarIR

/-- `k` is the bit length of `2^k - n`. -/
structure Canonical (k n : ℕ) : Prop where
  two_le : 2 ≤ k
  le_256 : k ≤ 256
  pos : 0 < n
  lt : n < 2 ^ (k - 1)

theorem value_rdropWhile (n : List U64) :
    Limbs.value (n.rdropWhile (· == 0)) = Limbs.value n := by
  induction n using List.reverseRecOn with
  | nil => rfl
  | append_singleton n x ih =>
      rw [List.rdropWhile_concat]
      split_ifs with hx
      · rw [ih, Limbs.value_append, eq_of_beq hx]
        simp
      · rfl

theorem toNat_one_shiftLeft {i : ℕ} (hi : i < 64) : (1#64 <<< i).toNat = 2 ^ i := by
  have hlt : (2 : ℕ) ^ i < 2 ^ 64 := Nat.pow_lt_pow_right (by decide) hi
  rw [BitVec.toNat_shiftLeft, Nat.shiftLeft_eq]
  simpa using Nat.mod_eq_of_lt hlt

theorem lessThanPow2_iff {init : List U64} {top : U64} (htop : top ≠ 0) (exp : ℕ) :
    lessThanPow2 (init ++ [top]) exp = true ↔ Limbs.value (init ++ [top]) < 2 ^ exp := by
  have hlen : (init ++ [top]).length = init.length + 1 := by simp
  have hvalue : Limbs.value (init ++ [top]) =
      Limbs.value init + 2 ^ (64 * init.length) * top.toNat := by
    rw [Limbs.value_append]
    simp
  have hinit : Limbs.value init < 2 ^ (64 * init.length) := Limbs.value_lt init
  have htop1 : 1 ≤ top.toNat := by
    rw [Nat.one_le_iff_ne_zero]
    exact fun h => htop (BitVec.eq_of_toNat_eq (by simpa using h))
  have hsplit := Nat.div_add_mod exp 64
  have hpow : (2 : ℕ) ^ exp = 2 ^ (64 * (exp / 64)) * 2 ^ (exp % 64) := by rw [← pow_add, hsplit]
  unfold lessThanPow2
  simp only [hlen]
  by_cases hlong : init.length + 1 > exp / 64 + 1
  · -- more limbs than `2 ^ exp` has
    have hle : (2 : ℕ) ^ exp ≤ 2 ^ (64 * init.length) :=
      Nat.pow_le_pow_right (by decide) (by omega)
    have hmul := Nat.mul_le_mul_left (2 ^ (64 * init.length)) htop1
    rw [if_pos hlong, hvalue]
    apply iff_of_false nofun
    omega
  rw [if_neg hlong]
  by_cases hshort : init.length + 1 ≤ exp / 64
  · have hall := Limbs.value_lt (init ++ [top])
    have hle : (2 : ℕ) ^ (64 * (init ++ [top]).length) ≤ 2 ^ exp :=
      Nat.pow_le_pow_right (by decide) (by omega)
    rw [if_pos hshort]
    exact iff_of_true rfl (hall.trans_le hle)
  -- the top limbs stand at the same position
  have hpos : exp / 64 = init.length := by omega
  have hget : (init ++ [top]).getD (exp / 64) 0 = top := by simp [hpos]
  rw [if_neg hshort, decide_eq_true_iff, hget, BitVec.lt_def, hvalue, hpow, hpos]
  by_cases hzero : exp % 64 = 0
  · have hmul := Nat.mul_le_mul_left (2 ^ (64 * init.length)) htop1
    rw [if_pos hzero, hzero, pow_zero]
    apply iff_of_false (Nat.not_lt_zero _)
    omega
  rw [if_neg hzero, toNat_one_shiftLeft (Nat.mod_lt _ (by decide))]
  constructor
  · intro hlt
    have hmul := Nat.mul_le_mul_left (2 ^ (64 * init.length)) hlt
    rw [Nat.mul_succ] at hmul
    omega
  · intro hlt
    by_contra hge
    have hmul := Nat.mul_le_mul_left (2 ^ (64 * init.length)) (Nat.le_of_not_lt hge)
    omega

/-- A limb string without leading zeros below `2 ^ exp` has no more limbs than that. -/
theorem length_le_of_value_lt {init : List U64} {top : U64} (htop : top ≠ 0) {m : ℕ}
    (h : Limbs.value (init ++ [top]) < 2 ^ (64 * m)) : (init ++ [top]).length ≤ m := by
  by_contra hlen
  have htop1 : 1 ≤ top.toNat := by
    rw [Nat.one_le_iff_ne_zero]
    exact fun hz => htop (BitVec.eq_of_toNat_eq (by simpa using hz))
  have hle : (2 : ℕ) ^ (64 * m) ≤ 2 ^ (64 * init.length) :=
    Nat.pow_le_pow_right (by decide) (by rw [List.length_append] at hlen; simp at hlen; omega)
  have hmul := Nat.mul_le_mul_left (2 ^ (64 * init.length)) htop1
  rw [Limbs.value_append] at h
  simp only [Limbs.value_cons, Limbs.value_nil, Nat.mul_zero, Nat.add_zero] at h
  omega

theorem rdropWhile_cases (n : List U64) :
    (n.rdropWhile (· == 0) = [] ∧ Limbs.value n = 0) ∨
      ∃ init top, n.rdropWhile (· == 0) = init ++ [top] ∧ top ≠ 0 ∧
        Limbs.value (init ++ [top]) = Limbs.value n ∧ 0 < Limbs.value n := by
  have hvalue := value_rdropWhile n
  by_cases hnil : n.rdropWhile (· == 0) = []
  · rw [hnil, Limbs.value_nil] at hvalue
    exact Or.inl ⟨hnil, hvalue.symm⟩
  · have hlast := List.rdropWhile_last_not (· == (0 : U64)) n hnil
    have hsplit := (List.dropLast_append_getLast hnil).symm
    have htop : (n.rdropWhile (· == 0)).getLast hnil ≠ 0 := by simpa using hlast
    have hpos : 0 < Limbs.value n := by
      rw [← hvalue, Nat.pos_iff_ne_zero, Ne, Limbs.value_eq_zero]
      exact fun hall => htop (hall _ (List.getLast_mem hnil))
    exact Or.inr ⟨_, _, hsplit, htop, hsplit ▸ hvalue, hpos⟩

theorem canonicalN_ok {k : ℕ} {n : List U64} (h : Canonical k (Limbs.value n)) :
    ∃ limbs, canonicalN k n = .ok limbs ∧ Limbs.value limbs = Limbs.value n ∧
      limbs.length ≤ 4 := by
  have hk : ¬ ¬ (2 ≤ k ∧ k ≤ 256) := not_not.mpr ⟨h.two_le, h.le_256⟩
  cases rdropWhile_cases n with
  | inl hzero => exact absurd hzero.2 (Nat.ne_of_gt h.pos)
  | inr hsplit =>
      obtain ⟨init, top, hlimbs, htop, hvalue, -⟩ := hsplit
      have hless : lessThanPow2 (init ++ [top]) (k - 1) = true := by
        rw [lessThanPow2_iff htop, hvalue]
        exact h.lt
      have hle : (init ++ [top]).length ≤ 4 := by
        have hk256 := h.le_256
        apply length_le_of_value_lt htop
        rw [hvalue]
        exact h.lt.trans (Nat.pow_lt_pow_right (by decide) (by omega))
      have hok : canonicalN k n = .ok (init ++ [top]) := by
        simp only [canonicalN, if_neg hk, hlimbs, hless]
        simp
      exact ⟨_, hok, hvalue, hle⟩

theorem canonical_of_ok {k : ℕ} {n limbs : List U64} (h : canonicalN k n = .ok limbs) :
    Canonical k (Limbs.value n) := by
  by_cases hk : 2 ≤ k ∧ k ≤ 256
  · cases rdropWhile_cases n with
    | inl hzero =>
        simp only [canonicalN, if_neg (not_not.mpr hk), hzero.1] at h
        cases h
    | inr hsplit =>
        obtain ⟨init, top, hlimbs, htop, hvalue, hpos⟩ := hsplit
        have hless : lessThanPow2 (init ++ [top]) (k - 1) = true := by
          by_contra hnot
          rw [Bool.not_eq_true] at hnot
          simp only [canonicalN, if_neg (not_not.mpr hk), hlimbs, hnot] at h
          simp at h
        rw [lessThanPow2_iff htop, hvalue] at hless
        exact ⟨hk.1, hk.2, hpos, hless⟩
  · rw [canonicalN, if_pos hk] at h
    cases h

theorem U256.toNat_ofLimbs {n : List U64} (h : n.length ≤ 4) :
    (U256.ofLimbs n).toNat = Limbs.value n := by
  match n, h with
  | [], _ => rfl
  | [a], _ => simp [U256.ofLimbs, U256.toNat, List.range_succ]
  | [a, b], _ => simp [U256.ofLimbs, U256.toNat, List.range_succ]
  | [a, b, c], _ => simp [U256.ofLimbs, U256.toNat, List.range_succ]
  | [a, b, c, d], _ => simp [U256.ofLimbs, U256.toNat, List.range_succ]

theorem value_set_zero {q : ℕ} (hq : q < 4) (limb : U64) :
    Limbs.value (U256.zero.limbs.set q limb) = 2 ^ (64 * q) * limb.toNat := by
  match q, hq with
  | 0, _ => simp [U256.zero]
  | 1, _ => simp [U256.zero]
  | 2, _ => simp only [U256.zero, List.set, Limbs.value_cons, Limbs.value_nil]; simp; ring
  | 3, _ => simp only [U256.zero, List.set, Limbs.value_cons, Limbs.value_nil]; simp; ring

theorem modulus_ok {k : ℕ} {n : List U64} (h : Canonical k (Limbs.value n)) (hlen : n.length ≤ 4) :
    ∃ p, modulus k n = .ok p ∧ p.toNat = 2 ^ k - Limbs.value n := by
  have hn := U256.toNat_ofLimbs hlen
  have hpos := h.pos
  by_cases hk : k = 256
  · refine ⟨U256.zero.sub (.ofLimbs n), by rw [modulus, if_pos hk], ?_⟩
    rw [U256.toNat_sub_of_lt (by simpa [hn] using hpos), hn, hk, U256.toNat_zero, Nat.add_zero]
  · have hlimb : k / 64 < 4 ∧ n.length ≤ 4 := ⟨by have := h.le_256; omega, hlen⟩
    have hlt : Limbs.value n < 2 ^ k :=
      h.lt.trans_le (Nat.pow_le_pow_right (by decide) (Nat.sub_le k 1))
    have hpow : Limbs.value (U256.zero.limbs.set (k / 64) (1#64 <<< (k % 64))) = 2 ^ k := by
      rw [value_set_zero hlimb.1, toNat_one_shiftLeft (Nat.mod_lt _ (by decide)), ← pow_add,
        Nat.div_add_mod]
    refine ⟨_, by rw [modulus, if_neg hk, dif_pos hlimb], ?_⟩
    rw [U256.toNat_sub (by rw [hn]; exact (Nat.le_of_lt hlt).trans_eq hpow.symm), hn]
    exact congrArg (· - Limbs.value n) hpow

/-- Shifting out the low zeros of `d` leaves its odd part. -/
theorem oddPart_spec {fuel : ℕ} {d : U256} (s : ℕ) (hpos : 0 < d.toNat)
    (hlt : d.toNat < 2 ^ fuel) :
    Odd (oddPart fuel d s).1.toNat ∧ ∃ t, (oddPart fuel d s).2 = s + t ∧
      d.toNat = 2 ^ t * (oddPart fuel d s).1.toNat := by
  induction fuel generalizing d s with
  | zero =>
      rw [pow_zero] at hlt
      omega
  | succ fuel ih =>
      have hbit : d.bit 0 = decide (d.toNat % 2 = 1) := by rw [U256.bit_eq, Nat.testBit_zero]
      rw [oddPart, hbit]
      rcases Nat.mod_two_eq_zero_or_one d.toNat with heven | hodd
      · have hhalf : d.shr1.toNat = d.toNat / 2 := d.toNat_shr1
        obtain ⟨hrest, t, ht, hd⟩ := ih (d := d.shr1) (s + 1) (by omega) (by omega)
        simp only [heven, Nat.zero_ne_one, decide_false, Bool.not_false, if_true]
        refine ⟨hrest, t + 1, by rw [ht]; ring, ?_⟩
        rw [pow_succ, Nat.mul_right_comm, ← hd, hhalf]
        omega
      · simp only [hodd, decide_true, Bool.not_true, Bool.false_eq_true, if_false]
        exact ⟨Nat.odd_iff.mpr hodd, 0, rfl, by rw [pow_zero, Nat.one_mul]⟩

section
variable {p : U256}

theorem eq_sub_one_iff (hp : 1 < p.toNat) (x : U256) (hx : x.toNat < p.toNat) :
    x = p.sub (.fromU64 1) ↔ x.toNat ≡ p.toNat - 1 [MOD p.toNat] := by
  have hone : (U256.fromU64 1).toNat = 1 := by simp
  rw [← U256.toNat_inj, U256.toNat_sub (by omega), hone, Nat.ModEq, Nat.mod_eq_of_lt hx,
    Nat.mod_eq_of_lt (by omega)]

/-- The squarings find `-1` just when one of the next `n` squares of `x` is it. -/
theorem witnessed_iff (hp : 1 < p.toNat) (n : ℕ) {x : U256} (hx : x.toNat < p.toNat) :
    witnessed p n x = true ↔
      ∃ r < n, x.toNat ^ 2 ^ (r + 1) ≡ p.toNat - 1 [MOD p.toNat] := by
  induction n generalizing x with
  | zero => simp [witnessed]
  | succ n ih =>
      have hsq : (x.mulmod x p).toNat = x.toNat ^ 2 % p.toNat := by
        rw [U256.toNat_mulmod hx, pow_two]
      have hlt : (x.mulmod x p).toNat < p.toNat := hsq ▸ Nat.mod_lt _ (by omega)
      have hpow : ∀ m, (x.mulmod x p).toNat ^ m ≡ x.toNat ^ (2 * m) [MOD p.toNat] := fun m => by
        rw [hsq, pow_mul]
        exact (Nat.mod_modEq _ _).pow m
      have hfirst := hpow 1
      rw [pow_one, Nat.mul_one] at hfirst
      simp only [witnessed]
      by_cases hhit : x.mulmod x p = p.sub (.fromU64 1)
      · rw [if_pos hhit]
        rw [eq_sub_one_iff hp _ hlt] at hhit
        exact iff_of_true rfl ⟨0, Nat.succ_pos n, by simpa using hfirst.symm.trans hhit⟩
      · rw [if_neg hhit, ih hlt]
        rw [eq_sub_one_iff hp _ hlt] at hhit
        constructor
        · rintro ⟨r, hr, hmod⟩
          refine ⟨r + 1, Nat.succ_lt_succ hr, ?_⟩
          rw [pow_succ' 2 (r + 1)]
          exact (hpow _).symm.trans hmod
        · rintro ⟨r, hr, hmod⟩
          cases r with
          | zero => exact absurd (hfirst.trans (by simpa using hmod)) hhit
          | succ r =>
              refine ⟨r, Nat.lt_of_succ_lt_succ hr, ?_⟩
              rw [pow_succ' 2 (r + 1)] at hmod
              exact (hpow _).trans hmod

/-- One base passes just when `p` is a strong probable prime to it. -/
theorem passesBase_iff {d : U256} {s : ℕ} (hp : 1 < p.toNat) (hd : Odd d.toNat) (hs : 0 < s)
    (hsplit : p.toNat - 1 = 2 ^ s * d.toNat) (base : U64) :
    passesBase p d s base = true ↔
      (base.toNat < p.toNat → MillerRabin.StrongProbablePrime p.toNat base.toNat) := by
  rw [MillerRabin.strongProbablePrime_iff hd hsplit]
  unfold passesBase
  by_cases hlt : base.toNat < p.toNat
  swap
  · have hcmp : (U256.fromU64 base).cmp p ≠ .lt := by
      rwa [Ne, U256.cmp_eq_lt, U256.toNat_fromU64]
    simp only [if_pos hcmp]
    exact iff_of_true trivial fun h => absurd h hlt
  have ha : (U256.fromU64 base).toNat < p.toNat := by rwa [U256.toNat_fromU64]
  have hcmp : ¬ (U256.fromU64 base).cmp p ≠ .lt := not_not.mpr (U256.cmp_eq_lt.mpr ha)
  have hx : ((U256.fromU64 base).powmod d p).toNat = base.toNat ^ d.toNat % p.toNat := by
    rw [U256.toNat_powmod ha hp, U256.toNat_fromU64]
  simp only [if_neg hcmp]
  generalize (U256.fromU64 base).powmod d p = x at hx ⊢
  have hxlt : x.toNat < p.toNat := hx ▸ Nat.mod_lt _ (by omega)
  have hpow : ∀ r, x.toNat ^ 2 ^ r ≡ base.toNat ^ (2 ^ r * d.toNat) [MOD p.toNat] := fun r => by
    rw [hx, Nat.mul_comm, pow_mul]
    exact (Nat.mod_modEq _ _).pow _
  have hfirst := hpow 0
  rw [pow_zero, pow_one, Nat.one_mul] at hfirst
  have hone : x = .fromU64 1 ↔ base.toNat ^ d.toNat ≡ 1 [MOD p.toNat] := by
    rw [← U256.toNat_inj, hx, U256.toNat_fromU64]
    simp [Nat.ModEq, Nat.mod_eq_of_lt hp]
  have hneg := eq_sub_one_iff hp x hxlt
  rw [MillerRabin.Passes, ← hone]
  constructor
  · intro h _
    by_cases hfound : x = .fromU64 1 ∨ x = p.sub (.fromU64 1)
    · cases hfound with
      | inl hx1 => exact Or.inl hx1
      | inr hlast => exact Or.inr ⟨0, hs, by simpa using hfirst.symm.trans (hneg.mp hlast)⟩
    · rw [if_neg hfound, witnessed_iff hp _ hxlt] at h
      obtain ⟨r, hr, hmod⟩ := h
      exact Or.inr ⟨r + 1, by omega, (hpow _).symm.trans hmod⟩
  · intro h
    by_cases hfound : x = .fromU64 1 ∨ x = p.sub (.fromU64 1)
    · rw [if_pos hfound]
    · rw [if_neg hfound, witnessed_iff hp _ hxlt]
      rw [not_or] at hfound
      obtain ⟨r, hr, hmod⟩ := (h hlt).resolve_left hfound.1
      cases r with
      | zero => exact absurd (hneg.mpr (hfirst.trans (by simpa using hmod))) hfound.2
      | succ r => exact ⟨r, by omega, (hpow _).trans hmod⟩

end

def basesOf (p : ℕ) : List U64 := if p ≤ 2 ^ 64 - 1 then smallBases else largeBases

structure StrongPseudoprime (p : ℕ) : Prop where
  odd : Odd p
  one_lt : 1 < p
  not_prime : ¬ p.Prime
  passes : ∀ a ∈ basesOf p, a.toNat < p → MillerRabin.StrongProbablePrime p a.toNat

theorem basesOf_pos {p : ℕ} {a : U64} (h : a ∈ basesOf p) : 0 < a.toNat := by
  have hsmall : ∀ b ∈ smallBases, 0 < b.toNat := by simp [smallBases]
  have hlarge : ∀ b ∈ largeBases, 0 < b.toNat := by simp [largeBases]
  unfold basesOf at h
  split_ifs at h
  · exact hsmall a h
  · exact hlarge a h

theorem isPrime_iff (p : U256) :
    isPrime p = true ↔ p.toNat.Prime ∨ StrongPseudoprime p.toNat := by
  have htwo : (U256.fromU64 2).toNat = 2 := by simp
  have hthree : (U256.fromU64 3).toNat = 3 := by simp
  unfold isPrime
  by_cases hlt : p.toNat < 2
  · rw [if_pos (by rwa [U256.cmp_eq_lt, htwo])]
    apply iff_of_false nofun
    rintro (hprime | hpseudo)
    · exact absurd hprime.two_le (by omega)
    · exact absurd hpseudo.one_lt (by omega)
  rw [if_neg (by rwa [U256.cmp_eq_lt, htwo])]
  by_cases hsmall : p.toNat = 2 ∨ p.toNat = 3
  · have hcase : p = .fromU64 2 ∨ p = .fromU64 3 := by
      rwa [← U256.toNat_inj, ← U256.toNat_inj, htwo, hthree]
    rw [if_pos hcase]
    have hprime : p.toNat.Prime := by
      cases hsmall with
      | inl h => rw [h]; exact Nat.prime_two
      | inr h => rw [h]; exact Nat.prime_three
    exact iff_of_true rfl (Or.inl hprime)
  have hcase : ¬ (p = .fromU64 2 ∨ p = .fromU64 3) := by
    rwa [← U256.toNat_inj, ← U256.toNat_inj, htwo, hthree]
  rw [if_neg hcase, U256.bit_eq, Nat.testBit_zero]
  rcases Nat.mod_two_eq_zero_or_one p.toNat with heven | hodd
  · have hnot : ¬ Odd p.toNat := by rwa [Nat.not_odd_iff]
    simp only [heven, Nat.zero_ne_one, decide_false, Bool.not_false, if_true]
    apply iff_of_false nofun
    rintro (hprime | hpseudo)
    · exact absurd (hprime.odd_of_ne_two fun h => hsmall (Or.inl h)) hnot
    · exact absurd hpseudo.odd hnot
  simp only [hodd, decide_true, Bool.not_true, Bool.false_eq_true, if_false]
  have hp : 1 < p.toNat := by omega
  have hsub : (p.sub (.fromU64 1)).toNat = p.toNat - 1 := by
    have hone : (U256.fromU64 1).toNat = 1 := by simp
    rw [U256.toNat_sub (by omega), hone]
  have hlt : (p.sub (.fromU64 1)).toNat < 2 ^ 256 := U256.toNat_lt _
  obtain ⟨hd, s, hs, hsplit⟩ := oddPart_spec 0 (by omega) hlt
  rw [hsub] at hsplit
  have hspos : 0 < s := by
    by_contra hzero
    rw [Nat.eq_zero_of_not_pos hzero, pow_zero, Nat.one_mul] at hsplit
    rw [← hsplit] at hd
    exact Nat.not_even_iff_odd.mpr hd (Nat.even_iff.mpr (by omega))
  have hbases : (if p.cmp (.fromU64 (BitVec.allOnes 64)) ≠ .gt then smallBases else largeBases) =
      basesOf p.toNat := by
    unfold basesOf
    congr 1
    rw [U256.cmp_eq, Ne, Nat.compare_eq_gt, U256.toNat_fromU64, BitVec.toNat_allOnes, Nat.not_lt]
  rw [Nat.zero_add] at hs
  rw [hbases, List.all_eq_true, hs]
  simp only [passesBase_iff hp hd hspos hsplit]
  constructor
  · intro hall
    by_cases hprime : p.toNat.Prime
    · exact Or.inl hprime
    · exact Or.inr ⟨Nat.odd_iff.mpr hodd, hp, hprime, hall⟩
  · rintro (hprime | hpseudo)
    · intro a ha halt
      have hpos : 0 < a.toNat := basesOf_pos ha
      exact MillerRabin.strongProbablePrime_of_prime hprime (Nat.not_dvd_of_pos_of_lt hpos halt)
    · exact hpseudo.passes

theorem primeField_ok_iff (table : TypeTable) (k : ℕ) (n : List U64) :
    (∃ r, table.primeField k n = .ok r) ↔ Canonical k (Limbs.value n) ∧
      ((2 ^ k - Limbs.value n).Prime ∨ StrongPseudoprime (2 ^ k - Limbs.value n)) := by
  by_cases hcan : Canonical k (Limbs.value n)
  · obtain ⟨limbs, hlimbs, hvalue, hlen⟩ := canonicalN_ok hcan
    obtain ⟨p, hp, hmod⟩ := modulus_ok (hvalue.symm ▸ hcan) hlen
    rw [hvalue] at hmod
    have hprime := isPrime_iff p
    rw [hmod] at hprime
    rw [← hprime, TypeTable.primeField, hlimbs]
    simp only [bind, Except.bind, hp]
    cases isPrime p <;> simp [hcan]
  · apply iff_of_false
    · rintro ⟨r, hr⟩
      rw [TypeTable.primeField, Except.bind_eq_ok] at hr
      obtain ⟨limbs, hlimbs, -⟩ := hr
      exact hcan (canonical_of_ok hlimbs)
    · exact fun h => hcan h.1

/-- `prime_field` accepts exactly the canonical primes, unless the modulus is a canonical
composite that is a strong pseudoprime to the bases of its size. -/
theorem primeField_exact_iff (table : TypeTable) (k : ℕ) (n : List U64) :
    ((∃ r, table.primeField k n = .ok r) ↔
      Canonical k (Limbs.value n) ∧ (2 ^ k - Limbs.value n).Prime) ↔
    ¬ (Canonical k (Limbs.value n) ∧ StrongPseudoprime (2 ^ k - Limbs.value n)) := by
  rw [primeField_ok_iff]
  constructor
  · rintro h ⟨hcan, hpseudo⟩
    exact hpseudo.not_prime (h.mp ⟨hcan, Or.inr hpseudo⟩).2
  · intro h
    constructor
    · exact fun hok => ⟨hok.1, hok.2.resolve_right fun hpseudo => h ⟨hok.1, hpseudo⟩⟩
    · exact fun hprime => ⟨hprime.1, Or.inl hprime.2⟩

theorem strongPseudoprime_3825123056546413051 : StrongPseudoprime 3825123056546413051 where
  odd := by decide
  one_lt := by decide
  not_prime := by
    rw [show 3825123056546413051 = 149491 * 25587647795161 from rfl]
    exact Nat.not_prime_mul (by decide) (by decide)
  passes := by
    have hd : Odd 1912561528273206525 := by decide
    have hsplit : 3825123056546413051 - 1 = 2 ^ 1 * 1912561528273206525 := by decide
    have hbases : basesOf 3825123056546413051 = smallBases := if_pos (by decide)
    simp only [hbases, MillerRabin.strongProbablePrime_iff hd hsplit]
    intro a ha _
    -- each base reaches `1` or `-1` at the odd part itself
    apply MillerRabin.passes_of_zmod (by decide) Nat.zero_lt_one
    simp only [smallBases, List.mem_cons, List.not_mem_nil, or_false] at ha
    rcases ha with rfl | rfl | rfl | rfl | rfl | rfl | rfl
    · apply Or.inr
      change (2 : ZMod 3825123056546413051) ^ _ = _
      reduce_mod_char
    · apply Or.inr
      change (3 : ZMod 3825123056546413051) ^ _ = _
      reduce_mod_char
    · apply Or.inl
      change (5 : ZMod 3825123056546413051) ^ _ = _
      reduce_mod_char
    · apply Or.inl
      change (7 : ZMod 3825123056546413051) ^ _ = _
      reduce_mod_char
    · apply Or.inr
      change (11 : ZMod 3825123056546413051) ^ _ = _
      reduce_mod_char
    · apply Or.inl
      change (13 : ZMod 3825123056546413051) ^ _ = _
      reduce_mod_char
    · apply Or.inl
      change (23 : ZMod 3825123056546413051) ^ _ = _
      reduce_mod_char

/-- The field of `149491 * 747451 * 34233211` elements is interned. -/
theorem primeField_composite :
    (∃ r, TypeTable.empty.primeField 62 [786562961880974853] = .ok r) ∧
      ¬ (2 ^ 62 - Limbs.value [(786562961880974853 : U64)]).Prime := by
  have hmod : 2 ^ 62 - Limbs.value [(786562961880974853 : U64)] = 3825123056546413051 := by decide
  have hcan : Canonical 62 (Limbs.value [(786562961880974853 : U64)]) :=
    ⟨by decide, by decide, by decide, by decide⟩
  have hpseudo := strongPseudoprime_3825123056546413051
  rw [primeField_ok_iff, hmod]
  exact ⟨⟨hcan, Or.inr hpseudo⟩, hpseudo.not_prime⟩

end VolarIR
