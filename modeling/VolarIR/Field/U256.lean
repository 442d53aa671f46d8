import VolarIR.Field.TypeTable
import VolarIR.Library.Limbs

/-!
# 256-bit arithmetic modulo a number

The `U256` of `prime.rs`: four 64-bit limbs, and sum, product and power modulo a given
number by repeated modular doubling.
-/
namespace VolarIR

structure U256 where
  limbs : List U64
  length_eq : limbs.length = 4
  deriving DecidableEq

namespace U256

def toNat (x : U256) : ℕ := Limbs.value x.limbs

def zero : U256 := ⟨[0, 0, 0, 0], rfl⟩

def fromU64 (value : U64) : U256 := ⟨[value, 0, 0, 0], rfl⟩

def isZero (x : U256) : Bool := x.limbs.all fun limb => limb == 0

def bit (x : U256) (index : ℕ) : Bool :=
  if index ≥ 256 then false else Limbs.bit x.limbs index

def cmp (x y : U256) : Ordering := Limbs.cmp x.limbs y.limbs

def add (x y : U256) : U256 × Bool :=
  (⟨(Limbs.add x.limbs y.limbs 0).1, by
      rw [Limbs.add_length (x.length_eq.trans y.length_eq.symm), x.length_eq]⟩,
    decide ((Limbs.add x.limbs y.limbs 0).2 ≠ 0))

def sub (x y : U256) : U256 :=
  ⟨(Limbs.sub x.limbs y.limbs 0).1, by
    rw [Limbs.sub_length (x.length_eq.trans y.length_eq.symm), x.length_eq]⟩

def shr1 (x : U256) : U256 := ⟨Limbs.shr1 x.limbs, by rw [Limbs.shr1_length, x.length_eq]⟩

/-- `self.0[bit / 64] &= !(1 << (bit % 64))`. -/
def clear (x : U256) (index : ℕ) : U256 :=
  ⟨Limbs.clear x.limbs index, by rw [Limbs.clear_length, x.length_eq]⟩

def addmod (x other modulus : U256) : U256 :=
  if x.cmp (modulus.sub other) ≠ .lt then x.sub (modulus.sub other) else (x.add other).1

/-- The loop of `mulmod` over the bits from `bit` on, `left` of them. -/
def mulmodFrom (modulus : U256) : (left bit : ℕ) → (acc base other : U256) → U256
  | 0, _, acc, _, _ => acc
  | left + 1, bit, acc, base, other =>
      let acc := if other.bit bit then acc.addmod base modulus else acc
      let other := other.clear bit
      let base := base.addmod base modulus
      if other.isZero then acc else mulmodFrom modulus left (bit + 1) acc base other

def mulmod (x other modulus : U256) : U256 := mulmodFrom modulus 256 0 zero x other

/-- The loop of `powmod` over the bits from `bit` on, `left` of them. -/
def powmodFrom (modulus : U256) : (left bit : ℕ) → (acc base exp : U256) → U256
  | 0, _, acc, _, _ => acc
  | left + 1, bit, acc, base, exp =>
      let acc := if exp.bit bit then acc.mulmod base modulus else acc
      let exp := exp.clear bit
      let base := base.mulmod base modulus
      if exp.isZero then acc else powmodFrom modulus left (bit + 1) acc base exp

def powmod (x exp modulus : U256) : U256 := powmodFrom modulus 256 0 (fromU64 1) x exp

variable {x y modulus : U256}

theorem toNat_lt (x : U256) : x.toNat < 2 ^ 256 := by
  have h := Limbs.value_lt x.limbs
  rwa [x.length_eq] at h

theorem toNat_inj : x.toNat = y.toNat ↔ x = y := by
  constructor
  · intro h
    cases x
    cases y
    congr 1
    exact Limbs.value_inj (by simp [*]) h
  · exact congrArg toNat

@[simp] theorem toNat_zero : zero.toNat = 0 := rfl

@[simp] theorem toNat_fromU64 (value : U64) : (fromU64 value).toNat = value.toNat := by
  simp [toNat, fromU64]

theorem isZero_iff : x.isZero = true ↔ x.toNat = 0 := by
  rw [toNat, Limbs.value_eq_zero, isZero, List.all_eq_true]
  simp

theorem bit_eq (index : ℕ) : x.bit index = x.toNat.testBit index := by
  unfold bit
  split_ifs with h
  · exact (Nat.testBit_lt_two_pow (x.toNat_lt.trans_le (Nat.pow_le_pow_right (by decide) h))).symm
  · exact (Limbs.testBit_value (by decide) _ _).symm

theorem cmp_eq : x.cmp y = compare x.toNat y.toNat :=
  Limbs.cmp_value (x.length_eq.trans y.length_eq.symm)

@[simp] theorem cmp_eq_lt : x.cmp y = .lt ↔ x.toNat < y.toNat := by
  rw [cmp_eq, Nat.compare_eq_lt]

theorem toNat_add (h : x.toNat + y.toNat < 2 ^ 256) : (x.add y).1.toNat = x.toNat + y.toNat := by
  have hsum := Limbs.add_value (x.length_eq.trans y.length_eq.symm) 0
  rw [x.length_eq, Nat.add_zero] at hsum
  have hcarry : (Limbs.add x.limbs y.limbs 0).2 = 0 := by
    by_contra hne
    have hpos := Nat.mul_le_mul_left (2 ^ (64 * 4)) (Nat.one_le_iff_ne_zero.mpr hne)
    simp only [toNat] at h
    omega
  rw [hcarry, Nat.mul_zero, Nat.add_zero] at hsum
  exact hsum

theorem toNat_sub (h : y.toNat ≤ x.toNat) : (x.sub y).toNat = x.toNat - y.toNat :=
  Limbs.sub_value_of_le (x.length_eq.trans y.length_eq.symm) h

theorem toNat_sub_of_lt (h : x.toNat < y.toNat) :
    (x.sub y).toNat = 2 ^ 256 + x.toNat - y.toNat := by
  have hsub := Limbs.sub_value (x.length_eq.trans y.length_eq.symm)
    (Or.inl rfl : (0 : ℤ) = 0 ∨ (0 : ℤ) = 1)
  have hy := y.toNat_lt
  rw [x.length_eq] at hsub
  change ((x.sub y).toNat : ℤ) = x.toNat - y.toNat - 0 + _ ∧ _ at hsub
  cases hsub.2 with
  | inl hzero =>
      rw [hzero] at hsub
      omega
  | inr hone =>
      rw [hone] at hsub
      omega

theorem toNat_shr1 (x : U256) : x.shr1.toNat = x.toNat / 2 :=
  Limbs.shr1_value (by decide) _

theorem toNat_addmod (hx : x.toNat < modulus.toNat) (hy : y.toNat < modulus.toNat) :
    (x.addmod y modulus).toNat = (x.toNat + y.toNat) % modulus.toNat := by
  have hdiff : (modulus.sub y).toNat = modulus.toNat - y.toNat :=
    toNat_sub (Nat.le_of_lt hy)
  unfold addmod
  by_cases hlt : x.toNat + y.toNat < modulus.toNat
  · have hcmp : x.cmp (modulus.sub y) = .lt := by
      rw [cmp_eq_lt, hdiff]
      omega
    rw [if_neg (by simp [hcmp]), toNat_add (hlt.trans modulus.toNat_lt), Nat.mod_eq_of_lt hlt]
  · have hcmp : x.cmp (modulus.sub y) ≠ .lt := by
      rw [Ne, cmp_eq_lt, hdiff]
      omega
    rw [if_pos hcmp, toNat_sub (by omega), hdiff, Nat.mod_eq_sub_mod (by omega),
      Nat.mod_eq_of_lt (by omega)]
    omega

/-! ### The loops

Both loops hold a multiple `2 ^ bit * q` of the bits not yet read; reading bit `bit` and
clearing it leaves `q / 2`. -/

theorem bit_of_eq {q bit : ℕ} (h : x.toNat = 2 ^ bit * q) : x.bit bit = decide (q % 2 = 1) := by
  rw [bit_eq, h, Nat.testBit_two_pow_mul]
  simp [Nat.testBit_zero]

theorem toNat_clear {q bit : ℕ} (h : x.toNat = 2 ^ bit * q) :
    (x.clear bit).toNat = 2 ^ (bit + 1) * (q / 2) := by
  have hvalue : (x.clear bit).toNat + (if Limbs.bit x.limbs bit then 2 ^ bit else 0) = x.toNat :=
    Limbs.clear_value (by decide) x.limbs bit
  have hbit : Limbs.bit x.limbs bit = decide (q % 2 = 1) := by
    rw [← bit_of_eq h, bit_eq]
    exact (Limbs.testBit_value (by decide) x.limbs bit).symm
  have hsplit : 2 ^ bit * q = 2 ^ (bit + 1) * (q / 2) + 2 ^ bit * (q % 2) := by
    conv_lhs => rw [← Nat.mod_add_div q 2]
    ring
  rw [hbit, h, hsplit] at hvalue
  rcases Nat.mod_two_eq_zero_or_one q with heven | hodd
  · simpa [heven] using hvalue
  · simpa [hodd] using hvalue

theorem clear_isZero {q bit : ℕ} (h : x.toNat = 2 ^ bit * q) :
    (x.clear bit).isZero = true ↔ q / 2 = 0 := by
  rw [isZero_iff, toNat_clear h, Nat.mul_eq_zero]
  exact or_iff_right (by positivity)

theorem mulmodFrom_toNat {left bit q : ℕ} {acc base other : U256}
    (hacc : acc.toNat < modulus.toNat) (hbase : base.toNat < modulus.toNat)
    (hother : other.toNat = 2 ^ bit * q) (hq : q < 2 ^ left) :
    (mulmodFrom modulus left bit acc base other).toNat =
      (acc.toNat + base.toNat * q) % modulus.toNat := by
  induction left generalizing bit q acc base other with
  | zero =>
      have hzero : q = 0 := by simpa using hq
      rw [mulmodFrom, hzero, Nat.mul_zero, Nat.add_zero, Nat.mod_eq_of_lt hacc]
  | succ left ih =>
      have hpos : 0 < modulus.toNat := Nat.zero_lt_of_lt hacc
      have hacc' : (if other.bit bit then acc.addmod base modulus else acc).toNat =
          (acc.toNat + base.toNat * (q % 2)) % modulus.toNat := by
        rw [bit_of_eq hother]
        rcases Nat.mod_two_eq_zero_or_one q with heven | hodd
        · simp [heven, Nat.mod_eq_of_lt hacc]
        · simp [hodd, toNat_addmod hacc hbase]
      have hbase' : (base.addmod base modulus).toNat =
          (base.toNat * 2) % modulus.toNat := by
        rw [toNat_addmod hbase hbase, Nat.mul_two]
      have hq' := Nat.mod_add_div q 2
      simp only [mulmodFrom]
      generalize (if other.bit bit then acc.addmod base modulus else acc) = next at hacc' ⊢
      by_cases hzero : (other.clear bit).isZero = true
      · rw [if_pos hzero]
        rw [clear_isZero hother] at hzero
        rw [hzero, Nat.mul_zero, Nat.add_zero] at hq'
        rw [hacc', hq']
      · have hnext : next.toNat < modulus.toNat := hacc' ▸ Nat.mod_lt _ hpos
        have hdouble : (base.addmod base modulus).toNat < modulus.toNat :=
          hbase' ▸ Nat.mod_lt _ hpos
        rw [if_neg hzero, ih hnext hdouble (toNat_clear hother) (by omega), hacc', hbase']
        conv_rhs => rw [← hq']
        rw [Nat.mod_add_mod, Nat.add_mod, Nat.mod_mul_mod, ← Nat.add_mod]
        congr 1
        ring

theorem toNat_mulmod (hx : x.toNat < modulus.toNat) :
    (x.mulmod y modulus).toNat = x.toNat * y.toNat % modulus.toNat := by
  have hacc : zero.toNat < modulus.toNat := Nat.zero_lt_of_lt hx
  have hother : y.toNat = 2 ^ 0 * y.toNat := by rw [pow_zero, Nat.one_mul]
  have h := mulmodFrom_toNat hacc hx hother y.toNat_lt
  rwa [toNat_zero, Nat.zero_add] at h

theorem powmodFrom_toNat {left bit q : ℕ} {acc base exp : U256}
    (hacc : acc.toNat < modulus.toNat) (hbase : base.toNat < modulus.toNat)
    (hexp : exp.toNat = 2 ^ bit * q) (hq : q < 2 ^ left) :
    (powmodFrom modulus left bit acc base exp).toNat =
      acc.toNat * base.toNat ^ q % modulus.toNat := by
  induction left generalizing bit q acc base exp with
  | zero =>
      have hzero : q = 0 := by simpa using hq
      rw [powmodFrom, hzero, pow_zero, Nat.mul_one, Nat.mod_eq_of_lt hacc]
  | succ left ih =>
      have hpos : 0 < modulus.toNat := Nat.zero_lt_of_lt hacc
      have hacc' : (if exp.bit bit then acc.mulmod base modulus else acc).toNat =
          acc.toNat * base.toNat ^ (q % 2) % modulus.toNat := by
        rw [bit_of_eq hexp]
        rcases Nat.mod_two_eq_zero_or_one q with heven | hodd
        · simp [heven, Nat.mod_eq_of_lt hacc]
        · simp [hodd, toNat_mulmod hacc]
      have hbase' : (base.mulmod base modulus).toNat = base.toNat ^ 2 % modulus.toNat := by
        rw [toNat_mulmod hbase, pow_two]
      have hq' := Nat.mod_add_div q 2
      simp only [powmodFrom]
      generalize (if exp.bit bit then acc.mulmod base modulus else acc) = next at hacc' ⊢
      by_cases hzero : (exp.clear bit).isZero = true
      · rw [if_pos hzero]
        rw [clear_isZero hexp] at hzero
        rw [hzero, Nat.mul_zero, Nat.add_zero] at hq'
        rw [hacc', hq']
      · have hnext : next.toNat < modulus.toNat := hacc' ▸ Nat.mod_lt _ hpos
        have hdouble : (base.mulmod base modulus).toNat < modulus.toNat :=
          hbase' ▸ Nat.mod_lt _ hpos
        rw [if_neg hzero, ih hnext hdouble (toNat_clear hexp) (by omega), hacc', hbase',
          Nat.mod_mul_mod, Nat.mul_mod, ← Nat.pow_mod, ← Nat.mul_mod, ← pow_mul, Nat.mul_assoc,
              ← pow_add, hq']

theorem toNat_powmod (hx : x.toNat < modulus.toNat) (hone : 1 < modulus.toNat) :
    (x.powmod y modulus).toNat = x.toNat ^ y.toNat % modulus.toNat := by
  have hacc : (fromU64 1).toNat < modulus.toNat := by simpa using hone
  have hexp : y.toNat = 2 ^ 0 * y.toNat := by rw [pow_zero, Nat.one_mul]
  have h := powmodFrom_toNat hacc hx hexp y.toNat_lt
  rw [powmod, h]
  simp

end U256

end VolarIR
