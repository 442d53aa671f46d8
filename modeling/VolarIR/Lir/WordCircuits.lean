import VolarIR.Lir.BitShifts
import Mathlib.Data.List.TakeWhile

/-!
# Constant operands, rotations and counts

The rest of the integer algorithms of `volar-lir/src/circuits.rs`, and what they compute on
bits.
-/
namespace VolarIR.Lir
open Bits

/-- The two gates `bc_add_const` makes by itself, each one polynomial. -/
class ConstantAdder (B : Type) (Bit : outParam Type) where
  /-- `a + c`, and one more for `ci`. -/
  bcSumBit : (ci : Bool) → (a c : Bit) → StateM B Bit
  /-- `a + c + a * c`. -/
  bcOrSum : Bit → Bit → StateM B Bit

export ConstantAdder (bcSumBit bcOrSum)

section
variable {B Bit : Type} [BitCircuitBuilder B Bit] [Inhabited Bit]

def constBits (n : ℕ) (c : ℕ → Bool) : StateM B (List Bit) :=
  (List.range n).mapM fun i => bcConst (c i)

/-- `base + x * factor`. A power of two shifts, and the low bits of the sum are those of
`base`. -/
def bcAddScaledConst (base x : List Bit) (factor : BitVec 64) : StateM B (List Bit) := do
  let n := base.length
  let xn := min x.length n
  if factor = 0 then return base
  else if factor = 1 then
    let x2 := resize (x.take xn) n (← bcConst false)
    bcAdd base x2 false
  -- a power of two has as many trailing zeros as its logarithm
  else if factor.toNat = 2 ^ Nat.log2 factor.toNat then
    let sh := min (Nat.log2 factor.toNat) n
    if sh < n then
      let hiX := resize (x.take (min xn (n - sh))) (n - sh) (← bcConst false)
      return base.take sh ++ (← bcAdd (base.drop sh) hiX false)
    else return base.take sh
  else
    let factorBits ← constBits n factor.getLsbD
    let scaled ← bcMul (x.take xn) factorBits
    let scaled := resize scaled n (← bcConst false)
    bcAdd base scaled false

def constCarry [ConstantAdder B Bit] (ci : Bool) (a carry : Bit) : StateM B Bit :=
  if ci then bcOrSum a carry else bcAnd a carry

/-- The loop of `bc_add_const` from bit `i` on. -/
def bcAddConstFrom [ConstantAdder B Bit] (c : BitVec 64) :
    (i : ℕ) → (carry : Bit) → (a : List Bit) → StateM B (List Bit)
  | _, _, [] => return []
  | i, carry, a :: as => do
      let sum ← bcSumBit (c.getLsbD i) a carry
      let newCarry ← constCarry (c.getLsbD i) a carry
      return sum :: (← bcAddConstFrom c (i + 1) newCarry as)

def bcAddConst [ConstantAdder B Bit] (a : List Bit) (c : BitVec 64) : StateM B (List Bit) := do
  bcAddConstFrom c 0 (← bcConst false) a

def complementShift (n : ℕ) (shift : List Bit) : StateM B (List Bit) := do
  -- without overflow checks, a build shifts `n` by `i` modulo 64
  let nBits ← constBits shift.length fun i => n.testBit (i % 64)
  bcSub nBits shift

def rotlRun (val shift : List Bit) : StateM B (List Bit) := do
  let left ← bcShl val shift
  let nMinus ← complementShift val.length shift
  let right ← bcLshr val nMinus
  bcOrVec left right

def rotrRun (val shift : List Bit) : StateM B (List Bit) := do
  let right ← bcLshr val shift
  let nMinus ← complementShift val.length shift
  let left ← bcShl val nMinus
  bcOrVec right left

/-- With overflow checks, shifting the width right by 64 and more panics: `none`. -/
def bcRotl (overflowChecks : Bool) (val shift : List Bit) : Option (StateM B (List Bit)) :=
  if overflowChecks ∧ 64 < shift.length then none else some (rotlRun val shift)

def bcRotr (overflowChecks : Bool) (val shift : List Bit) : Option (StateM B (List Bit)) :=
  if overflowChecks ∧ 64 < shift.length then none else some (rotrRun val shift)

def orSuffixes : List Bit → StateM B (List Bit)
  | [] => return []
  | [b] => return [b]
  | b :: rest => do
      let above ← orSuffixes rest
      let any ← bcOr (above.headD default) b
      return any :: above

def orPrefixes : (below : Bit) → List Bit → StateM B (List Bit)
  | _, [] => return []
  | below, b :: rest => do
      let any ← bcOr below b
      return any :: (← orPrefixes any rest)

def countBit (acc : List Bit) (bit : Bit) : StateM B (List Bit) := do
  let zeros ← bcConsts (acc.length - 1) false
  bcAdd acc (bit :: zeros) false

def countOff (acc any : List Bit) : StateM B (List Bit) :=
  any.foldlM (fun acc w => do countBit acc (← bcNot w)) acc

def bcClz (val : List Bit) : StateM B (List Bit) :=
  match val with
  | [] => return []
  | _ => do
      let _ ← bcConst false
      let anyAbove ← orSuffixes val
      let acc ← bcConsts val.length false
      countOff acc anyAbove

def bcCtz (val : List Bit) : StateM B (List Bit) :=
  match val with
  | [] => return []
  | b :: rest => do
      let _ ← bcConst false
      let anyBelow ← orPrefixes b rest
      let acc ← bcConsts val.length false
      countOff acc (b :: anyBelow)

def bcPopcnt (val : List Bit) : StateM B (List Bit) :=
  match val with
  | [] => return []
  | _ => do
      let acc ← bcConsts val.length false
      val.foldlM countBit acc

end

instance : ConstantAdder Unit Bool where
  bcSumBit ci a c := pure (ci ^^ (a ^^ c))
  bcOrSum a c := pure (a ^^ (c ^^ (a && c)))

@[simp] theorem onBits_sumBit (ci a c : Bool) : onBits (bcSumBit ci a c) = (ci ^^ (a ^^ c)) := rfl

@[simp] theorem onBits_orSum (a c : Bool) : onBits (bcOrSum a c) = (a ^^ (c ^^ (a && c))) := rfl

@[simp] theorem onBits_constCarry (ci a c : Bool) :
    onBits (constCarry ci a c) = ((a && c) ^^ (ci && (a ^^ c))) := by
  cases ci <;> cases a <;> cases c <;> rfl

theorem onBits_constBits (n : ℕ) (c : ℕ → Bool) :
    onBits (constBits n c) = (List.range n).map c := by
  simp [constBits]

section
variable {n : ℕ} {a x base : List Bool}

theorem value_map_testBit_mod (m k : ℕ) : value ((List.range k).map m.testBit) = m % 2 ^ k := by
  apply Nat.eq_of_testBit_eq
  intro i
  rw [testBit_value, Nat.testBit_mod_two_pow, List.getD_eq_getElem?_getD, List.getElem?_map]
  by_cases hi : i < k
  · simp [hi]
  · simp [hi]

theorem value_add_resize {y : List Bool} {w : ℕ} (hbase : base.length = w) :
    (onBits (bcAdd base (resize y w false) false)).length = w ∧
      value (onBits (bcAdd base (resize y w false) false)) = (value base + value y) % 2 ^ w := by
  have hlen : base.length = (resize y w false).length := by rw [hbase, length_resize]
  refine ⟨(length_add false hlen).trans hbase, ?_⟩
  rw [value_add false hlen, value_resize, hbase, Bool.toNat_false, Nat.add_zero,
    Nat.add_mod_mod]

theorem value_add_high {sh : ℕ} (hsh : sh ≤ n) (hbase : base.length = n) {hi : List Bool} {y : ℕ}
    (hlen : hi.length = n - sh) (hhi : value hi = (value (base.drop sh) + y) % 2 ^ (n - sh)) :
    (base.take sh ++ hi).length = n ∧
      value (base.take sh ++ hi) = (value base + 2 ^ sh * y) % 2 ^ n := by
  have htake : (base.take sh).length = sh := by
    rw [List.length_take]
    omega
  have hlow := value_lt (base.take sh)
  rw [htake] at hlow
  constructor
  · rw [List.length_append, htake, hlen]
    omega
  · have hpow : 2 ^ n = 2 ^ sh * 2 ^ (n - sh) := by rw [← pow_add, Nat.add_sub_cancel' hsh]
    have hsum : value base + 2 ^ sh * y =
        value (base.take sh) + 2 ^ sh * (value (base.drop sh) + y) := by
      rw [value_split base (hbase ▸ hsh)]
      ring
    rw [value_append, htake, hhi, hsum, hpow, Nat.mod_mul, Nat.add_mul_mod_self_left,
      Nat.mod_eq_of_lt hlow, Nat.add_mul_div_left _ _ (Nat.two_pow_pos sh),
      Nat.div_eq_of_lt hlow, Nat.zero_add]

theorem addScaledConst_spec (factor : BitVec 64) (hbase : base.length = n) (hx : x.length = n) :
    (onBits (bcAddScaledConst base x factor)).length = n ∧
      value (onBits (bcAddScaledConst base x factor)) =
        (value base + value x * factor.toNat) % 2 ^ n := by
  have hlt : value base < 2 ^ n := hbase ▸ value_lt base
  have htake : x.take (min x.length base.length) = x := by
    rw [hx, hbase, Nat.min_self, ← hx, List.take_length]
  unfold bcAddScaledConst
  simp only [htake]
  split_ifs with hzero hone hpow hsh
  · have hnone : factor.toNat = 0 := by simp [hzero]
    rw [onBits_pure, hnone, Nat.mul_zero, Nat.add_zero, Nat.mod_eq_of_lt hlt]
    exact ⟨hbase, rfl⟩
  · have hunit : factor.toNat = 1 := by simp [hone]
    rw [onBits_bind, onBits_const, hunit, Nat.mul_one, hbase]
    exact value_add_resize hbase
  · -- the scaled operand has no bit below the shift
    generalize hk : Nat.log2 factor.toNat = k at hpow hsh ⊢
    have hkn : k < n := by
      rw [hbase] at hsh
      omega
    rw [hbase, Nat.min_eq_left hkn.le]
    have hdrop : (base.drop k).length = n - k := by rw [List.length_drop, hbase]
    have hsum := value_add_resize (y := x.take (min n (n - k))) hdrop
    rw [onBits_bind, onBits_const, onBits_bind, onBits_pure, hx, Nat.min_self]
    refine (value_add_high hkn.le hbase hsum.1 hsum.2).imp id fun h => h.trans ?_
    rw [hpow, Nat.mul_comm (value x), value_take]
    have hmin : min n (n - k) = n - k := by omega
    have hsplit : 2 ^ n = 2 ^ k * 2 ^ (n - k) := by
      rw [← pow_add, Nat.add_sub_cancel' (by omega)]
    rw [hmin, Nat.add_mod, hsplit, Nat.mul_mod_mul_left, Nat.mod_mod, ← Nat.mul_mod_mul_left,
      ← hsplit, ← Nat.add_mod]
  · have hle : n ≤ Nat.log2 factor.toNat := by
      rw [hbase] at hsh
      omega
    have hall : base.take (min (Nat.log2 factor.toNat) base.length) = base := by
      rw [hbase, Nat.min_eq_right hle, ← hbase, List.take_length]
    have hvanish : value x * factor.toNat % 2 ^ n = 0 := by
      rw [hpow]
      exact Nat.mod_eq_zero_of_dvd ((pow_dvd_pow 2 hle).mul_left _)
    rw [onBits_pure, hall, Nat.add_mod, hvanish, Nat.add_zero, Nat.mod_mod, Nat.mod_eq_of_lt hlt]
    exact ⟨hbase, rfl⟩
  · have hlen : ((List.range n).map factor.getLsbD).length = n := by simp
    have hbits : value ((List.range n).map factor.getLsbD) = factor.toNat % 2 ^ n :=
      value_map_testBit_mod factor.toNat n
    rw [onBits_bind, onBits_constBits, onBits_bind, onBits_bind, onBits_const, hbase,
      onBits_mul hx hlen]
    refine (value_add_resize hbase).imp id fun h => h.trans ?_
    rw [value_ofWord, BitVec.toNat_mul, toNat_word hx, toNat_word hlen, hbits]
    simp [Nat.add_mod, Nat.mul_mod]

theorem div_two_pow_bit (m i : ℕ) : m / 2 ^ i = (m.testBit i).toNat + 2 * (m / 2 ^ (i + 1)) := by
  have hbit : (m.testBit i).toNat = m / 2 ^ i % 2 := by
    rw [Nat.toNat_testBit]
  rw [hbit, pow_succ, ← Nat.div_div_eq_div_mul]
  omega

/-- From bit `i` on: what is left of the constant, and the carry, are added. -/
theorem addConstFrom_spec (c : BitVec 64) (i : ℕ) (carry : Bool) :
    (onBits (bcAddConstFrom c i carry a)).length = a.length ∧
      value (onBits (bcAddConstFrom c i carry a)) =
        (value a + c.toNat / 2 ^ i + carry.toNat) % 2 ^ a.length := by
  induction a generalizing i carry with
  | nil => simp [bcAddConstFrom, Nat.mod_one]
  | cons b bs ih =>
      have hci : c.getLsbD i = c.toNat.testBit i := (BitVec.testBit_toNat c).symm
      have hsplit := div_two_pow_bit c.toNat i
      rw [← hci] at hsplit
      generalize hci' : c.getLsbD i = ci at hsplit
      have hrest := ih (i + 1) ((b && carry) ^^ (ci && (b ^^ carry)))
      simp only [bcAddConstFrom, onBits_bind, onBits_sumBit, hci', onBits_constCarry, onBits_pure,
        List.length_cons, value_cons]
      refine ⟨congrArg Nat.succ hrest.1, ?_⟩
      rw [hrest.2, hsplit, pow_succ 2 bs.length, Nat.mul_comm (2 ^ bs.length) 2]
      have hbits : b.toNat + ci.toNat + carry.toNat =
          (ci ^^ (b ^^ carry)).toNat + 2 * ((b && carry) ^^ (ci && (b ^^ carry))).toNat := by
        cases ci <;> cases b <;> cases carry <;> rfl
      have hsum : b.toNat + 2 * value bs + (ci.toNat + 2 * (c.toNat / 2 ^ (i + 1))) + carry.toNat =
          (ci ^^ (b ^^ carry)).toNat + 2 * (value bs + c.toNat / 2 ^ (i + 1) +
            ((b && carry) ^^ (ci && (b ^^ carry))).toNat) := by
        omega
      have hbit := (ci ^^ (b ^^ carry)).toNat_lt
      rw [hsum, Nat.mod_mul]
      congr 1
      · omega
      · congr 2
        omega

theorem addConst_spec (c : BitVec 64) :
    (onBits (bcAddConst a c)).length = a.length ∧
      value (onBits (bcAddConst a c)) = (value a + c.toNat) % 2 ^ a.length := by
  have hspec := addConstFrom_spec (a := a) c 0 false
  rw [pow_zero, Nat.div_one, Bool.toNat_false, Nat.add_zero] at hspec
  exact hspec

section Rotations
variable {val shift : List Bool}

def effective (n : ℕ) (shift : List Bool) : ℕ := value (shift.take (barrelStages n shift.length))

theorem shl_spec (shift : List Bool) (hval : val.length = n) :
    (onBits (bcShl val shift)).length = n ∧
    ∀ j < n, (onBits (bcShl val shift)).getD j false =
      if j < effective n shift then false else val.getD (j - effective n shift) false := by
  have hmoves : ShiftsTo n val _ _ := shiftsTo_shl
  have hloop := hmoves.loop shift hval (barrelStages n shift.length)
  simp only [bcShl, barrelShift, onBits_foldlM, hval]
  exact hloop

theorem lshr_spec (shift : List Bool) (hval : val.length = n) :
    (onBits (bcLshr val shift)).length = n ∧
    ∀ j < n, (onBits (bcLshr val shift)).getD j false =
      val.getD (j + effective n shift) false := by
  have hloop := (shiftsTo_lshr hval).loop shift hval (barrelStages n shift.length)
  simp only [bcLshr, barrelShift, onBits_foldlM, hval]
  exact hloop

def widthBits (n len : ℕ) : List Bool := (List.range len).map fun i => n.testBit (i % 64)

theorem length_widthBits (n len : ℕ) : (widthBits n len).length = len := by
  rw [widthBits, List.length_map, List.length_range]

/-- A power of two has no bit below its exponent, whatever the shifts are reduced by. -/
theorem dvd_value_widthBits {k j len : ℕ} (hjk : j ≤ k) (hjl : j ≤ len) :
    2 ^ j ∣ value (widthBits (2 ^ k) len) := by
  have hoff : (widthBits (2 ^ k) len).take j = List.replicate j false := by
    refine List.eq_replicate_iff.mpr ⟨?_, ?_⟩
    · rw [List.length_take, length_widthBits, Nat.min_eq_left hjl]
    · intro u hu
      rw [widthBits, ← List.map_take, List.take_range, Nat.min_eq_left hjl] at hu
      obtain ⟨i, hi, rfl⟩ := List.mem_map.mp hu
      have hlt := List.mem_range.mp hi
      have hmod := Nat.mod_le i 64
      rw [Nat.testBit_two_pow]
      exact decide_eq_false (by omega)
  have hval := congrArg value hoff
  rw [value_take, value_replicate_false] at hval
  exact Nat.dvd_of_mod_eq_zero hval

theorem complementShift_spec (n : ℕ) (shift : List Bool) :
    (onBits (complementShift n shift)).length = shift.length ∧
      value (onBits (complementShift n shift)) =
        (2 ^ shift.length - value shift + value (widthBits n shift.length)) %
          2 ^ shift.length := by
  have hlen := length_widthBits n shift.length
  rw [complementShift, onBits_bind, onBits_constBits, ← widthBits, onBits_sub hlen rfl,
    length_ofWord, value_ofWord, BitVec.toNat_sub, toNat_word hlen, toNat_word rfl]
  exact ⟨rfl, rfl⟩

theorem getD_ofWord (v : BitVec n) (j : ℕ) : (ofWord v).getD j false = v.getLsbD j := by
  rw [← getLsbD_word (length_ofWord v), word_ofWord]

theorem eq_ofWord_iff {bs : List Bool} {v : BitVec n} (hlen : bs.length = n) :
    bs = ofWord v ↔ ∀ j < n, bs.getD j false = v.getLsbD j := by
  refine ⟨?_, eq_ofWord_of_getD hlen⟩
  rintro rfl j -
  exact getD_ofWord v j

/-- Bit `j` of a left rotation, in the amounts the two shifters take. -/
theorem rotlRun_spec (shift : List Bool) (hval : val.length = n) :
    (onBits (rotlRun val shift)).length = n ∧
    ∀ j < n, (onBits (rotlRun val shift)).getD j false =
      ((!decide (j < effective n shift) && val.getD (j - effective n shift) false) ||
        val.getD (j + effective n (onBits (complementShift n shift))) false) := by
  have hl := shl_spec shift hval
  have hr := lshr_spec (onBits (complementShift n shift)) hval
  simp only [rotlRun, onBits_bind, hval]
  rw [onBits_orVec hl.1 hr.1]
  refine ⟨length_ofWord _, fun j hj => ?_⟩
  rw [getD_ofWord, BitVec.getLsbD_or, getLsbD_word hl.1, getLsbD_word hr.1, hl.2 j hj, hr.2 j hj]
  by_cases hlt : j < effective n shift
  · simp [hlt]
  · simp [hlt]

theorem rotrRun_spec (shift : List Bool) (hval : val.length = n) :
    (onBits (rotrRun val shift)).length = n ∧
    ∀ j < n, (onBits (rotrRun val shift)).getD j false =
      (val.getD (j + effective n shift) false ||
        (!decide (j < effective n (onBits (complementShift n shift))) &&
          val.getD (j - effective n (onBits (complementShift n shift))) false)) := by
  have hr := lshr_spec shift hval
  have hl := shl_spec (onBits (complementShift n shift)) hval
  simp only [rotrRun, onBits_bind, hval]
  rw [onBits_orVec hr.1 hl.1]
  refine ⟨length_ofWord _, fun j hj => ?_⟩
  rw [getD_ofWord, BitVec.getLsbD_or, getLsbD_word hl.1, getLsbD_word hr.1, hl.2 j hj, hr.2 j hj]
  by_cases hlt : j < effective n (onBits (complementShift n shift))
  · simp [hlt]
  · simp [hlt]

theorem barrelStages_two_pow {k len : ℕ} (hk : 0 < k) (hlen : 0 < len) :
    barrelStages (2 ^ k) len = min k len := by
  have hone : 1 < 2 ^ k := Nat.one_lt_two_pow (by omega)
  have hsize : Nat.size (2 ^ k - 1) = k := by
    apply le_antisymm
    · exact Nat.size_le.mpr (by omega)
    · obtain ⟨j, rfl⟩ := Nat.exists_eq_succ_of_ne_zero hk.ne'
      apply Nat.lt_size.mpr
      rw [pow_succ] at hone ⊢
      omega
  rw [barrelStages, if_neg (by omega), hsize]
  omega

theorem effective_full {k : ℕ} (hk : 0 < k) (hne : shift ≠ []) (hle : k ≤ shift.length) :
    effective (2 ^ k) shift = value shift % 2 ^ k ∧
      effective (2 ^ k) (onBits (complementShift (2 ^ k) shift)) =
        (2 ^ k - value shift % 2 ^ k) % 2 ^ k := by
  have hpos := List.length_pos_iff.mpr hne
  have hspec := complementShift_spec (2 ^ k) shift
  have hlt := value_lt shift
  have hdvd : 2 ^ k ∣ 2 ^ shift.length := pow_dvd_pow 2 hle
  obtain ⟨w, hw⟩ := dvd_value_widthBits le_rfl hle
  rw [effective, effective, hspec.1, barrelStages_two_pow hk hpos, Nat.min_eq_left hle, value_take,
    value_take, hspec.2, Nat.mod_mod_of_dvd _ hdvd, hw, Nat.add_mul_mod_self_left]
  refine ⟨rfl, ?_⟩
  obtain ⟨m, hm⟩ := hdvd
  rw [hm] at hlt ⊢
  have hdiv := Nat.div_add_mod (value shift) (2 ^ k)
  have hq : value shift / 2 ^ k < m := Nat.div_lt_of_lt_mul hlt
  have hmod := Nat.mod_lt (value shift) (Nat.two_pow_pos k)
  have hsplit : 2 ^ k * m - value shift =
      2 ^ k - value shift % 2 ^ k + 2 ^ k * (m - 1 - value shift / 2 ^ k) := by
    have hm' : 2 ^ k * m = 2 ^ k * (m - 1 - value shift / 2 ^ k) + 2 ^ k * (value shift / 2 ^ k) +
        2 ^ k := by
      rw [← Nat.mul_add, ← Nat.mul_succ]
      congr 1
      omega
    omega
  rw [hsplit, Nat.add_mul_mod_self_left]

theorem effective_short {k : ℕ} (hne : shift ≠ []) (hlt : shift.length < k) :
    effective (2 ^ k) shift = value shift ∧
      effective (2 ^ k) (onBits (complementShift (2 ^ k) shift)) =
        (2 ^ shift.length - value shift) % 2 ^ shift.length := by
  have hpos := List.length_pos_iff.mpr hne
  have hspec := complementShift_spec (2 ^ k) shift
  obtain ⟨w, hw⟩ := dvd_value_widthBits hlt.le (le_refl shift.length)
  rw [effective, effective, hspec.1, barrelStages_two_pow (by omega) hpos, Nat.min_eq_right hlt.le,
    value_take, value_take, hspec.2, Nat.mod_mod, hw, Nat.add_mul_mod_self_left]
  exact ⟨Nat.mod_eq_of_lt (value_lt shift), rfl⟩

theorem effective_one (hne : shift ≠ []) :
    effective 1 shift + effective 1 (onBits (complementShift 1 shift)) = 1 := by
  have hpos := List.length_pos_iff.mpr hne
  have hspec := complementShift_spec 1 shift
  have hlt := value_lt shift
  have heven : 2 ∣ 2 ^ shift.length := dvd_pow_self 2 hpos.ne'
  have hodd : value (widthBits 1 shift.length) % 2 = 1 := by
    obtain ⟨len, hlen⟩ := Nat.exists_eq_succ_of_ne_zero hpos.ne'
    rw [widthBits, hlen, List.range_succ_eq_map, List.map_cons, value_cons]
    have hbit : (1 : ℕ).testBit (0 % 64) = true := rfl
    rw [hbit, Nat.add_mul_mod_self_left]
    rfl
  have hstages : ∀ len, barrelStages 1 len = 1 := fun len => if_pos le_rfl
  rw [effective, effective, hspec.1, hstages, value_take, value_take, hspec.2, pow_one,
    Nat.mod_mod_of_dvd _ heven]
  omega

theorem rotate_one_bit {i j : ℕ} (hval : val.length = 1) (h : i + j = 1) :
    ((!decide (0 < i) && val.getD (0 - i) false) || val.getD (0 + j) false) =
      bif decide (0 < 0) then val.getD (1 - 0 + 0) false else
        decide (0 < 1) && val.getD (0 - 0) false := by
  rcases Nat.eq_zero_or_pos i with rfl | hi
  · obtain rfl : j = 1 := by omega
    rw [List.getD_eq_default val false hval.le]
    simp
  · obtain ⟨rfl, rfl⟩ : i = 1 ∧ j = 0 := by omega
    simp

theorem rotlRun_full {k : ℕ} (hval : val.length = 2 ^ k) (hne : shift ≠ [])
    (hle : k ≤ shift.length) :
    onBits (rotlRun val shift) = ofWord ((word (2 ^ k) val).rotateLeft (value shift)) := by
  have hspec := rotlRun_spec shift hval
  apply eq_ofWord_of_getD hspec.1
  intro j hj
  rw [hspec.2 j hj, BitVec.getLsbD_rotateLeft, getLsbD_word hval, getLsbD_word hval]
  rcases Nat.eq_zero_or_pos k with rfl | hk
  · obtain rfl : j = 0 := by simpa using hj
    rw [pow_zero, Nat.mod_one]
    exact rotate_one_bit hval (effective_one hne)
  · have heff := effective_full hk hne hle
    rw [heff.1, heff.2]
    have hmod := Nat.mod_lt (value shift) (Nat.two_pow_pos k)
    generalize value shift % 2 ^ k = e at hmod ⊢
    rcases Nat.eq_zero_or_pos e with rfl | he
    · simp [hj]
    · rw [Nat.mod_eq_of_lt (by omega : 2 ^ k - e < 2 ^ k)]
      by_cases hlt : j < e
      · simp [hlt, Nat.add_comm j]
      · rw [List.getD_eq_default val false (by omega : val.length ≤ j + (2 ^ k - e))]
        simp [hlt, hj]

theorem rotrRun_full {k : ℕ} (hval : val.length = 2 ^ k) (hne : shift ≠ [])
    (hle : k ≤ shift.length) :
    onBits (rotrRun val shift) = ofWord ((word (2 ^ k) val).rotateRight (value shift)) := by
  have hspec := rotrRun_spec shift hval
  apply eq_ofWord_of_getD hspec.1
  intro j hj
  rw [hspec.2 j hj, BitVec.getLsbD_rotateRight, getLsbD_word hval, getLsbD_word hval]
  rcases Nat.eq_zero_or_pos k with rfl | hk
  · obtain rfl : j = 0 := by simpa using hj
    rw [pow_zero, Nat.mod_one, Bool.or_comm]
    exact rotate_one_bit hval ((Nat.add_comm _ _).trans (effective_one hne))
  · have heff := effective_full hk hne hle
    rw [heff.1, heff.2]
    have hmod := Nat.mod_lt (value shift) (Nat.two_pow_pos k)
    generalize value shift % 2 ^ k = e at hmod ⊢
    rcases Nat.eq_zero_or_pos e with rfl | he
    · simp [hj]
    · rw [Nat.mod_eq_of_lt (by omega : 2 ^ k - e < 2 ^ k)]
      by_cases hlt : j < 2 ^ k - e
      · simp [hlt, Nat.add_comm j]
      · rw [List.getD_eq_default val false (by omega : val.length ≤ j + e)]
        simp [hlt, hj]

/-- A condition on every bit of a word that a step of `d` keeps holds from place to place. -/
theorem of_steps {p : ℕ → Prop} {d b i j : ℕ} (hstep : ∀ i, i + d < b → p i → p (i + d))
    (hi : p i) (hdvd : d ∣ j) (hlt : i + j < b) : p (i + j) := by
  obtain ⟨m, rfl⟩ := hdvd
  induction m with
  | zero => exact hi
  | succ m ih =>
      rw [Nat.mul_succ, ← Nat.add_assoc] at hlt ⊢
      exact hstep _ hlt (ih (by omega))

/-- A shift vector of `len` bits moves the bits that leave the word by `2 ^ len` less the amount,
not by the width less the amount. On these bits it makes no difference. -/
structure WrapsLeft (n d s : ℕ) (v : List Bool) : Prop where
  down : ∀ i, i + d < n → v.getD (i + d) false = true → v.getD i false = true
  wrap : ∀ i < d, d ≤ i + s → v.getD i false = true → v.getD (i + (n - d)) false = true

structure WrapsRight (n d s : ℕ) (v : List Bool) : Prop where
  up : ∀ i, i + d < n → v.getD i false = true → v.getD (i + d) false = true
  wrap : ∀ i < s, v.getD (i + (n - d)) false = true → v.getD i false = true

theorem wrapsLeft_iff {d s : ℕ} (hval : val.length = n) (hdvd : d ∣ n) (hlt : d < n)
    (hs : s < d) :
    (∀ j < n, ((!decide (j < s) && val.getD (j - s) false) ||
        val.getD (j + (d - s) % d) false) =
      bif decide (j < s) then val.getD (n - s + j) false else
        decide (j < n) && val.getD (j - s) false) ↔ s = 0 ∨ WrapsLeft n d s val := by
  have hout : ∀ i, n ≤ i → val.getD i false = false := fun i hi =>
    List.getD_eq_default _ _ (hval ▸ hi)
  rcases Nat.eq_zero_or_pos s with rfl | hpos
  · refine iff_of_true (fun j hj => ?_) (Or.inl rfl)
    simp [hj]
  · rw [or_iff_right hpos.ne', Nat.mod_eq_of_lt (by omega : d - s < d)]
    constructor
    · intro h
      constructor
      · intro i hi hon
        have hbit := h (i + s) (by omega)
        have hmoved : i + s + (d - s) = i + d := by omega
        rw [hmoved, Nat.add_sub_cancel, hon] at hbit
        simpa [show i + s < n by omega] using hbit
      · intro i hi hd hon
        have hbit := h (i + s - d) (by omega)
        have hmoved : i + s - d + (d - s) = i := by omega
        have hwrapped : n - s + (i + s - d) = i + (n - d) := by omega
        rw [hmoved, hwrapped, hon] at hbit
        simpa [show i + s - d < s by omega] using hbit.symm
    · rintro ⟨hdown, hwrap⟩ j hj
      by_cases hjs : j < s
      · have hmoved : n - s + j = j + (d - s) + (n - d) := by omega
        simp only [hjs, decide_true, Bool.not_true, Bool.false_and, Bool.false_or, cond_true]
        rw [hmoved]
        apply Bool.eq_iff_iff.mpr
        refine ⟨hwrap _ (by omega) (by omega), fun hon => ?_⟩
        -- a bit that is off stays off from place to place
        by_contra hoff
        have hfar := of_steps (p := fun i => ¬val.getD i false = true) (b := n)
          (fun i hi hoff hon => hoff (hdown i hi hon)) hoff (Nat.dvd_sub hdvd dvd_rfl) (by omega)
        exact hfar hon
      · have hmoved : j + (d - s) = j - s + d := by omega
        simp only [hjs, decide_false, Bool.not_false, Bool.true_and, cond_false, hj, decide_true]
        rw [hmoved]
        by_cases hin : j - s + d < n
        · cases hon : val.getD (j - s + d) false with
          | false => rw [Bool.or_false]
          | true => rw [hdown _ hin hon, Bool.or_true]
        · rw [hout _ (Nat.le_of_not_lt hin), Bool.or_false]

theorem wrapsRight_iff {d s : ℕ} (hval : val.length = n) (hdvd : d ∣ n) (hlt : d < n)
    (hs : s < d) :
    (∀ j < n, (val.getD (j + s) false ||
        (!decide (j < (d - s) % d) && val.getD (j - (d - s) % d) false)) =
      bif decide (j < n - s) then val.getD (s + j) false else
        decide (j < n) && val.getD (j - (n - s)) false) ↔ s = 0 ∨ WrapsRight n d s val := by
  have hout : ∀ i, n ≤ i → val.getD i false = false := fun i hi =>
    List.getD_eq_default _ _ (hval ▸ hi)
  rcases Nat.eq_zero_or_pos s with rfl | hpos
  · refine iff_of_true (fun j hj => ?_) (Or.inl rfl)
    simp [hj]
  · rw [or_iff_right hpos.ne', Nat.mod_eq_of_lt (by omega : d - s < d)]
    constructor
    · intro h
      constructor
      · intro i hi hon
        have hbit := h (i + (d - s)) (by omega)
        have hmoved : i + (d - s) + s = i + d := by omega
        have hplain : s + (i + (d - s)) = i + d := by omega
        rw [hmoved, hplain, Nat.add_sub_cancel, hon] at hbit
        simpa [show i + (d - s) < n - s by omega] using hbit
      · intro i hi hon
        have hbit := h (i + (n - s)) (by omega)
        have hmoved : i + (n - s) - (d - s) = i + (n - d) := by omega
        rw [hout (i + (n - s) + s) (by omega), hmoved, Nat.add_sub_cancel, hon] at hbit
        simpa [show ¬i + (n - s) < d - s by omega, show i + (n - s) < n by omega] using hbit.symm
    · rintro ⟨hup, hwrap⟩ j hj
      by_cases hjs : j < n - s
      · simp only [hjs, decide_true, cond_true, Nat.add_comm s j]
        by_cases hlow : j < d - s
        · simp [hlow]
        · have hmoved : j - (d - s) + d = j + s := by omega
          cases hon : val.getD (j - (d - s)) false with
          | false => simp
          | true =>
              have hset := hup (j - (d - s)) (by omega) hon
              rw [hmoved] at hset
              rw [hset, Bool.true_or]
      · have hmoved : j - (d - s) = j - (n - s) + (n - d) := by omega
        have hlow : ¬j < d - s := by omega
        simp only [hjs, hlow, decide_false, Bool.not_false, Bool.true_and, cond_false, hj,
          decide_true]
        rw [hout (j + s) (by omega), Bool.false_or, hmoved]
        apply Bool.eq_iff_iff.mpr
        refine ⟨hwrap _ (by omega), fun hon => ?_⟩
        exact of_steps (p := fun i => val.getD i false = true) hup hon
          (Nat.dvd_sub hdvd dvd_rfl) (by omega)

theorem rotlRun_short {k : ℕ} (hval : val.length = 2 ^ k) (hne : shift ≠ [])
    (hlt : shift.length < k) :
    onBits (rotlRun val shift) = ofWord ((word (2 ^ k) val).rotateLeft (value shift)) ↔
      value shift = 0 ∨ WrapsLeft (2 ^ k) (2 ^ shift.length) (value shift) val := by
  have hspec := rotlRun_spec shift hval
  have heff := effective_short hne hlt
  have hs := value_lt shift
  have hlarge : 2 ^ shift.length < 2 ^ k := Nat.pow_lt_pow_right (by decide) hlt
  rw [heff.1, heff.2] at hspec
  rw [eq_ofWord_iff hspec.1, ← wrapsLeft_iff hval (pow_dvd_pow 2 hlt.le) hlarge hs]
  apply forall₂_congr
  intro j hj
  rw [hspec.2 j hj, BitVec.getLsbD_rotateLeft, getLsbD_word hval, getLsbD_word hval,
    Nat.mod_eq_of_lt (hs.trans hlarge)]

theorem rotrRun_short {k : ℕ} (hval : val.length = 2 ^ k) (hne : shift ≠ [])
    (hlt : shift.length < k) :
    onBits (rotrRun val shift) = ofWord ((word (2 ^ k) val).rotateRight (value shift)) ↔
      value shift = 0 ∨ WrapsRight (2 ^ k) (2 ^ shift.length) (value shift) val := by
  have hspec := rotrRun_spec shift hval
  have heff := effective_short hne hlt
  have hs := value_lt shift
  have hlarge : 2 ^ shift.length < 2 ^ k := Nat.pow_lt_pow_right (by decide) hlt
  rw [heff.1, heff.2] at hspec
  rw [eq_ofWord_iff hspec.1, ← wrapsRight_iff hval (pow_dvd_pow 2 hlt.le) hlarge hs]
  apply forall₂_congr
  intro j hj
  rw [hspec.2 j hj, BitVec.getLsbD_rotateRight, getLsbD_word hval, getLsbD_word hval,
    Nat.mod_eq_of_lt (hs.trans hlarge)]

end Rotations

theorem countBit_spec {acc : List Bool} (hacc : acc.length = n) (hn : 0 < n) (b : Bool) :
    (onBits (countBit acc b)).length = n ∧
      value (onBits (countBit acc b)) = (value acc + b.toNat) % 2 ^ n := by
  have hlen : acc.length = (b :: List.replicate (acc.length - 1) false).length := by
    rw [List.length_cons, List.length_replicate]
    omega
  rw [countBit, onBits_bind, onBits_consts]
  refine ⟨(length_add false hlen).trans hacc, ?_⟩
  rw [value_add false hlen, value_cons, value_replicate_false, Bool.toNat_false, hacc]
  rfl

theorem countBits_loop (bits : List Bool) {acc : List Bool} (hacc : acc.length = n) (hn : 0 < n) :
    (bits.foldl (fun acc b => onBits (countBit acc b)) acc).length = n ∧
      value (bits.foldl (fun acc b => onBits (countBit acc b)) acc) =
        (value acc + bits.count true) % 2 ^ n := by
  induction bits generalizing acc with
  | nil => exact ⟨hacc, (Nat.mod_eq_of_lt (hacc ▸ value_lt acc)).symm⟩
  | cons b bs ih =>
      have hstep := countBit_spec hacc hn b
      have hrest := ih hstep.1
      rw [List.foldl_cons]
      refine ⟨hrest.1, ?_⟩
      rw [hrest.2, hstep.2, Nat.mod_add_mod, List.count_cons]
      congr 1
      cases b with
      | false => simp
      | true => simp only [Bool.toNat_true, beq_self_eq_true, if_true]; omega

theorem countBits_spec (bits : List Bool) (hbits : bits.length ≤ n) (hn : 0 < n) :
    (bits.foldl (fun acc b => onBits (countBit acc b)) (List.replicate n false)).length = n ∧
      value (bits.foldl (fun acc b => onBits (countBit acc b)) (List.replicate n false)) =
        bits.count true := by
  have hloop := countBits_loop bits (List.length_replicate (a := false)) hn
  have hcount : bits.count true < 2 ^ n :=
    (List.count_le_length.trans hbits).trans_lt Nat.lt_two_pow_self
  rw [value_replicate_false, Nat.zero_add, Nat.mod_eq_of_lt hcount] at hloop
  exact hloop

theorem popcnt_spec (hne : a ≠ []) : (onBits (bcPopcnt a)).length = a.length ∧
    value (onBits (bcPopcnt a)) = a.count true := by
  cases a with
  | nil => exact absurd rfl hne
  | cons b bs =>
      simp only [bcPopcnt, onBits_bind, onBits_consts, onBits_foldlM]
      exact countBits_spec _ le_rfl (Nat.succ_pos _)

theorem countOff_spec (any : List Bool) (hany : any.length ≤ n) (hn : 0 < n) :
    (onBits (countOff (List.replicate n false) any)).length = n ∧
      value (onBits (countOff (List.replicate n false) any)) = any.count false := by
  have hcount : (any.map not).count true = any.count false := by
    rw [List.count_eq_countP, List.count_eq_countP, List.countP_map]
    exact List.countP_congr fun b _ => by cases b <;> simp
  have hspec := countBits_spec (any.map not) (by simpa using hany) hn
  rw [List.foldl_map, hcount] at hspec
  simp only [countOff, onBits_foldlM, onBits_bind, onBits_not]
  exact hspec

def trailingZeros (bits : List Bool) : ℕ := (bits.takeWhile (!·)).length

def leadingZeros (bits : List Bool) : ℕ := trailingZeros bits.reverse

theorem orPrefixes_spec (below : Bool) (bits : List Bool) :
    (onBits (orPrefixes below bits)).length = bits.length ∧
      (onBits (orPrefixes below bits)).count false =
        if below then 0 else trailingZeros bits := by
  induction bits generalizing below with
  | nil => simp [orPrefixes, trailingZeros]
  | cons b bs ih =>
      have hrest := ih (below || b)
      simp only [orPrefixes, onBits_bind, onBits_or, onBits_pure, List.length_cons]
      refine ⟨congrArg Nat.succ hrest.1, ?_⟩
      rw [List.count_cons, hrest.2]
      cases below <;> cases b <;> simp [trailingZeros]

theorem ctz_spec (hne : a ≠ []) : (onBits (bcCtz a)).length = a.length ∧
    value (onBits (bcCtz a)) = trailingZeros a := by
  cases a with
  | nil => exact absurd rfl hne
  | cons b bs =>
      have hor := orPrefixes_spec b bs
      have hcount : (b :: onBits (orPrefixes b bs)).count false = trailingZeros (b :: bs) := by
        rw [List.count_cons, hor.2]
        cases b <;> simp [trailingZeros]
      have hoff := countOff_spec (b :: onBits (orPrefixes b bs)) (n := (b :: bs).length)
        (by rw [List.length_cons, List.length_cons, hor.1]) (Nat.succ_pos _)
      rw [hcount] at hoff
      simp only [bcCtz, onBits_bind, onBits_consts]
      exact hoff

theorem leadingZeros_of_off {bits : List Bool} (h : ¬bits.any id = true) :
    leadingZeros bits = bits.length := by
  have hall : bits.reverse.takeWhile (!·) = bits.reverse := by
    apply List.takeWhile_eq_self_iff.mpr
    intro c hc
    have hoff : ∀ c ∈ bits, c = false := by simpa using h
    simp [hoff c (List.mem_reverse.mp hc)]
  rw [leadingZeros, trailingZeros, hall, List.length_reverse]

theorem leadingZeros_cons (b : Bool) (bits : List Bool) :
    leadingZeros (b :: bits) =
      if bits.any id then leadingZeros bits else bits.length + (!b).toNat := by
  rw [leadingZeros, leadingZeros, trailingZeros, trailingZeros, List.reverse_cons,
    List.takeWhile_append]
  by_cases hany : bits.any id = true
  · have hne : ¬(bits.reverse.takeWhile (!·)).length = bits.reverse.length := by
      intro hlen
      obtain ⟨c, hc, hon⟩ := List.any_eq_true.mp hany
      have hoff := List.takeWhile_eq_self_iff.mp
        ((List.takeWhile_prefix _).eq_of_length hlen) c (List.mem_reverse.mpr hc)
      simp only [id] at hon
      simp [hon] at hoff
    rw [if_neg hne, if_pos hany]
  · have hall := leadingZeros_of_off hany
    rw [leadingZeros, trailingZeros] at hall
    rw [hall, List.length_reverse, if_pos rfl, if_neg hany]
    cases b <;> simp

theorem orSuffixes_spec (bits : List Bool) :
    (onBits (orSuffixes bits)).length = bits.length ∧
      (onBits (orSuffixes bits)).headD false = bits.any id ∧
      (onBits (orSuffixes bits)).count false = leadingZeros bits := by
  induction bits with
  | nil => simp [orSuffixes, leadingZeros, trailingZeros]
  | cons b rest ih =>
      cases rest with
      | nil => cases b <;> simp [orSuffixes, leadingZeros, trailingZeros]
      | cons c rest =>
          have hrun : onBits (orSuffixes (b :: c :: rest)) =
              ((onBits (orSuffixes (c :: rest))).headD false || b) ::
                onBits (orSuffixes (c :: rest)) := by
            simp only [orSuffixes, onBits_bind, onBits_or, onBits_pure]
            rfl
          generalize c :: rest = above at ih hrun ⊢
          rw [hrun, ih.2.1, List.length_cons, ih.1, List.headD_cons, List.any_cons,
            List.count_cons, ih.2.2, leadingZeros_cons b]
          refine ⟨rfl, Bool.or_comm _ _, ?_⟩
          by_cases hany : above.any id = true
          · rw [if_pos hany, hany]
            simp
          · have hoff := leadingZeros_of_off hany
            rw [if_neg hany, hoff, Bool.eq_false_iff.mpr hany]
            cases b <;> simp

theorem clz_spec (hne : a ≠ []) : (onBits (bcClz a)).length = a.length ∧
    value (onBits (bcClz a)) = leadingZeros a := by
  cases a with
  | nil => exact absurd rfl hne
  | cons b bs =>
      have hor := orSuffixes_spec (b :: bs)
      have hoff := countOff_spec (onBits (orSuffixes (b :: bs))) hor.1.le (Nat.succ_pos _)
      rw [hor.2.2] at hoff
      simp only [bcClz, onBits_bind, onBits_consts]
      exact hoff

end
end VolarIR.Lir
