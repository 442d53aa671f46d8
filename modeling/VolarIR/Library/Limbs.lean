import Mathlib.Tactic.Ring
import Mathlib.Tactic.Linarith
import Mathlib.Data.List.Basic
import Mathlib.Data.Nat.ModEq

/-!
# Little-endian limb strings

A number is the list of its `w`-bit limbs, low limb first. Sum and difference ripple a
carry or a borrow through the limbs; each is specified by the number its limbs denote.
-/
namespace Limbs

variable {w : ℕ}

def value : List (BitVec w) → ℕ
  | [] => 0
  | x :: xs => x.toNat + 2 ^ w * value xs

@[simp] theorem value_nil : value ([] : List (BitVec w)) = 0 := rfl

@[simp] theorem value_cons (x : BitVec w) (xs : List (BitVec w)) :
    value (x :: xs) = x.toNat + 2 ^ w * value xs := rfl

theorem value_append (xs ys : List (BitVec w)) :
    value (xs ++ ys) = value xs + 2 ^ (w * xs.length) * value ys := by
  induction xs with
  | nil => simp
  | cons x xs ih =>
      rw [List.cons_append, value_cons, value_cons, ih, List.length_cons, Nat.mul_succ, pow_add]
      ring

theorem value_lt (xs : List (BitVec w)) : value xs < 2 ^ (w * xs.length) := by
  induction xs with
  | nil => simp
  | cons x xs ih =>
      have hx : x.toNat < 2 ^ w := x.isLt
      have hstep : 2 ^ w * (value xs + 1) ≤ 2 ^ w * 2 ^ (w * xs.length) :=
        Nat.mul_le_mul_left _ ih
      rw [value_cons, List.length_cons, Nat.mul_succ, pow_add, Nat.mul_comm (2 ^ (w * xs.length))]
      rw [Nat.mul_add, Nat.mul_one] at hstep
      omega

theorem value_eq_zero (xs : List (BitVec w)) : value xs = 0 ↔ ∀ x ∈ xs, x = 0 := by
  induction xs with
  | nil => simp
  | cons x xs ih =>
      have hpow : (2 : ℕ) ^ w ≠ 0 := by positivity
      simp only [value_cons, Nat.add_eq_zero_iff, Nat.mul_eq_zero, hpow, false_or, ih,
        List.mem_cons, forall_eq_or_imp]
      exact and_congr_left' (by rw [← BitVec.toNat_inj]; simp)

theorem value_inj {xs ys : List (BitVec w)} (hlen : xs.length = ys.length)
    (h : value xs = value ys) : xs = ys := by
  induction xs generalizing ys with
  | nil => exact (List.length_eq_zero_iff.mp hlen.symm).symm
  | cons x xs ih =>
      cases ys with
      | nil => cases hlen
      | cons y ys =>
          have hx : x.toNat < 2 ^ w := x.isLt
          have hy : y.toNat < 2 ^ w := y.isLt
          rw [value_cons, value_cons] at h
          have hlow : x.toNat = y.toNat := by
            have hmod := congrArg (· % 2 ^ w) h
            simpa [Nat.add_mul_mod_self_left, Nat.mod_eq_of_lt hx, Nat.mod_eq_of_lt hy] using hmod
          rw [hlow] at h
          have hhigh : value xs = value ys :=
            Nat.eq_of_mul_eq_mul_left (Nat.two_pow_pos w) (Nat.add_left_cancel h)
          rw [BitVec.eq_of_toNat_eq hlow, ih (Nat.succ.inj hlen) hhigh]

def add : List (BitVec w) → List (BitVec w) → ℕ → List (BitVec w) × ℕ
  | x :: xs, y :: ys, carry =>
      let sum := carry + (x.toNat + y.toNat)
      let rest := add xs ys (sum / 2 ^ w)
      (BitVec.ofNat w sum :: rest.1, rest.2)
  | _, _, carry => ([], carry)

theorem add_length {xs ys : List (BitVec w)} (hlen : xs.length = ys.length) (carry : ℕ) :
    (add xs ys carry).1.length = xs.length := by
  induction xs generalizing ys carry with
  | nil => simp [add]
  | cons x xs ih =>
      cases ys with
      | nil => cases hlen
      | cons y ys => simp [add, ih (Nat.succ.inj hlen)]

theorem add_value {xs ys : List (BitVec w)} (hlen : xs.length = ys.length) (carry : ℕ) :
    value (add xs ys carry).1 + 2 ^ (w * xs.length) * (add xs ys carry).2 =
      value xs + value ys + carry := by
  induction xs generalizing ys carry with
  | nil =>
      rw [List.length_eq_zero_iff.mp hlen.symm]
      simp [add]
  | cons x xs ih =>
      cases ys with
      | nil => cases hlen
      | cons y ys =>
          have hrest := ih (Nat.succ.inj hlen) ((carry + (x.toNat + y.toNat)) / 2 ^ w)
          have hsplit := Nat.mod_add_div (carry + (x.toNat + y.toNat)) (2 ^ w)
          simp only [add, value_cons, BitVec.toNat_ofNat, List.length_cons, Nat.mul_succ, pow_add]
          calc
            _ = (carry + (x.toNat + y.toNat)) % 2 ^ w + 2 ^ w *
                (value (add xs ys ((carry + (x.toNat + y.toNat)) / 2 ^ w)).1 +
                  2 ^ (w * xs.length) * (add xs ys ((carry + (x.toNat + y.toNat)) / 2 ^ w)).2) := by
              ring
            _ = (carry + (x.toNat + y.toNat)) % 2 ^ w +
                2 ^ w * ((carry + (x.toNat + y.toNat)) / 2 ^ w) +
                2 ^ w * (value xs + value ys) := by rw [hrest]; ring
            _ = x.toNat + 2 ^ w * value xs + (y.toNat + 2 ^ w * value ys) + carry := by
              rw [hsplit]; ring

/-- Limbwise difference with the borrow rippled up. -/
def sub : List (BitVec w) → List (BitVec w) → ℤ → List (BitVec w) × ℤ
  | x :: xs, y :: ys, borrow =>
      let diff : ℤ := x.toNat - y.toNat - borrow
      let out := if diff < 0 then (BitVec.ofInt w (diff + 2 ^ w), 1) else (BitVec.ofInt w diff, 0)
      let rest := sub xs ys out.2
      (out.1 :: rest.1, rest.2)
  | _, _, borrow => ([], borrow)

theorem sub_length {xs ys : List (BitVec w)} (hlen : xs.length = ys.length) (borrow : ℤ) :
    (sub xs ys borrow).1.length = xs.length := by
  induction xs generalizing ys borrow with
  | nil => simp [sub]
  | cons x xs ih =>
      cases ys with
      | nil => cases hlen
      | cons y ys => simp [sub, ih (Nat.succ.inj hlen)]

theorem toNat_ofInt {z : ℤ} (hnonneg : 0 ≤ z) (hlt : z < 2 ^ w) :
    ((BitVec.ofInt w z).toNat : ℤ) = z := by
  rw [BitVec.toNat_ofInt, Int.toNat_of_nonneg (Int.emod_nonneg _ (by positivity))]
  exact Int.emod_eq_of_lt hnonneg (by exact_mod_cast hlt)

theorem sub_value {xs ys : List (BitVec w)} (hlen : xs.length = ys.length) {borrow : ℤ}
    (hb : borrow = 0 ∨ borrow = 1) :
    (value (sub xs ys borrow).1 : ℤ) =
        value xs - value ys - borrow + 2 ^ (w * xs.length) * (sub xs ys borrow).2 ∧
      ((sub xs ys borrow).2 = 0 ∨ (sub xs ys borrow).2 = 1) := by
  induction xs generalizing ys borrow with
  | nil =>
      rw [List.length_eq_zero_iff.mp hlen.symm]
      simp [sub, hb]
  | cons x xs ih =>
      cases ys with
      | nil => cases hlen
      | cons y ys =>
          have hx : (x.toNat : ℤ) < 2 ^ w := by exact_mod_cast x.isLt
          have hy : (y.toNat : ℤ) < 2 ^ w := by exact_mod_cast y.isLt
          have hx0 : (0 : ℤ) ≤ x.toNat := Int.natCast_nonneg _
          have hy0 : (0 : ℤ) ≤ y.toNat := Int.natCast_nonneg _
          by_cases hneg : (x.toNat : ℤ) - y.toNat - borrow < 0
          · have hrest := ih (Nat.succ.inj hlen) (Or.inr rfl : (1 : ℤ) = 0 ∨ (1 : ℤ) = 1)
            have hlimb := toNat_ofInt (w := w) (z := x.toNat - y.toNat - borrow + 2 ^ w)
              (by omega) (by omega)
            simp only [sub, if_pos hneg, value_cons, Nat.cast_add, Nat.cast_mul, Nat.cast_pow,
              Nat.cast_ofNat, hlimb, hrest.1, List.length_cons, Nat.mul_succ, pow_add]
            exact ⟨by ring, hrest.2⟩
          · have hrest := ih (Nat.succ.inj hlen) (Or.inl rfl : (0 : ℤ) = 0 ∨ (0 : ℤ) = 1)
            have hlimb := toNat_ofInt (w := w) (z := x.toNat - y.toNat - borrow)
              (by omega) (by omega)
            simp only [sub, if_neg hneg, value_cons, Nat.cast_add, Nat.cast_mul, Nat.cast_pow,
              Nat.cast_ofNat, hlimb, hrest.1, List.length_cons, Nat.mul_succ, pow_add]
            exact ⟨by ring, hrest.2⟩

theorem sub_value_of_le {xs ys : List (BitVec w)} (hlen : xs.length = ys.length)
    (hle : value ys ≤ value xs) : value (sub xs ys 0).1 = value xs - value ys := by
  have hsub := sub_value hlen (Or.inl rfl : (0 : ℤ) = 0 ∨ (0 : ℤ) = 1)
  have hlt : (value (sub xs ys 0).1 : ℤ) < 2 ^ (w * xs.length) := by
    have h := value_lt (sub xs ys 0).1
    rw [sub_length hlen] at h
    exact_mod_cast h
  have hle' : (value ys : ℤ) ≤ value xs := by exact_mod_cast hle
  cases hsub.2 with
  | inl hzero =>
      rw [hzero] at hsub
      omega
  | inr hone =>
      rw [hone] at hsub
      omega

def cmp : List (BitVec w) → List (BitVec w) → Ordering
  | x :: xs, y :: ys => (cmp xs ys).then (compare x.toNat y.toNat)
  | _, _ => .eq

theorem compare_add_right (a b c : ℕ) : compare (a + c) (b + c) = compare a b := by
  cases h : compare a b with
  | lt => exact Nat.compare_eq_lt.mpr (Nat.add_lt_add_right (Nat.compare_eq_lt.mp h) c)
  | eq => exact Nat.compare_eq_eq.mpr (congrArg (· + c) (Nat.compare_eq_eq.mp h))
  | gt => exact Nat.compare_eq_gt.mpr (Nat.add_lt_add_right (Nat.compare_eq_gt.mp h) c)

theorem cmp_value {xs ys : List (BitVec w)} (hlen : xs.length = ys.length) :
    cmp xs ys = compare (value xs) (value ys) := by
  induction xs generalizing ys with
  | nil =>
      rw [List.length_eq_zero_iff.mp hlen.symm]
      rfl
  | cons x xs ih =>
      cases ys with
      | nil => cases hlen
      | cons y ys =>
          have hx : x.toNat < 2 ^ w := x.isLt
          have hy : y.toNat < 2 ^ w := y.isLt
          rw [cmp, ih (Nat.succ.inj hlen), value_cons, value_cons]
          rcases Nat.lt_trichotomy (value xs) (value ys) with hlt | heq | hgt
          · have hstep : 2 ^ w * (value xs + 1) ≤ 2 ^ w * value ys := Nat.mul_le_mul_left _ hlt
            rw [Nat.compare_eq_lt.mpr hlt, eq_comm]
            exact Nat.compare_eq_lt.mpr (by linarith)
          · rw [heq, Nat.compare_eq_eq.mpr rfl, Ordering.eq_then, compare_add_right]
          · have hstep : 2 ^ w * (value ys + 1) ≤ 2 ^ w * value xs := Nat.mul_le_mul_left _ hgt
            rw [Nat.compare_eq_gt.mpr hgt, eq_comm]
            exact Nat.compare_eq_gt.mpr (by linarith)

def shr1 : List (BitVec w) → List (BitVec w)
  | [] => []
  | [x] => [x >>> 1]
  | x :: y :: rest => (x >>> 1 ||| y <<< (w - 1)) :: shr1 (y :: rest)

theorem shr1_length (xs : List (BitVec w)) : (shr1 xs).length = xs.length := by
  induction xs using shr1.induct with
  | case1 => rfl
  | case2 x => rfl
  | case3 x y rest ih => simp [shr1, ih]

theorem shr1_value (hw : 0 < w) (xs : List (BitVec w)) : value (shr1 xs) = value xs / 2 := by
  obtain ⟨v, rfl⟩ : ∃ v, w = v + 1 := ⟨w - 1, (Nat.succ_pred_eq_of_pos hw).symm⟩
  have hpow : (2 : ℕ) ^ (v + 1) = 2 ^ v * 2 := pow_succ 2 v
  induction xs using shr1.induct with
  | case1 => simp [shr1]
  | case2 x => simp [shr1, Nat.shiftRight_eq_div_pow]
  | case3 x y rest ih =>
      have hx : x.toNat / 2 < 2 ^ v := by
        have h := x.isLt
        omega
      have hlimb : (x >>> 1 ||| y <<< (v + 1 - 1)).toNat = x.toNat / 2 + 2 ^ v * (y.toNat % 2) := by
        rw [BitVec.toNat_or, BitVec.toNat_ushiftRight, BitVec.toNat_shiftLeft,
          Nat.shiftRight_eq_div_pow, pow_one, Nat.add_sub_cancel, Nat.shiftLeft_eq, hpow,
          Nat.mul_comm (2 ^ v) 2, Nat.mul_mod_mul_right, Nat.or_comm, ← Nat.shiftLeft_eq,
          ← Nat.shiftLeft_add_eq_or_of_lt hx, Nat.shiftLeft_eq]
        ring
      have hlow : (y.toNat + 2 ^ v * 2 * value rest) % 2 = y.toNat % 2 := by
        rw [Nat.mul_right_comm, Nat.add_mul_mod_self_right]
      have hsplit := Nat.mod_add_div (y.toNat + 2 ^ v * 2 * value rest) 2
      rw [hlow] at hsplit
      have hhalf : (x.toNat + 2 ^ v * 2 * (y.toNat + 2 ^ v * 2 * value rest)) / 2 =
          x.toNat / 2 + 2 ^ v * (y.toNat + 2 ^ v * 2 * value rest) := by
        rw [Nat.mul_right_comm, Nat.add_mul_div_right _ _ (by decide)]
      rw [shr1, value_cons, ih, hlimb, value_cons x, value_cons, hpow, hhalf]
      calc
        _ = x.toNat / 2 + 2 ^ v * (y.toNat % 2 +
            2 * ((y.toNat + 2 ^ v * 2 * value rest) / 2)) := by ring
        _ = _ := by rw [hsplit]

/-- Bit `i` of a limb string. -/
def bit (xs : List (BitVec w)) (i : ℕ) : Bool := (xs.getD (i / w) 0).getLsbD (i % w)

theorem index_of_le {i : ℕ} (hw : 0 < w) (hi : w ≤ i) :
    i / w = (i - w) / w + 1 ∧ i % w = (i - w) % w := by
  constructor
  · rw [← Nat.add_div_right _ hw, Nat.sub_add_cancel hi]
  · exact Nat.mod_eq_sub_mod hi

theorem bit_cons_of_lt {i : ℕ} (hi : i < w) (x : BitVec w) (xs : List (BitVec w)) :
    bit (x :: xs) i = x.getLsbD i := by
  rw [bit, Nat.div_eq_of_lt hi, Nat.mod_eq_of_lt hi, List.getD_cons_zero]

theorem bit_cons_of_le {i : ℕ} (hw : 0 < w) (hi : w ≤ i) (x : BitVec w) (xs : List (BitVec w)) :
    bit (x :: xs) i = bit xs (i - w) := by
  rw [bit, (index_of_le hw hi).1, (index_of_le hw hi).2, List.getD_cons_succ, bit]

theorem testBit_value (hw : 0 < w) (xs : List (BitVec w)) (i : ℕ) :
    (value xs).testBit i = bit xs i := by
  induction xs generalizing i with
  | nil => simp [bit]
  | cons x xs ih =>
      have hx : x.toNat < 2 ^ w := x.isLt
      rw [value_cons, Nat.add_comm, Nat.testBit_two_pow_mul_add _ hx]
      by_cases hlow : i < w
      · rw [if_pos hlow, bit_cons_of_lt hlow, BitVec.testBit_toNat]
      · rw [if_neg hlow, bit_cons_of_le hw (Nat.le_of_not_lt hlow), ih]

/-- Clear bit `i`. -/
def clear (xs : List (BitVec w)) (i : ℕ) : List (BitVec w) :=
  xs.modify (i / w) fun x => x &&& ~~~ (1#w <<< (i % w))

theorem clearLimb_toNat {x : BitVec w} {i : ℕ} (hi : i < w) :
    (x &&& ~~~ (1#w <<< i)).toNat + (if x.getLsbD i then 2 ^ i else 0) = x.toNat := by
  have hone : x &&& BitVec.twoPow w i =
      if x.getLsbD i then BitVec.twoPow w i else 0#w := BitVec.and_twoPow x i
  have hsplit : x &&& ~~~ (1#w <<< i) ||| x &&& BitVec.twoPow w i = x := by
    rw [BitVec.twoPow, ← BitVec.and_or_distrib_left, BitVec.or_comm, BitVec.or_not_self,
      BitVec.and_allOnes]
  have hdisj : x &&& ~~~ (1#w <<< i) &&& (x &&& BitVec.twoPow w i) = 0#w := by
    ext j hj
    rw [BitVec.twoPow, BitVec.getElem_and, BitVec.getElem_and, BitVec.getElem_and,
      BitVec.getElem_not]
    cases (1#w <<< i)[j] <;> simp
  have hsum := congrArg BitVec.toNat hsplit
  rw [← BitVec.add_eq_or_of_and_eq_zero _ _ hdisj, BitVec.toNat_add_of_and_eq_zero hdisj, hone]
    at hsum
  rw [← hsum]
  split_ifs
  · rw [BitVec.toNat_twoPow_of_lt hi]
  · rfl

theorem clear_cons_of_lt {i : ℕ} (hi : i < w) (x : BitVec w) (xs : List (BitVec w)) :
    clear (x :: xs) i = (x &&& ~~~ (1#w <<< i)) :: xs := by
  rw [clear, Nat.div_eq_of_lt hi, Nat.mod_eq_of_lt hi, List.modify_zero_cons]

theorem clear_cons_of_le {i : ℕ} (hw : 0 < w) (hi : w ≤ i) (x : BitVec w)
    (xs : List (BitVec w)) : clear (x :: xs) i = x :: clear xs (i - w) := by
  rw [clear, (index_of_le hw hi).1, (index_of_le hw hi).2, List.modify_succ_cons, clear]

theorem clear_value (hw : 0 < w) (xs : List (BitVec w)) (i : ℕ) :
    value (clear xs i) + (if bit xs i then 2 ^ i else 0) = value xs := by
  induction xs generalizing i with
  | nil => simp [clear, bit]
  | cons x xs ih =>
      by_cases hlow : i < w
      · have hlimb := clearLimb_toNat (x := x) hlow
        rw [clear_cons_of_lt hlow, bit_cons_of_lt hlow, value_cons, value_cons, ← hlimb]
        omega
      · have hi : w ≤ i := Nat.le_of_not_lt hlow
        have hpow : 2 ^ w * 2 ^ (i - w) = 2 ^ i := by
          rw [← pow_add, Nat.add_sub_cancel' hi]
        rw [clear_cons_of_le hw hi, bit_cons_of_le hw hi, value_cons, value_cons, ← ih (i - w),
          ← hpow]
        split_ifs <;> ring

@[simp] theorem clear_length (xs : List (BitVec w)) (i : ℕ) :
    (clear xs i).length = xs.length := by
  simp [clear]

end Limbs
