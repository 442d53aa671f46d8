import VolarIR.Opt.PolyFold
import VolarIR.Ir.Typing

/-!
# The bits of the folding constants

A constant is its 256 bits: what masking, adding, packing, shifting and rotating do to each
of them, and to the literal of a width.
-/
namespace VolarIR.Opt
open Ir

theorem bit_of_ge (c : Constant) {k : ℕ} (h : 256 ≤ k) : c.bit k = false := by
  rw [Constant.bit, if_neg (by omega)]
  exact BitVec.getLsbD_of_ge _ _ (by omega)

theorem constant_ext {c d : Constant} (h : ∀ k < 256, c.bit k = d.bit k) : c = d := by
  have hlo : c.lo = d.lo := by
    apply BitVec.eq_of_getLsbD_eq
    intro i hi
    have hbit := h i (by omega)
    rwa [Constant.bit, Constant.bit, if_pos hi, if_pos hi] at hbit
  have hhi : c.hi = d.hi := by
    apply BitVec.eq_of_getLsbD_eq
    intro i hi
    have hbit := h (128 + i) (by omega)
    rwa [Constant.bit, Constant.bit, if_neg (by omega), if_neg (by omega),
      Nat.add_sub_cancel_left] at hbit
  cases c
  cases d
  exact congrArg₂ Constant.mk hhi hlo

@[simp] theorem bit_zero (k : ℕ) : Constant.zero.bit k = false := by
  simp [Constant.zero, Constant.bit]

theorem bit_fullConstant (k : ℕ) : fullConstant.bit k = decide (k < 256) := by
  unfold fullConstant Constant.bit
  split_ifs with hk
  · rw [BitVec.getLsbD_allOnes, decide_eq_true hk, decide_eq_true (by omega)]
  · rw [BitVec.getLsbD_allOnes]
    exact decide_eq_decide.mpr (by omega)

theorem getLsbD_lowMask {n k : ℕ} (hn : n < 128) :
    (1#128 <<< n - 1).getLsbD k = decide (k < n) := by
  have hmask : 1#128 <<< n - 1 = BitVec.ofNat 128 (2 ^ n - 1) := by
    apply BitVec.eq_of_toNat_eq
    have hlt : 2 ^ n < 2 ^ 128 := Nat.pow_lt_pow_right (by decide) hn
    have hpos : 0 < 2 ^ n := Nat.two_pow_pos n
    have hshift : (1#128 <<< n).toNat = 2 ^ n := by
      rw [BitVec.toNat_shiftLeft, BitVec.toNat_ofNat, Nat.shiftLeft_eq]
      omega
    have hone : (1 : BitVec 128).toNat = 1 := rfl
    rw [BitVec.toNat_sub, hshift, hone, BitVec.toNat_ofNat]
    omega
  rw [hmask, BitVec.getLsbD_ofNat, Nat.testBit_two_pow_sub_one]
  by_cases hk : k < n
  · simp [hk, hk.trans hn]
  · simp [hk]

theorem bit_maskConstant (c : Constant) (width k : ℕ) :
    (maskConstant c width).bit k = (decide (k < width) && c.bit k) := by
  by_cases hk : 256 ≤ k
  · rw [bit_of_ge _ hk, bit_of_ge _ hk, Bool.and_false]
  unfold maskConstant
  split_ifs with hzero hwide hhalf
  · simp [hzero]
  · rw [decide_eq_true (by omega), Bool.true_and]
  · dsimp only
    rw [if_neg (by omega)]
    unfold Constant.bit
    split_ifs with hlo
    · rw [decide_eq_true (by omega), Bool.true_and]
    · have hplace : decide (k - 128 < width - 128) = decide (k < width) :=
        decide_eq_decide.mpr (by omega)
      rw [BitVec.getLsbD_and, getLsbD_lowMask (by omega), Bool.and_comm, hplace]
  · unfold Constant.bit
    split_ifs with hlo
    · rw [BitVec.getLsbD_and, getLsbD_lowMask (by omega), Bool.and_comm]
    · rw [decide_eq_false (by omega), Bool.false_and]
      exact BitVec.getLsbD_zero

theorem maskConstant_zero (width : ℕ) : maskConstant .zero width = .zero := by
  unfold maskConstant
  split_ifs <;> simp [Constant.zero]

theorem bit_constantXor (a b : Constant) (k : ℕ) :
    (constantXor a b).bit k = (a.bit k ^^ b.bit k) := by
  unfold constantXor Constant.bit
  split_ifs <;> exact BitVec.getLsbD_xor

theorem constantIsZero_iff {c : Constant} :
    constantIsZero c = true ↔ ∀ k, c.bit k = false := by
  rw [constantIsZero, decide_eq_true_iff]
  constructor
  · rintro ⟨hhi, hlo⟩ k
    have hc : c = Constant.zero := by
      cases c
      exact congrArg₂ Constant.mk hhi hlo
    rw [hc, bit_zero]
  · intro h
    have hc : c = Constant.zero := constant_ext fun k _ => by rw [h k, bit_zero]
    exact ⟨congrArg Constant.hi hc, congrArg Constant.lo hc⟩

theorem constantIsAllOnes_mask {c : Constant} {width : ℕ} :
    constantIsAllOnes (maskConstant c width) width = true ↔
      ∀ k, k < width → k < 256 → c.bit k = true := by
  rw [constantIsAllOnes, decide_eq_true_iff]
  constructor
  · intro h k hk hlt
    have hbit := congrArg (·.bit k) h
    rwa [bit_maskConstant, bit_maskConstant, bit_fullConstant, decide_eq_true hk,
      decide_eq_true hlt, Bool.true_and, Bool.true_and] at hbit
  · intro h
    apply constant_ext
    intro k hlt
    rw [bit_maskConstant, bit_maskConstant, bit_fullConstant, decide_eq_true hlt]
    by_cases hk : k < width
    · rw [h k hk hlt]
    · rw [decide_eq_false hk, Bool.false_and, Bool.false_and]

theorem getLsbD_place {n k : ℕ} (hn : n < 128) : (1#128 <<< n).getLsbD k = decide (k = n) := by
  grind

theorem bit_setLo (c : Constant) {bit : ℕ} (h : bit < 128) (k : ℕ) :
    ({ c with lo := c.lo ||| 1#128 <<< bit } : Constant).bit k =
      (c.bit k || decide (k = bit)) := by
  unfold Constant.bit
  dsimp only
  split_ifs with hk
  · rw [BitVec.getLsbD_or, getLsbD_place h]
  · rw [decide_eq_false (by omega), Bool.or_false]

theorem bit_setHi (c : Constant) {bit : ℕ} (h : ¬ bit < 128) (hlt : bit < 256) (k : ℕ) :
    ({ c with hi := c.hi ||| 1#128 <<< (bit - 128) } : Constant).bit k =
      (c.bit k || decide (k = bit)) := by
  unfold Constant.bit
  dsimp only
  split_ifs with hk
  · rw [decide_eq_false (by omega), Bool.or_false]
  · have hplace : decide (k - 128 = bit - 128) = decide (k = bit) :=
      decide_eq_decide.mpr (by omega)
    rw [BitVec.getLsbD_or, getLsbD_place (by omega), hplace]

theorem bit_bitsToConstant (bits : List Bool) (k : ℕ) :
    (bitsToConstant bits).bit k = (decide (k < 256) && bits.getD k false) := by
  induction bits using List.reverseRecOn with
  | nil => simp [bitsToConstant]
  | append_singleton bits b ih =>
      have hstep : ∀ c : Constant, c.bit k = (decide (k < 256) && bits.getD k false) →
          (if (!b) = true then c
            else if bits.length < 128 then { c with lo := c.lo ||| 1#128 <<< bits.length }
            else if bits.length < 256 then
              { c with hi := c.hi ||| 1#128 <<< (bits.length - 128) }
            else c).bit k = (decide (k < 256) && (bits ++ [b]).getD k false) := by
        intro c hc
        have hget : (bits ++ [b]).getD k false =
            (bits.getD k false || (b && decide (k = bits.length))) := by
          simp only [List.getD_eq_getElem?_getD]
          rcases lt_trichotomy k bits.length with hk | hk | hk
          · rw [List.getElem?_append_left hk]
            simp [Nat.ne_of_lt hk]
          · rw [List.getElem?_append_right (by omega), hk]
            simp
          · rw [List.getElem?_eq_none (by simp; omega), List.getElem?_eq_none (by omega)]
            simp [Nat.ne_of_gt hk]
        rw [hget]
        split_ifs with hb hlo hhi
        · rw [hc]
          simp_all
        · rw [bit_setLo c hlo, hc]
          grind
        · rw [bit_setHi c hlo hhi, hc]
          grind
        · rw [hc]
          grind
      rw [bitsToConstant, List.zipIdx_append, List.foldl_append]
      simp only [List.zipIdx_cons, List.zipIdx_nil, List.foldl_cons, List.foldl_nil, Nat.zero_add]
      exact hstep _ ih

theorem constBits_maskConstant (c : Constant) (width : ℕ) :
    constBits (maskConstant c width) width = constBits c width := by
  apply List.map_congr_left
  intro k hk
  rw [bit_maskConstant, decide_eq_true (List.mem_range.mp hk), Bool.true_and]

theorem constBits_constantXor (a b : Constant) (width : ℕ) :
    constBits (constantXor a b) width =
      List.zipWith xor (constBits a width) (constBits b width) := by
  simp [constBits, List.zipWith_map, bit_constantXor, List.zipWith_self]

theorem constBits_bitsToConstant {bits : List Bool} {width : ℕ} (hlen : bits.length = width)
    (hle : width ≤ 256) : constBits (bitsToConstant bits) width = bits := by
  subst hlen
  apply List.ext_getElem
  · simp [constBits]
  · intro k hk hk'
    simp only [constBits, List.getElem_map, List.getElem_range]
    rw [bit_bitsToConstant, decide_eq_true (by omega), Bool.true_and,
      List.getD_eq_getElem _ _ hk']

def constantAnd (a b : Constant) : Constant := ⟨a.hi &&& b.hi, a.lo &&& b.lo⟩

def constantOr (a b : Constant) : Constant := ⟨a.hi ||| b.hi, a.lo ||| b.lo⟩

def constantShl (c : Constant) (n : ℕ) : Constant :=
  if n = 0 then c
  else if n ≥ 256 then .zero
  else if n ≥ 128 then ⟨c.lo <<< (n - 128), 0⟩
  else ⟨c.hi <<< n ||| c.lo >>> (128 - n), c.lo <<< n⟩

def constantShr (c : Constant) (n : ℕ) : Constant :=
  if n = 0 then c
  else if n ≥ 256 then .zero
  else if n ≥ 128 then ⟨0, c.hi >>> (n - 128)⟩
  else ⟨c.hi >>> n, c.lo >>> n ||| c.hi <<< (128 - n)⟩

/-- Rotate the low `width` bits left. -/
def constantRol (c : Constant) (width n : ℕ) : Constant :=
  if width = 0 ∨ n = 0 then c
  else
    let n := n % width
    if n = 0 then c
    else
      let c := maskConstant c width
      maskConstant (constantOr (constantShl c n) (constantShr c (width - n))) width

def constantRor (c : Constant) (width n : ℕ) : Constant :=
  if width = 0 ∨ n = 0 then c
  else constantRol c width (width - n % width)

def setBitInConstant (c : Constant) (bit : ℕ) : Constant :=
  if bit < 128 then { c with lo := c.lo ||| 1#128 <<< bit }
  else if bit < 256 then { c with hi := c.hi ||| 1#128 <<< (bit - 128) }
  else c

theorem bit_constantAnd (a b : Constant) (k : ℕ) :
    (constantAnd a b).bit k = (a.bit k && b.bit k) := by
  unfold constantAnd Constant.bit
  split_ifs <;> exact BitVec.getLsbD_and

theorem bit_constantOr (a b : Constant) (k : ℕ) :
    (constantOr a b).bit k = (a.bit k || b.bit k) := by
  unfold constantOr Constant.bit
  split_ifs <;> exact BitVec.getLsbD_or

theorem bit_setBitInConstant (c : Constant) (bit k : ℕ) :
    (setBitInConstant c bit).bit k = (c.bit k || decide (k = bit ∧ bit < 256)) := by
  unfold setBitInConstant
  split_ifs with hlo hhi
  · rw [bit_setLo c hlo]
    have hlt : bit < 256 := by omega
    simp [hlt]
  · rw [bit_setHi c hlo hhi]
    simp [hhi]
  · simp [hhi]

theorem bit_constantShl (c : Constant) (n k : ℕ) :
    (constantShl c n).bit k = (decide (n ≤ k ∧ k < 256) && c.bit (k - n)) := by
  by_cases hk : 256 ≤ k
  · rw [bit_of_ge _ hk, decide_eq_false (by omega), Bool.false_and]
  by_cases hn : n ≤ k
  · rw [decide_eq_true (by omega), Bool.true_and]
    unfold constantShl
    split_ifs with hzero hwide hhalf
    · rw [hzero, Nat.sub_zero]
    · omega
    · have hsub : k - 128 - (n - 128) = k - n := by omega
      rw [Constant.bit, if_neg (by omega), Constant.bit, if_pos (by omega),
        BitVec.getLsbD_shiftLeft, hsub]
      simp [show k - 128 < 128 by omega, show ¬ k - 128 < n - 128 by omega]
    · by_cases hlo : k < 128
      · rw [Constant.bit, if_pos hlo, Constant.bit, if_pos (by omega), BitVec.getLsbD_shiftLeft]
        simp [hlo, Nat.not_lt.mpr hn]
      · rw [Constant.bit, if_neg hlo, BitVec.getLsbD_or, BitVec.getLsbD_shiftLeft,
          BitVec.getLsbD_ushiftRight, Constant.bit]
        -- the high half takes the top of the low one below place `n`
        split_ifs with hplace
        · have hsum : 128 - n + (k - 128) = k - n := by omega
          simp [hsum, show k - 128 < n by omega]
        · have hsub : k - 128 - n = k - n - 128 := by omega
          have hnone : c.lo.getLsbD (128 - n + (k - 128)) = false :=
            BitVec.getLsbD_of_ge _ _ (by omega)
          simp [hsub, hnone, show k - 128 < 128 by omega, show ¬ k - 128 < n by omega]
  · rw [decide_eq_false (by omega), Bool.false_and]
    unfold constantShl
    split_ifs with hzero hwide hhalf
    · omega
    · exact bit_zero k
    · unfold Constant.bit
      split_ifs with hlo
      · exact BitVec.getLsbD_zero
      · rw [BitVec.getLsbD_shiftLeft]
        simp [show k - 128 < n - 128 by omega]
    · rw [Constant.bit, if_pos (by omega), BitVec.getLsbD_shiftLeft]
      simp [Nat.lt_of_not_le hn]

theorem bit_constantShr (c : Constant) (n k : ℕ) :
    (constantShr c n).bit k = c.bit (k + n) := by
  by_cases hk : 256 ≤ k
  · rw [bit_of_ge _ hk, bit_of_ge _ (by omega)]
  unfold constantShr
  split_ifs with hzero hwide hhalf
  · rw [hzero, Nat.add_zero]
  · rw [bit_zero, bit_of_ge _ (by omega)]
  · rw [Constant.bit, Constant.bit, if_neg (show ¬ k + n < 128 by omega)]
    dsimp only
    split_ifs with hlo
    · have hsum : n - 128 + k = k + n - 128 := by omega
      rw [BitVec.getLsbD_ushiftRight, hsum]
    · rw [BitVec.getLsbD_of_ge c.hi _ (by omega)]
      exact BitVec.getLsbD_zero
  · by_cases hlo : k < 128
    · rw [Constant.bit, if_pos hlo, BitVec.getLsbD_or, BitVec.getLsbD_shiftLeft,
        BitVec.getLsbD_ushiftRight, Constant.bit, Nat.add_comm n k]
      -- the low half takes the bottom of the high one from place `128 - n` on
      split_ifs with hplace
      · simp [show k < 128 - n by omega]
      · have hsub : k - (128 - n) = k + n - 128 := by omega
        have hnone : c.lo.getLsbD (k + n) = false := BitVec.getLsbD_of_ge _ _ (by omega)
        simp [hsub, hnone, hlo, show ¬ k < 128 - n by omega]
    · have hsum : n + (k - 128) = k + n - 128 := by omega
      rw [Constant.bit, if_neg hlo, Constant.bit, if_neg (by omega),
        BitVec.getLsbD_ushiftRight, hsum]

/-- Rotated left, a bit below the width comes from `n` places to the right, around the end. -/
theorem bit_constantRol (c : Constant) {width n k : ℕ} (hk : k < width) (hlt : k < 256) :
    (constantRol c width n).bit k = c.bit ((k + (width - n % width)) % width) := by
  unfold constantRol
  dsimp only
  have hn : n % width < width := Nat.mod_lt n (by omega)
  split_ifs with hzero hmod
  · have hnone : n % width = 0 := by
      rcases hzero with rfl | rfl
      · omega
      · exact Nat.zero_mod _
    rw [hnone, Nat.sub_zero, Nat.add_mod_right, Nat.mod_eq_of_lt hk]
  · rw [hmod, Nat.sub_zero, Nat.add_mod_right, Nat.mod_eq_of_lt hk]
  · simp only [bit_maskConstant, bit_constantOr, bit_constantShl, bit_constantShr]
    by_cases hwrap : k < n % width
    · have hplace : (k + (width - n % width)) % width = k + (width - n % width) :=
        Nat.mod_eq_of_lt (by omega)
      have hin : k + (width - n % width) < width := by omega
      simp [hplace, hk, hin, Nat.not_le_of_lt hwrap]
    · have hplace : (k + (width - n % width)) % width = k - n % width := by
        have hsum : k + (width - n % width) = k - n % width + width := by omega
        rw [hsum, Nat.add_mod_right, Nat.mod_eq_of_lt (by omega)]
      have hout : ¬ k + (width - n % width) < width := by omega
      have hin : k - n % width < width := by omega
      simp [hplace, hk, hlt, hin, hout, Nat.le_of_not_lt hwrap]

theorem bit_of_bit_constantRol {c : Constant} {width n k : ℕ} (hk : width ≤ k)
    (h : (constantRol c width n).bit k = true) : c.bit k = true := by
  unfold constantRol at h
  dsimp only at h
  split_ifs at h with hzero hmod
  · exact h
  · exact h
  · rw [bit_maskConstant, decide_eq_false (by omega), Bool.false_and] at h
    cases h

theorem constantRor_eq (c : Constant) (width n : ℕ) :
    constantRor c width n = constantRol c width (width - n % width) := by
  unfold constantRor
  split_ifs with hzero
  · unfold constantRol
    rcases hzero with rfl | rfl
    · rw [if_pos (.inl rfl)]
    · simp
  · rfl

end VolarIR.Opt
