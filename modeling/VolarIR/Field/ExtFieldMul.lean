import VolarIR.Field.ExtField
import VolarIR.Library.BitField
import Mathlib.Data.List.GetD
import Mathlib.Tactic.LinearCombination

/-!
# The product of an extension field

The rows of the shift-and-add product are read as polynomials over the coefficients: one
`xtime` is multiplication by the root, so the sum of the rows is the product of the classes.
-/
namespace VolarIR
open Polynomial

theorem coeffAdd_eq {a b : List Bool} (h : a.length = b.length) :
    coeffAdd boolBits a b = List.zipWith xor a b := by
  apply List.ext_getElem
  · simp [coeffAdd, h]
  · intro i hi hi'
    have ha : i < a.length := by simpa [coeffAdd, h] using hi
    have hb : i < b.length := h ▸ ha
    simp [coeffAdd, boolBits, List.getElem?_eq_getElem ha, List.getElem?_eq_getElem hb]

theorem sliceOrPad_eq {bits : List Bool} {start width : ℕ} (h : start + width ≤ bits.length) :
    sliceOrPad boolBits bits start width = (bits.drop start).take width := by
  apply List.ext_getElem
  · simp [sliceOrPad]
    omega
  · intro i hi hi'
    have hlt : start + i < bits.length := by
      simp only [sliceOrPad, List.length_map, List.length_range] at hi
      omega
    simp [sliceOrPad, List.getElem?_eq_getElem hlt]

theorem splitCoeffs_eq {bits : List Bool} {degree width : ℕ} (h : degree * width ≤ bits.length) :
    splitCoeffs boolBits bits degree width = BitField.chunks width degree bits := by
  induction degree generalizing bits with
  | zero => rfl
  | succ n ih =>
      rw [Nat.succ_mul] at h
      have hlen : n * width ≤ (bits.drop width).length := by rw [List.length_drop]; omega
      have hrest := ih hlen
      rw [BitField.chunks, ← hrest]
      unfold splitCoeffs
      rw [List.range_succ_eq_map, List.map_cons, List.map_map, Nat.zero_mul,
        sliceOrPad_eq (by omega), List.drop_zero]
      congr 1
      apply List.map_congr_left
      intro i hi
      have hi' : (i + 1) * width ≤ n * width := Nat.mul_le_mul_right _ (List.mem_range.mp hi)
      rw [Nat.succ_mul] at hi'
      rw [Function.comp_apply, sliceOrPad_eq (by rw [Nat.succ_mul]; omega),
        sliceOrPad_eq (by rw [List.length_drop]; omega), List.drop_drop, Nat.succ_mul,
        Nat.add_comm width]

@[simp] theorem length_coeffConst (value : U64) (width : ℕ) :
    (coeffConst boolBits value width).length = width := by
  simp [coeffConst]

section
variable (F : BitField)

/-- `mul` multiplies the elements of `F`. -/
def Multiplies (mul : List Bool → List Bool → List Bool) : Prop :=
  ∀ a b, a.length = F.width → b.length = F.width →
    (mul a b).length = F.width ∧ F.decode (mul a b) = F.decode a * F.decode b

def constants (irreducible : List U64) : List (List Bool) :=
  irreducible.map fun r => coeffConst boolBits r F.width

/-- The polynomial named by `irreducible` over `F`. -/
noncomputable def modulusOf (irreducible : List U64) : F.K[X] := F.poly (constants F irreducible)

/-- A monic modulus of degree `n`, given by `n + 1` coefficients. -/
structure Modulus (F : BitField) (n : ℕ) (irreducible : List U64) : Prop where
  length_eq : irreducible.length = n + 1
  lead : irreducible.getD n 0 = 1

theorem coeffConst_one (F : BitField) : coeffConst boolBits 1 F.width = F.oneBits := by
  have hw := F.width_pos
  apply List.ext_getElem
  · simp
  · intro i hi hi'
    cases i with
    | zero => simp [coeffConst, BitField.oneBits, boolBits]
    | succ i => simp [coeffConst, BitField.oneBits, boolBits]

variable {F} in
theorem Modulus.poly_eq {n : ℕ} {irreducible : List U64} (h : Modulus F n irreducible) :
    modulusOf F irreducible = modulusOf F (irreducible.take n) + X ^ n := by
  have hlt : n < irreducible.length := by rw [h.length_eq]; exact Nat.lt_succ_self n
  have hlast : irreducible.drop n = [1] := by
    rw [List.drop_eq_getElem_cons hlt, List.drop_eq_nil_of_le (Nat.le_of_eq h.length_eq)]
    have hlead := h.lead
    rw [List.getD_eq_getElem _ _ hlt] at hlead
    rw [hlead]
  conv_lhs => rw [← List.take_append_drop n irreducible, hlast]
  simp only [modulusOf, constants, List.map_append, List.map_cons, List.map_nil]
  rw [BitField.poly_append, coeffConst_one]
  simp [h.length_eq]

variable {F} in
theorem Modulus.degree_low {n : ℕ} {irreducible : List U64} (h : Modulus F n irreducible) :
    (modulusOf F (irreducible.take n)).degree < n := by
  have hlt := F.degree_poly_lt (constants F (irreducible.take n))
  have hlen : (constants F (irreducible.take n)).length = n := by simp [constants, h.length_eq]
  rwa [hlen] at hlt

variable {F} in
theorem Modulus.monic {n : ℕ} {irreducible : List U64} (h : Modulus F n irreducible) :
    (modulusOf F irreducible).Monic := by
  rw [h.poly_eq, add_comm]
  exact monic_X_pow_add h.degree_low

variable {F} in
theorem Modulus.natDegree_eq {n : ℕ} {irreducible : List U64} (h : Modulus F n irreducible) :
    (modulusOf F irreducible).natDegree = n := by
  rw [h.poly_eq, add_comm, natDegree_add_eq_left_of_degree_lt]
  · exact natDegree_X_pow n
  · rw [degree_X_pow]
    exact h.degree_low

variable {F} {mul : List Bool → List Bool → List Bool} (hmul : Multiplies F mul)
include hmul

theorem poly_addScaled {c : List Bool} (hc : c.length = F.width) {acc cs : List (List Bool)}
    (hlen : acc.length = cs.length) (hacc : F.Coeffs acc) (hcs : F.Coeffs cs) :
    F.Coeffs (List.zipWith (fun a s => coeffAdd boolBits a (mul s c)) acc cs) ∧
      F.poly (List.zipWith (fun a s => coeffAdd boolBits a (mul s c)) acc cs) =
        F.poly acc + F.poly cs * C (F.decode c) := by
  induction acc generalizing cs with
  | nil => simp [List.length_eq_zero_iff.mp hlen.symm, BitField.Coeffs]
  | cons a acc ih =>
      cases cs with
      | nil => cases hlen
      | cons s cs =>
          have hprod := hmul s c hcs.head hc
          have hrest := ih (Nat.succ.inj hlen) hacc.tail hcs.tail
          have hsum : coeffAdd boolBits a (mul s c) = List.zipWith xor a (mul s c) :=
            coeffAdd_eq (hacc.head.trans hprod.1.symm)
          rw [List.zipWith_cons_cons, hsum]
          constructor
          · exact BitField.Coeffs.cons (by simp [hacc.head, hprod.1]) hrest.1
          · rw [BitField.poly_cons, hrest.2, F.decode_xor _ _ hacc.head hprod.1, hprod.2, C_add,
              C_mul, BitField.poly_cons, BitField.poly_cons]
            ring

theorem poly_addConstants {c : List Bool} (hc : c.length = F.width) {next : List (List Bool)}
    {irreducible : List U64} (hlen : next.length ≤ irreducible.length) (hnext : F.Coeffs next) :
    F.Coeffs (List.zipWith (fun n r => coeffAdd boolBits n (mul c (coeffConst boolBits r F.width)))
        next irreducible) ∧
      F.poly (List.zipWith (fun n r => coeffAdd boolBits n
          (mul c (coeffConst boolBits r F.width))) next irreducible) =
        F.poly next + C (F.decode c) * modulusOf F (irreducible.take next.length) := by
  induction next generalizing irreducible with
  | nil => simp [modulusOf, constants, BitField.Coeffs]
  | cons n next ih =>
      cases irreducible with
      | nil => exact absurd hlen (by simp)
      | cons r irreducible =>
          have hprod := hmul c (coeffConst boolBits r F.width) hc (length_coeffConst ..)
          have hrest := ih (Nat.le_of_succ_le_succ hlen) hnext.tail
          rw [List.zipWith_cons_cons, coeffAdd_eq (hnext.head.trans hprod.1.symm)]
          constructor
          · exact BitField.Coeffs.cons (by simp [hnext.head, hprod.1]) hrest.1
          · rw [BitField.poly_cons, hrest.2, F.decode_xor _ _ hnext.head hprod.1, hprod.2, C_add,
              C_mul, BitField.poly_cons, List.length_cons, List.take_succ_cons]
            simp only [modulusOf, constants, List.map_cons, BitField.poly_cons]
            ring

section
variable {n : ℕ} {irreducible : List U64} (h : Modulus F n irreducible)
include h

/-- `xtime` multiplies by the root. -/
theorem mk_xtime {cs : List (List Bool)} (hlen : cs.length = n) (hn : 0 < n) (hcs : F.Coeffs cs) :
    (xtimeWith boolBits mul irreducible F.width cs).length = n ∧
      F.Coeffs (xtimeWith boolBits mul irreducible F.width cs) ∧
      AdjoinRoot.mk (modulusOf F irreducible)
          (F.poly (xtimeWith boolBits mul irreducible F.width cs)) =
        AdjoinRoot.root (modulusOf F irreducible) *
          AdjoinRoot.mk (modulusOf F irreducible) (F.poly cs) := by
  have hne : cs ≠ [] := List.ne_nil_of_length_pos (hlen ▸ hn)
  obtain ⟨init, last, rfl⟩ : ∃ init last, cs = init ++ [last] :=
    ⟨_, _, (List.dropLast_append_getLast hne).symm⟩
  have hlast : last.length = F.width := hcs last (by simp)
  have hinit : F.Coeffs init := fun c hc => hcs c (by simp [hc])
  rw [List.length_append, List.length_singleton] at hlen
  have hzeros : zeros boolBits F.width = F.zeroBits := rfl
  have hnext : F.Coeffs (F.zeroBits :: init) := BitField.Coeffs.cons (by simp) hinit
  have hnextlen : (F.zeroBits :: init).length = n := by rw [List.length_cons, hlen]
  have hle : (F.zeroBits :: init).length ≤ irreducible.length := by
    rw [hnextlen, h.length_eq]
    exact Nat.le_succ n
  have hadd := poly_addConstants hmul hlast hle hnext
  have hx : xtimeWith boolBits mul irreducible F.width (init ++ [last]) =
      List.zipWith (fun m r => coeffAdd boolBits m (mul last (coeffConst boolBits r F.width)))
        (F.zeroBits :: init) irreducible := by
    simp only [xtimeWith, List.getLastD_concat, List.dropLast_concat, hzeros]
  rw [hx]
  refine ⟨?_, hadd.1, ?_⟩
  · rw [List.length_zipWith, hnextlen, h.length_eq]
    omega
  · rw [hadd.2, hnextlen, ← AdjoinRoot.mk_X, ← map_mul, AdjoinRoot.mk_eq_mk, BitField.poly_append,
      BitField.poly_cons, BitField.decode_zeroBits]
    have hdiff : C 0 + X * F.poly init + C (F.decode last) * modulusOf F (irreducible.take n) -
        X * (F.poly init + X ^ init.length * F.poly [last]) =
          modulusOf F irreducible * C (F.decode last) := by
      have htwo := F.poly_add_self (C (F.decode last) * X ^ n)
      rw [h.poly_eq, ← hlen]
      rw [← hlen] at htwo
      simp only [BitField.poly_cons, BitField.poly_nil, mul_zero, add_zero, C_0, zero_add]
      linear_combination -htwo
    rw [hdiff]
    exact dvd_mul_right _ _

/-- The rows add up to the product of the classes. -/
theorem mk_mulRows (hn : 0 < n) {right acc shifted : List (List Bool)} (hright : F.Coeffs right)
    (hacclen : acc.length = n) (hacc : F.Coeffs acc) (hlen : shifted.length = n)
    (hshifted : F.Coeffs shifted) :
    (mulRows boolBits mul irreducible F.width right acc shifted).length = n ∧
      F.Coeffs (mulRows boolBits mul irreducible F.width right acc shifted) ∧
      AdjoinRoot.mk (modulusOf F irreducible)
          (F.poly (mulRows boolBits mul irreducible F.width right acc shifted)) =
        AdjoinRoot.mk (modulusOf F irreducible) (F.poly acc) +
          AdjoinRoot.mk (modulusOf F irreducible) (F.poly shifted) *
            AdjoinRoot.mk (modulusOf F irreducible) (F.poly right) := by
  induction right generalizing acc shifted with
  | nil => exact ⟨hacclen, hacc, by simp [mulRows]⟩
  | cons c right ih =>
      have hrow := poly_addScaled hmul hright.head (hacclen.trans hlen.symm) hacc hshifted
      have hx := mk_xtime hmul h hlen hn hshifted
      have hrest := ih hright.tail (by simp [hacclen, hlen]) hrow.1 hx.1 hx.2.1
      refine ⟨hrest.1, hrest.2.1, ?_⟩
      rw [mulRows, hrest.2.2, hrow.2, hx.2.2, BitField.poly_cons, ← AdjoinRoot.mk_X]
      simp only [map_add, map_mul]
      ring

theorem fieldMulWith_spec (hn : 0 < n) {a b : List Bool} (ha : a.length = n * F.width)
    (hb : b.length = n * F.width) :
    (fieldMulWith boolBits mul n irreducible F.width a b).length = n * F.width ∧
      F.extDecode (modulusOf F irreducible)
          (fieldMulWith boolBits mul n irreducible F.width a b) =
        F.extDecode (modulusOf F irreducible) a * F.extDecode (modulusOf F irreducible) b := by
  have hca := BitField.length_of_mem_chunks (w := F.width) (Nat.le_of_eq ha.symm)
  have hcb := BitField.length_of_mem_chunks (w := F.width) (Nat.le_of_eq hb.symm)
  have hzeros : List.replicate n (zeros boolBits F.width) = List.replicate n F.zeroBits := rfl
  have hacc : (List.replicate n F.zeroBits).length = n := List.length_replicate
  have hrows := mk_mulRows hmul h hn hcb hacc
    (fun c hc => by rw [List.eq_of_mem_replicate hc, F.length_zeroBits])
    (BitField.length_chunks n a) hca
  rw [F.poly_replicate_zeroBits, map_zero, zero_add] at hrows
  unfold fieldMulWith
  rw [splitCoeffs_eq (Nat.le_of_eq ha.symm), splitCoeffs_eq (Nat.le_of_eq hb.symm), hzeros]
  constructor
  · rw [BitField.length_flatten hrows.2.1, hrows.1]
  · have hchunks := BitField.chunks_flatten hrows.2.1
    rw [hrows.1] at hchunks
    rw [BitField.extDecode, h.natDegree_eq, hchunks, hrows.2.2, BitField.extDecode,
      BitField.extDecode, h.natDegree_eq]

end

end

/-- The field a descriptor describes: `Bit`, or the polynomials over the described
coefficients modulo a monic irreducible one. -/
inductive Describes : WrappedDesc → BitField → Prop
  | bit : Describes .bit .gf2
  | field {wrapped : WrappedDesc} {F : BitField} {degree : ℕ} {irreducible : List U64}
      (coeffs : Describes wrapped F) (two_le : 2 ≤ degree)
      (modulus : Modulus F degree irreducible) (hi : Irreducible (modulusOf F irreducible)) :
      Describes (.field degree irreducible wrapped (degree * wrapped.width))
        (F.ext (modulusOf F irreducible) modulus.monic hi)

theorem Describes.width_eq {w : WrappedDesc} {F : BitField} (h : Describes w F) :
    w.width = F.width := by
  induction h with
  | bit => rfl
  | field _ _ modulus _ ih =>
      rw [WrappedDesc.width, ih]
      exact congrArg (· * _) modulus.natDegree_eq.symm

theorem Describes.multiplies {w : WrappedDesc} {F : BitField} (h : Describes w F) :
    Multiplies F (coeffMul boolBits w) := by
  induction h with
  | bit =>
      intro a b ha hb
      match a, b, ha, hb with
      | [x], [y], _, _ => exact ⟨rfl, by cases x <;> cases y <;> rfl⟩
  | @field wrapped F degree irreducible coeffs _ modulus hi ih =>
      have hn : 0 < degree := modulus.natDegree_eq ▸ hi.natDegree_pos
      have hwidth : (F.ext (modulusOf F irreducible) modulus.monic hi).width =
          degree * F.width := congrArg (· * F.width) modulus.natDegree_eq
      intro a b ha hb
      rw [hwidth] at ha hb
      have hspec := fieldMulWith_spec ih modulus hn ha hb
      rw [coeffMul, coeffs.width_eq, hwidth]
      exact hspec

end VolarIR
