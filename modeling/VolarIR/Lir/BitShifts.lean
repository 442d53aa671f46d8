import VolarIR.Lir.BitDivision

/-!
# Shifts, comparisons and pointwise operations on bits

A barrel shifter moves by the powers of two that make up the amount. The stages it has are
enough for every amount below the width.
-/
namespace VolarIR.Lir
open Bits

section
variable {n : ℕ} {val shift : List Bool} {source : List Bool → ℕ → ℕ → StateM Unit Bool}

/-- What the bits are after a shift by any amount, and that one stage takes it further. -/
structure ShiftsTo (n : ℕ) (val : List Bool) (source : List Bool → ℕ → ℕ → StateM Unit Bool)
    (view : ℕ → ℕ → Bool) : Prop where
  start : ∀ j < n, val.getD j false = view 0 j
  move : ∀ (cur : List Bool) (s step j : ℕ), cur.length = n → j < n →
    (∀ i < n, cur.getD i false = view s i) → onBits (source cur step j) = view (s + step) j

variable (shift) in
theorem ShiftsTo.loop {view : ℕ → ℕ → Bool} (h : ShiftsTo n val source view)
    (hval : val.length = n) (k : ℕ) :
    ((List.range k).foldl (fun cur i => onBits (shiftStage source shift cur i)) val).length = n ∧
    ∀ j < n, ((List.range k).foldl (fun cur i => onBits (shiftStage source shift cur i)) val).getD
      j false = view (value (shift.take k)) j := by
  induction k with
  | zero => exact ⟨hval, h.start⟩
  | succ k ih =>
      rw [List.range_succ, List.foldl_append, List.foldl_cons, List.foldl_nil]
      generalize (List.range k).foldl (fun cur i => onBits (shiftStage source shift cur i)) val =
        cur at ih ⊢
      obtain ⟨hlen, hview⟩ := ih
      simp only [shiftStage, onBits_mapM, onBits_bind, onBits_select]
      constructor
      · rw [List.length_map, List.length_range, hlen]
      · intro j hj
        have hstage : ((List.range cur.length).map fun j =>
            if shift.getD k default = true then onBits (source cur (2 ^ k) j)
              else cur.getD j default).getD j false =
            if shift.getD k false then onBits (source cur (2 ^ k) j) else cur.getD j false := by
          rw [List.getD_eq_getElem _ _ (by simp [hlen, hj]), List.getElem_map, List.getElem_range]
          rfl
        rw [hstage, value_take_succ]
        cases shift.getD k false with
        | true =>
            rw [if_pos rfl, Bool.toNat_true, Nat.mul_one]
            exact h.move cur _ _ j hlen hj hview
        | false =>
            rw [if_neg Bool.false_ne_true, Bool.toNat_false, Nat.mul_zero, Nat.add_zero]
            exact hview j hj

theorem value_take_barrelStages (hshift : value shift < n) :
    value (shift.take (barrelStages n shift.length)) = value shift := by
  have hlt := value_lt shift
  rw [value_take]
  apply Nat.mod_eq_of_lt
  unfold barrelStages
  split
  case isTrue hn =>
    have hzero : value shift = 0 := by omega
    rw [hzero]
    exact Nat.two_pow_pos 1
  case isFalse hn =>
    have hsize : n - 1 < 2 ^ Nat.size (n - 1) := Nat.lt_size_self (n - 1)
    rcases Nat.le_total (Nat.size (n - 1)) shift.length with hle | hle
    · rw [Nat.min_eq_left hle]
      have hmono : 2 ^ Nat.size (n - 1) ≤ 2 ^ max (Nat.size (n - 1)) 1 :=
        Nat.pow_le_pow_right (by decide) (Nat.le_max_left _ _)
      omega
    · rw [Nat.min_eq_right hle]
      exact hlt.trans_le (Nat.pow_le_pow_right (by decide) (Nat.le_max_left _ _))

theorem ShiftsTo.barrelShift {view : ℕ → ℕ → Bool} (h : ShiftsTo n val source view)
    (hval : val.length = n) (hshift : value shift < n) {v : BitVec n}
    (hv : ∀ j < n, view (value shift) j = v.getLsbD j) :
    onBits (Lir.barrelShift source val shift) = ofWord v := by
  have hloop := @loop n val shift source view h hval (barrelStages n shift.length)
  rw [value_take_barrelStages hshift] at hloop
  simp only [Lir.barrelShift, onBits_foldlM, hval]
  apply eq_ofWord_of_getD hloop.1
  intro j hj
  rw [hloop.2 j hj, hv j hj]

theorem shiftsTo_shl : ShiftsTo n val (fun cur step j =>
      if j < step then bcConst false else return cur.getD (j - step) default)
      fun s j => if j < s then false else val.getD (j - s) false := by
  constructor
  · intro j hj
    rfl
  · intro cur s step j hlen hj hview
    by_cases hstep : j < step
    · rw [if_pos hstep, if_pos (by omega)]
      rfl
    · rw [if_neg hstep]
      change cur.getD (j - step) false = _
      rw [hview _ (by omega)]
      by_cases hs : j - step < s
      · rw [if_pos hs, if_pos (by omega)]
      · rw [if_neg hs, if_neg (by omega), Nat.sub_sub, Nat.add_comm]

theorem onBits_shl (hval : val.length = n) (hshift : value shift < n) :
    onBits (bcShl val shift) = ofWord (word n val <<< value shift) := by
  apply shiftsTo_shl.barrelShift hval hshift
  intro j hj
  rw [BitVec.getLsbD_shiftLeft, getLsbD_word hval]
  by_cases hs : j < value shift
  · simp [hs]
  · simp [hs, hj]

theorem shiftsTo_lshr (hval : val.length = n) : ShiftsTo n val (fun cur step j =>
      if cur.length ≤ j + step then bcConst false else return cur.getD (j + step) default)
      fun s j => val.getD (j + s) false := by
  constructor
  · intro j hj
    rfl
  · intro cur s step j hlen hj hview
    by_cases hstep : cur.length ≤ j + step
    · rw [if_pos hstep, List.getD_eq_default _ _ (by omega)]
      rfl
    · rw [if_neg hstep]
      change cur.getD (j + step) false = _
      rw [hview _ (by omega), Nat.add_assoc, Nat.add_comm step s]

theorem onBits_lshr (hval : val.length = n) (hshift : value shift < n) :
    onBits (bcLshr val shift) = ofWord (word n val >>> value shift) := by
  apply (shiftsTo_lshr hval).barrelShift hval hshift
  intro j hj
  rw [BitVec.getLsbD_ushiftRight, getLsbD_word hval, Nat.add_comm]

theorem onBits_ashr (hval : val.length = n) (hshift : value shift < n) :
    onBits (bcAshr val shift) = ofWord ((word n val).sshiftRight (value shift)) := by
  have hto : ShiftsTo n val (fun cur step j =>
      return if cur.length ≤ j + step then signOf val else cur.getD (j + step) default)
      fun s j => if n ≤ j + s then signOf val else val.getD (j + s) false := by
    constructor
    · intro j hj
      rw [if_neg (by omega)]
      rfl
    · intro cur s step j hlen hj hview
      rw [onBits_pure]
      by_cases hstep : cur.length ≤ j + step
      · rw [if_pos hstep, if_pos (by omega)]
      · rw [if_neg hstep]
        change cur.getD (j + step) false = _
        rw [hview _ (by omega), Nat.add_assoc, Nat.add_comm step s]
  apply hto.barrelShift hval hshift
  intro j hj
  have hsign : signOf val = (word n val).msb := by
    rw [msb_word hval]
    rfl
  rw [BitVec.getLsbD_sshiftRight, getLsbD_word hval, hsign, Nat.add_comm j]
  by_cases hs : n ≤ value shift + j
  · rw [if_pos hs, if_neg (by omega)]
    simp [hj]
  · rw [if_neg hs, if_pos (by omega)]
    simp [hj]

end

section
variable {n : ℕ} {a x : List Bool}

theorem onBits_andAll (acc : Bool) (bits : List Bool) :
    onBits (bcAndAll acc bits) = (acc && bits.all id) := by
  induction bits generalizing acc with
  | nil => simp [bcAndAll]
  | cons b bs ih =>
      have hstep : onBits (bcAndAll acc (b :: bs)) = onBits (bcAndAll (acc && b) bs) := rfl
      rw [hstep, ih, List.all_cons, Bool.and_assoc]
      rfl

theorem zip_all_eq (h : a.length = x.length) :
    ((a.zip x).map fun p => !(p.1 ^^ p.2)).all id = decide (a = x) := by
  induction a generalizing x with
  | nil =>
      obtain rfl : x = [] := List.length_eq_zero_iff.mp h.symm
      rfl
  | cons b bs ih =>
      cases x with
      | nil => cases h
      | cons y ys =>
          have hrest := ih (Nat.succ.inj h)
          rw [List.zip_cons_cons, List.map_cons, List.all_cons, hrest]
          cases b <;> cases y <;> simp

theorem onBits_eq (ha : a.length = n) (hx : x.length = n) :
    onBits (bcEq a x) = decide (word n a = word n x) := by
  have hlen := ha.trans hx.symm
  have hbits : onBits (bcEq a x) = ((a.zip x).map fun p => !(p.1 ^^ p.2)).all id := by
    simp only [bcEq, onBits_bind, onBits_mapM, onBits_xor, onBits_not]
    cases (a.zip x).map fun p => !(p.1 ^^ p.2) with
    | nil => rfl
    | cons b bs => exact onBits_andAll b bs
  rw [hbits, zip_all_eq hlen]
  apply decide_eq_decide.mpr
  constructor
  · rintro rfl
    rfl
  · intro h
    rw [← ofWord_word ha, ← ofWord_word hx, h]

theorem ultFrom_spec (c : Bool) (h : a.length = x.length) :
    onBits (bcUltFrom c a x) = decide (value a < value x + c.toNat) := by
  induction a generalizing c x with
  | nil =>
      obtain rfl : x = [] := List.length_eq_zero_iff.mp h.symm
      cases c <;> rfl
  | cons b bs ih =>
      cases x with
      | nil => cases h
      | cons y ys =>
          have hstep : onBits (bcUltFrom c (b :: bs) (y :: ys)) =
              onBits (bcUltFrom ((!b && y) ^^ ((!b && c) ^^ (y && c))) bs ys) := rfl
          rw [hstep, ih _ (Nat.succ.inj h), value_cons, value_cons]
          apply decide_eq_decide.mpr
          cases b <;> cases y <;> cases c <;> simp <;> omega

theorem onBits_ult (ha : a.length = n) (hx : x.length = n) :
    onBits (bcUlt a x) = (word n a).ult (word n x) := by
  rw [bcUlt, onBits_bind, onBits_const, ultFrom_spec _ (ha.trans hx.symm), BitVec.ult_eq_decide,
    toNat_word ha, toNat_word hx]
  rfl

theorem onBits_ule (ha : a.length = n) (hx : x.length = n) :
    onBits (bcUle a x) = (word n a).ule (word n x) := by
  rw [bcUle, onBits_bind, onBits_not, onBits_ult hx ha, BitVec.ule_eq_not_ult]

theorem onBits_slt (ha : a.length = n) (hx : x.length = n) :
    onBits (bcSlt a x) = (word n a).slt (word n x) := by
  have hmsb : signOf a = (word n a).msb ∧ signOf x = (word n x).msb := by
    rw [msb_word ha, msb_word hx]
    exact ⟨rfl, rfl⟩
  simp only [bcSlt, onBits_bind, onBits_not, onBits_and, onBits_xor, onBits_or, onBits_ult ha hx,
    hmsb.1, hmsb.2]
  by_cases hsame : (word n a).msb = (word n x).msb
  · rw [BitVec.slt_eq_ult_of_msb_eq hsame, hsame]
    cases (word n x).msb <;> simp
  · -- words of different signs are ordered by their signs
    rw [BitVec.slt_eq_not_ult_of_msb_neq hsame, BitVec.ult_eq_msb_of_msb_neq hsame]
    cases hma : (word n a).msb <;> cases hmx : (word n x).msb <;> simp_all

theorem onBits_sle (ha : a.length = n) (hx : x.length = n) :
    onBits (bcSle a x) = (word n a).sle (word n x) := by
  rw [bcSle, onBits_bind, onBits_not, onBits_slt hx ha, BitVec.sle_eq_not_slt]

theorem onBits_zip {f : Bool → Bool → StateM Unit Bool} {v : BitVec n} (ha : a.length = n)
    (hx : x.length = n)
    (hv : ∀ i < n, onBits (f (a.getD i false) (x.getD i false)) = v.getLsbD i) :
    onBits ((a.zip x).mapM fun p => f p.1 p.2) = ofWord v := by
  rw [onBits_mapM]
  apply eq_ofWord_of_getD
  · rw [List.length_map, List.length_zip, ha, hx, Nat.min_self]
  · intro i hi
    rw [← hv i hi, List.getD_eq_getElem _ _ (by simp [ha, hx, hi]),
      List.getD_eq_getElem _ _ (ha ▸ hi), List.getD_eq_getElem _ _ (hx ▸ hi)]
    simp

theorem onBits_xorVec (ha : a.length = n) (hx : x.length = n) :
    onBits (bcXorVec a x) = ofWord (word n a ^^^ word n x) :=
  onBits_zip ha hx fun i _ => by
    rw [BitVec.getLsbD_xor, getLsbD_word ha, getLsbD_word hx, onBits_xor]

theorem onBits_andVec (ha : a.length = n) (hx : x.length = n) :
    onBits (bcAndVec a x) = ofWord (word n a &&& word n x) :=
  onBits_zip ha hx fun i _ => by
    rw [BitVec.getLsbD_and, getLsbD_word ha, getLsbD_word hx, onBits_and]

theorem onBits_orVec (ha : a.length = n) (hx : x.length = n) :
    onBits (bcOrVec a x) = ofWord (word n a ||| word n x) :=
  onBits_zip ha hx fun i _ => by
    rw [BitVec.getLsbD_or, getLsbD_word ha, getLsbD_word hx, onBits_or]

theorem onBits_notVec_word (ha : a.length = n) :
    onBits (bcNotVec a) = ofWord (~~~word n a) := by
  rw [onBits_notVec]
  apply eq_ofWord_of_getD
  · rw [List.length_map, ha]
  · intro i hi
    rw [BitVec.getLsbD_not, getLsbD_word ha, List.getD_eq_getElem _ _ (by simp [ha, hi]),
      List.getD_eq_getElem _ _ (ha ▸ hi)]
    simp [hi]

end
end VolarIR.Lir
