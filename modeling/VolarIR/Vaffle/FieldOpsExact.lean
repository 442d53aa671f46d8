import VolarIR.Vaffle.FieldOps

/-!
# When field operations are the field's own

Sums, differences and products are those of the field. A selection is written for characteristic
two, and comparisons and conversions see as many bits as the type has coefficients.
-/
namespace VolarIR.Vaffle
open Common Lir Bits

namespace LirType
variable {layout : ModuleLayout} {table table' : TypeTable} {id : TypeId}

/-- `2^k - n`. -/
def modulus? : LirType → Option ℕ
  | primeField k n => some (2 ^ k.toNat - Limbs.value n)
  | _ => none

theorem bitsFor_pos {ty : LirType} (h : ty.toTid layout table = some (id, table'))
    (hw : wrappedDesc table' id ≠ none) {n : ℕ} (hn : ty.bitsFor layout = some n) : 0 < n := by
  cases ty with
  | arr elem m =>
      rw [toTid] at h
      obtain ⟨⟨elem, mid⟩, -, h⟩ := Option.bind_eq_some_iff.mp h
      exact absurd (wrappedDesc_of_vec (Option.some.inj h)) hw
  | struct s =>
      rw [toTid] at h
      obtain ⟨m, -, h⟩ := Option.bind_eq_some_iff.mp h
      exact absurd (wrappedDesc_of_vec (Option.some.inj h)) hw
  | ptr elem => exact absurd (wrappedDesc_of_vec (Option.some.inj h)) hw
  | i256 | u256 | vector => cases hn
  | _ =>
      cases hn
      decide

theorem fieldWidth_pos {ty : LirType} (h : ty.toTid layout table = some (id, table')) {W : ℕ}
    (hW : ty.fieldWidth layout = some W) : 0 < W := by
  cases ty with
  | extField wrapped degree irreducible =>
      rw [toTid] at h
      obtain ⟨⟨inner, mid⟩, hwrapped, hext⟩ := Option.bind_eq_some_iff.mp h
      obtain ⟨w, hw, hdegree, -⟩ := validateExtField_eq_ok
        (TypeTable.extField_eq_ok.mp (toOption_eq_some.mp hext)).1
      obtain ⟨n, hn, rfl⟩ := Option.map_eq_some_iff.mp hW
      exact Nat.mul_pos (by omega) (bitsFor_pos hwrapped (by rw [hw]; simp) hn)
  | primeField k n =>
      rw [toTid] at h
      have hcan := ((primeField_ok_iff table k.toNat n).mp ⟨_, toOption_eq_some.mp h⟩).1
      cases hW
      exact Nat.lt_of_lt_of_le (by decide) hcan.two_le
  | _ => cases hW

end LirType

inductive FieldOp where
  | add | sub | mul | select | eq | ne | roundTrip
  deriving DecidableEq, Repr

structure FieldOperands where
  lhs : ℕ
  rhs : ℕ
  cond : ℕ
  int : List ℕ
  l : List Bool
  r : List Bool
  b : Bool
  payload : List Bool

/-- The values hold what they are to hold. -/
structure FieldOperands.Hold (o : FieldOperands) (t : FieldTarget) (tys : ℕ → Option TypeId)
    (table : Table) (id : TypeId) (E : Elements) : Prop where
  left : t.HoldsElement tys table id E o.lhs o.l
  right : t.HoldsElement tys table id E o.rhs o.r
  gate : t.HoldsGate tys table o.cond o.b
  word : table.holdings.HoldsBits o.int o.payload

namespace FieldOp
open FieldTarget

section
variable (reading : OutputReading) (depth : ℕ) (tys : ℕ → Option TypeId) (table : Table)
  (t : FieldTarget) (T : LirType) (E : Elements) (o : FieldOperands)

/-- The operation is that of the field; a difference is asked for where -1 has a coefficient. -/
def Meets : FieldOp → Prop
  | add => YieldsIn reading depth tys table (FieldTarget.add ⟨[o.lhs], T⟩ ⟨[o.rhs], T⟩ t)
      (E.Is · (E.decode o.l + E.decode o.r))
  | sub => T.negativeOne ≠ none →
      YieldsIn reading depth tys table (FieldTarget.sub ⟨[o.lhs], T⟩ ⟨[o.rhs], T⟩ t)
        (E.Is · (E.decode o.l - E.decode o.r))
  | mul => YieldsIn reading depth tys table (FieldTarget.mul ⟨[o.lhs], T⟩ ⟨[o.rhs], T⟩ t)
      (E.Is · (E.decode o.l * E.decode o.r))
  | select => YieldsIn reading depth tys table
      (FieldTarget.select ⟨[o.cond], .bool⟩ ⟨[o.lhs], T⟩ ⟨[o.rhs], T⟩ t)
      (E.Is · (if o.b then E.decode o.l else E.decode o.r))
  | eq => YieldsIn reading depth tys table (icmp .eq ⟨[o.lhs], T⟩ ⟨[o.rhs], T⟩ t)
      fun bits => ∃ b, bits = [b] ∧ (b = true ↔ E.decode o.l = E.decode o.r)
  | ne => YieldsIn reading depth tys table (icmp .ne ⟨[o.lhs], T⟩ ⟨[o.rhs], T⟩ t)
      fun bits => ∃ b, bits = [b] ∧ (b = true ↔ E.decode o.l ≠ E.decode o.r)
  | roundTrip => ∀ ty, YieldsIn reading depth tys table
      (FieldTarget.roundTrip ⟨o.int, ty⟩ T t) (· = o.payload)

def Discerns (l r : List Bool) : Prop :=
  ∃ W, T.fieldWidth t.layout = some W ∧ W ≤ 256 ∧ (l = r ∨ fit l W ≠ fit r W ∧
    ∀ p, T.modulus? = some p → value l ≠ value r + p ∧ value r ≠ value l + p)

def FitsElement (payload : List Bool) : Prop :=
  T.fieldWidth t.layout = some payload.length ∧ LirType.intOfWidth payload.length ≠ none ∧
    ∀ b ∈ payload.drop E.width, b = false

def Exact : FieldOp → Prop
  | add | sub | mul => True
  | select => o.b = false ∨ E.decode o.r = 0 ∨ T.isPrimeField = false ∧ o.lhs ≠ o.rhs
  | eq | ne => Discerns t T o.l o.r
  | roundTrip => FitsElement t T E o.payload

end

variable {reading : OutputReading} {depth : ℕ} {tys : ℕ → Option TypeId} {t : FieldTarget}
  {table : Table} {T : LirType} {id : TypeId} {E : Elements} {o : FieldOperands}

theorem select_iff (h : Ready t table) (hA : t.Accepts T id E) (ho : o.Hold t tys table id E) :
    Meets reading depth tys table t T E o .select ↔ Exact t T E o .select := by
  obtain ⟨bits, hyields, hproper, hdecode⟩ :=
    select_yields reading depth h hA ho.left ho.right ho.gate
  rw [Meets, hyields.yieldsIn_iff, Elements.Is, and_iff_right hproper, hdecode, Exact]
  cases o.b with
  | false => simp
  | true =>
      rw [if_pos rfl, if_pos rfl, one_mul]
      by_cases hsame : o.lhs = o.rhs
      · have hbits : o.l = o.r := by
          rw [← ho.left.holds, hsame]
          exact ho.right.holds
        rw [if_pos hsame, hbits, add_eq_left]
        simp [hsame]
      · have hsum : E.decode o.r + (E.decode o.l + E.decode o.r) =
            E.decode o.l + (E.decode o.r + E.decode o.r) := by ring
        rw [if_neg hsame, hsum, add_eq_left]
        cases hprime : T.isPrimeField with
        | false => simp [hA.elements.add_self hprime, hsame]
        | true =>
            have hzero : E.decode o.r + E.decode o.r = 0 ↔ E.decode o.r = 0 := by
              constructor
              · exact hA.elements.eq_zero_of_add_self hprime
              · intro hr
                rw [hr, add_zero]
            simp [hzero]

theorem modEq_iff_of_lt {a b p : ℕ} (ha : a < 2 * p) (hb : b < 2 * p) :
    a ≡ b [MOD p] ↔ a = b ∨ a = b + p ∨ b = a + p := by
  have hmod : ∀ x < 2 * p, x % p = if x < p then x else x - p := by
    intro x hx
    split_ifs with hlt
    · exact Nat.mod_eq_of_lt hlt
    · rw [Nat.mod_eq_sub_mod (Nat.le_of_not_lt hlt), Nat.mod_eq_of_lt (by omega)]
  rw [Nat.ModEq, hmod a ha, hmod b hb]
  split_ifs <;> omega

theorem fit_eq_self {bits : List Bool} {W : ℕ} (h : bits.length = W) : fit bits W = bits := by
  rw [← h, fit_self]

theorem discerns_iff (hE : ElementsOf t.types T id E) {W : ℕ} {l r : List Bool}
    (hW : T.fieldWidth t.layout = some W) (hle : W ≤ 256) (hl : l.length = E.width)
    (hr : r.length = E.width) :
    (fit l W = fit r W ↔ E.decode l = E.decode r) ↔ Discerns t T l r := by
  have hwidth : Discerns t T l r ↔ l = r ∨ fit l W ≠ fit r W ∧
      ∀ p, T.modulus? = some p → value l ≠ value r + p ∧ value r ≠ value l + p := by
    constructor
    · rintro ⟨W', hW', -, h⟩
      cases hW.symm.trans hW'
      exact h
    · exact fun h => ⟨W, hW, hle, h⟩
  rw [hwidth]
  cases hE with
  | @ext wrapped degree irreducible _ _ _ F =>
      have hinj : F.decode l = F.decode r ↔ l = r := by
        constructor
        · exact F.decode_inj l r hl hr
        · rintro rfl
          rfl
      have hmodulus : ∀ p, (LirType.extField wrapped degree irreducible).modulus? = some p →
          value l ≠ value r + p ∧ value r ≠ value l + p := by
        intro p hp
        cases hp
      show (fit l W = fit r W ↔ F.decode l = F.decode r) ↔ _
      rw [hinj, and_iff_left hmodulus]
      by_cases hlr : l = r
      · simp [hlr]
      · simp [hlr]
  | @prime k n _ _ _ _ canonical odd =>
      cases hW
      obtain ⟨p, hp⟩ : ∃ p, p = 2 ^ k.toNat - Limbs.value n := ⟨_, rfl⟩
      have hmodulus : (LirType.primeField k n).modulus? = some p := congrArg some hp.symm
      have hsplit : 2 ^ k.toNat = 2 * 2 ^ (k.toNat - 1) := by
        rw [← pow_succ']
        have htwo := canonical.two_le
        congr 1
        omega
      have hlt := canonical.lt
      have hlv := Bits.value_lt l
      have hrv := Bits.value_lt r
      change l.length = k.toNat at hl
      change r.length = k.toNat at hr
      rw [hl] at hlv
      rw [hr] at hrv
      rw [fit_eq_self hl, fit_eq_self hr]
      have hresidue : (Elements.residues k.toNat (2 ^ k.toNat - Limbs.value n)).decode l =
          (Elements.residues k.toNat (2 ^ k.toNat - Limbs.value n)).decode r ↔
            value l ≡ value r [MOD p] := by
        rw [hp]
        exact ZMod.natCast_eq_natCast_iff _ _ _
      have hcases : value l ≡ value r [MOD p] ↔
          value l = value r ∨ value l = value r + p ∨ value r = value l + p :=
        modEq_iff_of_lt (by omega) (by omega)
      have hvalue : value l = value r ↔ l = r := by
        constructor
        · exact Bits.eq_of_value_eq (hl.trans hr.symm)
        · rintro rfl
          rfl
      have hforall : (∀ q, (LirType.primeField k n).modulus? = some q →
          value l ≠ value r + q ∧ value r ≠ value l + q) ↔
            value l ≠ value r + p ∧ value r ≠ value l + p := by
        rw [hmodulus]
        simp
      rw [hresidue, hcases, hvalue, hforall]
      by_cases hlr : l = r
      · simp [hlr]
      · simp [hlr]

theorem word_eq_iff {W : ℕ} (l r : List Bool) :
    word W (fit l W) = word W (fit r W) ↔ fit l W = fit r W := by
  constructor
  · intro h
    have hlen : ∀ bits : List Bool, (fit bits W).length = W := by simp [fit]
    rw [← ofWord_word (hlen l), ← ofWord_word (hlen r), h]
  · intro h
    rw [h]

theorem icmp_iff (h : Ready t table) (hA : t.Accepts T id E) (ho : o.Hold t tys table id E)
    {pred : IcmpPred} (hpred : pred.IsEquality) :
    YieldsIn reading depth tys table (icmp pred ⟨[o.lhs], T⟩ ⟨[o.rhs], T⟩ t)
      (fun bits => ∃ b, bits = [b] ∧ (b = true ↔
        if pred = .eq then E.decode o.l = E.decode o.r else E.decode o.l ≠ E.decode o.r)) ↔
      Discerns t T o.l o.r := by
  have hT := hA.elements.isFieldTyped
  by_cases hview : NoBitView (T.fieldWidth t.layout)
  · rw [icmp_none hT hview]
    apply iff_of_false not_yieldsIn_none
    rintro ⟨W, hW, hle, -⟩
    exact absurd hle (Nat.not_le.mpr (hview W hW))
  · unfold NoBitView at hview
    push Not at hview
    obtain ⟨W, hW, hle⟩ := hview
    have hyields := icmp_yields reading depth tys h hT hW (LirType.fieldWidth_pos hA.interned hW)
      hle hpred ho.left.lt ho.right.lt
    rw [hyields.yieldsIn_iff, ho.left.holds, ho.right.holds,
      ← discerns_iff hA.elements hW hle ho.left.len ho.right.len, ← word_eq_iff o.l o.r]
    rcases hpred with rfl | rfl
    · simp [IcmpPred.holds]
    · have hor : ∀ A B : Prop, (A ∧ B ∨ ¬A ∧ ¬B) ↔ (A ↔ B) := by
        intro A B
        tauto
      simp [IcmpPred.holds, hor]

theorem getD_fit (bits : List Bool) (n i : ℕ) :
    (fit bits n).getD i false = if i < n then bits.getD i false else false := by
  split_ifs with hi
  · simp [fit, List.getD, hi]
  · rw [List.getD_eq_default _ _ (by simp [fit]; omega)]

theorem fit_fit_iff {payload : List Bool} {n : ℕ} :
    fit (fit payload n) payload.length = payload ↔ ∀ b ∈ payload.drop n, b = false := by
  have hget : ∀ i < payload.length, (fit (fit payload n) payload.length).getD i false =
      if i < n then payload.getD i false else false := by
    intro i hi
    rw [getD_fit, getD_fit, if_pos hi]
  have hdrop : (∀ b ∈ payload.drop n, b = false) ↔
      ∀ i < payload.length, n ≤ i → payload.getD i false = false := by
    constructor
    · intro h i hi hn
      rw [List.getD_eq_getElem _ _ hi]
      exact h _ (List.mem_drop_iff_getElem.mpr ⟨i - n, by omega, by congr 1; omega⟩)
    · intro h b hb
      obtain ⟨i, hi, rfl⟩ := List.mem_drop_iff_getElem.mp hb
      rw [← List.getD_eq_getElem _ false]
      exact h _ (by omega) (by omega)
  rw [hdrop]
  constructor
  · intro h i hi hn
    have hi' := hget i hi
    rwa [h, if_neg (by omega)] at hi'
  · intro h
    apply List.ext_getElem
    · simp [fit]
    · intro i hi hi'
      rw [← List.getD_eq_getElem _ false, hget i hi', ← List.getD_eq_getElem _ false]
      split_ifs with hn
      · rfl
      · exact (h i hi' (by omega)).symm

theorem intToField_shape {value : VaffleValue} {r : VaffleValue × FieldTarget}
    (h : intToField value T t = some r) :
    ∃ v t', r = (⟨[v], T⟩, t') ∧ t'.layout = t.layout := by
  have hwidth : T.fieldWidth t.layout = some value.bits.length := by
    by_contra hW
    rw [intToField_none hW] at h
    cases h
  unfold intToField at h
  simp only [bind, StateT.bind, get, getThe, MonadStateOf.get, StateT.get, Option.pure_def,
      Option.bind_some,
    StateT.lift, hwidth, check, if_pos, emit_pure, onTarget, internVec, lirTypeToTid] at h
  obtain ⟨⟨dst, t₁⟩, hdst, h⟩ := Option.bind_eq_some_iff.mp h
  obtain ⟨_, -, heq⟩ := Option.map_eq_some_iff.mp hdst
  cases heq
  cases h
  exact ⟨_, _, rfl, rfl⟩

theorem roundTrip_iff (h : Ready t table) {types : TypeTable}
    (hC : t.Converts o.int T id types E) (hword : table.holdings.HoldsBits o.int o.payload) :
    Meets reading depth tys table t T E o .roundTrip ↔ Exact t T E o .roundTrip := by
  have hT := hC.elements.isFieldTyped
  have hlen : o.int.length = o.payload.length := hword.length_eq
  rw [Meets, Exact, FitsElement]
  by_cases hW : T.fieldWidth t.layout = some o.payload.length
  · rw [and_iff_right hW]
    cases hint : LirType.intOfWidth o.payload.length with
    | some intTy =>
        rw [and_iff_right nofun]
        have hmeets : ∀ ty, YieldsIn reading depth tys table
            (FieldTarget.roundTrip ⟨o.int, ty⟩ T t) (· = o.payload) ↔
              fit (fit o.payload E.width) o.payload.length = o.payload :=
          fun _ => (roundTrip_yields reading depth tys h hC hword hW hint).yieldsIn_iff
        rw [← fit_fit_iff]
        exact ⟨fun hall => (hmeets .bool).mp (hall .bool), fun hfit ty => (hmeets ty).mpr hfit⟩
    | none =>
        apply iff_of_false _ (fun hfit => hfit.1 rfl)
        intro hall
        have hnone : FieldTarget.roundTrip ⟨o.int, .bool⟩ T t = none := by
          show (intToField ⟨o.int, .bool⟩ T t).bind (fun r => fieldToBits r.1 r.2) = none
          cases hr : intToField ⟨o.int, .bool⟩ T t with
          | none => rfl
          | some r =>
              obtain ⟨v, t', rfl, hlayout⟩ := intToField_shape hr
              exact fieldToBits_none hT (hlayout ▸ hW) hint v
        have hyields := hall .bool
        rw [hnone] at hyields
        exact not_yieldsIn_none hyields
  · apply iff_of_false _ (fun hfit => hW hfit.1)
    intro hall
    have hnone : FieldTarget.roundTrip ⟨o.int, .bool⟩ T t = none := by
      show (intToField ⟨o.int, .bool⟩ T t).bind _ = none
      rw [intToField_none (by rwa [hlen])]
      rfl
    have hyields := hall .bool
    rw [hnone] at hyields
    exact not_yieldsIn_none hyields

def threeElements : LirType := .primeField 2 [1]

/-- Two elements, a condition bit and the two bits of an integer. -/
def threeTarget : FieldTarget where
  target :=
    { funcs := []
      values := [⟨.other, none⟩, ⟨.other, none⟩, ⟨.param .bit 2, none⟩, ⟨.param .bit 3, none⟩,
        ⟨.param .bit 4, none⟩]
      currentSide := none
      publicSide := none
      helperMode := .inline
      helperCache := fun _ => none
      built := helpersBuilt_nil }
  fields := fun _ => none
  types := ⟨[.primitive .bit, .primeField 2 [1]]⟩
  layout := ⟨[], 64⟩

def threeTypes (v : ℕ) : Option TypeId := if v < 2 then some ⟨1⟩ else some ⟨0⟩

def threeTable : Table :=
  [.ofBits [true, false], .ofBits [true, false], .ofBits [true], .ofBits [true], .ofBits [false]]

def threeOperands : FieldOperands :=
  ⟨0, 1, 2, [3, 4], [true, false], [true, false], true, [true, false]⟩

theorem three_ready : threeTarget.Ready threeTable where
  assigns :=
    { length := rfl
      const := by
        intro id c ty hconst
        match id with
        | 0 | 1 | 2 | 3 | 4 => cases hconst
        | n + 5 => cases hconst }
  placed := fun _ _ => rfl

theorem three_interned : threeElements.toTid threeTarget.layout threeTarget.types =
    some (⟨1⟩, threeTarget.types) := by decide +kernel

theorem three_elements : ElementsOf threeTarget.types threeElements ⟨1⟩ (.residues 2 3) :=
  .prime rfl rfl ⟨by decide, by decide, by decide, by decide⟩ (by decide)

theorem three_hold (E : Elements) (hE : E.width = 2) :
    threeOperands.Hold threeTarget threeTypes threeTable ⟨1⟩ E where
  left := ⟨by decide, rfl, ⟨⟨1⟩, rfl, by decide⟩, hE.symm⟩
  right := ⟨by decide, rfl, ⟨⟨1⟩, rfl, by decide⟩, hE.symm⟩
  gate := ⟨by decide, rfl, ⟨⟨0⟩, rfl, by decide⟩⟩
  word := .cons ⟨by decide, rfl⟩ (.cons ⟨by decide, rfl⟩ .nil)

/-- Each operation is that of the field just where it is said to be. A conversion and back
need not find its type interned: it interns it itself. -/
theorem fieldOp_exact_iff (reading : OutputReading) (depth : ℕ) (tys : ℕ → Option TypeId)
    (t : FieldTarget) (table : Table) (T : LirType) (h : t.Ready table)
    (hfield : T.isFieldTyped = true) :
    (∀ id, T.toTid t.layout t.types = some (id, t.types) →
      (∃ E, ElementsOf t.types T id E) ∧ ∀ E, ElementsOf t.types T id E →
        ∀ o : FieldOperands, o.Hold t tys table id E → ∀ op : FieldOp,
          (op.Meets reading depth tys table t T E o ↔ op.Exact t T E o)) ∧
    ∀ o : FieldOperands, table.holdings.HoldsBits o.int o.payload → ∀ id types,
      T.toTid t.layout (LirType.internBits o.int.length t.types).2 = some (id, types) →
        (∃ E, ElementsOf types T id E) ∧ ∀ E, ElementsOf types T id E →
          (roundTrip.Meets reading depth tys table t T E o ↔ roundTrip.Exact t T E o) := by
  constructor
  · intro id hid
    refine ⟨toTid_elementsOf hid hfield, ?_⟩
    intro E hE o ho op
    have hA : t.Accepts T id E := ⟨hid, hE⟩
    cases op with
    | add => exact iff_of_true (add_yields h hA ho.left ho.right) trivial
    | sub =>
        apply iff_of_true _ trivial
        intro hone
        obtain ⟨n, hn⟩ := Option.ne_none_iff_exists'.mp hone
        exact sub_yields h hA ho.left ho.right hn
    | mul => exact iff_of_true (mul_yields h hA ho.left ho.right) trivial
    | select => exact select_iff h hA ho
    | eq => exact icmp_iff h hA ho (.inl rfl)
    | ne => exact icmp_iff h hA ho (.inr rfl)
    | roundTrip => exact roundTrip_iff h (hA.converts o.int) ho.word
  · intro o hword id types hid
    exact ⟨toTid_elementsOf hid hfield, fun E hE => roundTrip_iff h ⟨hid, hE⟩ hword⟩

def ThreeExact (op : FieldOp) : Prop :=
  op.Meets .result 0 threeTypes threeTable threeTarget threeElements (.residues 2 3)
    threeOperands ↔ op.Exact threeTarget threeElements (.residues 2 3) threeOperands

def freshTarget : FieldTarget := { threeTarget with types := ⟨[.primitive .bit]⟩ }

/-- Every operation, and a conversion that interns the field. -/
theorem fieldOp_exact_iff_three :
    (ThreeExact .add ∧ ThreeExact .sub ∧ ThreeExact .mul ∧ ThreeExact .select ∧
      ThreeExact .eq ∧ ThreeExact .ne ∧ ThreeExact .roundTrip) ∧
      (roundTrip.Meets .result 0 threeTypes threeTable freshTarget threeElements
          (.residues 2 3) threeOperands ↔
        roundTrip.Exact freshTarget threeElements (.residues 2 3) threeOperands) := by
  have hthree := ((fieldOp_exact_iff .result 0 threeTypes threeTarget threeTable threeElements
    three_ready rfl).1 ⟨1⟩ three_interned).2 _ three_elements _ (three_hold _ rfl)
  have hfresh := (fieldOp_exact_iff .result 0 threeTypes freshTarget threeTable threeElements
    ⟨three_ready.assigns, three_ready.placed⟩ rfl).2 threeOperands
    (three_hold (.residues 2 3) rfl).word ⟨2⟩
    ⟨[.primitive .bit, .vec 2 ⟨0⟩, .primeField 2 [1]]⟩ (by decide +kernel)
  refine ⟨⟨hthree _, hthree _, hthree _, hthree _, hthree _, hthree _, hthree _⟩, ?_⟩
  exact hfresh.2 _ (.prime rfl rfl ⟨by decide, by decide, by decide, by decide⟩ (by decide))

/-- Between one and one, with the condition set, zero is selected. -/
theorem select_not_meets_three : threeTarget.Ready threeTable ∧
    threeElements.toTid threeTarget.layout threeTarget.types = some (⟨1⟩, threeTarget.types) ∧
    ElementsOf threeTarget.types threeElements ⟨1⟩ (.residues 2 3) ∧
    threeOperands.Hold threeTarget threeTypes threeTable ⟨1⟩ (.residues 2 3) ∧
    ¬FieldOp.select.Meets .result 0 threeTypes threeTable threeTarget threeElements
      (.residues 2 3) threeOperands := by
  refine ⟨three_ready, three_interned, three_elements, three_hold _ rfl, ?_⟩
  rw [select_iff three_ready ⟨three_interned, three_elements⟩ (three_hold _ rfl)]
  have hone : (Elements.residues 2 3).decode [true, false] = (1 : ZMod 3) := by
    rw [Elements.decode_residues]
    rfl
  rintro (hcond | hzero | ⟨hprime, -⟩)
  · cases hcond
  · have hne : (1 : ZMod 3) ≠ 0 := by decide
    exact hne (hone.symm.trans hzero)
  · cases hprime

end FieldOp
end VolarIR.Vaffle
