import VolarIR.Vaffle.FieldTarget
import VolarIR.Ir.PolyValue
import VolarIR.Ir.TableGrowth

/-!
# Elements of field types

What the cells of a field type of the target stand for: the elements of an extension field, or
residues. A polynomial over the type is evaluated in that ring.
-/
namespace VolarIR

namespace TypeTable
variable {table table' : TypeTable}

theorem Grows.antisymm (h : table.Grows table') (h' : table'.Grows table) : table = table' := by
  have hlen : table.types.length = table'.types.length := h.length.antisymm h'.length
  have hentries : table.types = table'.types := by
    apply List.ext_getElem hlen
    intro i hi hi'
    have hget : table'.get ⟨i⟩ = some table.types[i] := h.get (List.getElem?_eq_getElem hi)
    exact (List.getElem?_eq_some_iff.mp hget).choose_spec.symm
  cases table
  cases table'
  exact congrArg TypeTable.mk hentries

theorem intern_grows (h : table.Grows table') {ty : IrType} {id : TypeId}
    (hty : table.intern ty = (id, table)) : table'.intern ty = (id, table') := by
  unfold intern at hty ⊢
  cases hpos : table.types.findIdx? (· == ty) with
  | none =>
      rw [hpos] at hty
      have hlen := congrArg (List.length ∘ types ∘ Prod.snd) hty
      simp [push] at hlen
  | some pos =>
      rw [hpos] at hty
      obtain rfl : ⟨pos⟩ = id := congrArg Prod.fst hty
      have hfind := List.findIdx?_eq_some_iff_getElem.mp hpos
      have hlt := hfind.1
      have hsame (i : ℕ) (hi : i < table.types.length) :
          ∃ hi' : i < table'.types.length, table'.types[i] = table.types[i] := by
        have hget : table'.get ⟨i⟩ = some table.types[i] := h.get (List.getElem?_eq_getElem hi)
        exact List.getElem?_eq_some_iff.mp hget
      have hfound : table'.types.findIdx? (· == ty) = some pos := by
        rw [List.findIdx?_eq_some_iff_getElem]
        refine ⟨(hsame pos hlt).1, ?_, ?_⟩
        · rw [(hsame pos hlt).2]
          exact hfind.2.1
        · intro j hj
          rw [(hsame j (hj.trans hlt)).2]
          exact hfind.2.2 j hj
      rw [hfound]

end TypeTable

theorem TypeTable.grows_of_intern {table table' : TypeTable} {ty : IrType} {id : TypeId}
    (h : table.intern ty = (id, table')) : table.Grows table' := by
  have hgrows := table.grows_intern ty
  rwa [h] at hgrows

theorem toOption_eq_some {ε α : Type} {r : Outcome ε α} {a : α} :
    r.toOption = some a ↔ r = .ok a := by
  cases r <;> simp [Except.toOption]

theorem validateExtField_grows {table table' : TypeTable} (h : table.Grows table')
    {wrapped : TypeId} {degree : ℕ} {irreducible : List U64}
    (accepted : validateExtField table wrapped degree irreducible = .ok ()) :
    validateExtField table' wrapped degree irreducible = .ok () := by
  obtain ⟨w, hw, -⟩ := validateExtField_eq_ok accepted
  unfold validateExtField at accepted ⊢
  rw [Ir.wrappedDesc_grows h hw]
  rwa [hw] at accepted

theorem TypeTable.extField_eq_ok {table table' : TypeTable} {wrapped id : TypeId} {degree : ℕ}
    {irreducible : List U64} :
    table.extField wrapped degree irreducible = .ok (id, table') ↔
      validateExtField table wrapped degree irreducible = .ok () ∧
        table.intern (.extField wrapped degree irreducible) = (id, table') := by
  rw [extField, Except.bind_eq_ok]
  constructor
  · rintro ⟨⟨⟩, accepted, hintern⟩
    exact ⟨accepted, Except.ok.inj hintern⟩
  · rintro ⟨accepted, hintern⟩
    exact ⟨(), accepted, congrArg Except.ok hintern⟩

theorem TypeTable.primeField_eq_ok {table table' : TypeTable} {id : TypeId} {k : ℕ}
    {n : List U64} (h : table.primeField k n = .ok (id, table')) :
    ∃ limbs p, canonicalN k n = .ok limbs ∧ modulus k limbs = .ok p ∧ isPrime p = true ∧
      table.intern (.primeField k limbs) = (id, table') := by
  rw [primeField, Except.bind_eq_ok] at h
  obtain ⟨limbs, hlimbs, h⟩ := h
  rw [Except.bind_eq_ok] at h
  obtain ⟨p, hp, h⟩ := h
  split at h
  · cases h
  · next hprime => exact ⟨limbs, p, hlimbs, hp, by simpa using hprime, Except.ok.inj h⟩

theorem TypeTable.primeField_of_ok {table table' : TypeTable} {id : TypeId} {k : ℕ}
    {n limbs : List U64} {p : U256} (hlimbs : canonicalN k n = .ok limbs)
    (hp : modulus k limbs = .ok p) (hprime : isPrime p = true)
    (hintern : table.intern (.primeField k limbs) = (id, table')) :
    table.primeField k n = .ok (id, table') := by
  rw [primeField, hlimbs]
  simp only [bind, Except.bind, hp, hprime]
  exact congrArg Except.ok hintern

namespace Vaffle
open Common

namespace LirType
variable {layout : ModuleLayout} {table table' : TypeTable} {id : TypeId}

theorem internBits_eq (n : ℕ) (table : TypeTable) : internBits n table =
    (table.intern (.primitive .bit)).2.intern (.vec n (table.intern (.primitive .bit)).1) := rfl

theorem grows_of_internBits {n : ℕ} (h : internBits n table = (id, table')) :
    table.Grows table' :=
  (table.grows_intern _).trans (TypeTable.grows_of_intern ((internBits_eq n table).symm.trans h))

theorem internBits_grows (h : table.Grows table') {n : ℕ}
    (hn : internBits n table = (id, table)) : internBits n table' = (id, table') := by
  rw [internBits_eq] at hn ⊢
  have hback := TypeTable.grows_of_intern hn
  have hsame := (table.grows_intern (.primitive .bit)).antisymm hback
  have hbit : table.intern (.primitive .bit) = ((table.intern (.primitive .bit)).1, table) :=
    Prod.ext rfl hsame.symm
  rw [hbit] at hn
  rw [TypeTable.intern_grows h hbit]
  exact TypeTable.intern_grows h hn

theorem toTid_table_grows {ty : LirType} (h : ty.toTid layout table = some (id, table')) :
    table.Grows table' := by
  induction ty generalizing table id table' with
  | arr elem n ih =>
      rw [toTid] at h
      obtain ⟨⟨elem, mid⟩, helem, h⟩ := Option.bind_eq_some_iff.mp h
      exact (ih helem).trans (TypeTable.grows_of_intern (Option.some.inj h))
  | extField wrapped degree irreducible ih =>
      rw [toTid] at h
      obtain ⟨⟨wrapped, mid⟩, hwrapped, h⟩ := Option.bind_eq_some_iff.mp h
      have hintern := (TypeTable.extField_eq_ok.mp (toOption_eq_some.mp h)).2
      exact (ih hwrapped).trans (TypeTable.grows_of_intern hintern)
  | primeField k n =>
      rw [toTid] at h
      obtain ⟨limbs, p, -, -, -, hintern⟩ := TypeTable.primeField_eq_ok (toOption_eq_some.mp h)
      exact TypeTable.grows_of_intern hintern
  | struct s =>
      rw [toTid] at h
      obtain ⟨n, -, h⟩ := Option.bind_eq_some_iff.mp h
      exact grows_of_internBits (Option.some.inj h)
  | i8 | u8 | i16 | u16 | i32 | u32 | i64 | u64 | ptr =>
      exact grows_of_internBits (Option.some.inj h)
  | _ => exact TypeTable.grows_of_intern (Option.some.inj h)

theorem toTid_grows (hgrows : table.Grows table') {ty : LirType}
    (h : ty.toTid layout table = some (id, table)) :
    ty.toTid layout table' = some (id, table') := by
  induction ty generalizing id with
  | arr elem n ih =>
      rw [toTid] at h ⊢
      obtain ⟨⟨elem, mid⟩, helem, h⟩ := Option.bind_eq_some_iff.mp h
      have hintern : mid.intern (.vec n elem) = (id, table) := Option.some.inj h
      have hback := TypeTable.grows_of_intern hintern
      obtain rfl := (toTid_table_grows helem).antisymm hback
      rw [ih helem]
      exact congrArg some (TypeTable.intern_grows hgrows hintern)
  | extField wrapped degree irreducible ih =>
      rw [toTid] at h ⊢
      obtain ⟨⟨wrapped, mid⟩, hwrapped, h⟩ := Option.bind_eq_some_iff.mp h
      obtain ⟨accepted, hintern⟩ := TypeTable.extField_eq_ok.mp (toOption_eq_some.mp h)
      have hback := TypeTable.grows_of_intern hintern
      obtain rfl := (toTid_table_grows hwrapped).antisymm hback
      rw [ih hwrapped]
      exact toOption_eq_some.mpr (TypeTable.extField_eq_ok.mpr
        ⟨validateExtField_grows hgrows accepted, TypeTable.intern_grows hgrows hintern⟩)
  | primeField k n =>
      rw [toTid] at h ⊢
      obtain ⟨limbs, p, hlimbs, hp, hprime, hintern⟩ :=
        TypeTable.primeField_eq_ok (toOption_eq_some.mp h)
      exact toOption_eq_some.mpr (TypeTable.primeField_of_ok hlimbs hp hprime
        (TypeTable.intern_grows hgrows hintern))
  | struct s =>
      rw [toTid] at h ⊢
      obtain ⟨n, hn, h⟩ := Option.bind_eq_some_iff.mp h
      rw [hn]
      exact congrArg some (internBits_grows hgrows (Option.some.inj h))
  | i8 | u8 | i16 | u16 | i32 | u32 | i64 | u64 | ptr =>
      exact congrArg some (internBits_grows hgrows (Option.some.inj h))
  | _ => exact congrArg some (TypeTable.intern_grows hgrows (Option.some.inj h))

theorem wrappedDesc_of_vec {mid : TypeTable} {n : ℕ} {elem : TypeId}
    (h : mid.intern (.vec n elem) = (id, table')) : wrappedDesc table' id = none := by
  have hget := mid.get_intern (.vec n elem)
  rw [h] at hget
  rw [wrappedDesc, wrappedDescWith, hget]

theorem fieldType_of_bit (h : table.intern (.primitive .bit) = (id, table')) :
    FieldType table' id := by
  have hget := table.get_intern (.primitive .bit)
  rw [h] at hget
  exact .bit hget

theorem toTid_fieldType {ty : LirType} (h : ty.toTid layout table = some (id, table'))
    (hw : wrappedDesc table' id ≠ none) : FieldType table' id := by
  induction ty generalizing table id table' with
  | arr elem n ih =>
      rw [toTid] at h
      obtain ⟨⟨elem, mid⟩, helem, h⟩ := Option.bind_eq_some_iff.mp h
      exact absurd (wrappedDesc_of_vec (Option.some.inj h)) hw
  | extField wrapped degree irreducible ih =>
      rw [toTid] at h
      obtain ⟨⟨wrapped, mid⟩, hwrapped, h⟩ := Option.bind_eq_some_iff.mp h
      have hok := toOption_eq_some.mp h
      obtain ⟨w, hw', -⟩ := validateExtField_eq_ok (TypeTable.extField_eq_ok.mp hok).1
      have hdegree : degree.toNat ≤ u32Max := Nat.le_of_lt_succ degree.isLt
      exact FieldType.of_extField hdegree (ih hwrapped (by rw [hw']; nofun)) hok
  | primeField k n =>
      rw [toTid] at h
      obtain ⟨limbs, p, -, -, -, hintern⟩ := TypeTable.primeField_eq_ok (toOption_eq_some.mp h)
      have hget := table.get_intern (.primeField k.toNat limbs)
      rw [hintern] at hget
      exact absurd (by rw [wrappedDesc, wrappedDescWith, hget]) hw
  | struct s =>
      rw [toTid] at h
      obtain ⟨n, -, h⟩ := Option.bind_eq_some_iff.mp h
      exact absurd (wrappedDesc_of_vec (Option.some.inj h)) hw
  | i8 | u8 | i16 | u16 | i32 | u32 | i64 | u64 | ptr =>
      exact absurd (wrappedDesc_of_vec (Option.some.inj h)) hw
  | native t =>
      cases t
      exact fieldType_of_bit (Option.some.inj h)
  | _ => exact fieldType_of_bit (Option.some.inj h)

end LirType

/-- A ring read off bit strings of one length. Two strings may stand for one element; what an
operation computes is a proper one. -/
structure Elements where
  R : Type
  [ring : CommRing R]
  width : ℕ
  decode : List Bool → R
  Proper : List Bool → Prop

attribute [instance] Elements.ring

namespace Elements

def ofField (F : BitField) : Elements where
  R := F.K
  width := F.width
  decode := F.decode
  Proper bits := bits.length = F.width

/-- Residues modulo `p`, the proper ones below it. -/
def residues (k p : ℕ) : Elements where
  R := ZMod p
  width := k
  decode bits := (Bits.value bits : ZMod p)
  Proper bits := bits.length = k ∧ Bits.value bits < p

theorem decode_residues (k p : ℕ) (bits : List Bool) :
    (residues k p).decode bits = (Bits.value bits : ZMod p) := rfl

def Is (E : Elements) (bits : List Bool) (x : E.R) : Prop := E.Proper bits ∧ E.decode bits = x

def read (E : Elements) (table : TypeTable) (v : Ir.Value) : E.R :=
  if v.ty.any table.isBit then if v.bits.headD false then 1 else 0 else E.decode v.bits

end Elements

/-- What a field type of the target stands for. -/
inductive ElementsOf (table : TypeTable) : LirType → TypeId → Elements → Prop
  | ext {wrapped : LirType} {degree : U32} {irreducible : List U64} {id inner : TypeId}
      {w : WrappedDesc} {F : BitField}
      (get : table.get id = some (.extField inner degree.toNat irreducible))
      (type : FieldType table id) (desc : wrappedDesc table id = some w)
      (describes : Describes w F) :
      ElementsOf table (.extField wrapped degree irreducible) id (.ofField F)
  | prime {k : U32} {n limbs : List U64} {id : TypeId}
      (get : table.get id = some (.primeField k.toNat limbs))
      (value : Limbs.value limbs = Limbs.value n)
      (canonical : Canonical k.toNat (Limbs.value n))
      (odd : Odd (2 ^ k.toNat - Limbs.value n)) :
      ElementsOf table (.primeField k n) id (.residues k.toNat (2 ^ k.toNat - Limbs.value n))

/-- An element of the type, or a gate. -/
inductive IsCell (table : TypeTable) (id : TypeId) (E : Elements) : Ir.Value → Prop
  | element {ty : TypeId} {bits : List Bool} (same : table.sameType ty id = true)
      (len : bits.length = E.width) : IsCell table id E ⟨bits, some ty, []⟩
  | gate {ty : TypeId} {b : Bool} (bit : table.isBit ty = true) :
      IsCell table id E ⟨[b], some ty, []⟩

section
variable {layout : ModuleLayout} {table table' : TypeTable} {T : LirType} {id : TypeId}
  {E : Elements}

/-- Every type that `ext_field` or `prime_field` accepts stands for a ring. -/
theorem toTid_elementsOf (h : T.toTid layout table = some (id, table'))
    (hfield : T.isFieldTyped = true) : ∃ E, ElementsOf table' T id E := by
  cases T with
  | extField wrapped degree irreducible =>
      have hinner := h
      rw [LirType.toTid] at hinner
      obtain ⟨⟨inner, mid⟩, hwrapped, hext⟩ := Option.bind_eq_some_iff.mp hinner
      obtain ⟨accepted, hintern⟩ := TypeTable.extField_eq_ok.mp (toOption_eq_some.mp hext)
      have hget := mid.get_intern (.extField inner degree.toNat irreducible)
      rw [hintern] at hget
      obtain ⟨w, hw, -⟩ := validateExtField_eq_ok accepted
      have hdegree : degree.toNat ≤ u32Max := Nat.le_of_lt_succ degree.isLt
      have htype : FieldType table' id := FieldType.of_extField hdegree
        (LirType.toTid_fieldType hwrapped (by rw [hw]; nofun)) (toOption_eq_some.mp hext)
      obtain ⟨w', F, hw', hF⟩ := htype.describes
      exact ⟨_, .ext hget htype hw' hF⟩
  | primeField k n =>
      rw [LirType.toTid] at h
      have hok := toOption_eq_some.mp h
      obtain ⟨limbs, p, hlimbs, hp, -, hintern⟩ := TypeTable.primeField_eq_ok hok
      obtain ⟨hcan, hprime⟩ := (primeField_ok_iff table k.toNat n).mp ⟨_, hok⟩
      obtain ⟨limbs', hlimbs', hvalue, -⟩ := canonicalN_ok hcan
      cases hlimbs.symm.trans hlimbs'
      have hget := table.get_intern (.primeField k.toNat limbs)
      rw [hintern] at hget
      have hodd : Odd (2 ^ k.toNat - Limbs.value n) := by
        rcases hprime with hprime | hpseudo
        · apply hprime.odd_of_ne_two
          have hlt := hcan.lt
          have hsplit : 2 ^ k.toNat = 2 * 2 ^ (k.toNat - 1) := by
            rw [← pow_succ']
            congr 1
            have := hcan.two_le
            omega
          have hle : 2 ^ 1 ≤ 2 ^ (k.toNat - 1) :=
            Nat.pow_le_pow_right (by decide) (by have := hcan.two_le; omega)
          omega
        · exact hpseudo.odd
      exact ⟨_, .prime hget hvalue hcan hodd⟩
  | _ => cases hfield

namespace ElementsOf

theorem grows (hgrows : table.Grows table') (h : ElementsOf table T id E) :
    ElementsOf table' T id E := by
  cases h with
  | ext get type desc describes =>
      exact .ext (hgrows.get get) (Ir.fieldType_grows hgrows type)
        (Ir.wrappedDesc_grows hgrows desc) describes
  | prime get value canonical odd => exact .prime (hgrows.get get) value canonical odd

theorem isBit_eq_false (h : ElementsOf table T id E) {ty : TypeId}
    (same : table.sameType ty id = true) : table.isBit ty = false := by
  rw [Bool.eq_false_iff]
  intro hbit
  have hget := (TypeTable.get_of_sameType same).symm.trans (TypeTable.isBit_iff.mp hbit)
  cases h with
  | ext get => cases get.symm.trans hget
  | prime get => cases get.symm.trans hget

theorem bitWidth_eq (h : ElementsOf table T id E) : table.bitWidth id = E.width := by
  cases h with
  | ext get type desc describes =>
      obtain ⟨d, hd⟩ := type.rank
      have hwidth := type.valueBitWidthFrom_eq desc hd hd.lt_length
      rw [bitWidth_eq_of_valueBitWidth hwidth.2, describes.width_eq]
      rfl
  | prime get => exact Ir.bitWidth_primeField get

theorem read_element (h : ElementsOf table T id E) {ty : TypeId} {bits : List Bool}
    (same : table.sameType ty id = true) : E.read table ⟨bits, some ty, []⟩ = E.decode bits := by
  rw [Elements.read, Option.any_some, h.isBit_eq_false same]
  rfl

theorem read_gate {ty : TypeId} {b : Bool} (bit : table.isBit ty = true) :
    E.read table ⟨[b], some ty, []⟩ = if b then 1 else 0 := by
  rw [Elements.read, Option.any_some, if_pos bit]
  rfl

theorem valueFits (h : ElementsOf table T id E) {v : Ir.Value} (hv : IsCell table id E v) :
    Ir.ValueFits table id v := by
  cases hv with
  | element same len =>
      refine ⟨rfl, .own same, ?_⟩
      exact len.trans (h.bitWidth_eq.symm.trans
        (bitWidth_congr (TypeTable.get_of_sameType same)).symm)
  | gate bit => exact ⟨rfl, .gate bit, (bitWidth_of_isBit bit).symm⟩

theorem constBits_zero (n : ℕ) : Ir.constBits .zero n = List.replicate n false := by
  apply List.ext_getElem
  · simp [Ir.constBits]
  · intro i hi hi'
    simp [Ir.constBits, Constant.bit, Constant.zero]

theorem decode_zero (h : ElementsOf table T id E) :
    E.decode (Ir.constBits .zero E.width) = 0 := by
  rw [constBits_zero]
  cases h with
  | ext get type desc describes => exact BitField.decode_zeroBits _
  | prime =>
      have hvalue : ∀ k p : ℕ, (Elements.residues k p).decode (List.replicate k false) = 0 := by
        intro k p
        exact (congrArg Nat.cast (Bits.value_replicate_false k)).trans Nat.cast_zero
      exact hvalue _ _

theorem evalTerms (h : ElementsOf table T id E) {terms : List Ir.ValueTerm}
    (hterms : ∀ t ∈ terms, ∀ v ∈ t.1, IsCell table id E v) :
    ∃ bits, Ir.evalTerms table id .zero terms = some bits ∧
      E.Is bits (Ir.sumAt (E.read table) terms) := by
  have hfits : ∀ t ∈ terms, ∀ v ∈ t.1, Ir.ValueFits table id v :=
    fun t ht v hv => h.valueFits (hterms t ht v hv)
  have hzero := h.decode_zero
  have hbitWidth := h.bitWidth_eq
  have hread := @read_element table T id E h
  have hbit := @isBit_eq_false table T id E h
  cases h with
  | @ext wrapped degree irreducible _ inner w F get type desc describes =>
      have means : Means table id (.ofField F) := .field type desc describes
      obtain ⟨d, hd⟩ := type.rank
      have fits : F.width ≤ usizeMax :=
        describes.width_eq ▸ (type.valueBitWidthFrom_eq desc hd hd.lt_length).1
      have hprime : table.containsPrimeField id = false := by
        unfold TypeTable.containsPrimeField
        obtain ⟨fuel, hfuel⟩ := TypeTable.exists_length get
        rw [hfuel, containsPrimeFieldFrom, get]
      have hring : table.mulIsIdempotent id = false := by
        unfold TypeTable.mulIsIdempotent
        obtain ⟨fuel, hfuel⟩ := TypeTable.exists_length get
        rw [hfuel, mulIsIdempotentFrom, get]
      obtain ⟨bits, hbits, hlen, hdecode⟩ :=
        Ir.evalTypedPoly_spec means fits hring (c := .zero) hfits
      refine ⟨bits, (Ir.evalTerms_ring hprime hring _ _).trans hbits, hlen, ?_⟩
      refine hdecode.trans ?_
      rw [show (BitAlgebra.ofField F).decode (Ir.constBits .zero (BitAlgebra.ofField F).width) = 0
        from hzero, zero_add, Ir.factorTerms, Ir.sumAt_map]
      apply Ir.sumAt_congr
      intro t ht v hv
      cases hterms t ht v hv with
      | element same len =>
          rw [hread same]
          exact Ir.ringAt_eq means (.own same len)
      | gate bit =>
          rw [read_gate bit]
          exact Ir.ringAt_eq means (.gate bit)
  | @prime k n limbs _ get value canonical odd =>
      have hc : Canonical k.toNat (Limbs.value limbs) := value.symm ▸ canonical
      have hprime : table.containsPrimeField id = true := by
        unfold TypeTable.containsPrimeField
        obtain ⟨fuel, hfuel⟩ := TypeTable.exists_length get
        rw [hfuel, containsPrimeFieldFrom, get]
      have hfactors := Ir.forall_factorTerms hfits
      have hstart : (Ir.constBits .zero k.toNat).length = k.toNat := by simp [Ir.constBits]
      obtain ⟨bits, hbits, hlen, hlt, hdecode⟩ :=
        Ir.evalPrimeField_spec get hc hstart hfactors
      have hmod : PrimeSpec.modulus ⟨k.toNat, limbs⟩ = 2 ^ k.toNat - Limbs.value n := by
        rw [← value]
        rfl
      refine ⟨bits, ?_, ⟨hlen, hmod ▸ hlt⟩, ?_⟩
      · rw [Ir.evalTerms_prime hprime .zero hfits, hbitWidth, evalPrimePoly]
        obtain ⟨fuel, hfuel⟩ := TypeTable.exists_length get
        rw [hfuel]
        exact (Ir.evalPrimePolyFrom_field get hstart _).trans hbits
      · rw [hmod] at hdecode
        refine hdecode.trans ?_
        have hconst : ((Bits.value (Ir.constBits .zero k.toNat) : ℕ) :
            ZMod (2 ^ k.toNat - Limbs.value n)) = 0 := hzero
        rw [hconst, zero_add, Ir.factorTerms, Ir.sumAt_map]
        apply Ir.sumAt_congr
        intro t ht v hv
        cases hterms t ht v hv with
        | @element ty bits same len =>
            have hdigits : fieldDigits boolRing table id k.toNat (ty, bits) = some bits :=
              Ir.fieldDigits_element (hbit same) same len
            rw [hread same, Function.comp_apply, Ir.Value.asFactor, Option.getD_some, Ir.residueAt,
              hdigits]
            rfl
        | @gate ty b bit =>
            rw [read_gate bit, Function.comp_apply, Ir.Value.asFactor, Option.getD_some,
              Ir.residueAt, Ir.fieldDigits_gate bit, Option.getD_some]
            have hone : Bits.value ((List.replicate k.toNat false).set 0 b) = b.toNat :=
              Ir.value_set_zero hc.two_le b
            rw [List.headD_cons, hone]
            cases b with
            | false => exact Nat.cast_zero
            | true => exact Nat.cast_one

end ElementsOf
end
end Vaffle
end VolarIR
