import VolarIR.Ir.Valuation

/-!
# Polynomials over prime fields

A sum modulo a prime is computed digit by digit, in every lane and part of its type. It is
fixed by the sums at the residues of its factors.
-/
namespace VolarIR

section
variable {table : TypeTable}

/-- A prime field that the table accepts, or lanes and parts that are such. -/
def PrimeTypeFrom (table : TypeTable) : (fuel : ℕ) → TypeId → Prop
  | 0, _ => False
  | fuel + 1, ty =>
      match table.get ty with
      | some (.vec _ elem) =>
          (table.valueBitWidth elem).isSome = true ∧ PrimeTypeFrom table fuel elem
      | some (.tuple parts) =>
          parts ≠ [] ∧ ∀ part ∈ parts,
            (table.valueBitWidth part).isSome = true ∧ PrimeTypeFrom table fuel part
      | some (.primeField k n) => Canonical k (Limbs.value n)
      | _ => False

def PrimeType (table : TypeTable) (ty : TypeId) : Prop :=
  PrimeTypeFrom table table.types.length ty

theorem mulIsIdempotentFrom_of_prime {fuel : ℕ} {ty : TypeId}
    (h : containsPrimeFieldFrom table fuel ty = true) :
    mulIsIdempotentFrom table fuel ty = false := by
  induction fuel generalizing ty with
  | zero => rfl
  | succ fuel ih =>
      rw [containsPrimeFieldFrom] at h
      rw [mulIsIdempotentFrom]
      split at h
      · next heq => rw [heq]
      · next heq =>
          rw [heq]
          exact ih h
      · next heq =>
          rw [heq]
          obtain ⟨part, hpart, hprime⟩ := List.any_eq_true.mp h
          apply List.all_eq_false.mpr
          exact ⟨part, hpart, by rw [ih hprime]; decide⟩
      · cases h

theorem mulIsIdempotent_of_prime {ty : TypeId} (h : table.containsPrimeField ty = true) :
    table.mulIsIdempotent ty = false := mulIsIdempotentFrom_of_prime h

theorem moduliFrom_mono {fuel m p : ℕ} {ty : TypeId} (hle : fuel ≤ m)
    (hp : p ∈ Ir.moduliFrom table fuel ty) : p ∈ Ir.moduliFrom table m ty := by
  induction fuel generalizing m ty with
  | zero => cases hp
  | succ fuel ih =>
      obtain ⟨m, rfl⟩ : ∃ k, m = k + 1 := ⟨m - 1, by omega⟩
      rw [Ir.moduliFrom] at hp ⊢
      split at hp
      · exact ih (by omega) hp
      · obtain ⟨part, hpart, hp⟩ := List.mem_flatMap.mp hp
        exact List.mem_flatMap.mpr ⟨part, hpart, ih (by omega) hp⟩
      · exact hp
      · cases hp

/-- What such a type is made of. -/
theorem PrimeTypeFrom.cases {fuel : ℕ} {ty : TypeId} (h : PrimeTypeFrom table (fuel + 1) ty) :
    (∃ n elem, table.get ty = some (.vec n elem) ∧
      (table.valueBitWidth elem).isSome = true ∧ PrimeTypeFrom table fuel elem) ∨
    (∃ parts, table.get ty = some (.tuple parts) ∧ parts ≠ [] ∧
      ∀ part ∈ parts, (table.valueBitWidth part).isSome = true ∧ PrimeTypeFrom table fuel part) ∨
    ∃ k n, table.get ty = some (.primeField k n) ∧ Canonical k (Limbs.value n) := by
  unfold PrimeTypeFrom at h
  cases get : table.get ty with
  | none => simp [get] at h
  | some t =>
      cases t with
      | vec n elem => exact .inl ⟨n, elem, rfl, by simpa only [get] using h⟩
      | tuple parts => exact .inr (.inl ⟨parts, rfl, by simpa only [get] using h⟩)
      | primeField k n => exact .inr (.inr ⟨k, n, rfl, by simpa only [get] using h⟩)
      | _ => simp [get] at h

theorem PrimeTypeFrom.containsPrimeFieldFrom {fuel : ℕ} {ty : TypeId}
    (h : PrimeTypeFrom table fuel ty) : containsPrimeFieldFrom table fuel ty = true := by
  induction fuel generalizing ty with
  | zero => exact h.elim
  | succ fuel ih =>
      rw [VolarIR.containsPrimeFieldFrom]
      rcases h.cases with ⟨n, elem, get, h⟩ | ⟨parts, get, h⟩ | ⟨k, n, get, h⟩
      · rw [get]
        exact ih h.2
      · rw [get]
        obtain ⟨part, hpart⟩ := List.exists_mem_of_ne_nil parts h.1
        exact List.any_eq_true.mpr ⟨part, hpart, ih (h.2 part hpart).2⟩
      · rw [get]

theorem PrimeTypeFrom.succ {fuel : ℕ} {ty : TypeId} (h : PrimeTypeFrom table fuel ty) :
    PrimeTypeFrom table (fuel + 1) ty := by
  induction fuel generalizing ty with
  | zero => exact h.elim
  | succ fuel ih =>
      rw [PrimeTypeFrom] at h ⊢
      split at h
      · exact ⟨h.1, ih h.2⟩
      · exact ⟨h.1, fun part hpart => ⟨(h.2 part hpart).1, ih (h.2 part hpart).2⟩⟩
      · exact h
      · exact h.elim

theorem PrimeTypeFrom.mono {fuel m : ℕ} {ty : TypeId} (h : PrimeTypeFrom table fuel ty)
    (hle : fuel ≤ m) : PrimeTypeFrom table m ty := by
  obtain ⟨extra, rfl⟩ := Nat.exists_eq_add_of_le hle
  clear hle
  induction extra with
  | zero => exact h
  | succ extra ih => exact ih.succ

theorem PrimeTypeFrom.containsPrimeField {fuel : ℕ} {ty : TypeId}
    (h : PrimeTypeFrom table fuel ty) (hfuel : fuel ≤ table.types.length) :
    table.containsPrimeField ty = true := (h.mono hfuel).containsPrimeFieldFrom

theorem PrimeTypeFrom.mem_moduliFrom {m fuel p : ℕ} {ty : TypeId} (h : PrimeTypeFrom table m ty)
    (hp : p ∈ Ir.moduliFrom table fuel ty) : p ∈ Ir.moduliFrom table m ty := by
  induction m generalizing fuel ty with
  | zero => exact h.elim
  | succ m ih =>
      cases fuel with
      | zero => cases hp
      | succ fuel =>
          rw [Ir.moduliFrom] at hp ⊢
          rcases h.cases with ⟨n, elem, get, h⟩ | ⟨parts, get, h⟩ | ⟨k, n, get, h⟩
          · rw [get] at hp ⊢
            exact ih h.2 hp
          · rw [get] at hp ⊢
            obtain ⟨part, hpart, hp⟩ := List.mem_flatMap.mp hp
            exact List.mem_flatMap.mpr ⟨part, hpart, ih (h.2 part hpart).2 hp⟩
          · rw [get] at hp ⊢
            exact hp

theorem valueBitWidthFrom_succ {fuel w : ℕ} {ty : TypeId}
    (h : valueBitWidthFrom table fuel ty = some w) :
    valueBitWidthFrom table (fuel + 1) ty = some w := by
  induction fuel generalizing ty w with
  | zero => cases h
  | succ fuel ih =>
      rw [valueBitWidthFrom] at h ⊢
      split at h
      · exact h
      · obtain ⟨lane, hlane, hmul⟩ := Option.bind_eq_some_iff.mp h
        rw [ih hlane]
        exact hmul
      · next parts _ =>
          have hsum : ∀ (parts : List TypeId) (start : ℕ), parts.foldlM (fun sum part =>
              (valueBitWidthFrom table fuel part).bind (checkedAdd sum)) start = some w →
              parts.foldlM (fun sum part =>
                (valueBitWidthFrom table (fuel + 1) part).bind (checkedAdd sum)) start =
                some w := by
            intro parts
            induction parts with
            | nil => exact fun _ h => h
            | cons part rest ihparts =>
                intro start h
                rw [List.foldlM_cons] at h ⊢
                obtain ⟨sum, hsum, hrest⟩ := Option.bind_eq_some_iff.mp h
                obtain ⟨width, hwidth, hadd⟩ := Option.bind_eq_some_iff.mp hsum
                rw [ih hwidth, Option.bind_some, hadd]
                exact ihparts sum hrest
          exact hsum parts 0 h
      · obtain ⟨width, hwidth, hmul⟩ := Option.bind_eq_some_iff.mp h
        rw [ih hwidth]
        exact hmul
      · exact h
      · cases h

theorem valueBitWidth_vec {ty elem : TypeId} {n w : ℕ} (get : table.get ty = some (.vec n elem))
    (h : table.valueBitWidth ty = some w) :
    ∃ lane, table.valueBitWidth elem = some lane ∧ w = n * lane := by
  unfold TypeTable.valueBitWidth at h ⊢
  obtain ⟨fuel, hfuel⟩ := TypeTable.exists_length get
  rw [hfuel] at h ⊢
  rw [valueBitWidthFrom, get] at h
  obtain ⟨lane, hlane, hmul⟩ := Option.bind_eq_some_iff.mp h
  rw [checkedMul, Option.ite_none_right_eq_some, Option.some.injEq] at hmul
  exact ⟨lane, valueBitWidthFrom_succ hlane, hmul.2.symm⟩

theorem valueBitWidth_tuple {ty : TypeId} {parts : List TypeId} {w : ℕ}
    (get : table.get ty = some (.tuple parts)) (h : table.valueBitWidth ty = some w) :
    (parts.map table.bitWidth).sum = w := by
  unfold TypeTable.valueBitWidth at h
  obtain ⟨fuel, hfuel⟩ := TypeTable.exists_length get
  rw [hfuel, valueBitWidthFrom, get] at h
  have hsum : ∀ (parts : List TypeId) (start : ℕ), parts.foldlM (fun sum part =>
      (valueBitWidthFrom table fuel part).bind (checkedAdd sum)) start = some w →
      start + (parts.map table.bitWidth).sum = w := by
    intro parts
    induction parts with
    | nil => exact fun start h => Option.some.inj h
    | cons part rest ih =>
        intro start h
        rw [List.foldlM_cons] at h
        obtain ⟨sum, hsum, hrest⟩ := Option.bind_eq_some_iff.mp h
        obtain ⟨width, hwidth, hadd⟩ := Option.bind_eq_some_iff.mp hsum
        have hpart : table.valueBitWidth part = some width := by
          rw [TypeTable.valueBitWidth, hfuel]
          exact valueBitWidthFrom_succ hwidth
        rw [checkedAdd, Option.ite_none_right_eq_some, Option.some.injEq] at hadd
        rw [List.map_cons, List.sum_cons, bitWidth_eq_of_valueBitWidth hpart, ← Nat.add_assoc,
          hadd.2]
        exact ih sum hrest
  exact (Nat.zero_add _).symm.trans (hsum parts 0 h)

theorem identityBitsFrom_succ {fuel : ℕ} {ty : TypeId} {bits : List Bool}
    (h : identityBitsFrom boolBits table fuel ty = some bits) :
    identityBitsFrom boolBits table (fuel + 1) ty = some bits := by
  induction fuel generalizing ty bits with
  | zero => cases h
  | succ fuel ih =>
      rw [identityBitsFrom] at h ⊢
      split at h
      · exact h
      · obtain ⟨lane, hlane, rfl⟩ := Option.map_eq_some_iff.mp h
        rw [ih hlane]
        rfl
      · exact h
      · exact h
      · next parts _ =>
          obtain ⟨lanes, hlanes, rfl⟩ := Option.map_eq_some_iff.mp h
          have hmap : ∀ (parts : List TypeId) (lanes : List (List Bool)),
              parts.mapM (identityBitsFrom boolBits table fuel) = some lanes →
              parts.mapM (identityBitsFrom boolBits table (fuel + 1)) = some lanes := by
            intro parts
            induction parts with
            | nil => exact fun _ h => h
            | cons part rest ihparts =>
                intro lanes h
                rw [List.mapM_cons] at h ⊢
                obtain ⟨lane, hlane, h⟩ := Option.bind_eq_some_iff.mp h
                obtain ⟨lanes', hlanes', h⟩ := Option.bind_eq_some_iff.mp h
                rw [ih hlane, ihparts lanes' hlanes']
                exact h
          rw [hmap parts lanes hlanes]
          rfl
      · cases h

end

namespace Ir

theorem length_sliceWires (bits : List Bool) (start width : ℕ) :
    (sliceWires boolRing bits start width).length = width := by
  simp [sliceWires]

theorem sliceWires_self {bits : List Bool} {width : ℕ} (h : bits.length = width) :
    sliceWires boolRing bits 0 width = bits := by
  subst h
  apply List.ext_getElem
  · exact length_sliceWires bits 0 _
  · intro i hi hi'
    simp [sliceWires, hi']

theorem sliceWires_zeros (n start width : ℕ) :
    sliceWires boolRing (List.replicate n false) start width = List.replicate width false := by
  apply List.ext_getElem
  · simp [sliceWires]
  · intro i hi hi'
    rw [List.getElem_replicate]
    simp only [sliceWires, List.getElem_map, List.getElem_range, List.getD_eq_getElem?_getD,
      List.getElem?_replicate]
    split_ifs <;> rfl

section
variable {table : TypeTable} {ty : TypeId} {k : ℕ} {n : List U64}
  (get : table.get ty = some (.primeField k n))
include get

theorem valueBitWidth_primeField : table.valueBitWidth ty = some k := by
  unfold TypeTable.valueBitWidth
  obtain ⟨fuel, hfuel⟩ := TypeTable.exists_length get
  rw [hfuel, valueBitWidthFrom, get]

theorem FactorFits.primeField {f : Factor Bool} (hf : FactorFits table ty f) :
    (table.isBit f.1 = true ∧ ∃ b, f.2 = [b]) ∨
      (table.isBit f.1 = false ∧ table.sameType f.1 ty = true ∧ f.2.length = k) := by
  have hlt := (List.getElem?_eq_some_iff.mp get).1
  have hlen := hf.length
  by_cases hbit : table.isBit f.1 = true
  · rw [bitWidth_of_isBit hbit] at hlen
    exact .inl ⟨hbit, List.length_eq_one_iff.mp hlen⟩
  · have hidem : table.mulIsIdempotent ty = false := by
      unfold TypeTable.mulIsIdempotent
      obtain ⟨fuel, hfuel⟩ : ∃ m, table.types.length = m + 1 :=
        ⟨table.types.length - 1, by omega⟩
      rw [hfuel, mulIsIdempotentFrom, get]
    refine .inr ⟨Bool.eq_false_iff.mpr hbit, ?_⟩
    cases hf.typed with
    | own same =>
        refine ⟨same, ?_⟩
        rw [hlen, bitWidth_congr (TypeTable.get_of_sameType same)]
        exact bitWidth_eq_of_valueBitWidth (valueBitWidth_primeField get)
    | gate bit => exact absurd bit hbit
    | constant get' => simp [get] at get'
    | broadcast _ get' => simp [get] at get'
    | parts _ get' => simp [get] at get'
    | wide idem => exact absurd idem (by rw [hidem]; decide)

variable (hc : Canonical k (Limbs.value n))

omit get in
theorem canonical_spec {n : List U64} (h : Canonical k (Limbs.value n)) :
    Canonical (PrimeSpec.mk k n).k (PrimeSpec.mk k n).offset := h

omit get in
theorem value_set_zero (hk : 2 ≤ k) (b : Bool) :
    Bits.value ((List.replicate k false).set 0 b) = b.toNat := by
  obtain ⟨k, rfl⟩ : ∃ m, k = m + 1 := ⟨k - 1, by omega⟩
  simp [List.replicate_succ]

theorem fieldDigits_spec {f : Factor Bool} (hf : FactorFits table ty f) :
    ∃ ds, fieldDigits boolRing table ty k f = some ds ∧ ds.length = k := by
  rcases hf.primeField get with ⟨hbit, b, hb⟩ | ⟨hbit, hsame, hlen⟩
  · refine ⟨_, if_pos hbit, ?_⟩
    simp
  · refine ⟨_, (if_neg (by rw [hbit]; decide)).trans (if_pos hsame), ?_⟩
    exact length_sliceWires _ _ _

def residueAt (table : TypeTable) (ty : TypeId) (k p : ℕ) (f : Factor Bool) : ZMod p :=
  (Bits.value ((fieldDigits boolRing table ty k f).getD []) : ZMod p)

include hc

/-- The product of residues. -/
theorem fieldProduct_spec {factors : List (Factor Bool)}
    (hfs : ∀ f ∈ factors, FactorFits table ty f) :
    ∃ bits, fieldProduct boolRing table ty ⟨k, n⟩ factors = some bits ∧ bits.length = k ∧
      Bits.value bits < PrimeSpec.modulus ⟨k, n⟩ ∧
      (Bits.value bits : ZMod (PrimeSpec.modulus ⟨k, n⟩)) =
        (factors.map (residueAt table ty k (PrimeSpec.modulus ⟨k, n⟩))).prod := by
  have hone : 1 < PrimeSpec.modulus ⟨k, n⟩ := by
    have htwo := two_mul_offset_lt (canonical_spec hc)
    have hfour : 4 ≤ 2 ^ k := (Nat.pow_le_pow_right (n := 2) (by decide) hc.two_le)
    have hp : PrimeSpec.modulus ⟨k, n⟩ = 2 ^ k - PrimeSpec.offset ⟨k, n⟩ := rfl
    dsimp only at htwo
    omega
  have hfold : ∀ (factors : List (Factor Bool)) (acc : List Bool),
      (∀ f ∈ factors, FactorFits table ty f) → acc.length = k →
      Bits.value acc < PrimeSpec.modulus ⟨k, n⟩ →
      ∃ bits, factors.foldlM (fun product factor => do
          some (solinasMul boolRing product (← fieldDigits boolRing table ty k factor) ⟨k, n⟩))
          acc = some bits ∧ bits.length = k ∧ Bits.value bits < PrimeSpec.modulus ⟨k, n⟩ ∧
        (Bits.value bits : ZMod (PrimeSpec.modulus ⟨k, n⟩)) = Bits.value acc *
          (factors.map (residueAt table ty k (PrimeSpec.modulus ⟨k, n⟩))).prod := by
    intro factors
    induction factors with
    | nil =>
        intro acc _ hlen hlt
        exact ⟨acc, rfl, hlen, hlt, by simp⟩
    | cons f rest ih =>
        intro acc hfs hlen hlt
        obtain ⟨ds, hds, hdsLen⟩ := fieldDigits_spec get (hfs f List.mem_cons_self)
        have hmul := value_solinasMul (canonical_spec hc) hlt hlen hdsLen
        obtain ⟨bits, hbits, hbitsLen, hbitsLt, hprod⟩ := ih
          (solinasMul boolRing acc ds ⟨k, n⟩) (fun g hg => hfs g (List.mem_cons_of_mem f hg))
          length_solinasMul (by rw [hmul]; exact Nat.mod_lt _ (Nat.zero_lt_of_lt hlt))
        refine ⟨bits, ?_, hbitsLen, hbitsLt, ?_⟩
        · rw [List.foldlM_cons, hds]
          exact hbits
        · rw [hprod, hmul, ZMod.natCast_mod, Nat.cast_mul, List.map_cons, List.prod_cons,
            residueAt, hds, Option.getD_some, mul_assoc]
  have hunit := value_set_zero hc.two_le true
  obtain ⟨bits, hbits, hlen, hlt, hprod⟩ := hfold factors ((List.replicate k false).set 0 true)
    hfs (by simp) (by rw [hunit]; exact hone)
  refine ⟨bits, hbits, hlen, hlt, ?_⟩
  rw [hprod, hunit]
  simp

/-- The sum of one prime field. -/
theorem evalPrimeField_spec {start : List Bool} (hstart : start.length = k)
    {terms : List (Term Bool)} (hterms : ∀ t ∈ terms, ∀ f ∈ t.1, FactorFits table ty f) :
    ∃ bits, terms.foldlM (addFieldTerm boolRing table ty ⟨k, n⟩)
        (solinasAdd boolRing start (List.replicate k false) ⟨k, n⟩) = some bits ∧
      bits.length = k ∧ Bits.value bits < PrimeSpec.modulus ⟨k, n⟩ ∧
      (Bits.value bits : ZMod (PrimeSpec.modulus ⟨k, n⟩)) = Bits.value start +
        sumAt (residueAt table ty k (PrimeSpec.modulus ⟨k, n⟩)) terms := by
  have hp : PrimeSpec.modulus ⟨k, n⟩ = 2 ^ k - PrimeSpec.offset ⟨k, n⟩ := rfl
  have htwo := two_mul_offset_lt (canonical_spec hc)
  dsimp only at htwo
  have hpos : 0 < PrimeSpec.modulus ⟨k, n⟩ := by omega
  have hreduce : Bits.value (solinasAdd boolRing start (List.replicate k false) ⟨k, n⟩) =
      Bits.value start % PrimeSpec.modulus ⟨k, n⟩ := by
    have hlt := Bits.value_lt start
    rw [hstart] at hlt
    rw [value_solinasAdd_of_lt hc, Bits.value_replicate_false, Nat.add_zero]
    rw [Bits.value_replicate_false]
    omega
  have hfold : ∀ (terms : List (Term Bool)) (acc : List Bool),
      (∀ t ∈ terms, ∀ f ∈ t.1, FactorFits table ty f) → acc.length = k →
      Bits.value acc < PrimeSpec.modulus ⟨k, n⟩ →
      ∃ bits, terms.foldlM (addFieldTerm boolRing table ty ⟨k, n⟩) acc = some bits ∧
        bits.length = k ∧ Bits.value bits < PrimeSpec.modulus ⟨k, n⟩ ∧
        (Bits.value bits : ZMod (PrimeSpec.modulus ⟨k, n⟩)) = Bits.value acc +
          sumAt (residueAt table ty k (PrimeSpec.modulus ⟨k, n⟩)) terms := by
    intro terms
    induction terms with
    | nil =>
        intro acc _ hlen hlt
        exact ⟨acc, rfl, hlen, hlt, by simp⟩
    | cons t rest ih =>
        intro acc hterms hlen hlt
        have hrest := fun u hu => hterms u (List.mem_cons_of_mem t hu)
        have hcount : (repetitionResidue t.2 ⟨k, n⟩ : ZMod (PrimeSpec.modulus ⟨k, n⟩)) =
            (t.2.toNat : ZMod (PrimeSpec.modulus ⟨k, n⟩)) :=
          (ZMod.natCast_eq_natCast_iff _ _ _).mpr (repetitionResidue_modEq hc t.2)
        rw [List.foldlM_cons, addFieldTerm, sumAt_cons, ← hcount]
        by_cases hzero : repetitionResidue t.2 ⟨k, n⟩ = 0
        · obtain ⟨bits, hbits, hbitsLen, hbitsLt, hsum⟩ := ih acc hrest hlen hlt
          refine ⟨bits, ?_, hbitsLen, hbitsLt, ?_⟩
          · rw [if_pos hzero]
            exact hbits
          · rw [hsum, hzero]
            simp
        · obtain ⟨product, hproduct, hproductLen, hproductLt, hprod⟩ :=
            fieldProduct_spec get hc (hterms t List.mem_cons_self)
          have hadd := value_iterate_solinasAdd (canonical_spec hc) hlt hproductLt
            (repetitionResidue t.2 ⟨k, n⟩)
          have hlength : (solinasRepeat boolRing acc product t.2 ⟨k, n⟩).length = k := by
            unfold solinasRepeat
            cases repetitionResidue t.2 ⟨k, n⟩ with
            | zero => exact hlen
            | succ m =>
                rw [Function.iterate_succ_apply']
                exact length_solinasAdd
          obtain ⟨bits, hbits, hbitsLen, hbitsLt, hsum⟩ := ih
            (solinasRepeat boolRing acc product t.2 ⟨k, n⟩) hrest hlength
            (by rw [solinasRepeat, hadd]; exact Nat.mod_lt _ hpos)
          refine ⟨bits, ?_, hbitsLen, hbitsLt, ?_⟩
          · rw [if_neg hzero, hproduct]
            exact hbits
          · rw [hsum, solinasRepeat, hadd, ZMod.natCast_mod, Nat.cast_add, Nat.cast_mul, hprod,
              add_assoc]
  obtain ⟨bits, hbits, hlen, hlt, hsum⟩ := hfold terms _ hterms length_solinasAdd
    (by rw [hreduce]; exact Nat.mod_lt _ hpos)
  refine ⟨bits, hbits, hlen, hlt, ?_⟩
  rw [hsum, hreduce, ZMod.natCast_mod]

end

end Ir

end VolarIR
