import VolarIR.Opt.BitFoldLoss
import VolarIR.Opt.ProductFold

/-!
# Folding a polynomial over an extension field

The fold keeps the value in the ring of the type. Where an empty monomial is packed into the
constant its identity is cut at 256 bits, and that is all that can be lost.
-/
namespace VolarIR.Opt
open Ir Common

section
variable {table : TypeTable} {ty : TypeId} {V : Type} {constMap : V → Option Constant}
  {typeMap : V → Option TypeId} {look : V → Value} {coeffs : Common.PolyCoeffs V}

/-- A term that is only identities, which are cut when they are added to the constant. -/
def lostIdentity (table : TypeTable) (constMap : V → Option Constant)
    (typeMap : V → Option TypeId) (term : List V × U8) : Bool :=
  odd term.2 && (simplifyFactors table constMap typeMap term.1).any fun s => s.newKey.isEmpty

/-- The identity has no bit from 256 on, or an even number of terms are only identities. -/
def IdentitySurvives (table : TypeTable) (constMap : V → Option Constant)
    (typeMap : V → Option TypeId) (ty : TypeId) (coeffs : Common.PolyCoeffs V) : Prop :=
  (∀ identity, mulIdentity table ty = some identity →
    ∀ k, 256 ≤ k → identity.getD k false = false) ∨
    Even (coeffs.iter.countP (lostIdentity table constMap typeMap))

variable {A : BitAlgebra} (h : Means table ty A) (fits : A.width ≤ usizeMax)
  (hring : table.mulIsIdempotent ty = false)

def identityLoss (A : BitAlgebra) : A.R :=
  1 + A.decode (constBits (bitsToConstant A.one) A.width)

theorem two_eq_zero (A : BitAlgebra) : (2 : A.R) = 0 := by
  have h := A.add_self 1
  rwa [one_add_one_eq_two] at h

theorem identityLoss_eq_zero_iff :
    identityLoss A = 0 ↔ ∀ k, 256 ≤ k → A.one.getD k false = false := by
  have hbit : ∀ k, (constBits (bitsToConstant A.one) A.width).getD k false =
      (decide (k < A.width) && (decide (k < 256) && A.one.getD k false)) := by
    intro k
    by_cases hk : k < A.width
    · rw [List.getD_eq_getElem _ _ (by rwa [length_constBits])]
      simp [constBits, bit_bitsToConstant, hk]
    · rw [List.getD_eq_default _ _ (by rw [length_constBits]; omega), decide_eq_false hk,
        Bool.false_and]
  have hout : ∀ k, ¬ k < A.width → A.one.getD k false = false := fun k hk =>
    List.getD_eq_default _ _ (by rw [A.length_one]; omega)
  constructor
  · intro hloss k hk
    have heq : A.decode (constBits (bitsToConstant A.one) A.width) = A.decode A.one := by
      rw [A.decode_one]
      have hself := A.add_self 1
      rw [← hself] at hloss
      exact add_left_cancel hloss
    have hone := A.decode_inj _ _ (length_constBits _ _) A.length_one heq
    rw [← hone, hbit, decide_eq_false (by omega : ¬ k < 256), Bool.false_and, Bool.and_false]
  · intro hlow
    have hone : constBits (bitsToConstant A.one) A.width = A.one := by
      apply List.ext_getElem
      · rw [length_constBits, A.length_one]
      · intro k hk hk'
        have hget := hbit k
        rw [List.getD_eq_getElem _ _ hk] at hget
        rw [hget, ← List.getD_eq_getElem _ false hk']
        by_cases hlt : k < 256
        · rw [decide_eq_true hlt, Bool.true_and]
          by_cases hkw : k < A.width
          · rw [decide_eq_true hkw, Bool.true_and]
          · rw [hout k hkw, Bool.and_false]
        · rw [hlow k (by omega), Bool.and_false, Bool.and_false]
    rw [identityLoss, hone, A.decode_one, A.add_self]

section
include h fits hring

theorem widths_of_ring (hlisted : Listed table ty constMap typeMap coeffs) {v : V} {fty : TypeId}
    (hv : Occurs coeffs v) (hty : typeMap v = some fty) :
    table.valueBitWidth fty = some (table.bitWidth fty) := by
  have hsome : (table.valueBitWidth fty).isSome = true := by
    have hof : ∀ {id : TypeId} {B : BitAlgebra}, Means table id B → B.width ≤ usizeMax →
        table.sameType fty id = true → (table.valueBitWidth fty).isSome = true := by
      intro id B hB hfit hsame
      rw [valueBitWidth_congr (TypeTable.get_of_sameType hsame), hB.valueBitWidth_eq hfit]
      rfl
    cases hlisted.accepted v fty hv hty with
    | own same => exact hof h fits same
    | gate bit => exact hlisted.sized v fty hv hty (mulIsIdempotent_of_isBit bit)
    | constant get same =>
        obtain ⟨F, G, -, -, hG, hfit, -⟩ := h.wrapped get
        exact hof hG hfit same
    | broadcast _ get same =>
        obtain ⟨B, -, hB, hfit⟩ := h.elem get
        exact hof hB hfit same
    | parts _ get => exact absurd get h.not_tuple
    | wide idem => exact absurd idem (by rw [hring]; decide)
  obtain ⟨w, hw⟩ := Option.isSome_iff_exists.mp hsome
  rw [hw, bitWidth_eq_of_valueBitWidth hw]

theorem monomialProduct_ringAt {factors : List (Factor Bool)}
    (hfactors : ∀ f ∈ factors, FactorFits table ty f) :
    ∃ product, monomialProduct boolBits table ty factors = some product ∧
      product.length = A.width ∧
      A.decode product = (factors.map (ringAt table ty A)).prod := by
  have hmeans : ∀ f ∈ withValues (ringAt table ty A) factors, FactorMeans table ty A f.1 f.2 := by
    intro f hf
    obtain ⟨g, hg, rfl⟩ := List.mem_map.mp hf
    obtain ⟨a, ha⟩ := FactorFits.means h fits hring (hfactors g hg)
    dsimp only
    rw [ringAt_eq h ha]
    exact ha
  have hproduct := monomialProduct_means h hmeans
  rwa [map_fst_withValues, map_snd_withValues] at hproduct

end

def ringOf (table : TypeTable) (ty : TypeId) (A : BitAlgebra) (look : V → Value) (v : V) : A.R :=
  ringAt table ty A (look v).asFactor

def PolyFold.ringValue (table : TypeTable) (ty : TypeId) (A : BitAlgebra) (look : V → Value)
    (st : PolyFold V) : A.R :=
  A.decode (constBits st.constant A.width) + sumAt (ringOf table ty A look) st.newCoeffs.iter

theorem ringValue_addConstant {st : PolyFold V} {bits : List Bool} (changed : Bool) :
    PolyFold.ringValue table ty A look
        { st with constant := constantXor st.constant (bitsToConstant bits), changed } =
      st.ringValue table ty A look + A.decode (constBits (bitsToConstant bits) A.width) := by
  unfold PolyFold.ringValue
  rw [constBits_constantXor, A.decode_xor _ _ (length_constBits _ _) (length_constBits _ _),
    add_right_comm]

variable [LinearOrder V]

def PolyFold.Over (st : PolyFold V) (coeffs : Common.PolyCoeffs V) : Prop :=
  IsMap st.newCoeffs ∧ ∀ v, Occurs st.newCoeffs v → Occurs coeffs v

variable (table ty look) in
theorem PolyFold.Over.entryXor {st : PolyFold V} (hst : st.Over coeffs) (key : List V)
    (hkey : ∀ v ∈ key, Occurs coeffs v) (coeff : U8) (changed : Bool) :
    PolyFold.Over
        { st with newCoeffs := st.newCoeffs.entryOrInsert key 0 (· ^^^ coeff), changed } coeffs ∧
      PolyFold.ringValue table ty A look
          { st with newCoeffs := st.newCoeffs.entryOrInsert key 0 (· ^^^ coeff), changed } =
        st.ringValue table ty A look + monomialAt (ringOf table ty A look) key coeff := by
  have hentry := hst.1.entryXor (y := ringOf table ty A look) (two_eq_zero A) key coeff
  refine ⟨⟨hentry.1, ?_⟩, ?_⟩
  · rintro v ⟨e, he, hv⟩
    rcases hentry.2.1 e he with hnew | hold
    · exact hkey v (hnew ▸ hv)
    · obtain ⟨e', he', hkeyEq⟩ := List.mem_map.mp hold
      exact hst.2 v ⟨e', he', hkeyEq.symm ▸ hv⟩
  · unfold PolyFold.ringValue
    rw [hentry.2.2, add_assoc]

section
variable (hprime : table.containsPrimeField ty = false)
  (hlisted : Listed table ty constMap typeMap coeffs)
  (hagrees : Consistent table constMap typeMap look)
  (hfits : ∀ v, Occurs coeffs v → ValueFits table ty (look v))
include h fits hring hprime hlisted hagrees hfits

/-- One term: the value takes in the monomial, and what an identity loses. -/
theorem foldExtensionTerm_value {st : PolyFold V} (hst : st.Over coeffs) {term : List V × U8}
    (hterm : ∀ v ∈ term.1, Occurs coeffs v) :
    ∃ next, foldExtensionTerm table constMap typeMap ty A.width st term = some next ∧
      next.Over coeffs ∧ next.ringValue table ty A look =
        st.ringValue table ty A look + monomialAt (ringOf table ty A look) term.1 term.2 +
          if lostIdentity table constMap typeMap term then identityLoss A else 0 := by
  obtain ⟨key, coeff⟩ := term
  have hmono : monomialAt (ringOf table ty A look) key coeff =
      if odd coeff then (key.map (ringOf table ty A look)).prod else 0 := by
    rw [monomialAt, cast_toNat_of_two (two_eq_zero A), ite_mul, one_mul, zero_mul]
  have hreading := (valuation_ringAt h fits hring hprime).toReading
  have hspec := simplifyFactors_reading hreading hring hlisted
    (fun v fty => widths_of_ring h fits hring hlisted) hagrees hterm
  unfold foldExtensionTerm lostIdentity
  dsimp only
  cases hodd : odd coeff with
  | false =>
      refine ⟨_, rfl, hst, ?_⟩
      rw [hmono, hodd]
      simp [PolyFold.ringValue]
  | true =>
      rw [hodd, if_pos rfl] at hmono
      simp only [Bool.not_true, Bool.false_eq_true, if_false, Bool.true_and]
      cases hsimplify : simplifyFactors table constMap typeMap key with
      | none =>
          rw [hsimplify] at hspec
          have hprod : (key.map (ringOf table ty A look)).prod = 0 := hspec
          refine ⟨_, rfl, hst, ?_⟩
          rw [hmono, hprod]
          simp [PolyFold.ringValue]
      | some s =>
          rw [hsimplify] at hspec
          obtain ⟨hsame, hsub, hfactors, hempty⟩ := hspec
          have hprod : (key.map (ringOf table ty A look)).prod =
              (s.newKey.map (ringOf table ty A look)).prod := hsame
          have hnewKey : ∀ v ∈ s.newKey, Occurs coeffs v := fun v hv => hterm v (hsub.subset hv)
          rw [hmono, hprod]
          simp only [Option.any_some]
          by_cases hall : (s.allConstant && decide (A.width ≤ 256)) = true
          · rw [if_pos hall]
            rw [Bool.and_eq_true, decide_eq_true_iff] at hall
            have hknown : ∀ f ∈ s.constFactors, FactorFits table ty f := by
              intro f hf
              rw [hfactors hall.1] at hf
              obtain ⟨v, hv, rfl⟩ := List.mem_map.mp hf
              exact (hfits v (hnewKey v hv)).fits
            obtain ⟨product, hproduct, hlen, hdecode⟩ :=
              monomialProduct_ringAt h fits hring hknown
            refine ⟨{ st with
              constant := constantXor st.constant (bitsToConstant product)
              changed := true }, by rw [hproduct]; rfl, hst, ?_⟩
            have hloss : identityLoss A = 0 := by
              rw [identityLoss_eq_zero_iff]
              intro k hk
              exact List.getD_eq_default _ _ (by rw [A.length_one]; omega)
            rw [ringValue_addConstant, constBits_bitsToConstant hlen hall.2, hdecode,
              hfactors hall.1, List.map_map, hloss, ite_self, add_zero]
            rfl
          · rw [if_neg hall, isEmpty_collapse]
            by_cases hnil : s.newKey.isEmpty = true
            · rw [if_pos hnil, if_pos hnil, h.mulIdentity_eq fits]
              rw [List.isEmpty_iff] at hnil
              refine ⟨_, rfl, hst, ?_⟩
              rw [ringValue_addConstant, hnil, List.map_nil, List.prod_nil, identityLoss,
                add_assoc, ← add_assoc 1, A.add_self, zero_add]
            · rw [if_neg hnil, if_neg hnil, add_zero]
              have hcollapse := prod_collapse (idempotentVar table typeMap) s.newKey
                (y := ringOf table ty A look) fun v hv =>
                  idempotentVar_reading hreading hagrees (hfits v (hnewKey v hv))
              have hentry := hst.entryXor (A := A) table ty look
                (collapse (idempotentVar table typeMap) s.newKey)
                    (fun v hv => hnewKey v (mem_collapse.mp hv)) coeff
                (st.changed || shortened key s.newKey
                  (collapse (idempotentVar table typeMap) s.newKey))
              refine ⟨_, rfl, hentry.1, ?_⟩
              rw [hentry.2, monomialAt, cast_toNat_of_two (two_eq_zero A), if_pos hodd, one_mul,
                hcollapse]

/-- The whole loop. -/
theorem foldExtensionTerms_value {st : PolyFold V} (hst : st.Over coeffs)
    {terms : List (List V × U8)} (hterms : ∀ t ∈ terms, ∀ v ∈ t.1, Occurs coeffs v) :
    ∃ next, terms.foldlM (foldExtensionTerm table constMap typeMap ty A.width) st = some next ∧
      next.Over coeffs ∧ next.ringValue table ty A look =
        st.ringValue table ty A look + sumAt (ringOf table ty A look) terms +
          terms.countP (lostIdentity table constMap typeMap) • identityLoss A := by
  induction terms generalizing st with
  | nil => exact ⟨st, rfl, hst, by simp⟩
  | cons t rest ih =>
      obtain ⟨mid, hmid, hmidOver, hmidValue⟩ := foldExtensionTerm_value h fits hring hprime
        hlisted hagrees hfits hst (hterms t List.mem_cons_self)
      obtain ⟨next, hnext, hover, hvalue⟩ :=
        ih hmidOver fun u hu => hterms u (List.mem_cons_of_mem t hu)
      refine ⟨next, ?_, hover, ?_⟩
      · rw [List.foldlM_cons, hmid]
        exact hnext
      · rw [hvalue, hmidValue, sumAt_cons, List.countP_cons, add_nsmul, monomialAt]
        split_ifs with hlost <;> simp only [one_nsmul, zero_nsmul] <;> ring

end

omit [LinearOrder V] in
include h fits hring in
theorem polyValue_ring (hprime : table.containsPrimeField ty = false)
    {coeffs : Common.PolyCoeffs V} (constant : Constant)
    (hfits : ∀ v, Occurs coeffs v → ValueFits table ty (look v)) :
    ∃ bits, polyValue table ty look coeffs constant = some bits ∧ bits.length = A.width ∧
      A.decode bits = A.decode (constBits constant A.width) +
        sumAt (ringOf table ty A look) coeffs.iter := by
  have hterms : ∀ t ∈ coeffs.iter.map fun e => (e.1.map look, e.2), ∀ v ∈ t.1,
      ValueFits table ty v := by
    intro t ht v hv
    obtain ⟨e, he, rfl⟩ := List.mem_map.mp ht
    obtain ⟨u, hu, rfl⟩ := List.mem_map.mp hv
    exact hfits u ⟨e, he, hu⟩
  obtain ⟨bits, hbits, hlen, hdecode⟩ := evalTypedPoly_spec h fits hring (c := constant) hterms
  refine ⟨bits, ?_, hlen, ?_⟩
  · rw [polyValue, evalTerms_ring hprime hring]
    exact hbits
  · rw [hdecode, sumAt_look]
    rfl

variable (table ty look) in
theorem ringValue_finish {st : PolyFold V} (hst : st.Over coeffs)
    (old : Common.PolyCoeffs V) :
    (∀ v, Occurs ((st.finish old odd).masked (some A.width)).newCoeffs v → Occurs coeffs v) ∧
      ((st.finish old odd).masked (some A.width)).ringValue table ty A look =
        st.ringValue table ty A look := by
  have hmask : ∀ st : PolyFold V, (st.masked (some A.width)).newCoeffs = st.newCoeffs ∧
      (st.masked (some A.width)).ringValue table ty A look = st.ringValue table ty A look := by
    intro st
    unfold PolyFold.masked
    dsimp only
    split_ifs
    · refine ⟨rfl, ?_⟩
      unfold PolyFold.ringValue
      rw [constBits_maskConstant]
    · exact ⟨rfl, rfl⟩
  have hiter : (st.finish old odd).newCoeffs.iter =
      st.newCoeffs.iter.filter fun e => odd e.2 := iter_retain st.newCoeffs odd
  rw [(hmask _).1, (hmask _).2]
  constructor
  · rintro v ⟨e, he, hv⟩
    rw [hiter] at he
    exact hst.2 v ⟨e, List.mem_of_mem_filter he, hv⟩
  · unfold PolyFold.ringValue
    rw [hiter, sumAt_filter]
    · rfl
    · intro coeff hodd
      rw [cast_toNat_of_two (two_eq_zero A), if_neg (by rw [hodd]; decide)]

theorem nsmul_identityLoss (n : ℕ) : n • identityLoss A = 0 ↔ Even n ∨ identityLoss A = 0 := by
  constructor
  · intro hzero
    by_cases heven : Even n
    · exact .inl heven
    · right
      obtain ⟨m, rfl⟩ := Nat.not_even_iff_odd.mp heven
      have hpairs : (2 * m) • identityLoss A = 0 := by
        rw [two_mul, add_nsmul, A.add_self]
      rwa [add_nsmul, hpairs, zero_add, one_nsmul] at hzero
  · rintro (⟨m, rfl⟩ | hzero)
    · rw [add_nsmul, A.add_self]
    · rw [hzero, nsmul_zero]

include h fits hring in
/-- The fold of an extension-field polynomial succeeds, and it keeps the value exactly when no
identity is cut oddly often. -/
theorem foldExtensionPoly_keeps_iff (hprime : table.containsPrimeField ty = false)
    (hlisted : Listed table ty constMap typeMap coeffs) (constant : Constant) :
    (∃ folded, foldExtensionPoly table constMap typeMap ty coeffs constant = some folded ∧
      ∀ look, Consistent table constMap typeMap look →
        (∀ v, Occurs coeffs v → ValueFits table ty (look v)) →
        polyValue table ty look folded.newCoeffs folded.constant =
          polyValue table ty look coeffs constant) ↔
      IdentitySurvives table constMap typeMap ty coeffs := by
  have hstart : PolyFold.Over (⟨.new, constant, false⟩ : PolyFold V) coeffs := by
    refine ⟨isMap_new, ?_⟩
    rintro v ⟨e, he, _⟩
    cases he
  have hiter : ∀ t ∈ coeffs.iter, ∀ v ∈ t.1, Occurs coeffs v := fun t ht v hv => ⟨t, ht, hv⟩
  have hsurvives : IdentitySurvives table constMap typeMap ty coeffs ↔
      coeffs.iter.countP (lostIdentity table constMap typeMap) • identityLoss A = 0 := by
    rw [nsmul_identityLoss, identityLoss_eq_zero_iff, IdentitySurvives, h.mulIdentity_eq fits,
      or_comm]
    simp
  -- what the fold ends with does not depend on the assignment
  have hfold : ∀ look, Consistent table constMap typeMap look →
      (∀ v, Occurs coeffs v → ValueFits table ty (look v)) →
      ∃ folded, foldExtensionPoly table constMap typeMap ty coeffs constant = some folded ∧
        (polyValue table ty look folded.newCoeffs folded.constant =
          polyValue table ty look coeffs constant ↔
          IdentitySurvives table constMap typeMap ty coeffs) := by
    intro look hagrees hfits
    obtain ⟨st, hst, hover, hvalue⟩ := foldExtensionTerms_value h fits hring hprime hlisted
      hagrees hfits hstart hiter
    have hfinish := ringValue_finish (A := A) table ty look hover coeffs
    refine ⟨(st.finish coeffs odd).masked (some A.width), ?_, ?_⟩
    · rw [foldExtensionPoly, h.valueBitWidth_eq fits]
      simp only [hst, Option.bind_eq_bind, Option.bind_some]
    · obtain ⟨new, hnew, hnewLen, hnewValue⟩ := polyValue_ring h fits hring hprime
        ((st.finish coeffs odd).masked (some A.width)).constant
        fun v hv => hfits v (hfinish.1 v hv)
      obtain ⟨old, hold, holdLen, holdValue⟩ := polyValue_ring h fits hring hprime constant hfits
      have hnewRing : A.decode new = st.ringValue table ty A look :=
        hnewValue.trans hfinish.2
      have hzero : PolyFold.ringValue table ty A look (⟨.new, constant, false⟩ : PolyFold V) +
          sumAt (ringOf table ty A look) coeffs.iter = A.decode old := by
        rw [holdValue]
        simp [PolyFold.ringValue, PolyCoeffs.new, PolyCoeffs.iter]
      rw [hnew, hold, Option.some.injEq, hsurvives]
      rw [hzero] at hvalue
      constructor
      · rintro rfl
        rw [hnewRing] at hvalue
        exact left_eq_add.mp hvalue
      · intro hloss
        apply A.decode_inj new old hnewLen holdLen
        rw [hnewRing, hvalue, hloss, add_zero]
  constructor
  · rintro ⟨folded, hfolded, hkeeps⟩
    have hagrees : Consistent table constMap typeMap
        (spread table ty constMap typeMap fun _ => false) := agrees_spread _
    have hfits := fun v hv => fits_spread hlisted (fun _ => false) (v := v) hv
    obtain ⟨folded', hfolded', hiff⟩ := hfold _ hagrees hfits
    cases hfolded.symm.trans hfolded'
    exact hiff.mp (hkeeps _ hagrees hfits)
  · intro hsurvive
    obtain ⟨folded, hfolded, _⟩ := hfold _ (agrees_spread fun _ => false)
      fun v hv => fits_spread hlisted (fun _ => false) hv
    refine ⟨folded, hfolded, ?_⟩
    intro look hagrees hfits
    obtain ⟨folded', hfolded', hiff⟩ := hfold look hagrees hfits
    cases hfolded.symm.trans hfolded'
    exact hiff.mpr hsurvive

end

end VolarIR.Opt
