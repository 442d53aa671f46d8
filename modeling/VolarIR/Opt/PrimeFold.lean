import VolarIR.Opt.RingFold

/-!
# Folding a polynomial over prime fields

Repetition counts are added and reduced modulo the prime that all lanes share, constants are
added with the arithmetic of the type. The fold keeps the value at every width.
-/
namespace VolarIR.Opt
open Ir Common

section
variable {table : TypeTable}

/-- A search that finds one value finds it of every element, as it compares each with what it
found before. -/
theorem foldlM_found {α β : Type} {own : α → Option β} {step : Option β → α → Option (Option β)}
    (hstep : ∀ found a next, step found a = some next →
      ∃ b, own a = some b ∧ next = some b ∧ ∀ prev, found = some prev → prev = b)
    {l : List α} {found : Option β} {b : β} (h : l.foldlM step found = some (some b)) :
    (∀ a ∈ l, own a = some b) ∧ ∀ prev, found = some prev → prev = b := by
  induction l generalizing found with
  | nil =>
      cases h
      exact ⟨List.forall_mem_nil _, fun prev hprev => (Option.some.inj hprev).symm⟩
  | cons a l ih =>
      rw [List.foldlM_cons] at h
      obtain ⟨next, hnext, h⟩ := Option.bind_eq_some_iff.mp h
      obtain ⟨c, hc, rfl, hfound⟩ := hstep found a next hnext
      obtain ⟨hrest, hprev⟩ := ih h
      have hsame : c = b := hprev c rfl
      subst hsame
      exact ⟨List.forall_mem_cons.mpr ⟨hc, hrest⟩, hfound⟩

theorem uniformPrimeSpecFrom_spec {fuel : ℕ} {ty : TypeId} {spec : PrimeSpec}
    (h : PrimeTypeFrom table fuel ty) (hspec : uniformPrimeSpecFrom table fuel ty = some spec) :
    Canonical spec.k spec.offset ∧ ∀ p ∈ moduliFrom table fuel ty, p = spec.modulus := by
  induction fuel generalizing ty with
  | zero => exact h.elim
  | succ fuel ih =>
      rw [uniformPrimeSpecFrom] at hspec
      rw [moduliFrom]
      rcases h.cases with ⟨n, elem, get, h⟩ | ⟨parts, get, hne, h⟩ | ⟨k, n, get, h⟩
      · rw [get] at hspec ⊢
        exact ih h.2 hspec
      · rw [get] at hspec ⊢
        obtain ⟨found, hfold, hfound⟩ := Option.bind_eq_some_iff.mp hspec
        obtain rfl : found = some spec := hfound
        have hparts : ∀ part ∈ parts, uniformPrimeSpecFrom table fuel part = some spec := by
          refine (foldlM_found ?_ hfold).1
          intro found part next hnext
          obtain ⟨own, hown, hnext⟩ := Option.bind_eq_some_iff.mp hnext
          cases found with
          | none =>
              cases hnext
              exact ⟨own, hown, rfl, by simp⟩
          | some prev =>
              dsimp only at hnext
              split_ifs at hnext with hsame
              cases hnext
              rw [not_ne_iff] at hsame
              refine ⟨own, hown, by rw [hsame], fun p hp => ?_⟩
              rw [← Option.some.inj hp, hsame]
        constructor
        · obtain ⟨part, hpart⟩ := List.exists_mem_of_ne_nil parts hne
          exact (ih (h part hpart).2 (hparts part hpart)).1
        · intro p hp
          obtain ⟨part, hpart, hp⟩ := List.mem_flatMap.mp hp
          exact (ih (h part hpart).2 (hparts part hpart)).2 p hp
      · rw [get] at hspec ⊢
        obtain rfl := Option.some.inj hspec
        exact ⟨h, fun p hp => List.mem_singleton.mp hp⟩

theorem exists_mem_moduliFrom {fuel : ℕ} {ty : TypeId} (h : PrimeTypeFrom table fuel ty) :
    ∃ p, p ∈ moduliFrom table fuel ty := by
  induction fuel generalizing ty with
  | zero => exact h.elim
  | succ fuel ih =>
      rw [moduliFrom]
      rcases h.cases with ⟨n, elem, get, h⟩ | ⟨parts, get, hne, h⟩ | ⟨k, n, get, h⟩
      · rw [get]
        exact ih h.2
      · rw [get]
        obtain ⟨part, hpart⟩ := List.exists_mem_of_ne_nil parts hne
        obtain ⟨p, hp⟩ := ih (h part hpart).2
        exact ⟨p, List.mem_flatMap.mpr ⟨part, hpart, hp⟩⟩
      · rw [get]
        exact ⟨_, List.mem_singleton_self _⟩

theorem exists_mem_moduli {ty : TypeId} (h : PrimeType table ty) : ∃ p, p ∈ moduli table ty :=
  exists_mem_moduliFrom h

/-- `R` has the characteristic of one of the moduli of the type. -/
theorem exists_modulus {ty : TypeId} (hty : table.containsPrimeField ty = true) {R : Type}
    [CommRing R] (hchar : CharOf table ty R) : ∃ p ∈ moduli table ty, (p : R) = 0 := by
  unfold CharOf at hchar
  rwa [if_pos hty] at hchar

variable {ty : TypeId} (h : PrimeType table ty) {R : Type} [CommRing R]
  (hchar : CharOf table ty R)
include h hchar

theorem cast_mod_modulus {spec : PrimeSpec} (hspec : uniformPrimeSpec table ty = some spec)
    (n : ℕ) : ((n % spec.modulus : ℕ) : R) = n := by
  obtain ⟨p, hp, hzero⟩ := exists_modulus (h.containsPrimeField le_rfl) hchar
  have hmodulus := (uniformPrimeSpecFrom_spec h hspec).2 p hp
  rw [hmodulus] at hzero
  have hsplit : ((n % spec.modulus + spec.modulus * (n / spec.modulus) : ℕ) : R) = n := by
    rw [Nat.mod_add_div]
  rw [← hsplit, Nat.cast_add, Nat.cast_mul, hzero, zero_mul, add_zero]

theorem cast_storedCount (coeff : U8) :
    ((storedCount (uniformPrimeSpec table ty) coeff).toNat : R) = coeff.toNat := by
  cases hspec : uniformPrimeSpec table ty with
  | none => rfl
  | some spec =>
      have hle : repetitionResidue coeff spec ≤ coeff.toNat := by
        unfold repetitionResidue
        split_ifs
        · exact le_rfl
        · exact Nat.mod_le _ _
      have hlt := coeff.isLt
      have hmod := repetitionResidue_modEq (uniformPrimeSpecFrom_spec h hspec).1 coeff
      rw [storedCount, BitVec.toNat_ofNat, Nat.mod_eq_of_lt (by omega),
        ← cast_mod_modulus h hchar hspec, hmod, cast_mod_modulus h hchar hspec]

theorem cast_mergeRepetition {prev add sum : U8}
    (hmerge : mergeRepetition prev add (uniformPrimeSpec table ty) = some sum) :
    (sum.toNat : R) = prev.toNat + add.toNat := by
  have hchecked : (if prev.toNat + add.toNat > 255 then none else some (prev + add)) = some sum →
      (sum.toNat : R) = prev.toNat + add.toNat := by
    intro hsum
    split_ifs at hsum with hfits
    cases hsum
    rw [BitVec.toNat_add, Nat.mod_eq_of_lt (by omega), Nat.cast_add]
  cases hspec : uniformPrimeSpec table ty with
  | none =>
      rw [hspec] at hmerge
      exact hchecked hmerge
  | some spec =>
      rw [hspec] at hmerge
      unfold mergeRepetition at hmerge
      dsimp only at hmerge
      by_cases hk : spec.k ≤ 8
      · rw [if_pos hk] at hmerge
        have hcanonical := (uniformPrimeSpecFrom_spec h hspec).1
        rw [head_offset hcanonical (by omega)] at hmerge
        cases hmerge
        have hpos : 0 < spec.modulus := by
          have htwo := two_mul_offset_lt hcanonical
          unfold PrimeSpec.modulus
          omega
        have hlt : (prev.toNat + add.toNat) % spec.modulus < 256 := by
          have hpow : 2 ^ spec.k ≤ 2 ^ 8 := Nat.pow_le_pow_right (by decide) hk
          have hmod := Nat.mod_lt (prev.toNat + add.toNat) hpos
          have hle : spec.modulus ≤ 2 ^ spec.k := Nat.sub_le _ _
          omega
        have hcast := cast_mod_modulus h hchar hspec (prev.toNat + add.toNat)
        rw [BitVec.toNat_ofNat]
        change (((prev.toNat + add.toNat) % spec.modulus % 2 ^ 8 : ℕ) : R) = _
        rw [Nat.mod_eq_of_lt hlt, hcast, Nat.cast_add]
      · rw [if_neg hk] at hmerge
        exact hchecked hmerge

end

section
variable {table : TypeTable} {ty : TypeId} {V : Type} {constMap : V → Option Constant}
  {typeMap : V → Option TypeId} {look : V → Value} {coeffs : Common.PolyCoeffs V}

def factorsOf (look : V → Value) (terms : List (List V × U8)) : List (Term Bool) :=
  terms.map fun e => (e.1.map fun v => (look v).asFactor, e.2)

def primeValue (table : TypeTable) (ty : TypeId) (w : ℕ) (look : V → Value) (c : Constant)
    (terms : List (List V × U8)) : Option (List Bool) :=
  evalPrimePoly boolRing table ty (constBits c w) (factorsOf look terms)

theorem sumAt_factorsOf {R : Type} [CommRing R] (x : Factor Bool → R)
    (terms : List (List V × U8)) :
    sumAt x (factorsOf look terms) = sumAt (fun v => x (look v).asFactor) terms := by
  rw [factorsOf, sumAt_map]
  rfl

def OverTerms (coeffs : Common.PolyCoeffs V) (terms : List (List V × U8)) : Prop :=
  ∀ t ∈ terms, ∀ v ∈ t.1, Occurs coeffs v

theorem OverTerms.cons {term : List V × U8} {terms : List (List V × U8)}
    (h : OverTerms coeffs terms) (hterm : ∀ v ∈ term.1, Occurs coeffs v) :
    OverTerms coeffs (term :: terms) :=
  List.forall_mem_cons.mpr ⟨hterm, h⟩

theorem OverTerms.append {terms terms' : List (List V × U8)} (h : OverTerms coeffs terms)
    (h' : OverTerms coeffs terms') : OverTerms coeffs (terms ++ terms') := by
  intro t ht
  rcases List.mem_append.mp ht with ht | ht
  · exact h t ht
  · exact h' t ht

section
variable (h : PrimeType table ty) (hfits : ∀ v, Occurs coeffs v → ValueFits table ty (look v))
include hfits

theorem forall_factorsOf {terms : List (List V × U8)} (hterms : OverTerms coeffs terms) :
    ∀ t ∈ factorsOf look terms, ∀ f ∈ t.1, FactorFits table ty f := by
  intro t ht f hf
  obtain ⟨e, he, rfl⟩ := List.mem_map.mp ht
  obtain ⟨v, hv, rfl⟩ := List.mem_map.mp hf
  exact (hfits v (hterms e he v hv)).fits

include h

/-- Sums that every valuation agrees on have one value. -/
theorem primeValue_congr {w : ℕ} {c : Constant} {terms terms' : List (List V × U8)}
    (hterms : OverTerms coeffs terms) (hterms' : OverTerms coeffs terms')
    (hsums : ∀ (R : Type) [CommRing R] (x : Factor Bool → R), Valuation table ty x →
      sumAt (fun v => x (look v).asFactor) terms = sumAt (fun v => x (look v).asFactor) terms') :
    primeValue table ty w look c terms = primeValue table ty w look c terms' := by
  apply evalPrimePolyFrom_congr h le_rfl (forall_factorsOf hfits hterms)
    (forall_factorsOf hfits hterms')
  intro R _ x hx
  rw [sumAt_factorsOf, sumAt_factorsOf]
  exact hsums R x hx

/-- Terms that are added to a constant of no more than 256 bits can be packed into it. -/
theorem primeValue_absorb {w : ℕ} (hw : table.valueBitWidth ty = some w) (hle : w ≤ 256)
    (c : Constant) {first : List (Term Bool)}
    (hfirst : ∀ t ∈ first, ∀ f ∈ t.1, FactorFits table ty f) :
    ∃ reduced, evalPrimePoly boolRing table ty (constBits c w) first = some reduced ∧
      ∀ terms, OverTerms coeffs terms →
        primeValue table ty w look (bitsToConstant reduced) terms =
          evalPrimePoly boolRing table ty (constBits c w) (first ++ factorsOf look terms) := by
  obtain ⟨reduced, hreduced, hlen⟩ :=
    evalPrimePolyFrom_isSome h le_rfl hw (c := constBits c w) hfirst
  refine ⟨reduced, hreduced, ?_⟩
  intro terms hterms
  rw [primeValue, constBits_bitsToConstant hlen hle]
  exact evalPrimePolyFrom_append h le_rfl hw (length_constBits c w) hfirst
    (forall_factorsOf hfits hterms) hreduced

theorem primeValue_reduce {w : ℕ} (hw : table.valueBitWidth ty = some w) (hle : w ≤ 256)
    (c : Constant) :
    ∃ reduced, evalPrimePoly boolRing table ty (constBits c w) [] = some reduced ∧
      ∀ terms, OverTerms coeffs terms →
        primeValue table ty w look (bitsToConstant reduced) terms =
          primeValue table ty w look c terms :=
  primeValue_absorb h hfits hw hle c nofun

/-- A monomial with its count is packed. -/
theorem primeValue_addTerm {w : ℕ} (hw : table.valueBitWidth ty = some w) (hle : w ≤ 256)
    (c : Constant) {key : List V} (hkey : ∀ v ∈ key, Occurs coeffs v) (count : U8) :
    ∃ reduced, evalPrimePoly boolRing table ty (constBits c w)
        [(key.map fun v => (look v).asFactor, count)] = some reduced ∧
      ∀ terms, OverTerms coeffs terms →
        primeValue table ty w look (bitsToConstant reduced) terms =
          primeValue table ty w look c ((key, count) :: terms) := by
  apply primeValue_absorb h hfits hw hle c
  intro t ht f hf
  obtain rfl := List.mem_singleton.mp ht
  obtain ⟨v, hv, rfl⟩ := List.mem_map.mp hf
  exact (hfits v (hkey v hv)).fits

end

theorem reading_trivial (table : TypeTable) (ty : TypeId) :
    Reading table ty (fun _ => (0 : ZMod 1)) where
  zero _ _ := rfl
  one _ _ _ _ _ := Subsingleton.elim _ _
  idem _ _ _ := Subsingleton.elim _ _
  congr _ _ _ _ _ _ := rfl

theorem charOf_trivial (h : PrimeType table ty) : CharOf table ty (ZMod 1) := by
  unfold CharOf
  rw [if_pos (h.containsPrimeField le_rfl)]
  obtain ⟨p, hp⟩ := exists_mem_moduli h
  exact ⟨p, hp, Subsingleton.elim _ _⟩

theorem widths_of_prime (h : PrimeType table ty) {w : ℕ} (hw : table.valueBitWidth ty = some w)
    (hlisted : Listed table ty constMap typeMap coeffs) {v : V} {fty : TypeId}
    (hv : Occurs coeffs v) (hty : typeMap v = some fty) :
    table.valueBitWidth fty = some (table.bitWidth fty) := by
  have hring := mulIsIdempotent_of_prime (h.containsPrimeField le_rfl)
  have hsome : (table.valueBitWidth fty).isSome = true := by
    cases hlisted.accepted v fty hv hty with
    | own same =>
        rw [valueBitWidth_congr (TypeTable.get_of_sameType same), hw]
        rfl
    | gate bit => exact hlisted.sized v fty hv hty (mulIsIdempotent_of_isBit bit)
    | constant get same =>
        unfold PrimeType at h
        obtain ⟨fuel, hfuel⟩ := TypeTable.exists_length get
        rw [hfuel] at h
        rcases h.cases with ⟨n, elem, get', _⟩ | ⟨parts, get', _⟩ | ⟨k, n, get', _⟩ <;>
          simp [get] at get'
    | broadcast _ get same =>
        obtain ⟨lane, hlane, _⟩ := valueBitWidth_vec get hw
        rw [valueBitWidth_congr (TypeTable.get_of_sameType same), hlane]
        rfl
    | parts _ get same =>
        unfold PrimeType at h
        obtain ⟨fuel, hfuel⟩ := TypeTable.exists_length get
        rw [hfuel] at h
        rcases h.cases with ⟨n, elem, get', _⟩ | ⟨parts, get', hne, hparts⟩ | ⟨k, n, get', _⟩
        · simp [get] at get'
        · rw [get] at get'
          cases get'
          obtain ⟨part, hpart⟩ := List.exists_mem_of_ne_nil _ hne
          rw [valueBitWidth_congr (TypeTable.get_of_sameType (same part hpart))]
          exact (hparts part hpart).1
        · simp [get] at get'
    | wide idem => exact absurd idem (by rw [hring]; decide)
  obtain ⟨v, hv⟩ := Option.isSome_iff_exists.mp hsome
  rw [hv, bitWidth_eq_of_valueBitWidth hv]

variable [LinearOrder V]

theorem PolyFold.Over.ofKeys {st : PolyFold V} (hst : st.Over coeffs) {new : Common.PolyCoeffs V}
    (hmap : IsMap new) {key : List V} (hkey : ∀ v ∈ key, Occurs coeffs v)
    (hkeys : ∀ e ∈ new.iter, e.1 = key ∨ e.1 ∈ st.newCoeffs.keys) (constant : Constant)
    (changed : Bool) : PolyFold.Over ⟨new, constant, changed⟩ coeffs := by
  refine ⟨hmap, ?_⟩
  rintro v ⟨e, he, hv⟩
  rcases hkeys e he with hnew | hold
  · exact hkey v (hnew ▸ hv)
  · obtain ⟨e', he', hkeyEq⟩ := List.mem_map.mp hold
    exact hst.2 v ⟨e', he', hkeyEq.symm ▸ hv⟩

theorem PolyFold.Over.terms {st : PolyFold V} (hst : st.Over coeffs) :
    OverTerms coeffs st.newCoeffs.iter := fun t ht v hv => hst.2 v ⟨t, ht, hv⟩

section
variable (h : PrimeType table ty) {w : ℕ}
  (hfits : ∀ v, Occurs coeffs v → ValueFits table ty (look v))
include h hfits

omit [LinearOrder V] in
/-- The value takes in a monomial when the coefficients change so that every valuation does. -/
theorem primeValue_takes {new old : Common.PolyCoeffs V} {constant : Constant} {key : List V}
    {coeff : U8} (hkey : ∀ v ∈ key, Occurs coeffs v) (hnew : OverTerms coeffs new.iter)
    (hold : OverTerms coeffs old.iter)
    (hsum : ∀ (R : Type) [CommRing R] (x : Factor Bool → R), Valuation table ty x →
      sumAt (fun v => x (look v).asFactor) new.iter =
        sumAt (fun v => x (look v).asFactor) old.iter +
          monomialAt (fun v => x (look v).asFactor) key coeff)
    (rest : List (List V × U8)) (hrest : OverTerms coeffs rest) :
    primeValue table ty w look constant (new.iter ++ rest) =
      primeValue table ty w look constant (old.iter ++ (key, coeff) :: rest) := by
  apply primeValue_congr h hfits (hnew.append hrest) (hold.append (hrest.cons hkey))
  intro R _ x hx
  rw [sumAt_append, sumAt_append, sumAt_cons, hsum R x hx, monomialAt, add_assoc]

/-- What stays of a monomial is entered with the count it is to have. -/
theorem primeValue_enters {st : PolyFold V} (hst : st.Over coeffs) {new : Common.PolyCoeffs V}
    {key deduped : List V} {coeff stored : U8} (hkey : ∀ v ∈ key, Occurs coeffs v)
    (hdeduped : ∀ v ∈ deduped, Occurs coeffs v)
    (hmono : ∀ (R : Type) [CommRing R] (x : Factor Bool → R), Valuation table ty x →
      monomialAt (fun v => x (look v).asFactor) deduped stored =
        monomialAt (fun v => x (look v).asFactor) key coeff)
    (henters : ∀ (R : Type) [CommRing R], CharOf table ty R → ∀ x : Factor Bool → R,
      IsMap new ∧ (∀ e ∈ new.iter, e.1 = deduped ∨ e.1 ∈ st.newCoeffs.keys) ∧
        sumAt (fun v => x (look v).asFactor) new.iter =
          sumAt (fun v => x (look v).asFactor) st.newCoeffs.iter +
            monomialAt (fun v => x (look v).asFactor) deduped stored) (changed : Bool) :
    PolyFold.Over ⟨new, st.constant, changed⟩ coeffs ∧ ∀ rest, OverTerms coeffs rest →
      primeValue table ty w look st.constant (new.iter ++ rest) =
        primeValue table ty w look st.constant (st.newCoeffs.iter ++ (key, coeff) :: rest) := by
  obtain ⟨hmap, hkeys, -⟩ := henters (ZMod 1) (charOf_trivial h) fun _ => 0
  have hnext := hst.ofKeys hmap hdeduped hkeys st.constant changed
  refine ⟨hnext, primeValue_takes h hfits hkey hnext.terms hst.terms ?_⟩
  intro R _ x hx
  rw [(henters R hx.char x).2.2, hmono R x hx]

end

section
variable (h : PrimeType table ty) {w : ℕ} (hw : table.valueBitWidth ty = some w)
  (hlisted : Listed table ty constMap typeMap coeffs)
  (hagrees : Consistent table constMap typeMap look)
  (hfits : ∀ v, Occurs coeffs v → ValueFits table ty (look v))
include h hw hlisted hagrees hfits

/-- One term: unless the counts overflow, the value takes in the monomial. -/
theorem foldPrimeTerm_value {st : PolyFold V} (hst : st.Over coeffs) (overflow : Bool)
    {term : List V × U8} (hterm : ∀ v ∈ term.1, Occurs coeffs v) :
    ∃ next overflow', foldPrimeTerm table constMap typeMap ty w (uniformPrimeSpec table ty)
        (st, overflow) term = some (next, overflow') ∧ next.Over coeffs ∧
      (overflow' = false → overflow = false ∧ ∀ rest, OverTerms coeffs rest →
        primeValue table ty w look next.constant (next.newCoeffs.iter ++ rest) =
          primeValue table ty w look st.constant (st.newCoeffs.iter ++ term :: rest)) := by
  obtain ⟨key, coeff⟩ := term
  have hring := mulIsIdempotent_of_prime (h.containsPrimeField le_rfl)
  have hspec := fun (R : Type) [CommRing R] (x : Factor Bool → R) (hx : Valuation table ty x) =>
    simplifyFactors_reading hx.toReading hring hlisted
      (fun v fty => widths_of_prime h hw hlisted) hagrees hterm
  -- a monomial that is zero under every valuation is left out
  have hdrop : (∀ (R : Type) [CommRing R] (x : Factor Bool → R), Valuation table ty x →
      monomialAt (fun v => x (look v).asFactor) key coeff = 0) → ∀ rest, OverTerms coeffs rest →
        primeValue table ty w look st.constant (st.newCoeffs.iter ++ rest) =
          primeValue table ty w look st.constant (st.newCoeffs.iter ++ (key, coeff) :: rest) := by
    intro hnone
    apply primeValue_takes h hfits hterm hst.terms hst.terms
    intro R _ x hx
    rw [hnone R x hx, add_zero]
  unfold foldPrimeTerm
  dsimp only
  generalize hstored : storedCount (uniformPrimeSpec table ty) coeff = stored
  have hcast : ∀ (R : Type) [CommRing R], CharOf table ty R →
      (stored.toNat : R) = coeff.toNat := by
    intro R _ hchar
    rw [← hstored]
    exact cast_storedCount h hchar coeff
  by_cases hzero : stored = 0
  · rw [if_pos hzero]
    refine ⟨_, _, rfl, hst, fun ho => ⟨ho, hdrop ?_⟩⟩
    intro R _ x hx
    have hnone : (coeff.toNat : R) = 0 := by
      rw [← hcast R hx.char, hzero]
      exact Nat.cast_zero
    rw [monomialAt, hnone, zero_mul]
  rw [if_neg hzero]
  cases hsimplify : simplifyFactors table constMap typeMap key with
  | none =>
      rw [hsimplify] at hspec
      refine ⟨_, _, rfl, hst, fun ho => ⟨ho, hdrop ?_⟩⟩
      intro R _ x hx
      have hprod : (key.map fun v => x (look v).asFactor).prod = 0 := hspec R x hx
      rw [monomialAt, hprod, mul_zero]
  | some s =>
      rw [hsimplify] at hspec
      have hprod := fun (R : Type) [CommRing R] (x : Factor Bool → R)
        (hx : Valuation table ty x) => (hspec R x hx).1
      have hshape := simplifyFactors_reading (reading_trivial table ty) hring hlisted
        (fun v fty => widths_of_prime h hw hlisted) hagrees hterm
      rw [hsimplify] at hshape
      obtain ⟨_, hsub, hfactors, hempty⟩ := hshape
      have hnewKey : ∀ v ∈ s.newKey, Occurs coeffs v := fun v hv => hterm v (hsub.subset hv)
      dsimp only
      by_cases hall : (s.allConstant && decide (w ≤ 256)) = true
      · -- the monomial is a constant
        rw [if_pos hall]
        rw [Bool.and_eq_true, decide_eq_true_iff] at hall
        obtain ⟨reduced, hreduced, habsorb⟩ :=
          primeValue_addTerm h hfits hw hall.2 st.constant hnewKey stored
        rw [hfactors hall.1, hreduced]
        refine ⟨_, _, rfl, hst, fun ho => ⟨ho, ?_⟩⟩
        intro rest hrest
        have hall' := hst.terms.append hrest
        rw [habsorb _ hall']
        apply primeValue_congr h hfits (hall'.cons hnewKey) (hst.terms.append (hrest.cons hterm))
        intro R _ x hx
        rw [sumAt_cons, sumAt_append, sumAt_append, sumAt_cons, hcast R hx.char, hprod R x hx]
        ring
      rw [if_neg hall]
      have hnotEmpty : ((collapse (idempotentVar table typeMap) s.newKey).isEmpty &&
          decide (w ≤ 256)) = false := by
        rw [isEmpty_collapse, Bool.eq_false_iff]
        intro hboth
        apply hall
        rw [Bool.and_eq_true, List.isEmpty_iff] at hboth
        rw [Bool.and_eq_true]
        exact ⟨hempty hboth.1, hboth.2⟩
      rw [if_neg (by rw [hnotEmpty]; decide)]
      generalize hkey : collapse (idempotentVar table typeMap) s.newKey = deduped
      have hdeduped : ∀ v ∈ deduped, Occurs coeffs v := by
        intro v hv
        rw [← hkey] at hv
        exact hnewKey v (mem_collapse.mp hv)
      -- a monomial that is entered with what stays of it counts as the old one
      have hmono : ∀ (R : Type) [CommRing R] (x : Factor Bool → R), Valuation table ty x →
          monomialAt (fun v => x (look v).asFactor) deduped stored =
            monomialAt (fun v => x (look v).asFactor) key coeff := by
        intro R _ x hx
        have hcollapse := prod_collapse (idempotentVar table typeMap) s.newKey
          (y := fun v => x (look v).asFactor) fun v hv =>
            idempotentVar_reading hx.toReading hagrees (hfits v (hnewKey v hv))
        rw [monomialAt, monomialAt, hcast R hx.char, hprod R x hx, ← hkey, hcollapse]
      cases hget : st.newCoeffs.get deduped with
      | none =>
          have hnext := primeValue_enters (w := w) h hfits hst hterm hdeduped hmono
            (fun R _ _ x => hst.1.insert deduped stored stored
              (by rw [hget, Option.elim_none, zero_add]))
            (st.changed || shortened key s.newKey deduped)
          exact ⟨_, _, rfl, hnext.1, fun ho => ⟨ho, hnext.2⟩⟩
      | some prev =>
          dsimp only
          cases hmerge : mergeRepetition prev stored (uniformPrimeSpec table ty) with
          | none => exact ⟨_, _, rfl, hst, by simp⟩
          | some sum =>
              dsimp only
              by_cases hsum : sum = 0
              · have hremove := fun (R : Type) [CommRing R] (hchar : CharOf table ty R)
                    (x : Factor Bool → R) =>
                  hst.1.remove (R := R) (y := fun v => x (look v).asFactor) deduped stored (by
                    have hcount := cast_mergeRepetition h hchar hmerge
                    rw [hget, Option.elim_some, ← hcount, hsum]
                    exact Nat.cast_zero.symm)
                have hnext := primeValue_enters (w := w) h hfits hst hterm hdeduped hmono
                  (fun R _ hchar x => ⟨(hremove R hchar x).1,
                    fun e he => .inr ((hremove R hchar x).2.1 e he), (hremove R hchar x).2.2⟩) true
                rw [if_pos hsum]
                exact ⟨_, _, rfl, hnext.1, fun ho => ⟨ho, hnext.2⟩⟩
              · have hnext := primeValue_enters (w := w) h hfits hst hterm hdeduped hmono
                  (fun R _ hchar x => hst.1.insert deduped sum stored (by
                    rw [hget, Option.elim_some]
                    exact cast_mergeRepetition h hchar hmerge)) true
                rw [if_neg hsum]
                exact ⟨_, _, rfl, hnext.1, fun ho => ⟨ho, hnext.2⟩⟩

/-- The whole loop. -/
theorem foldPrimeTerms_value {st : PolyFold V} (hst : st.Over coeffs) (overflow : Bool)
    {terms : List (List V × U8)} (hterms : OverTerms coeffs terms) :
    ∃ next overflow', terms.foldlM (foldPrimeTerm table constMap typeMap ty w
        (uniformPrimeSpec table ty)) (st, overflow) = some (next, overflow') ∧
      next.Over coeffs ∧ (overflow' = false → overflow = false ∧
        primeValue table ty w look next.constant next.newCoeffs.iter =
          primeValue table ty w look st.constant (st.newCoeffs.iter ++ terms)) := by
  induction terms generalizing st overflow with
  | nil =>
      refine ⟨st, overflow, rfl, hst, fun ho => ⟨ho, ?_⟩⟩
      rw [List.append_nil]
  | cons t rest ih =>
      have hrest : OverTerms coeffs rest := fun u hu => hterms u (List.mem_cons_of_mem t hu)
      obtain ⟨mid, overflow₁, hmid, hmidOver, hmidValue⟩ := foldPrimeTerm_value h hw hlisted
        hagrees hfits hst overflow (hterms t List.mem_cons_self)
      obtain ⟨next, overflow', hnext, hover, hvalue⟩ := ih hmidOver overflow₁ hrest
      refine ⟨next, overflow', ?_, hover, ?_⟩
      · rw [List.foldlM_cons, hmid]
        exact hnext
      · intro ho
        have htail := hvalue ho
        have hhead := hmidValue htail.1
        exact ⟨hhead.1, htail.2.trans (hhead.2 rest hrest)⟩

theorem foldPrimePoly_keeps (constant : Constant) :
    ∃ folded, foldPrimePoly table constMap typeMap ty coeffs constant = some folded ∧
      polyValue table ty look folded.newCoeffs folded.constant =
        polyValue table ty look coeffs constant := by
  have hwidth := bitWidth_eq_of_valueBitWidth hw
  have hvalue : ∀ (c : Common.PolyCoeffs V) (k : Constant), (∀ v, Occurs c v → Occurs coeffs v) →
      polyValue table ty look c k = primeValue table ty w look k c.iter := by
    intro c k hover
    rw [polyValue, evalTerms_prime (h.containsPrimeField le_rfl), hwidth, primeValue]
    · rw [factorTerms, List.map_map, factorsOf]
      simp only [Function.comp_def, List.map_map]
    · intro t ht v hv
      obtain ⟨e, he, rfl⟩ := List.mem_map.mp ht
      obtain ⟨u, hu, rfl⟩ := List.mem_map.mp hv
      exact hfits u (hover u ⟨e, he, hu⟩)
  have hstart : PolyFold.Over (⟨.new, constant, false⟩ : PolyFold V) coeffs := by
    refine ⟨isMap_new, ?_⟩
    rintro v ⟨e, he, _⟩
    cases he
  have hall : OverTerms coeffs coeffs.iter := fun t ht v hv => ⟨t, ht, hv⟩
  obtain ⟨st, overflow, hst, hover, hkept⟩ := foldPrimeTerms_value h hw hlisted hagrees hfits
    hstart false hall
  unfold foldPrimePoly
  rw [hw]
  simp only [hst, Option.bind_eq_bind, Option.bind_some]
  cases overflow with
  | true => exact ⟨_, rfl, rfl⟩
  | false =>
      have hloop := (hkept rfl).2
      -- coefficients of zero go
      have hiter : (st.finish coeffs (· ≠ 0)).newCoeffs.iter =
          st.newCoeffs.iter.filter fun e => decide (e.2 ≠ 0) := iter_retain st.newCoeffs _
      have hfinishOver : ∀ v, Occurs (st.finish coeffs (· ≠ 0)).newCoeffs v →
          Occurs coeffs v := by
        rintro v ⟨e, he, hv⟩
        rw [hiter] at he
        exact hover.2 v ⟨e, List.mem_of_mem_filter he, hv⟩
      have hfinish : primeValue table ty w look (st.finish coeffs (· ≠ 0)).constant
          (st.finish coeffs (· ≠ 0)).newCoeffs.iter =
            primeValue table ty w look constant coeffs.iter := by
        refine Eq.trans ?_ hloop
        apply primeValue_congr h hfits (fun t ht v hv => hfinishOver v ⟨t, ht, hv⟩) hover.terms
        intro R _ x hx
        have hkeep : ∀ coeff : U8, decide (coeff ≠ 0) = false → (coeff.toNat : R) = 0 := by
          intro coeff hcoeff
          rw [decide_eq_false_iff_not, not_not] at hcoeff
          rw [hcoeff]
          exact Nat.cast_zero
        rw [hiter]
        exact sumAt_filter hkeep
      simp only [Bool.false_eq_true, if_false]
      by_cases hle : w ≤ 256
      · rw [if_pos hle]
        obtain ⟨reduced, hreduced, habsorb⟩ :=
          primeValue_reduce h hfits hw hle (st.finish coeffs (· ≠ 0)).constant
        rw [hreduced]
        refine ⟨_, rfl, ?_⟩
        have hpacked := habsorb (st.finish coeffs (· ≠ 0)).newCoeffs.iter
          fun t ht v hv => hfinishOver v ⟨t, ht, hv⟩
        rw [hvalue coeffs constant fun _ hv => hv]
        split_ifs with hsame
        · rw [hvalue _ _ hfinishOver]
          exact hpacked.trans hfinish
        · rw [hvalue _ _ hfinishOver]
          exact hfinish
      · rw [if_neg hle]
        refine ⟨_, rfl, ?_⟩
        rw [hvalue _ _ hfinishOver, hvalue coeffs constant fun _ hv => hv, hfinish]

end

end

/-!
## Folding keeps the polynomial

Over prime fields always; over bits and extension fields as far as the 256 bits of a constant
reach, and beyond them exactly when what is lost cancels.
-/

section
variable {table : TypeTable} {ty : TypeId} {V : Type} [LinearOrder V]
  {constMap : V → Option Constant} {typeMap : V → Option TypeId} {coeffs : Common.PolyCoeffs V}

/-- Nothing is lost in the fold a type takes. -/
def FoldSurvives (table : TypeTable) (constMap : V → Option Constant)
    (typeMap : V → Option TypeId) (ty : TypeId) (coeffs : Common.PolyCoeffs V) : Prop :=
  table.containsPrimeField ty = true ∨
    (isFieldType table ty = true ∧ IdentitySurvives table constMap typeMap ty coeffs) ∨
    (isFieldType table ty = false ∧ BitsSurvive table constMap typeMap ty coeffs)

end

/-- A bit, and vectors of `n` bits. -/
def vectorTable (n : ℕ) : TypeTable := ⟨[.primitive .bit, .vec n ⟨0⟩]⟩

def gateConst : ℕ → Option Constant := fun v => if v = 0 then some ⟨0, 1⟩ else none

def gateType : ℕ → Option TypeId := fun v => if v = 0 then some ⟨0⟩ else some ⟨1⟩

end VolarIR.Opt
