import VolarIR.Ir.PolyValue
import VolarIR.Opt.MonomialFold

/-!
# Folding an AND-XOR polynomial

Position by position the fold keeps the sum, but for what it loses above bit 255: a dropped
constant that passes for all ones, and an empty monomial.
-/
namespace VolarIR.Opt
open Ir Common

section
variable {V : Type}

def polyValue (table : TypeTable) (ty : TypeId) (look : V → Value) (coeffs : Common.PolyCoeffs V)
    (constant : Constant) : Option (List Bool) :=
  evalTerms table ty constant (coeffs.iter.map fun e => (e.1.map look, e.2))

def Occurs (coeffs : Common.PolyCoeffs V) (v : V) : Prop := ∃ e ∈ coeffs.iter, v ∈ e.1

/-- Values that have the listed types and the listed constants. -/
structure Consistent (table : TypeTable) (constMap : V → Option Constant)
    (typeMap : V → Option TypeId)
    (look : V → Value) : Prop where
  typed : ∀ v fty, typeMap v = some fty → (look v).ty = some fty
  bits : ∀ v c fty, constMap v = some c → typeMap v = some fty →
    (look v).bits = constBits c (table.bitWidth fty)

/-- The constants of a polynomial are listed with their types, and the listed types are ones that
the product accepts; a type of bits has a width. -/
structure Listed (table : TypeTable) (ty : TypeId) (constMap : V → Option Constant)
    (typeMap : V → Option TypeId) (coeffs : Common.PolyCoeffs V) : Prop where
  typed : ∀ v c, Occurs coeffs v → constMap v = some c → (typeMap v).isSome = true
  accepted : ∀ v fty, Occurs coeffs v → typeMap v = some fty → FactorTyped table ty fty
  sized : ∀ v fty, Occurs coeffs v → typeMap v = some fty → table.mulIsIdempotent fty = true →
    (table.valueBitWidth fty).isSome = true

end

section
variable (table : TypeTable) {V : Type} [LinearOrder V] (constMap : V → Option Constant)
  (typeMap : V → Option TypeId)

def wideOnes (v : V) : Bool :=
  (constMap v).any fun c =>
    let (w, masked) := andFactor table typeMap v c
    decide (256 < w) && constantIsAllOnes masked w

/-- The monomial that a term gains or loses in the bits from 256 on: what stays when a wide
constant was dropped, and the empty one when none was. Where another constant stays, these
bits are zero anyway. -/
def lostMonomial (term : List V × U8) : Option (List V) :=
  let (key, coeff) := term
  if !odd coeff || hasField table typeMap key then none
  else
    match simplifyKey table constMap typeMap key with
    | none => none
    | some newKey =>
        let rest := collapse (fun _ => true) newKey
        if rest.isEmpty == key.any (wideOnes table constMap typeMap) then none
        else if rest.any fun v => (constMap v).isSome then none
        else some rest

end

section
variable {table : TypeTable} {ty : TypeId} {V : Type}
  {constMap : V → Option Constant} {typeMap : V → Option TypeId} {look : V → Value}

/-- Bit `k` of every var. -/
def laneOf (look : V → Value) (k : ℕ) (v : V) : ZMod 2 := bitVal ((look v).lane k)

theorem laneOf_idem (k : ℕ) (v : V) :
    laneOf look k v * laneOf look k v = laneOf look k v := by
  unfold laneOf
  generalize (look v).lane k = b
  revert b
  decide

theorem zmodTwo : (2 : ZMod 2) = 0 := by decide

/-- A constant factor of bits, as it is at one position. -/
theorem constLane (hidem : table.mulIsIdempotent ty = true) {v : V} {fty : TypeId} {c : Constant}
    {w : ℕ} (hagrees : Consistent table constMap typeMap look) (hc : constMap v = some c)
    (hty : typeMap v = some fty) (htyped : FactorTyped table ty fty)
    (hw : table.valueBitWidth fty = some w) {k : ℕ} (hk : k < table.bitWidth ty) :
    (w = 1 ∧ laneOf look k v = bitVal (c.bit 0)) ∨
      (w ≠ 1 ∧ k < w ∧ laneOf look k v = bitVal (c.bit k)) := by
  have hwidth := bitWidth_eq_of_valueBitWidth hw
  have hbits := hagrees.bits v c fty hc hty
  rw [hwidth] at hbits
  unfold laneOf Value.lane
  rw [hbits, length_constBits]
  by_cases hone : w = 1
  · subst hone
    exact .inl ⟨rfl, rfl⟩
  · have hlt : k < w := by
      have hlane := htyped.lane_lt hidem
      omega
    refine .inr ⟨hone, hlt, ?_⟩
    rw [if_neg hone, List.getD_eq_getElem _ _ (by rw [length_constBits]; exact hlt)]
    simp [constBits]

variable {coeffs : Common.PolyCoeffs V}

/-- Without a field factor a listed constant is one of bits. -/
theorem Listed.andFactor_eq (hlisted : Listed table ty constMap typeMap coeffs) {key : List V}
    (hkey : ∀ v ∈ key, Occurs coeffs v) (hfield : hasField table typeMap key = false) {v : V}
    (hv : v ∈ key) {c : Constant} (hc : constMap v = some c) :
    ∃ fty w, typeMap v = some fty ∧ FactorTyped table ty fty ∧
      table.valueBitWidth fty = some w ∧ andFactor table typeMap v c = (w, maskConstant c w) := by
  obtain ⟨fty, hty⟩ := Option.isSome_iff_exists.mp (hlisted.typed v c (hkey v hv) hc)
  have hidem : table.mulIsIdempotent fty = true := by
    have hall := List.any_eq_false.mp hfield v hv
    rw [hty] at hall
    simpa using hall
  obtain ⟨w, hw⟩ := Option.isSome_iff_exists.mp (hlisted.sized v fty (hkey v hv) hty hidem)
  refine ⟨fty, w, hty, hlisted.accepted v fty (hkey v hv) hty, hw, ?_⟩
  rw [andFactor, hty, Option.bind_some, hw, Option.getD_some]

section
variable (hidem : table.mulIsIdempotent ty = true)
  (hlisted : Listed table ty constMap typeMap coeffs)
  (hagrees : Consistent table constMap typeMap look) {key : List V}
  (hkey : ∀ v ∈ key, Occurs coeffs v) (hfield : hasField table typeMap key = false)
  {k : ℕ} (hk : k < table.bitWidth ty)
include hidem hlisted hagrees hkey hfield hk

theorem laneOf_of_zero {v : V} (hv : v ∈ key) {c : Constant} (hc : constMap v = some c)
    (hzero : constantIsZero (andFactor table typeMap v c).2 = true) : laneOf look k v = 0 := by
  obtain ⟨fty, w, hty, htyped, hw, hfactor⟩ := hlisted.andFactor_eq hkey hfield hv hc
  rw [hfactor, constantIsZero_iff] at hzero
  have hbit : ∀ j, j < w → c.bit j = false := by
    intro j hj
    have h := hzero j
    rwa [bit_maskConstant, decide_eq_true hj, Bool.true_and] at h
  rcases constLane hidem hagrees hc hty htyped hw hk with ⟨hone, hlane⟩ | ⟨_, hlt, hlane⟩
  · rw [hlane, hbit 0 (by omega)]
    rfl
  · rw [hlane, hbit k hlt]
    rfl

theorem laneOf_of_ones {v : V} (hv : v ∈ key) {c : Constant} (hc : constMap v = some c)
    (hones : constantIsAllOnes (andFactor table typeMap v c).2
      (andFactor table typeMap v c).1 = true) :
    (k < 256 ∨ wideOnes table constMap typeMap v = false) → laneOf look k v = 1 := by
  obtain ⟨fty, w, hty, htyped, hw, hfactor⟩ := hlisted.andFactor_eq hkey hfield hv hc
  intro hnarrow
  have hwide : wideOnes table constMap typeMap v = decide (256 < w) := by
    rw [hfactor] at hones
    rw [wideOnes, hc, Option.any_some, hfactor]
    dsimp only at hones ⊢
    rw [hones, Bool.and_true]
  rw [hfactor, constantIsAllOnes_mask] at hones
  rcases constLane hidem hagrees hc hty htyped hw hk with ⟨hone, hlane⟩ | ⟨_, hlt, hlane⟩
  · rw [hlane, hones 0 (by omega) (by decide)]
    rfl
  · have hlow : k < 256 := by
      rcases hnarrow with hlow | hnot
      · exact hlow
      · rw [hwide, decide_eq_false_iff_not] at hnot
        omega
    rw [hlane, hones k hlt hlow]
    rfl

theorem laneOf_of_wide (hhigh : 256 ≤ k) {v : V} (hv : v ∈ key)
    (hwide : wideOnes table constMap typeMap v = true) : laneOf look k v = 0 := by
  unfold wideOnes at hwide
  cases hc : constMap v with
  | none =>
      rw [hc] at hwide
      cases hwide
  | some c =>
      obtain ⟨fty, w, hty, htyped, hw, hfactor⟩ := hlisted.andFactor_eq hkey hfield hv hc
      rw [hc, Option.any_some, hfactor] at hwide
      dsimp only at hwide
      rw [Bool.and_eq_true, decide_eq_true_iff] at hwide
      rcases constLane hidem hagrees hc hty htyped hw hk with ⟨hone, _⟩ | ⟨_, _, hlane⟩
      · omega
      · rw [hlane, bit_of_ge c hhigh]
        rfl

theorem laneOf_of_kept (hhigh : 256 ≤ k) {newKey : List V}
    (hsimplify : simplifyKey table constMap typeMap key = some newKey) {v : V} (hv : v ∈ newKey)
    (hconst : (constMap v).isSome = true) : laneOf look k v = 0 := by
  obtain ⟨c, hc⟩ := Option.isSome_iff_exists.mp hconst
  have hmem := (simplifyKey_sublist hsimplify).subset hv
  obtain ⟨fty, w, hty, htyped, hw, hfactor⟩ := hlisted.andFactor_eq hkey hfield hmem hc
  have hkept := simplifyKey_const hsimplify hv hc
  rw [hfactor] at hkept
  rcases constLane hidem hagrees hc hty htyped hw hk with ⟨hone, _⟩ | ⟨_, _, hlane⟩
  · -- a gate is zero or all ones
    exfalso
    subst hone
    cases hbit : c.bit 0 with
    | true =>
        have hones := hkept.2
        rw [← Bool.not_eq_true, constantIsAllOnes_mask] at hones
        apply hones
        intro j hj _
        rw [Nat.lt_one_iff.mp hj, hbit]
    | false =>
        have hzero := hkept.1
        rw [← Bool.not_eq_true, constantIsZero_iff] at hzero
        apply hzero
        intro j
        rw [bit_maskConstant]
        by_cases hj : j < 1
        · rw [Nat.lt_one_iff.mp hj, hbit, Bool.and_false]
        · rw [decide_eq_false hj, Bool.false_and]
  · rw [hlane, bit_of_ge c hhigh]
    rfl

end

variable [LinearOrder V]

/-- The lost part of a sum at position `k`. -/
def lostAt (table : TypeTable) (constMap : V → Option Constant) (typeMap : V → Option TypeId)
    (y : V → ZMod 2) (k : ℕ) (term : List V × U8) : ZMod 2 :=
  if k < 256 then 0
  else (lostMonomial table constMap typeMap term).elim 0 fun rest => (rest.map y).prod

variable (hidem : table.mulIsIdempotent ty = true)
  (hlisted : Listed table ty constMap typeMap coeffs)
  (hagrees : Consistent table constMap typeMap look) {k : ℕ} (hk : k < table.bitWidth ty)

/-- The sum at position `k` of what is folded so far. -/
def PolyFold.sumOf (look : V → Value) (k : ℕ) (st : PolyFold V) : ZMod 2 :=
  bitVal (st.constant.bit k) + sumAt (laneOf look k) st.newCoeffs.iter

theorem enterRest_sum (look : V → Value)
    (hwidth : table.valueBitWidth ty = some (table.bitWidth ty))
    (hk : k < table.bitWidth ty) {st : PolyFold V} (hst : IsMap st.newCoeffs) {coeff : U8}
    (hodd : odd coeff = true) (rest : List V) (changed : Bool) :
    let next : PolyFold V :=
      if rest.isEmpty then
        { st with
          constant := constantXor st.constant
            (maskConstant fullConstant ((table.valueBitWidth ty).getD 1))
          changed := true }
      else { st with
        newCoeffs := st.newCoeffs.entryOrInsert rest 0 (· ^^^ coeff)
        changed }
    IsMap next.newCoeffs ∧ next.sumOf look k =
      st.sumOf look k + if 256 ≤ k ∧ rest = [] then 0 else (rest.map (laneOf look k)).prod := by
  dsimp only
  by_cases hrest : rest = []
  · subst hrest
    refine ⟨hst, ?_⟩
    rw [List.isEmpty_nil, if_pos rfl]
    unfold PolyFold.sumOf
    rw [hwidth, Option.getD_some, bit_constantXor, bit_maskConstant, bit_fullConstant,
      decide_eq_true hk, Bool.true_and, bitVal_xor, add_right_comm]
    by_cases hlow : k < 256
    · rw [decide_eq_true hlow, if_neg (by omega)]
      rfl
    · rw [decide_eq_false hlow, if_pos ⟨by omega, rfl⟩]
      rfl
  · have hentry := hst.entryXor (y := laneOf look k) zmodTwo rest coeff
    have hne : ¬ rest.isEmpty = true := by rwa [List.isEmpty_iff]
    rw [if_neg hne, if_neg fun h => hrest h.2]
    refine ⟨hentry.1, ?_⟩
    unfold PolyFold.sumOf
    rw [hentry.2.2, monomialAt, cast_toNat_of_two zmodTwo, if_pos hodd, one_mul, add_assoc]

include hidem hlisted hagrees hk in
/-- One term: the sum takes in the monomial, and the lost part. -/
theorem foldBitTerm_sum (hwidth : table.valueBitWidth ty = some (table.bitWidth ty))
    {st : PolyFold V} (hst : IsMap st.newCoeffs) {term : List V × U8}
    (hterm : ∀ v ∈ term.1, Occurs coeffs v) :
    IsMap (foldBitTerm table constMap typeMap ty st term).newCoeffs ∧
      (foldBitTerm table constMap typeMap ty st term).sumOf look k =
        st.sumOf look k + monomialAt (laneOf look k) term.1 term.2 +
          lostAt table constMap typeMap (laneOf look k) k term := by
  obtain ⟨key, coeff⟩ := term
  have hmono : monomialAt (laneOf look k) key coeff =
      if odd coeff then (key.map (laneOf look k)).prod else 0 := by
    rw [monomialAt, cast_toNat_of_two zmodTwo, ite_mul, one_mul, zero_mul]
  unfold foldBitTerm lostAt lostMonomial
  dsimp only
  cases hodd : odd coeff with
  | false =>
      refine ⟨hst, ?_⟩
      rw [hmono, hodd]
      simp [PolyFold.sumOf]
  | true =>
      rw [hodd] at hmono
      rw [if_neg (by decide : ¬ (!true) = true), Bool.not_true, Bool.false_or]
      cases hfield : hasField table typeMap key with
      | true =>
          have hentry := hst.entryXor (y := laneOf look k) zmodTwo key coeff
          refine ⟨hentry.1, ?_⟩
          simp only [if_true, PolyFold.sumOf, hentry.2.2, Option.elim_none, ite_self, add_zero,
            add_assoc]
      | false =>
          simp only [Bool.false_eq_true, if_false]
          have hzero : ∀ v ∈ key, ∀ c, constMap v = some c →
              constantIsZero (andFactor table typeMap v c).2 = true → laneOf look k v = 0 :=
            fun v hv c hc => laneOf_of_zero hidem hlisted hagrees hterm hfield hk hv hc
          have hlow := simplifyKey_spec (fun v => decide (256 ≤ k) &&
              wideOnes table constMap typeMap v) hzero
            (fun v hv c hc hbad hones => by
              apply laneOf_of_ones hidem hlisted hagrees hterm hfield hk hv hc hones
              rcases Nat.lt_or_ge k 256 with hlt | hge
              · exact .inl hlt
              · rw [decide_eq_true hge, Bool.true_and] at hbad
                exact .inr hbad)
            (fun v hv hbad => by
              rw [Bool.and_eq_true, decide_eq_true_iff] at hbad
              exact laneOf_of_wide hidem hlisted hagrees hterm hfield hk hbad.1 hv hbad.2)
          cases hsimplify : simplifyKey table constMap typeMap key with
          | none =>
              rw [hsimplify] at hlow
              change _ = _ at hlow
              refine ⟨hst, ?_⟩
              rw [hmono, if_pos rfl, hlow]
              simp [PolyFold.sumOf]
          | some newKey =>
              rw [hsimplify] at hlow
              change _ = _ at hlow
              dsimp only
              have hprod := prod_collapse (fun _ => true) newKey (y := laneOf look k) fun v _ _ =>
                laneOf_idem k v
              have hkept := fun (hhigh : 256 ≤ k) v hv =>
                laneOf_of_kept hidem hlisted hagrees hterm hfield hk hhigh hsimplify (v := v) hv
              generalize hrest : collapse (fun _ => true) newKey = rest at hprod
              have hmem : ∀ v ∈ rest, v ∈ newKey := by
                intro v hv
                rw [← hrest] at hv
                exact mem_collapse.mp hv
              have henter := enterRest_sum look hwidth hk hst hodd rest
                (st.changed || shortened key newKey rest)
              refine ⟨henter.1, ?_⟩
              rw [henter.2, hmono, if_pos rfl, hlow, ← hprod, add_assoc]
              congr 1
              by_cases hhigh : k < 256
              · have hany : key.any (fun v => decide (256 ≤ k) &&
                    wideOnes table constMap typeMap v) = false := by
                  apply List.any_eq_false.mpr
                  intro v _
                  simp [hhigh]
                rw [if_neg (by omega), if_pos hhigh, hany, if_neg (by decide), add_zero]
              · have hge : 256 ≤ k := Nat.le_of_not_lt hhigh
                rw [decide_eq_true hge, if_neg hhigh]
                simp only [Bool.true_and]
                have hself : ∀ b : ZMod 2, b + b = 0 := by decide
                cases hwide : key.any (wideOnes table constMap typeMap) with
                | true =>
                    cases hempty : rest.isEmpty with
                    | true =>
                        rw [List.isEmpty_iff] at hempty
                        simp [hempty, hge]
                    | false =>
                        have hne : ¬ rest = [] := by simp_all
                        have hnot : ¬ (256 ≤ k ∧ rest = []) := fun h => hne h.2
                        rw [if_neg hnot, if_pos rfl, if_neg (by decide), zero_add]
                        split_ifs with hconst
                        · obtain ⟨v, hv, hsome⟩ := List.any_eq_true.mp hconst
                          rw [Option.elim_none]
                          apply List.prod_eq_zero
                          rw [← hkept hge v (hmem v hv) hsome]
                          exact List.mem_map_of_mem hv
                        · rfl
                | false =>
                    cases hempty : rest.isEmpty with
                    | true =>
                        rw [List.isEmpty_iff] at hempty
                        simp [hempty, hge, one_add_one_eq_two, zmodTwo]
                    | false =>
                        have hne : ¬ rest = [] := by simp_all
                        have hnot : ¬ (256 ≤ k ∧ rest = []) := fun h => hne h.2
                        rw [if_neg hnot, if_neg (by decide), if_pos (by decide), Option.elim_none,
                          add_zero]

include hidem hlisted hagrees hk in
/-- The whole loop. -/
theorem foldBitTerms_sum (hwidth : table.valueBitWidth ty = some (table.bitWidth ty))
    {st : PolyFold V} (hst : IsMap st.newCoeffs) {terms : List (List V × U8)}
    (hterms : ∀ t ∈ terms, ∀ v ∈ t.1, Occurs coeffs v) :
    (terms.foldl (foldBitTerm table constMap typeMap ty) st).sumOf look k =
      st.sumOf look k + sumAt (laneOf look k) terms +
        (terms.map (lostAt table constMap typeMap (laneOf look k) k)).sum := by
  induction terms generalizing st with
  | nil => simp
  | cons t rest ih =>
      have hstep := foldBitTerm_sum hidem hlisted hagrees hk hwidth hst
        (hterms t List.mem_cons_self)
      rw [List.foldl_cons, ih hstep.1 fun u hu => hterms u (List.mem_cons_of_mem t hu), hstep.2,
        sumAt_cons, List.map_cons, List.sum_cons, monomialAt]
      ring

theorem sumOf_finish (hk : k < table.bitWidth ty)
    (hwidth : table.valueBitWidth ty = some (table.bitWidth ty)) (st : PolyFold V)
    (coeffs : Common.PolyCoeffs V) :
    ((st.finish coeffs odd).masked (table.valueBitWidth ty)).sumOf look k = st.sumOf look k := by
  have hmask : ∀ st : PolyFold V,
      (st.masked (table.valueBitWidth ty)).sumOf look k = st.sumOf look k := by
    intro st
    rw [hwidth]
    unfold PolyFold.masked
    dsimp only
    split_ifs
    · unfold PolyFold.sumOf
      dsimp only
      rw [bit_maskConstant, decide_eq_true hk, Bool.true_and]
    · rfl
  rw [hmask]
  unfold PolyFold.sumOf PolyFold.finish
  dsimp only
  rw [iter_retain, sumAt_filter]
  intro coeff hodd
  rw [cast_toNat_of_two zmodTwo, if_neg (by rw [hodd]; decide)]

include hidem hlisted hagrees hk in
theorem foldBitPoly_sum (hwidth : table.valueBitWidth ty = some (table.bitWidth ty))
    (constant : Constant) :
    (foldBitPoly table constMap typeMap ty coeffs constant).sumOf look k =
      bitVal (constant.bit k) + sumAt (laneOf look k) coeffs.iter +
        (coeffs.iter.map (lostAt table constMap typeMap (laneOf look k) k)).sum := by
  unfold foldBitPoly
  rw [sumOf_finish hk hwidth, foldBitTerms_sum hidem hlisted hagrees hk hwidth isMap_new]
  · simp [PolyFold.sumOf, PolyCoeffs.new, PolyCoeffs.iter]
  · exact fun t ht v hv => ⟨t, ht, hv⟩

end

end VolarIR.Opt
