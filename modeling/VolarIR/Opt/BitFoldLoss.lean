import VolarIR.Opt.BitFold
import Mathlib.Algebra.BigOperators.Group.Finset.Basic
import Mathlib.Algebra.Ring.Parity

/-!
# When an AND-XOR polynomial survives its folding

What is lost at a position is a sum of products of free vars. It vanishes for every assignment
exactly when every product occurs an even number of times.
-/
namespace VolarIR.Opt
open Ir Common

section
variable {table : TypeTable} {ty : TypeId} {V : Type} {constMap : V → Option Constant}
  {typeMap : V → Option TypeId} {look : V → Value}

theorem sumAt_look {R : Type} [CommRing R] (x : Factor Bool → R) (look : V → Value)
    (terms : List (List V × U8)) :
    sumAt x (factorTerms (terms.map fun e => (e.1.map look, e.2))) =
      sumAt (fun v => x (look v).asFactor) terms := by
  rw [factorTerms, sumAt_map, sumAt_map]
  rfl

/-- Two polynomials of bits have one value when their sums agree at every position. -/
theorem polyValue_bits_iff (hprime : table.containsPrimeField ty = false)
    (hidem : table.mulIsIdempotent ty = true) {coeffs coeffs' : Common.PolyCoeffs V}
    {constant constant' : Constant} :
    polyValue table ty look coeffs constant = polyValue table ty look coeffs' constant' ↔
      ∀ k < table.bitWidth ty,
        bitVal (constant.bit k) + sumAt (laneOf look k) coeffs.iter =
          bitVal (constant'.bit k) + sumAt (laneOf look k) coeffs'.iter := by
  rw [polyValue, polyValue, evalTerms_bits hprime hidem, evalTerms_bits hprime hidem,
    Option.some.injEq, evalBitPoly, evalBitPoly, List.map_inj_left]
  apply forall_congr'
  intro k
  rw [List.mem_range]
  apply imp_congr_right
  intro _
  rw [← bitVal_injective.eq_iff, foldl_parity, foldl_parity, sumAt_look, sumAt_look]
  rfl

/-- All bits of a free var as `ones` says, the constants as they are listed. -/
def spread (table : TypeTable) (ty : TypeId) (constMap : V → Option Constant)
    (typeMap : V → Option TypeId) (ones : V → Bool) (v : V) : Value :=
  match typeMap v with
  | none => ⟨List.replicate (table.bitWidth ty) (ones v), some ty, []⟩
  | some fty =>
      match constMap v with
      | some c => ⟨constBits c (table.bitWidth fty), some fty, []⟩
      | none => ⟨List.replicate (table.bitWidth fty) (ones v), some fty, []⟩

theorem agrees_spread (ones : V → Bool) :
    Consistent table constMap typeMap (spread table ty constMap typeMap ones) where
  typed v fty hty := by
    unfold spread
    rw [hty]
    cases constMap v <;> rfl
  bits v c fty hc hty := by
    unfold spread
    rw [hty, hc]

theorem fits_spread {coeffs : Common.PolyCoeffs V}
    (hlisted : Listed table ty constMap typeMap coeffs) (ones : V → Bool) {v : V}
    (hv : Occurs coeffs v) : ValueFits table ty (spread table ty constMap typeMap ones v) := by
  unfold spread
  cases hty : typeMap v with
  | none =>
      exact ⟨rfl, .own (TypeTable.sameType_self ty), List.length_replicate⟩
  | some fty =>
      have htyped := hlisted.accepted v fty hv hty
      cases constMap v with
      | none => exact ⟨rfl, htyped, List.length_replicate⟩
      | some c => exact ⟨rfl, htyped, length_constBits c _⟩

/-- A free var is `ones` at every position. -/
theorem laneOf_spread (ones : V → Bool) (hidem : table.mulIsIdempotent ty = true)
    {coeffs : Common.PolyCoeffs V} (hlisted : Listed table ty constMap typeMap coeffs) {v : V}
    (hv : Occurs coeffs v) (hfree : constMap v = none) {k : ℕ} (hk : k < table.bitWidth ty) :
    laneOf (spread table ty constMap typeMap ones) k v = bitVal (ones v) := by
  have hlane : ∀ n, n = 1 ∨ table.bitWidth ty ≤ n →
      (if (List.replicate n (ones v)).length = 1 then (List.replicate n (ones v)).headD false
        else (List.replicate n (ones v)).getD k false) = ones v := by
    intro n hn
    rw [List.length_replicate]
    split_ifs with hone
    · rw [hone]
      rfl
    · rw [List.getD_replicate _ (by omega)]
  unfold laneOf Value.lane spread
  cases hty : typeMap v with
  | none => exact congrArg bitVal (hlane _ (.inr le_rfl))
  | some fty =>
      rw [hfree]
      exact congrArg bitVal (hlane _ ((hlisted.accepted v fty hv hty).lane_lt hidem))

variable [LinearOrder V]

theorem lostMonomial_spec {term : List V × U8} {rest : List V}
    (h : lostMonomial table constMap typeMap term = some rest) :
    rest.Pairwise (· < ·) ∧ ∀ v ∈ rest, constMap v = none ∧ v ∈ term.1 := by
  obtain ⟨key, coeff⟩ := term
  unfold lostMonomial at h
  dsimp only at h
  split_ifs at h
  cases hkey : simplifyKey table constMap typeMap key with
  | none =>
      rw [hkey] at h
      cases h
  | some newKey =>
      rw [hkey] at h
      dsimp only at h
      split_ifs at h with _ hfree
      cases h
      refine ⟨pairwise_collapse newKey, ?_⟩
      intro v hv
      refine ⟨?_, (simplifyKey_sublist hkey).subset (mem_collapse.mp hv)⟩
      cases hc : constMap v with
      | none => rfl
      | some c =>
          exfalso
          apply hfree
          exact List.any_eq_true.mpr ⟨v, hv, by rw [hc]; rfl⟩

theorem sum_lostAt {y : V → ZMod 2} {k : ℕ} (hhigh : 256 ≤ k) (terms : List (List V × U8)) :
    (terms.map (lostAt table constMap typeMap y k)).sum =
      ((terms.filterMap (lostMonomial table constMap typeMap)).map fun rest =>
        (rest.map y).prod).sum := by
  induction terms with
  | nil => rfl
  | cons t rest ih =>
      rw [List.map_cons, List.sum_cons, ih, lostAt, if_neg (by omega), List.filterMap_cons]
      cases lostMonomial table constMap typeMap t with
      | none => rw [Option.elim_none, zero_add]
      | some vars => rw [Option.elim_some, List.map_cons, List.sum_cons]

theorem even_nsmul {n : ℕ} (h : Even n) (x : ZMod 2) : n • x = 0 := by
  obtain ⟨m, rfl⟩ := h
  rw [add_nsmul, ← nsmul_add]
  have hself : x + x = 0 := by
    revert x
    decide
  rw [hself, nsmul_zero]

theorem sum_map_eq_count (products : List (List V)) (f : List V → ZMod 2) :
    (products.map f).sum = ∑ rest ∈ products.toFinset, products.count rest • f rest := by
  have hbeq : (instBEqOfDecidableEq : BEq (List V)) = List.instBEq := lawful_beq_subsingleton _ _
  rw [Finset.sum_list_map_count, hbeq]

theorem sum_eq_zero_of_even {products : List (List V)} (h : ∀ rest, Even (products.count rest))
    (y : V → ZMod 2) : (products.map fun rest => (rest.map y).prod).sum = 0 := by
  rw [sum_map_eq_count]
  apply Finset.sum_eq_zero
  intro rest _
  exact even_nsmul (h rest) _

theorem exists_sum_ne_zero {products : List (List V)}
    (hsorted : ∀ rest ∈ products, rest.Pairwise (· < ·)) {odd : List V}
    (hodd : ¬ Even (products.count odd)) :
    ∃ rest ∈ products, (products.map fun vars =>
      (vars.map fun v => bitVal (decide (v ∈ rest))).prod).sum ≠ 0 := by
  obtain ⟨rest, hrest, hmin⟩ := WellFounded.has_min (measure List.length).wf
    {vars : List V | ¬ Even (products.count vars)} ⟨odd, hodd⟩
  have hmem : rest ∈ products := by
    by_contra hnot
    apply hrest
    rw [List.count_eq_zero_of_not_mem hnot]
    exact ⟨0, rfl⟩
  refine ⟨rest, hmem, ?_⟩
  rw [sum_map_eq_count, Finset.sum_eq_single rest]
  · have hones : (rest.map fun v => bitVal (decide (v ∈ rest))).prod = 1 := by
      apply List.prod_eq_one
      intro x hx
      obtain ⟨v, hv, rfl⟩ := List.mem_map.mp hx
      rw [decide_eq_true hv]
      rfl
    rw [hones, nsmul_one]
    obtain ⟨m, hm⟩ := Nat.not_even_iff_odd.mp hrest
    rw [hm, Nat.cast_add, Nat.cast_mul, Nat.cast_ofNat, zmodTwo, zero_mul, zero_add]
    decide
  · intro vars hvars hne
    have hvarsMem := List.mem_toFinset.mp hvars
    by_cases hsub : vars ⊆ rest
    · -- fewer vars, so an even number of them
      have hnodup : vars.Nodup := (hsorted vars hvarsMem).imp ne_of_lt
      have hlt : vars.length < rest.length := by
        by_contra hge
        apply hne
        have hperm := (List.subperm_of_subset hnodup hsub).perm_of_length_le (by omega)
        exact hperm.eq_of_pairwise (fun a b _ _ hab hba => absurd hba hab.not_gt)
          (hsorted vars hvarsMem) (hsorted rest hmem)
      have heven : Even (products.count vars) := by
        by_contra hnot
        exact hmin vars hnot hlt
      exact even_nsmul heven _
    · obtain ⟨v, hv, hnot⟩ : ∃ v ∈ vars, v ∉ rest := by
        by_contra hall
        push Not at hall
        exact hsub hall
      have hzero : (vars.map fun v => bitVal (decide (v ∈ rest))).prod = 0 := by
        apply List.prod_eq_zero
        rw [List.mem_map]
        exact ⟨v, hv, by rw [decide_eq_false hnot]; rfl⟩
      rw [hzero, nsmul_zero]
  · intro hnot
    exact absurd (List.mem_toFinset.mpr hmem) hnot

def BitsSurvive (table : TypeTable) (constMap : V → Option Constant) (typeMap : V → Option TypeId)
    (ty : TypeId) (coeffs : Common.PolyCoeffs V) : Prop :=
  table.bitWidth ty ≤ 256 ∨
    ∀ rest, Even ((coeffs.iter.filterMap (lostMonomial table constMap typeMap)).count rest)

variable {coeffs : Common.PolyCoeffs V}

/-- The fold of an AND-XOR polynomial keeps its value exactly when nothing is lost oddly often. -/
theorem foldBitPoly_keeps_iff (hprime : table.containsPrimeField ty = false)
    (hidem : table.mulIsIdempotent ty = true)
    (hwidth : table.valueBitWidth ty = some (table.bitWidth ty))
    (hlisted : Listed table ty constMap typeMap coeffs) (constant : Constant) :
    (∀ look, Consistent table constMap typeMap look →
      (∀ v, Occurs coeffs v → ValueFits table ty (look v)) →
      polyValue table ty look (foldBitPoly table constMap typeMap ty coeffs constant).newCoeffs
          (foldBitPoly table constMap typeMap ty coeffs constant).constant =
        polyValue table ty look coeffs constant) ↔
      BitsSurvive table constMap typeMap ty coeffs := by
  have hlost : ∀ look, Consistent table constMap typeMap look →
      (polyValue table ty look (foldBitPoly table constMap typeMap ty coeffs constant).newCoeffs
          (foldBitPoly table constMap typeMap ty coeffs constant).constant =
        polyValue table ty look coeffs constant ↔
      ∀ k < table.bitWidth ty,
        (coeffs.iter.map (lostAt table constMap typeMap (laneOf look k) k)).sum = 0) := by
    intro look hagrees
    rw [polyValue_bits_iff hprime hidem]
    apply forall_congr'
    intro k
    apply imp_congr_right
    intro hk
    have hsum := foldBitPoly_sum hidem hlisted hagrees hk hwidth constant
    unfold PolyFold.sumOf at hsum
    rw [hsum, add_eq_left]
  constructor
  · intro hkeeps
    by_contra hnot
    unfold BitsSurvive at hnot
    push Not at hnot
    obtain ⟨hwide, odd, hodd⟩ := hnot
    have hsorted : ∀ rest ∈ coeffs.iter.filterMap (lostMonomial table constMap typeMap),
        rest.Pairwise (· < ·) := by
      intro rest hrest
      obtain ⟨t, _, ht⟩ := List.mem_filterMap.mp hrest
      exact (lostMonomial_spec ht).1
    obtain ⟨rest, _, hne⟩ := exists_sum_ne_zero hsorted hodd
    let ones : V → Bool := fun v => decide (v ∈ rest)
    have hall := (hlost _ (agrees_spread ones)).mp
      (hkeeps _ (agrees_spread ones) fun v hv => fits_spread hlisted ones hv) 256 hwide
    rw [sum_lostAt le_rfl] at hall
    apply hne
    rw [← hall]
    apply congrArg
    apply List.map_congr_left
    intro vars hvars
    obtain ⟨t, ht, hvars⟩ := List.mem_filterMap.mp hvars
    apply congrArg
    apply List.map_congr_left
    intro v hv
    have hspec := (lostMonomial_spec hvars).2 v hv
    exact (laneOf_spread ones hidem hlisted ⟨t, ht, hspec.2⟩ hspec.1 hwide).symm
  · intro hsurvive look hagrees _
    rw [hlost look hagrees]
    intro k hk
    by_cases hlow : k < 256
    · apply List.sum_eq_zero
      intro x hx
      obtain ⟨t, _, rfl⟩ := List.mem_map.mp hx
      exact if_pos hlow
    · have heven := hsurvive.resolve_left (by omega)
      rw [sum_lostAt (Nat.le_of_not_lt hlow)]
      exact sum_eq_zero_of_even heven _

end

end VolarIR.Opt
