import VolarIR.Ir.PrimeValuation
import VolarIR.Ir.Stored
import VolarIR.Library.Reorder

/-!
# The order of a polynomial's monomials

Renaming the operands of a `Poly` collects its monomials again, which puts them into another
order. As long as no monomial is repeated none is lost, and the value does not depend on the
order: sums of lanes, of elements of an extension field and of residues commute.
-/
namespace VolarIR

/-- The prime fields of the table are as their type documents them: `2^k - n` with `k` in
`2..=256` and `n < 2^(k-1)`. -/
def TypeTable.PrimesCanonical (table : TypeTable) : Prop :=
  ∀ k n, .primeField k n ∈ table.types → Canonical k (Limbs.value n)

section
variable {table : TypeTable} {ty : TypeId} {k : ℕ} {n : List U64}
  (hc : Canonical k (Limbs.value n))
include hc

omit hc in
theorem length_fieldDigits {f : Factor Bool} {ds : List Bool}
    (h : fieldDigits boolRing table ty k f = some ds) : ds.length = k := by
  unfold fieldDigits at h
  split_ifs at h
  · obtain rfl := Option.some.inj h
    simp
  · obtain rfl := Option.some.inj h
    exact Ir.length_sliceWires _ _ _

/-- A product of residues is a residue, whatever its factors are. -/
theorem fieldProduct_residue {factors : List (Factor Bool)} {product : List Bool}
    (h : fieldProduct boolRing table ty ⟨k, n⟩ factors = some product) :
    product.length = k ∧ Bits.value product < PrimeSpec.modulus ⟨k, n⟩ := by
  have hfold : ∀ (factors : List (Factor Bool)) (acc : List Bool), acc.length = k →
      Bits.value acc < PrimeSpec.modulus ⟨k, n⟩ →
      factors.foldlM (fun product factor => do
          some (solinasMul boolRing product (← fieldDigits boolRing table ty k factor) ⟨k, n⟩))
        acc = some product →
      product.length = k ∧ Bits.value product < PrimeSpec.modulus ⟨k, n⟩ := by
    intro factors
    induction factors with
    | nil =>
        intro acc hlen hlt hacc
        obtain rfl := Option.some.inj hacc
        exact ⟨hlen, hlt⟩
    | cons f rest ih =>
        intro acc hlen hlt hacc
        cases hds : fieldDigits boolRing table ty k f with
        | none => simp [List.foldlM_cons, hds] at hacc
        | some ds =>
            simp only [List.foldlM_cons, hds, Option.bind_eq_bind, Option.bind_some] at hacc
            have hmul := value_solinasMul (Ir.canonical_spec hc) hlt hlen (length_fieldDigits hds)
            apply ih _ length_solinasMul _ hacc
            rw [hmul]
            exact Nat.mod_lt _ (Nat.zero_lt_of_lt hlt)
  apply hfold factors _ _ _ h
  · simp
  · have hunit := Ir.value_set_zero hc.two_le true
    have htwo := two_mul_offset_lt (Ir.canonical_spec hc)
    have hfour : 4 ≤ 2 ^ k := Nat.pow_le_pow_right (n := 2) (by decide) hc.two_le
    have hp : PrimeSpec.modulus ⟨k, n⟩ = 2 ^ k - PrimeSpec.offset ⟨k, n⟩ := rfl
    dsimp only at htwo
    rw [show boolRing.zero = false from rfl, show boolRing.one = true from rfl, hunit,
      Bool.toNat_true]
    omega

def termResidue (table : TypeTable) (ty : TypeId) (spec : PrimeSpec) (term : Term Bool) :
    Option ℕ :=
  if repetitionResidue term.2 spec = 0 then some 0
  else (fieldProduct boolRing table ty spec term.1).map fun product =>
    repetitionResidue term.2 spec * Bits.value product

/-- Adding a monomial fails with its product, and otherwise adds its residue. -/
theorem addFieldTerm_spec {acc : List Bool} (hlen : acc.length = k)
    (hlt : Bits.value acc < PrimeSpec.modulus ⟨k, n⟩) (term : Term Bool) :
    (termResidue table ty ⟨k, n⟩ term = none ∧
        addFieldTerm boolRing table ty ⟨k, n⟩ acc term = none) ∨
      ∃ c out, termResidue table ty ⟨k, n⟩ term = some c ∧
        addFieldTerm boolRing table ty ⟨k, n⟩ acc term = some out ∧ out.length = k ∧
        Bits.value out = (Bits.value acc + c) % PrimeSpec.modulus ⟨k, n⟩ := by
  unfold termResidue addFieldTerm
  by_cases hzero : repetitionResidue term.2 ⟨k, n⟩ = 0
  · right
    rw [if_pos hzero, if_pos hzero]
    exact ⟨0, acc, rfl, rfl, hlen, (Nat.mod_eq_of_lt hlt).symm⟩
  · rw [if_neg hzero, if_neg hzero]
    cases hproduct : fieldProduct boolRing table ty ⟨k, n⟩ term.1 with
    | none => exact Or.inl ⟨rfl, rfl⟩
    | some product =>
        right
        have hadd := value_iterate_solinasAdd (Ir.canonical_spec hc) hlt
          (fieldProduct_residue hc hproduct).2 (repetitionResidue term.2 ⟨k, n⟩)
        refine ⟨_, solinasRepeat boolRing acc product term.2 ⟨k, n⟩, rfl, rfl, ?_, hadd⟩
        obtain ⟨m, hm⟩ := Nat.exists_eq_succ_of_ne_zero hzero
        rw [solinasRepeat, hm, Function.iterate_succ_apply']
        exact length_solinasAdd

/-- Two monomials fail with either product, and otherwise add the sum of their residues. -/
theorem addFieldTerm_twice {acc : List Bool} (hlen : acc.length = k)
    (hlt : Bits.value acc < PrimeSpec.modulus ⟨k, n⟩) (s t : Term Bool) :
    ((termResidue table ty ⟨k, n⟩ s = none ∨ termResidue table ty ⟨k, n⟩ t = none) ∧
        (addFieldTerm boolRing table ty ⟨k, n⟩ acc s).bind
          (addFieldTerm boolRing table ty ⟨k, n⟩ · t) = none) ∨
      ∃ c d out, termResidue table ty ⟨k, n⟩ s = some c ∧ termResidue table ty ⟨k, n⟩ t = some d ∧
        (addFieldTerm boolRing table ty ⟨k, n⟩ acc s).bind
          (addFieldTerm boolRing table ty ⟨k, n⟩ · t) = some out ∧ out.length = k ∧
        Bits.value out = (Bits.value acc + (c + d)) % PrimeSpec.modulus ⟨k, n⟩ := by
  rcases addFieldTerm_spec hc hlen hlt s with ⟨hnone, hs⟩ | ⟨c, mid, hsome, hs, hmidLen, hmid⟩
  · left
    rw [hs]
    exact ⟨Or.inl hnone, rfl⟩
  · have hmidLt : Bits.value mid < PrimeSpec.modulus ⟨k, n⟩ := by
      rw [hmid]
      exact Nat.mod_lt _ (Nat.zero_lt_of_lt hlt)
    rw [hs, Option.bind_some]
    rcases addFieldTerm_spec hc hmidLen hmidLt t with ⟨hnone, ht⟩ | ⟨d, out, hsome', ht, hout, hval⟩
    · exact Or.inl ⟨Or.inr hnone, ht⟩
    · right
      refine ⟨c, d, out, hsome, hsome', ht, hout, ?_⟩
      rw [hval, hmid, Nat.mod_add_mod, Nat.add_assoc]

theorem addFieldTerm_comm {acc : List Bool} (hlen : acc.length = k)
    (hlt : Bits.value acc < PrimeSpec.modulus ⟨k, n⟩) (s t : Term Bool) :
    (addFieldTerm boolRing table ty ⟨k, n⟩ acc s).bind
        (addFieldTerm boolRing table ty ⟨k, n⟩ · t) =
      (addFieldTerm boolRing table ty ⟨k, n⟩ acc t).bind
        (addFieldTerm boolRing table ty ⟨k, n⟩ · s) := by
  rcases addFieldTerm_twice hc hlen hlt s t with
    ⟨hnone, hst⟩ | ⟨c, d, out, hc', hd, hst, houtLen, hout⟩ <;>
  rcases addFieldTerm_twice hc hlen hlt t s with
    ⟨hnone', hts⟩ | ⟨d', c', out', hd', hc'', hts, houtLen', hout'⟩
  · rw [hst, hts]
  · rcases hnone with hnone | hnone
    · rw [hnone] at hc''
      cases hc''
    · rw [hnone] at hd'
      cases hd'
  · rcases hnone' with hnone | hnone
    · rw [hnone] at hd
      cases hd
    · rw [hnone] at hc'
      cases hc'
  · obtain rfl := Option.some.inj (hc'.symm.trans hc'')
    obtain rfl := Option.some.inj (hd.symm.trans hd')
    rw [hst, hts]
    apply congrArg
    apply Bits.eq_of_value_eq (houtLen.trans houtLen'.symm)
    rw [hout, hout', Nat.add_comm c d]

end

section
variable {table : TypeTable} {terms terms' : List (Term Bool)}

theorem evalPrimePolyFrom_perm (hprimes : table.PrimesCanonical) {fuel : ℕ} {ty : TypeId}
    {constant : List Bool} (h : terms.Perm terms') :
    evalPrimePolyFrom boolRing table fuel ty constant terms =
      evalPrimePolyFrom boolRing table fuel ty constant terms' := by
  induction fuel generalizing ty constant terms terms' with
  | zero => rfl
  | succ fuel ih =>
      have hpart : ∀ (part : TypeId) (start width : ℕ) (c : List Bool),
          (partTerms boolRing table ty part start width terms).bind
              (evalPrimePolyFrom boolRing table fuel part c) =
            (partTerms boolRing table ty part start width terms').bind
              (evalPrimePolyFrom boolRing table fuel part c) := by
        intro part start width c
        unfold partTerms
        exact Commutation.mapM_bind_perm (fun us us' hus => ih hus) h
      rw [evalPrimePolyFrom, evalPrimePolyFrom]
      cases hget : table.get ty with
      | none => rfl
      | some t =>
          cases t with
          | vec count elem =>
              simp only [Option.bind_eq_bind, hpart]
          | tuple parts =>
              simp only [Option.bind_eq_bind, ← Option.bind_assoc, hpart]
          | primeField k n =>
              have hc : Canonical k (Limbs.value n) := hprimes k n (List.mem_of_getElem? hget)
              have hpos : 0 < PrimeSpec.modulus ⟨k, n⟩ := by
                have htwo := two_mul_offset_lt (Ir.canonical_spec hc)
                have hp : PrimeSpec.modulus ⟨k, n⟩ = 2 ^ k - PrimeSpec.offset ⟨k, n⟩ := rfl
                dsimp only at htwo
                omega
              apply Commutation.foldlM_eq_of_perm (I := fun acc =>
                acc.length = k ∧ Bits.value acc < PrimeSpec.modulus ⟨k, n⟩)
              · intro acc t out hacc hout
                have hterm := @addFieldTerm_spec table ty k n hc _ hacc.1 hacc.2 t
                rcases hterm with ⟨-, hnone⟩ | ⟨c, out', -, hsome, hlen, hval⟩
                · rw [hnone] at hout
                  cases hout
                · obtain rfl := Option.some.inj (hsome.symm.trans hout)
                  rw [hval]
                  exact ⟨hlen, Nat.mod_lt _ hpos⟩
              · exact fun acc s t hacc => addFieldTerm_comm hc hacc.1 hacc.2 s t
              · exact h
              · have hlen := Ir.length_sliceWires constant 0 k
                have hlt := Bits.value_lt (sliceWires boolRing constant 0 k)
                have htwo := two_mul_offset_lt (Ir.canonical_spec hc)
                have hp : PrimeSpec.modulus ⟨k, n⟩ = 2 ^ k - PrimeSpec.offset ⟨k, n⟩ := rfl
                dsimp only at htwo
                rw [hlen] at hlt
                refine ⟨length_solinasAdd, ?_⟩
                rw [value_solinasAdd_of_lt (Ir.canonical_spec hc)]
                · exact Nat.mod_lt _ hpos
                · have hzeros : Bits.value (List.replicate k boolRing.zero) = 0 :=
                    Bits.value_replicate_false k
                  omega
          | _ => rfl

end

namespace Ir

theorem xorInto_right_comm (acc p q : List Bool) :
    xorInto (xorInto acc p) q = xorInto (xorInto acc q) p := by
  apply List.ext_getElem
  · simp [xorInto]
  · intro i hi hi'
    simp only [xorInto, List.getElem_mapIdx, Bool.xor_assoc, Bool.xor_comm (p.getD i false)]

theorem xorInto_nil (acc : List Bool) : xorInto acc [] = acc := by
  apply List.ext_getElem
  · simp [xorInto]
  · intro i hi hi'
    simp [xorInto]

section
variable {table : TypeTable} {ty : TypeId} {terms terms' : List ValueTerm}

def termProduct (table : TypeTable) (ty : TypeId) (term : ValueTerm) : Option (List Bool) :=
  if odd term.2 then (term.1.mapM Value.factor).bind (monomialProduct boolBits table ty)
  else some []

theorem evalTypedPoly_perm (constant : Constant) (h : terms.Perm terms') :
    evalTypedPoly table ty constant terms = evalTypedPoly table ty constant terms' := by
  have hstep : (fun (acc : List Bool) (term : ValueTerm) =>
      if odd term.2 then do
        let factors ← term.1.mapM Value.factor
        let product ← monomialProduct boolBits table ty factors
        some (xorInto acc product)
      else some acc) = fun acc term => (termProduct table ty term).map (xorInto acc) := by
    funext acc term
    unfold termProduct
    split_ifs with hodd
    · cases term.1.mapM Value.factor with
      | none => rfl
      | some factors =>
          rw [Option.bind_some, Option.bind_eq_bind, Option.bind_some]
          cases monomialProduct boolBits table ty factors <;> rfl
    · rw [Option.map_some, xorInto_nil]
  unfold evalTypedPoly
  rw [hstep]
  apply Commutation.foldlM_eq_of_perm (I := fun _ => True) (fun _ _ _ _ _ => trivial) _ h trivial
  intro acc s t _
  cases termProduct table ty s <;> cases termProduct table ty t <;>
    simp [xorInto_right_comm acc]

theorem evalBitPoly_perm (constant : Constant) (width : ℕ) (h : terms.Perm terms') :
    evalBitPoly constant width terms = evalBitPoly constant width terms' := by
  unfold evalBitPoly
  apply List.map_congr_left
  intro k _
  apply h.foldl_eq'
  intro s _ t _ acc
  split_ifs
  · exact Bool.xor_right_comm _ _ _
  all_goals rfl

theorem evalTerms_perm (hprimes : table.containsPrimeField ty = true → table.PrimesCanonical)
    (constant : Constant) (h : terms.Perm terms') :
    evalTerms table ty constant terms = evalTerms table ty constant terms' := by
  unfold evalTerms
  dsimp only
  split_ifs with hprime
  · exact Commutation.mapM_bind_perm
      (fun us us' hus => evalPrimePolyFrom_perm (hprimes hprime) hus) h
  · rw [evalBitPoly_perm constant _ h]
  · exact evalTypedPoly_perm constant h

end

theorem iter_fromIter_perm {l : List (List ℕ × U8)} (h : (l.map Prod.fst).Nodup) :
    (Common.PolyCoeffs.fromIter l).iter.Perm l := by
  have hstored : ((Common.PolyCoeffs.stored l).map Prod.fst).Nodup := by
    have hkeys : (Common.PolyCoeffs.stored l).map Prod.fst =
        (l.map Prod.fst).map Common.PolyKey.fromVec := by
      simp [Common.PolyCoeffs.stored, Function.comp_def]
    rw [hkeys]
    exact h.map Common.PolyKey.fromVec_injective
  have hperm : (Common.PolyCoeffs.fromIter l).entries.Perm (Common.PolyCoeffs.stored l) := by
    have hentries : (Common.PolyCoeffs.fromIter l).entries =
        (SortedMap.ofList (Common.PolyCoeffs.stored l)).entries := SortedMap.compact_sortByKey _
    rw [hentries]
    exact SortedMap.perm_ofList hstored
  have hiter : (Common.PolyCoeffs.stored l).map (fun e => (e.1.asSlice, e.2)) = l := by
    simp [Common.PolyCoeffs.stored, Function.comp_def]
  rw [← hiter]
  simpa [Common.PolyCoeffs.iter, hiter] using hperm.map fun e => (e.1.asSlice, e.2)

namespace StoredStmt
variable {g g' : ℕ → ℕ} {s t : StoredStmt}

theorem Renamed.operands_subset (h : Renamed g s t) : t.operands ⊆ s.operands.map g := by
  cases h with
  | @poly ty coeffs coeffs' constant perm =>
      intro v hv
      obtain ⟨e, he, hve⟩ := List.mem_flatMap.mp hv
      obtain ⟨d, hd, rfl⟩ := List.mem_map.mp (perm.mem_iff.mp he)
      obtain ⟨u, hu, rfl⟩ := List.mem_map.mp hve
      exact List.mem_map_of_mem (List.mem_flatMap.mpr ⟨d, hd, hu⟩)
  | plain s => exact IRStmt.operands_mapVars_subset g s.1

theorem Renamed.congr (h : Renamed g s t) (heq : ∀ v ∈ s.operands, g' v = g v) :
    Renamed g' s t := by
  cases h with
  | @poly ty coeffs coeffs' constant perm =>
      have hsame : coeffs.iter.map (fun e => (e.1.map g', e.2)) =
          coeffs.iter.map fun e => (e.1.map g, e.2) := by
        apply List.map_congr_left
        intro e he
        rw [List.map_congr_left fun v hv => heq v (List.mem_flatMap.mpr ⟨e, he, hv⟩)]
      exact .poly (hsame ▸ perm)
  | plain s =>
      have hsame : (StoredStmt.plain s).mapVars g = (StoredStmt.plain s).mapVars g' :=
        congrArg StoredStmt.plain (Subtype.ext (IRStmt.mapVars_congr fun v hv => (heq v hv).symm))
      rw [hsame]
      exact .plain s

theorem renamed_self (h : ∀ v ∈ s.operands, g v = v) : Renamed g s s := by
  cases s with
  | poly ty coeffs constant =>
      have hsame : coeffs.iter.map (fun e => (e.1.map g, e.2)) = coeffs.iter := by
        refine (List.map_congr_left fun e he => ?_).trans (List.map_id _)
        have hkey : e.1.map g = e.1 := (List.map_congr_left fun v hv =>
          h v (List.mem_flatMap.mpr ⟨e, he, hv⟩)).trans (List.map_id _)
        rw [hkey]
        rfl
      apply Renamed.poly
      rw [hsame]
  | plain s =>
      have hsame : (StoredStmt.plain s).mapVars g = .plain s :=
        congrArg StoredStmt.plain (Subtype.ext (IRStmt.mapVars_eq_self h))
      have hrenamed := Renamed.plain (g := g) s
      rwa [hsame] at hrenamed

theorem renamed_mapVars (hg : StrictOn g s.operands)
    (hkeys : ∀ ty coeffs constant, s = .poly ty coeffs constant → coeffs.keys.Nodup) :
    Renamed g s (s.mapVars g) := by
  cases s with
  | poly ty coeffs constant =>
      apply Renamed.poly
      apply iter_fromIter_perm
      have hmap : (coeffs.iter.map fun e => (e.1.map g, e.2)).map Prod.fst =
          coeffs.keys.map (List.map g) := by
        simp [Common.PolyCoeffs.keys, Function.comp_def]
      rw [hmap]
      apply (hkeys ty coeffs constant rfl).map_on
      intro x hx y hy heq
      have hsub : ∀ {x y}, x ∈ coeffs.keys → y ∈ coeffs.keys →
          x ++ y ⊆ (StoredStmt.poly ty coeffs constant).operands := by
        intro x y hx hy v hv
        obtain ⟨d, hd, rfl⟩ := List.mem_map.mp hx
        obtain ⟨e, he, rfl⟩ := List.mem_map.mp hy
        rcases List.mem_append.mp hv with hv | hv
        · exact List.mem_flatMap.mpr ⟨d, hd, hv⟩
        · exact List.mem_flatMap.mpr ⟨e, he, hv⟩
      rcases lt_trichotomy x y with hlt | rfl | hlt
      · exact absurd heq (StrictOn.map_lt (hg.subset (hsub hx hy)) hlt).ne
      · rfl
      · exact absurd heq.symm (StrictOn.map_lt (hg.subset (hsub hy hx)) hlt).ne
  | plain s => exact .plain s

theorem Renamed.eval {table : TypeTable} (h : Renamed g s t) (hg : StrictOn g s.operands)
    (hprimes : ∀ ty coeffs constant, s = .poly ty coeffs constant →
      table.containsPrimeField ty = true → table.PrimesCanonical)
    (world : Externals) (σ : EvalState) (look : ℕ → Value) :
    t.eval table world σ look = s.eval table world σ fun v => look (g v) := by
  cases h with
  | @poly ty coeffs coeffs' constant perm =>
      have hterms : (storedTerms coeffs' look).Perm (storedTerms coeffs fun v => look (g v)) := by
        have hmap := perm.map fun e : List ℕ × U8 => (e.1.map look, e.2)
        simpa [storedTerms, Function.comp_def] using hmap
      simp only [StoredStmt.eval, evalTerms_perm (hprimes ty coeffs constant rfl) constant hterms]
  | plain s => exact evalStmt_mapVars table world σ look hg

end StoredStmt

/-- `t` is `s` renamed, and computes what `s` does under the renaming. -/
structure Follows (table : TypeTable) (g : ℕ → ℕ) (s t : StoredStmt) : Prop where
  renamed : StoredStmt.Renamed g s t
  eval : ∀ (world : Externals) (σ : EvalState) (look : ℕ → Value),
    t.eval table world σ look = s.eval table world σ fun v => look (g v)

section
variable {table : TypeTable} {g : ℕ → ℕ} {s : StoredStmt}

theorem follows_self (h : ∀ v ∈ s.operands, g v = v) : Follows table g s s where
  renamed := StoredStmt.renamed_self h
  eval world σ look := s.eval_congr table world σ fun v hv => by rw [h v hv]

theorem follows_mapVars (hg : StrictOn g s.operands)
    (hkeys : ∀ ty coeffs constant, s = .poly ty coeffs constant →
      coeffs.keys.Nodup ∧ (table.containsPrimeField ty = true → table.PrimesCanonical)) :
    Follows table g s (s.mapVars g) where
  renamed := StoredStmt.renamed_mapVars hg fun ty coeffs c h => (hkeys ty coeffs c h).1
  eval := (StoredStmt.renamed_mapVars hg fun ty coeffs c h => (hkeys ty coeffs c h).1).eval hg
    fun ty coeffs c h => (hkeys ty coeffs c h).2

end

end Ir
end VolarIR
