import VolarIR.Ir.Typing

/-!
# Volar IR common-subexpression elimination

`cse_ir_blocks_with_remap` of `volar-ir-opt/src/ir.rs`: one forward sweep over each block sends
a pure statement that was already computed to the var that holds it and compacts the rest.
Every operand goes through the table of new vars, and the monomials of a `Poly` are collected
again on the way.
-/
namespace VolarIR.Ir

/-- `remap.get(&v).unwrap_or(&v)`; the table lists the new number of each var in turn. -/
def remapped (remap : List ℕ) (v : ℕ) : ℕ := remap.getD v v

def remapMonomial (remap : List ℕ) (mono : List ℕ) : List ℕ :=
  (mono.map (remapped remap)).insertionSort (· ≤ ·)

def collectOdd (terms : List (List ℕ × U8)) : PolyCoeffs :=
  (terms.foldl (fun (acc : PolyCoeffs) t => acc.upsert t.1 fun old => old.getD 0 ^^^ t.2)
    .empty).filter fun e => odd e.2

/-- `remap_stmt_operands`. -/
def remapStmtOperands (remap : List ℕ) : IRStmt → IRStmt
  | .poly ty coeffs constant =>
      .poly ty (collectOdd (coeffs.entries.map fun e => (remapMonomial remap e.1, e.2))) constant
  | s => s.mapVars (remapped remap)

def IRStmt.isPure : IRStmt → Bool
  | .poly .. | .merge .. | .shuffle .. | .rol .. | .ror .. | .splat .. | .transmute ..
  | .const .. => true
  | _ => false

structure CseState (P : Type) where
  remap : List ℕ
  canonMap : List ((ℕ × IRStmt) × ℕ)
  newStmts : List (Node IRStmt P)
  changed : Bool

section
variable {P : Type}

/-- One statement of the sweep, in its region. -/
def cseStmt (nParams region oldVar : ℕ) (st : CseState P) (node : Node IRStmt P) : CseState P :=
  let kind := remapStmtOperands st.remap node.kind
  match if kind.isPure then st.canonMap.lookup (region, kind) else none with
  | some existing => { st with remap := st.remap ++ [existing], changed := true }
  | none =>
      let newVar := nParams + st.newStmts.length
      { remap := st.remap ++ [newVar]
        canonMap := if kind.isPure then ((region, kind), newVar) :: st.canonMap else st.canonMap
        newStmts := st.newStmts ++ [{ node with kind := kind }]
        changed := st.changed || decide (newVar ≠ oldVar) || decide (kind ≠ node.kind) }

/-- The sweep before statement `n`. -/
def cseState (regionOf : ℕ → ℕ) (block : IRBlock P) (n : ℕ) : CseState P :=
  (block.stmts.zipIdx.take n).foldl (fun st e =>
      cseStmt block.params.length (regionOf e.2) (block.params.length + e.2) st e.1)
    ⟨List.range block.params.length, [], [], false⟩

/-- `cse_ir_block_once`; without regions all statements are of region 0. -/
def cseBlockOnce (regionOf : ℕ → ℕ) (block : IRBlock P) : IRBlock P × Bool × List ℕ :=
  let st := cseState regionOf block block.stmts.length
  if st.changed then
    (⟨block.params, st.newStmts, block.terminator.mapVars (remapped st.remap)⟩, true, st.remap)
  else (block, false, st.remap)

/-- `cse_ir_blocks_with_remap`; `cse_ir_blocks` drops the tables. -/
def cseBlocks (blocks : IRBlocks P) : IRBlocks P × Bool × List (List ℕ) :=
  let swept := blocks.blocks.map (cseBlockOnce fun _ => 0)
  (⟨swept.map Prod.fst⟩, swept.any (·.2.1), swept.map (·.2.2))

end

def keptCount (counts : List U8) : ℕ :=
  let combined := counts.foldl (· ^^^ ·) 0
  if odd combined then combined.toNat else 0

/-- Where a polynomial over a prime field is rebuilt with the counts it had: for each monomial
the combined coefficient is the sum of the coefficients that became it, modulo the prime. -/
def CountsKept (table : TypeTable) (remap : List ℕ) : IRStmt → Prop
  | .poly ty coeffs _ =>
      let terms := coeffs.entries.map fun e => (remapMonomial remap e.1, e.2)
      ∀ p ∈ moduli table ty, ∀ t ∈ terms, let counts := SortedMap.valuesAt t.1 terms
        (counts.map BitVec.toNat).sum ≡ keptCount counts [MOD p]
  | _ => True

end VolarIR.Ir

/-!
## Common-subexpression elimination: values

A rebuilt polynomial has the value of the original wherever its counts are kept, and the sweep
sends every var to a new var with its value.
-/
namespace VolarIR.Ir

section
variable {R : Type} [CommRing R]

theorem foldl_xor_some (counts : List U8) (c : U8) :
    counts.foldl (fun old c => some (old.getD 0 ^^^ c)) (some c) =
      some (counts.foldl (· ^^^ ·) c) := by
  induction counts generalizing c with
  | nil => rfl
  | cons d rest ih => exact ih (c ^^^ d)

theorem sumAt_collectOdd (y : ℕ → R) {terms : List (List ℕ × U8)}
    (h : ∀ t ∈ terms, (keptCount (SortedMap.valuesAt t.1 terms) : R) =
      (((SortedMap.valuesAt t.1 terms).map BitVec.toNat).sum : ℕ)) :
    sumAt y (collectOdd terms).entries = sumAt y terms := by
  let combined : PolyCoeffs := terms.foldl (fun (acc : PolyCoeffs) t =>
    acc.upsert t.1 fun old => old.getD 0 ^^^ t.2) .empty
  let weight : List ℕ → U8 → R := fun mono c => c.toNat * (mono.map y).prod
  let kept : List ℕ → U8 → R := fun mono c => if odd c then weight mono c else 0
  let keys : Finset (List ℕ) := (terms.map Prod.fst ++ combined.entries.map Prod.fst).toFinset
  have hfilter : ∀ l : List (List ℕ × U8),
      SortedMap.total weight (l.filter fun e => odd e.2) = SortedMap.total kept l := by
    intro l
    induction l with
    | nil => rfl
    | cons e rest ih =>
        rw [SortedMap.total_cons, ← ih]
        cases hodd : odd e.2 <;> simp [kept, hodd]
  have hkey : ∀ mono ∈ keys, ((SortedMap.valuesAt mono combined.entries).map (kept mono)).sum =
      ((SortedMap.valuesAt mono terms).map (weight mono)).sum := by
    intro mono _
    have hget : combined.get mono = (SortedMap.valuesAt mono terms).foldl
        (fun old c => some (old.getD 0 ^^^ c)) none :=
      SortedMap.get_foldl_upsert (fun c old => old.getD 0 ^^^ c) terms mono .empty
    have hsum : ∀ counts : List U8, (counts.map (weight mono)).sum =
        ((counts.map BitVec.toNat).sum : ℕ) * (mono.map y).prod := by
      intro counts
      induction counts with
      | nil => simp
      | cons c rest ih => simp [weight, ih, add_mul]
    rw [SortedMap.valuesAt_entries, hget, hsum]
    cases hcounts : SortedMap.valuesAt mono terms with
    | nil => simp
    | cons c rest =>
        have hstart : (0 : U8) ^^^ c = c := BitVec.zero_xor
        have hmem : c ∈ SortedMap.valuesAt mono terms := by
          rw [hcounts]
          exact List.mem_cons_self
        have hcount := h (mono, c) (SortedMap.mem_valuesAt.mp hmem)
        rw [hcounts] at hcount
        rw [List.foldl_cons, Option.getD_none, foldl_xor_some, ← hcount]
        simp only [Option.toList_some, List.map_singleton, List.sum_singleton, kept, weight,
          keptCount, List.foldl_cons, hstart]
        split_ifs <;> simp
  have hcombined : ∀ e ∈ combined.entries, e.1 ∈ keys := fun e he => List.mem_toFinset.mpr
    (List.mem_append_right _ (List.mem_map_of_mem he))
  have hterms : ∀ t ∈ terms, t.1 ∈ keys := fun t ht => List.mem_toFinset.mpr
    (List.mem_append_left _ (List.mem_map_of_mem ht))
  calc sumAt y (collectOdd terms).entries
      = SortedMap.total kept combined.entries := hfilter combined.entries
    _ = ∑ mono ∈ keys, ((SortedMap.valuesAt mono combined.entries).map (kept mono)).sum :=
        SortedMap.total_eq_sum hcombined
    _ = ∑ mono ∈ keys, ((SortedMap.valuesAt mono terms).map (weight mono)).sum :=
        Finset.sum_congr rfl hkey
    _ = sumAt y terms := (SortedMap.total_eq_sum hterms).symm

theorem cast_keptCount_of_two (h : (2 : R) = 0) (counts : List U8) :
    (keptCount counts : R) = ((counts.map BitVec.toNat).sum : ℕ) := by
  have hkept : (keptCount counts : R) = ((counts.foldl (· ^^^ ·) 0).toNat : R) := by
    unfold keptCount
    dsimp only
    split_ifs with hodd
    · rfl
    · rw [cast_toNat_of_two h, if_neg hodd, Nat.cast_zero]
  have hxor : ∀ c d : U8, odd (c ^^^ d) = (odd c ^^ odd d) := fun c d => BitVec.getLsbD_xor
  have hfold : ∀ (counts : List U8) (c : U8), ((counts.foldl (· ^^^ ·) c).toNat : R) =
      c.toNat + ((counts.map BitVec.toNat).sum : ℕ) := by
    intro counts
    induction counts with
    | nil => simp
    | cons d rest ih =>
        intro c
        have hsplit : ((c ^^^ d).toNat : R) = c.toNat + d.toNat := by
          rw [cast_toNat_of_two h, cast_toNat_of_two h, cast_toNat_of_two h, hxor]
          have htwo : (1 : R) + 1 = 0 := by rw [one_add_one_eq_two, h]
          cases odd c <;> cases odd d <;> simp [htwo]
        rw [List.foldl_cons, ih, hsplit, List.map_cons, List.sum_cons, Nat.cast_add, add_assoc]
  rw [hkept, hfold]
  simp

theorem cast_eq_of_modEq {p m n : ℕ} (hzero : (p : R) = 0) (h : m ≡ n [MOD p]) :
    (m : R) = n := by
  have hsplit : ∀ k : ℕ, (k : R) = ((k % p : ℕ) : R) := by
    intro k
    conv_lhs => rw [← Nat.mod_add_div k p]
    rw [Nat.cast_add, Nat.cast_mul, hzero, zero_mul, add_zero]
  rw [hsplit m, hsplit n, h]

theorem sumAt_remapMonomial (y : ℕ → R) (remap : List ℕ) (terms : List (List ℕ × U8)) :
    sumAt y (terms.map fun t => (remapMonomial remap t.1, t.2)) =
      sumAt (y ∘ remapped remap) terms := by
  induction terms with
  | nil => rfl
  | cons t rest ih =>
      have hperm := ((t.1.map (remapped remap)).perm_insertionSort (· ≤ ·)).map y
      rw [List.map_cons, sumAt_cons, ih, sumAt_cons, remapMonomial, hperm.prod_eq, List.map_map]

end

section
variable {table : TypeTable} {remap : List ℕ} {look look' : ℕ → Value}

theorem sumAt_factorTerms {R : Type} [CommRing R] (x : Factor Bool → R) (coeffs : PolyCoeffs)
    (look : ℕ → Value) : sumAt x (factorTerms (PolyCoeffs.terms coeffs look)) =
      sumAt (fun v => x (look v).asFactor) coeffs.entries := by
  have hterms : factorTerms (PolyCoeffs.terms coeffs look) =
      coeffs.entries.map fun e => (e.1.map fun v => (look v).asFactor, e.2) := by
    simp [factorTerms, PolyCoeffs.terms, Function.comp_def]
  rw [hterms, sumAt_map]
  rfl

/-- A rebuilt polynomial with kept counts sums to the same at every valuation. -/
theorem CountsKept.sameSums {ty : TypeId} {coeffs : PolyCoeffs} {c : Constant}
    (h : CountsKept table remap (.poly ty coeffs c))
    (hlook : ∀ e ∈ coeffs.entries, ∀ v ∈ e.1, look' (remapped remap v) = look v) :
    SameSums table ty
      (factorTerms (PolyCoeffs.terms
        (collectOdd (coeffs.entries.map fun e => (remapMonomial remap e.1, e.2))) look'))
      (factorTerms (PolyCoeffs.terms coeffs look)) := by
  intro R _ x hx
  rw [sumAt_factorTerms, sumAt_factorTerms, sumAt_collectOdd, sumAt_remapMonomial]
  · apply sumAt_congr
    intro e he v hv
    rw [Function.comp_apply, hlook e he v hv]
  · intro t ht
    have hchar := hx.char
    unfold CharOf at hchar
    split_ifs at hchar
    · obtain ⟨p, hp, hzero⟩ := hchar
      have hcount := h p hp t ht
      exact (cast_eq_of_modEq hzero hcount).symm
    · exact cast_keptCount_of_two hchar _

theorem exists_of_mem_collectOdd {terms : List (List ℕ × U8)} {e : List ℕ × U8}
    (he : e ∈ (collectOdd terms).entries) : ∃ t ∈ terms, t.1 = e.1 := by
  have hkeys : ∀ (terms : List (List ℕ × U8)) (m : PolyCoeffs) (mono : List ℕ),
      mono ∈ (terms.foldl (fun (acc : PolyCoeffs) t =>
        acc.upsert t.1 fun old => old.getD 0 ^^^ t.2) m).entries.map Prod.fst →
      mono ∈ m.entries.map Prod.fst ∨ ∃ t ∈ terms, t.1 = mono := by
    intro terms
    induction terms with
    | nil => exact fun _ _ h => .inl h
    | cons t rest ih =>
        intro m mono h
        rcases ih _ mono h with h | ⟨u, hu, hmono⟩
        · rcases SortedMap.mem_keys_upsertList.mp h with rfl | h
          · exact .inr ⟨t, List.mem_cons_self, rfl⟩
          · exact .inl h
        · exact .inr ⟨u, List.mem_cons_of_mem t hu, hmono⟩
  have hmem := List.mem_map_of_mem (f := Prod.fst) (List.mem_of_mem_filter he)
  rcases hkeys terms .empty e.1 hmem with h | h
  · cases h
  · exact h

end

section
variable {table : TypeTable} (world : Externals) {remap : List ℕ} {look' : ℕ → Value}
  {kinds : List VarKind} {f : Ssa.Frame Value EvalState}

theorem evalStmt_remap (hf : FrameFits table kinds f) {s : IRStmt}
    (htyped : StmtTyped table kinds s) (hkept : CountsKept table remap s)
    (hlook : ∀ v ∈ s.operands, look' (remapped remap v) = Ssa.look f.vals v) (σ : EvalState) :
    evalStmt table world σ look' (remapStmtOperands remap s) =
      evalStmt table world σ (Ssa.look f.vals) s := by
  have hcongr := evalKind_congr table world s σ hlook
  cases s with
  | poly ty coeffs c =>
      have hvars : ∀ e ∈ coeffs.entries, ∀ v ∈ e.1,
          look' (remapped remap v) = Ssa.look f.vals v := fun e he v hv =>
        hlook v (List.mem_flatMap.mpr ⟨e, he, hv⟩)
      have hterms : ∀ t ∈ PolyCoeffs.terms (collectOdd (coeffs.entries.map fun e =>
          (remapMonomial remap e.1, e.2))) look', ∀ v ∈ t.1, ValueFits table ty v := by
        intro t ht v hv
        obtain ⟨e, he, rfl⟩ := List.mem_map.mp ht
        obtain ⟨u, hu, rfl⟩ := List.mem_map.mp hv
        obtain ⟨d, hd, hde⟩ := exists_of_mem_collectOdd he
        obtain ⟨old, hold, rfl⟩ := List.mem_map.mp hd
        rw [← hde, remapMonomial, List.mem_insertionSort] at hu
        obtain ⟨w, hw, rfl⟩ := List.mem_map.mp hu
        rw [hvars old hold w hw]
        obtain ⟨fty, hkind, hfty⟩ := htyped.2 old hold w hw
        exact hf.valueFits hkind hfty
      have hvalue := evalTerms_congr htyped.1 c hterms (hf.terms htyped)
        (CountsKept.sameSums hkept hvars)
      simp only [evalStmt, remapStmtOperands, evalKind, IRStmt.outputType, hvalue]
  | _ =>
      simp only [evalStmt, ← hcongr, remapStmtOperands]
      simp [IRStmt.mapVars, evalKind, IRStmt.outputType, Function.comp_def]

theorem evalStmt_pure {s : IRStmt} (h : s.isPure = true) (σ σ' : EvalState) (look : ℕ → Value) :
    evalStmt table world σ look s = ((evalStmt table world σ' look s).1, σ) := by
  cases s <;> first | rfl | cases h

end

end VolarIR.Ir
