import VolarIR.Ir.TableGrowth
import VolarIR.Movfuscate.TypedTargets

/-!
# Programs without block references

What it takes for a program of bits, fields and vectors to be well typed, and that it runs
the same once the pass has put its own types into the type table.
-/
namespace VolarIR.Movfuscate
open Ir

/-- A well-typed statement without block references. -/
structure PlainStmt (types : TypeTable) (kinds : List VarKind) (s : IRStmt) : Prop where
  typed : StmtTyped types kinds s
  operands : ∀ v ∈ plainOperands s, PlainVar types kinds v
  values : ∀ ty ∈ valueTypes s, BinaryType types ty
  stored : ∀ storage src ty addr, s = .storageWrite storage src ty addr →
    kindAt kinds src = .data ty
  sorted : ∀ ty coeffs c, s = .poly ty coeffs c → ∀ e ∈ coeffs.entries, e.1.Pairwise (· ≤ ·)

def PlainStmts (types : TypeTable) (kinds : List VarKind) : List IRStmt → Prop
  | [] => True
  | s :: rest => PlainStmt types kinds s ∧ PlainStmts types (kinds ++ [s.varKind]) rest

section
variable {P : Type} (types : TypeTable) (p : IRBlocks P) (retTys : List TypeId)

def PlainTarget (kinds : List VarKind) (t : IRBranchTarget) : Prop :=
  match t.dest with
  | .ret => List.Forall₂ (HasType kinds) t.args retTys
  | .block j => ∃ b, p.blocks[j]? = some b ∧ List.Forall₂ (HasType kinds) t.args b.params
  | .dyn _ => False

/-- `Jmp`, and `JumpCond` on a bit. -/
def PlainTerminator (kinds : List VarKind) : IRTerminator → Prop
  | .jmp t => PlainTarget p retTys kinds t
  | .jumpCond condition t e =>
      (∃ ty, kindAt kinds condition = .data ty ∧ types.isBit ty = true) ∧
        PlainTarget p retTys kinds t ∧ PlainTarget p retTys kinds e
  | .jumpTable _ _ => False

structure PlainBlock (b : IRBlock P) : Prop where
  params : ∀ ty ∈ b.params, BinaryType types ty
  stmts : PlainStmts types (b.params.map .data) b.kinds
  terminator : PlainTerminator types p retTys b.varKinds b.terminator

end

def PlainCells (types : TypeTable) (storage : StorageMap) : Prop :=
  ∀ cell bits, storage cell = some bits →
    BinaryType types cell.2.1 ∧ bits.length = types.bitWidth cell.2.1

section
variable {types types' : TypeTable} {kinds : List VarKind} {s : IRStmt} {world : Externals}
  {f : Ssa.Frame Value EvalState}

theorem PlainStmt.dataType (h : PlainStmt types kinds s) {ty : TypeId}
    (hkind : s.varKind = .data ty) : BinaryType types ty := by
  apply h.values ty
  cases s <;> simp_all [IRStmt.varKind, valueTypes, IRStmt.outputType]

theorem PlainStmt.fits (h : PlainStmt types kinds s) (hgrows : types.Grows types') (bound : ℕ) :
    StmtFits types' bound kinds s where
  typed := by
    have htyped := h.typed
    cases s with
    | poly ty coeffs c =>
        have hty := h.values ty (by simp [valueTypes, IRStmt.outputType])
        refine ⟨(binaryType_grows hgrows hty).polyType, ?_⟩
        intro e he v hv
        obtain ⟨fty, hkind, hfactor⟩ := htyped.2 e he v hv
        have hplain := h.operands v (List.mem_flatMap.mpr ⟨e, he, hv⟩)
        obtain ⟨vty, hvkind, hvty⟩ := hplain
        obtain rfl := VarKind.data.inj (hkind.symm.trans hvkind)
        exact ⟨fty, hkind, factorTyped_grows hgrows hty hvty hfactor⟩
    | oracleOutput | actionOutput | actionCall => exact htyped
    | _ => trivial
  operands v hv := by
    obtain ⟨ty, hkind, hty⟩ := h.operands v hv
    exact ⟨ty, hkind, binaryType_grows hgrows hty⟩
  values ty hty := .inl (binaryType_grows hgrows (h.values ty hty))
  stored := h.stored
  named c ty hconst hblock := by
    subst hconst
    have hty := h.values ty (by simp [valueTypes, IRStmt.outputType])
    rw [isBlockType_of_binary (binaryType_grows hgrows hty)] at hblock
    cases hblock
  sorted := h.sorted

theorem PlainStmts.fits {stmts : List IRStmt} (h : PlainStmts types kinds stmts)
    (hgrows : types.Grows types') (bound : ℕ) : StmtsFit types' bound kinds stmts := by
  induction stmts generalizing kinds with
  | nil => trivial
  | cons s stmts ih => exact ⟨h.1.fits hgrows bound, ih h.2⟩

theorem PlainStmts.typed {stmts : List IRStmt} (h : PlainStmts types kinds stmts)
    (hgrows : types.Grows types') : StmtsTyped types' kinds stmts := by
  induction stmts generalizing kinds with
  | nil => trivial
  | cons s stmts ih => exact ⟨(h.1.fits hgrows 0).typed, ih h.2⟩

theorem PlainStmts.mem {stmts : List IRStmt} (h : PlainStmts types kinds stmts)
    (hs : s ∈ stmts) : ∃ more, PlainStmt types (kinds ++ more) s := by
  induction stmts generalizing kinds with
  | nil => cases hs
  | cons t stmts ih =>
      cases hs with
      | head => exact ⟨[], by rw [List.append_nil]; exact h.1⟩
      | tail _ hs =>
          obtain ⟨more, hmore⟩ := ih h.2 hs
          exact ⟨t.varKind :: more, by rwa [List.append_cons]⟩

theorem callOutputs_grows (hgrows : types.Grows types') (answer : ℕ → List Bool)
    {outputTys : List TypeId} (htys : ∀ ty ∈ outputTys, BinaryType types ty) :
    callOutputs types' answer outputTys = callOutputs types answer outputTys := by
  apply List.ext_getElem
  · simp [callOutputs]
  · intro i hi hi'
    simp only [callOutputs, List.getElem_mapIdx]
    rw [bitWidth_grows hgrows (htys _ (List.getElem_mem _))]

theorem storeTargets_grows (hgrows : types.Grows types') (storage : StorageMap)
    (outputs : List (List Bool)) {outputTys : List TypeId}
    (htys : ∀ ty ∈ outputTys, BinaryType types ty) (targets : List (StorageId × Value)) :
    storeTargets types' storage outputs outputTys targets =
      storeTargets types storage outputs outputTys targets := by
  unfold storeTargets
  have hall : ∀ e ∈ outputs.zip (outputTys.zip targets), BinaryType types e.2.1 := by
    intro e he
    exact htys _ (List.of_mem_zip (List.of_mem_zip he).2).1
  generalize outputs.zip (outputTys.zip targets) = stores at hall ⊢
  induction stores generalizing storage with
  | nil => rfl
  | cons e rest ih =>
      rw [List.foldl_cons, List.foldl_cons, bitWidth_grows hgrows (hall e List.mem_cons_self)]
      exact ih _ fun e' he' => hall e' (List.mem_cons_of_mem e he')

theorem actionOutputs_grows (hgrows : types.Grows types') (done : List ActionRecord)
    (name : String) (guard : Bool) (args fallbacks : List Value) {outputTys : List TypeId}
    (htys : ∀ ty ∈ outputTys, BinaryType types ty) :
    actionOutputs types' world done name guard args fallbacks outputTys =
      actionOutputs types world done name guard args fallbacks outputTys := by
  unfold actionOutputs
  simp only [callOutputs_grows hgrows _ htys]

theorem PlainStmt.evalTerms_grows {ty : TypeId} {coeffs : PolyCoeffs} {c : Constant}
    (h : PlainStmt types kinds (.poly ty coeffs c)) (hgrows : types.Grows types')
    (hf : FrameFits types' kinds f) :
    evalTerms types' ty c (PolyCoeffs.terms coeffs (Ssa.look f.vals)) =
      evalTerms types ty c (PolyCoeffs.terms coeffs (Ssa.look f.vals)) := by
  have hty := h.values ty (by simp [valueTypes, IRStmt.outputType])
  apply Ir.evalTerms_grows hgrows hty
  intro t ht v hv
  obtain ⟨e, he, rfl⟩ := List.mem_map.mp ht
  obtain ⟨u, hu, rfl⟩ := List.mem_map.mp hv
  obtain ⟨fty, hkind, hfactor⟩ := h.typed.2 e he u hu
  obtain ⟨uty, hukind, huty⟩ := h.operands u (List.mem_flatMap.mpr ⟨e, he, hu⟩)
  obtain rfl := VarKind.data.inj (hkind.symm.trans hukind)
  have hvar := hf.var u (lt_of_kindAt_data hkind)
  rw [hkind] at hvar
  obtain ⟨hvty, hlen⟩ := hvar
  rw [bitWidth_grows hgrows huty] at hlen
  have hasFactor : (Ssa.look f.vals u).asFactor = (fty, (Ssa.look f.vals u).bits) := by
    rw [Value.asFactor, hvty]
    rfl
  refine ⟨⟨by rw [hvty]; rfl, ?_, ?_⟩, fty, hvty, huty⟩
  · rw [hasFactor]
    exact hfactor
  · rw [hasFactor]
    exact hlen

variable (world) in
theorem PlainStmt.evalStmt_grows (h : PlainStmt types kinds s) (hgrows : types.Grows types')
    (hf : FrameFits types' kinds f) :
    evalStmt types' world f.st (Ssa.look f.vals) s =
      evalStmt types world f.st (Ssa.look f.vals) s := by
  have hwidth : ∀ ty ∈ valueTypes s, types'.bitWidth ty = types.bitWidth ty :=
    fun ty hty => bitWidth_grows hgrows (h.values ty hty)
  have hkind : evalKind types' world f.st (Ssa.look f.vals) s =
      evalKind types world f.st (Ssa.look f.vals) s := by
    cases s with
    | poly ty coeffs c => simp only [evalKind, h.evalTerms_grows hgrows hf]
    | oracleCall name args outputTys resultTy =>
        have htys : ∀ ty ∈ outputTys, BinaryType types ty := h.values
        simp only [evalKind, callOutputs_grows hgrows _ htys]
    | actionCall name guard args fallbacks outputTys resultTy =>
        have htys : ∀ ty ∈ outputTys, BinaryType types ty := h.values
        simp only [evalKind, actionOutputs_grows hgrows _ _ _ _ _ htys]
    | actionStore name guard args fallbacks outputTys targets =>
        have htys : ∀ ty ∈ outputTys, BinaryType types ty := h.values
        simp only [evalKind, actionOutputs_grows hgrows _ _ _ _ _ htys,
          storeTargets_grows hgrows _ _ htys]
    | _ => simp_all [evalKind, valueTypes, IRStmt.outputType]
  simp only [evalStmt, hkind]

variable (world) in
theorem PlainStmts.run_grows {stmts : List IRStmt} (h : PlainStmts types kinds stmts)
    (hgrows : types.Grows types') (hf : FrameFits types' kinds f) :
    (language types' world).run f stmts = (language types world).run f stmts := by
  induction stmts generalizing kinds f with
  | nil => rfl
  | cons s stmts ih =>
      have hstep : (language types' world).step f s = (language types world).step f s := by
        have heval := h.1.evalStmt_grows world hgrows hf
        simp only [Ssa.Language.step, language, heval]
      have hnext := hf.step world (h.1.fits hgrows 0).typed
      rw [Ssa.Language.run_cons, Ssa.Language.run_cons, ← hstep]
      exact ih h.2 hnext

theorem plainCells_start : PlainCells types EvalState.start.storage := by
  intro cell bits hbits
  cases hbits

theorem PlainCells.write {storage : StorageMap} (h : PlainCells types storage) {cell : Cell}
    {bits : List Bool} (hty : BinaryType types cell.2.1)
    (hlen : bits.length = types.bitWidth cell.2.1) :
    PlainCells types (Function.update storage cell (some bits)) := by
  intro cell' bits' hbits'
  rw [Function.update_apply] at hbits'
  split_ifs at hbits' with hsame
  · cases hbits'
    subst hsame
    exact ⟨hty, hlen⟩
  · exact h cell' bits' hbits'

theorem PlainCells.storageFits {σ : EvalState} (h : PlainCells types σ.storage)
    (hgrows : types.Grows types') : StorageFits types' σ := by
  intro storage ty addr bits hbits
  obtain ⟨hty, hlen⟩ := h (storage, ty, addr) bits hbits
  rw [bitWidth_grows hgrows hty]
  exact hlen

theorem PlainCells.storeTargets {storage : StorageMap} (h : PlainCells types storage)
    (outputs : List (List Bool)) {outputTys : List TypeId}
    (htys : ∀ ty ∈ outputTys, BinaryType types ty) (targets : List (StorageId × Value)) :
    PlainCells types (storeTargets types storage outputs outputTys targets) := by
  unfold Ir.storeTargets
  have hall : ∀ e ∈ outputs.zip (outputTys.zip targets), BinaryType types e.2.1 := by
    intro e he
    exact htys _ (List.of_mem_zip (List.of_mem_zip he).2).1
  generalize outputs.zip (outputTys.zip targets) = stores at hall ⊢
  induction stores generalizing storage with
  | nil => exact h
  | cons e rest ih =>
      rw [List.foldl_cons]
      apply ih _ fun e' he' => hall e' (List.mem_cons_of_mem e he')
      exact h.write (hall e List.mem_cons_self) (length_fit _ _)

variable (world) in
theorem PlainStmt.cells (h : PlainStmt types kinds s) {σ : EvalState}
    (hσ : PlainCells types σ.storage) (look : ℕ → Value) :
    PlainCells types (evalStmt types world σ look s).2.storage := by
  cases s with
  | storageWrite storage src ty addr =>
      exact hσ.write (h.values ty (by simp [valueTypes])) (length_fit _ _)
  | actionStore name guard args fallbacks outputTys targets =>
      exact hσ.storeTargets _ h.values _
  | _ => exact hσ

variable (world) in
theorem PlainStmts.cells {stmts : List IRStmt} (h : PlainStmts types kinds stmts)
    (hf : PlainCells types f.st.storage) :
    PlainCells types ((language types world).run f stmts).st.storage := by
  induction stmts generalizing kinds f with
  | nil => exact hf
  | cons s stmts ih =>
      rw [Ssa.Language.run_cons]
      exact ih h.2 (h.1.cells world hf _)

theorem applyPreInit_grows (hgrows : types.Grows types') {preInit : List PreInitSegment}
    (htys : ∀ seg ∈ preInit, BinaryType types seg.ty) (storage : StorageMap) :
    applyPreInit types' preInit storage = applyPreInit types preInit storage := by
  unfold applyPreInit
  induction preInit generalizing storage with
  | nil => rfl
  | cons seg rest ih =>
      have hseg : ∀ (data : List Constant) (i : ℕ) (storage : StorageMap),
          seg.apply types' i data storage = seg.apply types i data storage := by
        intro data
        induction data with
        | nil => exact fun _ _ => rfl
        | cons c data ihdata =>
            intro i storage
            rw [PreInitSegment.apply, PreInitSegment.apply, ihdata,
              bitWidth_grows hgrows (htys seg List.mem_cons_self)]
      rw [List.foldl_cons, List.foldl_cons, hseg]
      exact ih (fun seg' hseg' => htys seg' (List.mem_cons_of_mem seg hseg')) _

theorem PlainCells.applyPreInit {preInit : List PreInitSegment}
    (htys : ∀ seg ∈ preInit, BinaryType types seg.ty) {storage : StorageMap}
    (h : PlainCells types storage) : PlainCells types (applyPreInit types preInit storage) := by
  unfold Ir.applyPreInit
  induction preInit generalizing storage with
  | nil => exact h
  | cons seg rest ih =>
      have hseg : ∀ (data : List Constant) (i : ℕ) {storage : StorageMap},
          PlainCells types storage → PlainCells types (seg.apply types i data storage) := by
        intro data
        induction data with
        | nil => exact fun _ _ h => h
        | cons c data ihdata =>
            intro i storage h
            exact ihdata (i + 1) (h.write (htys seg List.mem_cons_self) (length_constBits _ _))
      rw [List.foldl_cons]
      exact ih (fun seg' hseg' => htys seg' (List.mem_cons_of_mem seg hseg')) (hseg _ _ h)

end
end VolarIR.Movfuscate
