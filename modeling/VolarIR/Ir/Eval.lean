import VolarIR.Ir.PolyEval
import VolarIR.Library.Bits
import VolarIR.Library.Ssa

/-!
# Volar IR: evaluation

Sequential evaluation of statements and block-by-block runs, as
`volar-fuzz/src/interpreter/ir.rs` does it, with the oracles, actions and random sources that
interpreter leaves out answered by an `Externals`.
-/
namespace VolarIR.Ir

/-- `(StorageId, TypeId, address)`: slots of different types never meet. -/
abbrev Cell := StorageId × TypeId × ℕ

abbrev StorageMap := Cell → Option (List Bool)

structure ActionRecord where
  name : String
  args : List Bool
  outputTys : List TypeId
  deriving DecidableEq, Repr

/-- One draw of a run: how many blocks ran before, which block draws, and how often it drew
before in this execution. -/
structure Occurrence where
  execution : ℕ
  block : ℕ
  draw : ℕ
  deriving DecidableEq, Repr

/-- The outside world. An oracle is a function of its arguments, an action may answer
differently after different actions, and every draw of a random source is its own sample. -/
structure Externals where
  oracle : String → List Bool → List TypeId → ℕ → List Bool
  action : List ActionRecord → ActionRecord → ℕ → List Bool
  sample : Occurrence → String → TypeId → List Bool

def silent : Externals := ⟨fun _ _ _ _ => [], fun _ _ _ => [], fun _ _ _ => []⟩

structure EvalState where
  storage : StorageMap
  actions : List ActionRecord
  next : Occurrence

def EvalState.write (σ : EvalState) (cell : Cell) (bits : List Bool) : EvalState :=
  { σ with storage := Function.update σ.storage cell (some bits) }

/-- `transmute_bits`: truncate or extend with zeros. -/
def fit (bits : List Bool) (width : ℕ) : List Bool :=
  (List.range width).map fun k => bits.getD k false

/-- `bits_to_u64`: the first 64 bits as a number. -/
def bitsToU64 (bits : List Bool) : ℕ := Bits.value (bits.take 64)

def rotateLeft (bits : List Bool) (width n : ℕ) : List Bool :=
  (List.range width).map fun j => bits.getD ((j + (width - n % width)) % width) false

def rotateRight (bits : List Bool) (width n : ℕ) : List Bool :=
  rotateLeft bits width (width - n % width)

def Value.truth (v : Value) : Bool := v.bits.headD false

def flatBits (vs : List Value) : List Bool := vs.flatMap Value.bits

section
variable (table : TypeTable) (world : Externals)

def callOutputs (answer : ℕ → List Bool) (outputTys : List TypeId) : List (List Bool) :=
  outputTys.mapIdx fun i ty => fit (answer i) (table.bitWidth ty)

/-- The results of a guarded action and the actions carried out after it: the fallbacks stand
in when the guard is off. -/
def actionOutputs (done : List ActionRecord) (name : String) (guard : Bool)
    (args fallbacks : List Value) (outputTys : List TypeId) :
    List (List Bool) × List ActionRecord :=
  if guard then
    let record : ActionRecord := ⟨name, flatBits args, outputTys⟩
    (callOutputs table (world.action done record) outputTys, done ++ [record])
  else (fallbacks.map Value.bits, done)

/-- Write each result to its target, as a value of its output type. -/
def storeTargets (storage : StorageMap) (outputs : List (List Bool)) (outputTys : List TypeId)
    (targets : List (StorageId × Value)) : StorageMap :=
  (outputs.zip (outputTys.zip targets)).foldl (fun m e =>
      Function.update m (e.2.2.1, e.2.1, bitsToU64 e.2.2.2.bits)
        (some (fit e.1 (table.bitWidth e.2.1)))) storage

/-- The bits a statement computes, its call results, and the state after it. A statement
that only stores, and a call handle, have no bits. -/
def evalKind (σ : EvalState) (look : ℕ → Value) :
    IRStmt → List Bool × List (List Bool) × EvalState
  | .storageRead storage ty addr =>
      ((σ.storage (storage, ty, bitsToU64 (look addr).bits)).getD
        (List.replicate (table.bitWidth ty) false), [], σ)
  | .storageWrite storage src ty addr =>
      ([], [], σ.write (storage, ty, bitsToU64 (look addr).bits)
        (fit (look src).bits (table.bitWidth ty)))
  | .const c ty => (constBits c (table.bitWidth ty), [], σ)
  | .transmute src _ dstTy => (fit (look src).bits (table.bitWidth dstTy), [], σ)
  | .poly ty coeffs constant =>
      ((evalTerms table ty constant (PolyCoeffs.terms coeffs look)).getD [], [], σ)
  | .rol src ty n => (rotateLeft (look src).bits (table.bitWidth ty) n, [], σ)
  | .ror src ty n => (rotateRight (look src).bits (table.bitWidth ty) n, [], σ)
  | .merge parts ty => (fit (flatBits (parts.map look)) (table.bitWidth ty), [], σ)
  | .splat src ty => (List.replicate (table.bitWidth ty) (look src).truth, [], σ)
  | .shuffle resultBits ty =>
      (fit (resultBits.map fun e => (look e.2).bits.getD e.1.toNat false) (table.bitWidth ty),
        [], σ)
  | .oracleCall name args outputTys _ =>
      ([], callOutputs table (world.oracle name (flatBits (args.map look)) outputTys) outputTys, σ)
  | .oracleOutput call idx ty | .actionOutput call idx ty =>
      ((look call).outputs[idx]?.getD (List.replicate (table.bitWidth ty) false), [], σ)
  | .actionCall name guard args fallbacks outputTys _ =>
      let r := actionOutputs table world σ.actions name (look guard).truth (args.map look)
        (fallbacks.map look) outputTys
      ([], r.1, { σ with actions := r.2 })
  | .actionStore name guard args fallbacks outputTys targets =>
      let r := actionOutputs table world σ.actions name (look guard).truth (args.map look)
        (fallbacks.map look) outputTys
      ([], [], { σ with
        storage := storeTargets table σ.storage r.1 outputTys
          (targets.map fun e => (e.1, look e.2)),
        actions := r.2 })
  | .rng name ty =>
      (fit (world.sample σ.next name ty) (table.bitWidth ty), [],
        { σ with next := { σ.next with draw := σ.next.draw + 1 } })

def evalStmt (σ : EvalState) (look : ℕ → Value) (s : IRStmt) : Value × EvalState :=
  let r := evalKind table world σ look s
  (⟨r.1, s.outputType, r.2.1⟩, r.2.2)

theorem evalKind_congr (s : IRStmt) (σ : EvalState) {f g : ℕ → Value}
    (h : ∀ v ∈ s.operands, f v = g v) :
    evalKind table world σ f s = evalKind table world σ g s := by
  have hmap : ∀ {vs : List ℕ}, (∀ v ∈ vs, f v = g v) → vs.map f = vs.map g :=
    List.map_congr_left
  cases s with
  | const | rng => rfl
  | storageRead _ _ addr | oracleOutput addr _ _ | actionOutput addr _ _ | transmute addr _ _
  | rol addr _ _ | ror addr _ _ | splat addr _ =>
      have haddr : f addr = g addr := h addr List.mem_cons_self
      simp only [evalKind, haddr]
  | storageWrite _ src _ addr =>
      simp only [IRStmt.operands, List.forall_mem_cons] at h
      simp only [evalKind, h.1, h.2.1]
  | poly _ coeffs _ =>
      have hterms : PolyCoeffs.terms coeffs f = PolyCoeffs.terms coeffs g := by
        apply List.map_congr_left
        intro e he
        rw [hmap fun v hv => h v (List.mem_flatMap.mpr ⟨e, he, hv⟩)]
      simp only [evalKind, hterms]
  | merge parts _ =>
      have hparts : parts.map f = parts.map g := hmap h
      simp only [evalKind, hparts]
  | shuffle resultBits _ =>
      have hbits : (resultBits.map fun e => (f e.2).bits.getD e.1.toNat false) =
          resultBits.map fun e => (g e.2).bits.getD e.1.toNat false := by
        apply List.map_congr_left
        intro e he
        rw [h e.2 (List.mem_map_of_mem he)]
      simp only [evalKind, hbits]
  | oracleCall _ args _ _ =>
      have hargs : args.map f = args.map g := hmap h
      simp only [evalKind, hargs]
  | actionCall _ guard args fallbacks _ _ =>
      simp only [IRStmt.operands, List.forall_mem_append, List.forall_mem_cons] at h
      simp only [evalKind, h.1.1, hmap h.1.2, hmap h.2]
  | actionStore _ guard args fallbacks _ targets =>
      simp only [IRStmt.operands, List.forall_mem_append, List.forall_mem_cons] at h
      have htargets : (targets.map fun e => (e.1, f e.2)) = targets.map fun e => (e.1, g e.2) := by
        apply List.map_congr_left
        intro e he
        rw [h.2 e.2 (List.mem_map_of_mem he)]
      simp only [evalKind, h.1.1.1, hmap h.1.1.2, hmap h.1.2, htargets]

def language : Ssa.Language IRStmt Value EvalState where
  operands := IRStmt.operands
  eval := evalStmt table world
  eval_congr s σ f g h := by simp only [evalStmt, evalKind_congr table world s σ h]

end

theorem evalStmt_mapVars (table : TypeTable) (world : Externals) (σ : EvalState)
    (look : ℕ → Value) {g : ℕ → ℕ} {s : IRStmt} (h : StrictOn g s.operands) :
    evalStmt table world σ look (s.mapVars g) =
      evalStmt table world σ (fun v => look (g v)) s := by
  have hkind : evalKind table world σ look (s.mapVars g) =
      evalKind table world σ (fun v => look (g v)) s := by
    cases s with
    | poly ty coeffs constant =>
        have hterms : PolyCoeffs.terms (.ofList (coeffs.entries.map fun e => (e.1.map g, e.2)))
            look = PolyCoeffs.terms coeffs fun v => look (g v) := by
          rw [PolyCoeffs.terms, entries_mapVars h]
          simp [PolyCoeffs.terms, Function.comp_def]
        simp only [IRStmt.mapVars, evalKind, hterms]
    | _ => simp [IRStmt.mapVars, evalKind, Function.comp_def]
  simp only [evalStmt, hkind, IRStmt.outputType_mapVars]

inductive BlockResult where
  | ret (vals : List (List Bool))
  | jump (target : ℕ) (args : List (List Bool))
  deriving DecidableEq, Repr

/-- `resolve_ir_target`: a dynamic target names its block in the var's first 64 bits. -/
def resolveTarget (look : ℕ → Value) (t : IRBranchTarget) : BlockResult :=
  let args := t.args.map fun v => (look v).bits
  match t.dest with
  | .ret => .ret args
  | .block b => .jump b args
  | .dyn v => .jump (bitsToU64 (look v).bits) args

def caseKey (bits : List Bool) : Constant where
  hi := BitVec.ofNat 128 (Bits.value ((bits.drop 128).take 128))
  lo := BitVec.ofNat 128 (Bits.value (bits.take 128))

/-- A missing case makes the interpreter panic. -/
def evalTerminator (look : ℕ → Value) : IRTerminator → Option BlockResult
  | .jmp t => some (resolveTarget look t)
  | .jumpCond condition t e =>
      some (if (look condition).truth then resolveTarget look t else resolveTarget look e)
  | .jumpTable index cases => (cases.get (caseKey (look index).bits)).map (resolveTarget look)

theorem resolveTarget_mapVars (look : ℕ → Value) (g : ℕ → ℕ) (t : IRBranchTarget) :
    resolveTarget look (t.mapVars g) = resolveTarget (fun v => look (g v)) t := by
  obtain ⟨dest, args⟩ := t
  cases dest <;> simp [resolveTarget, IRBranchTarget.mapVars, Function.comp_def]

theorem evalTerminator_mapVars (look : ℕ → Value) (g : ℕ → ℕ) (t : IRTerminator) :
    evalTerminator look (t.mapVars g) = evalTerminator (fun v => look (g v)) t := by
  cases t with
  | jmp t => simp only [IRTerminator.mapVars, evalTerminator, resolveTarget_mapVars]
  | jumpCond condition t e =>
      simp only [IRTerminator.mapVars, evalTerminator, resolveTarget_mapVars]
  | jumpTable index cases =>
      simp only [IRTerminator.mapVars, evalTerminator, SortedMap.get_mapValues, Option.map_map,
        Function.comp_def, resolveTarget_mapVars]

theorem resolveTarget_congr {f g : ℕ → Value} {t : IRBranchTarget}
    (h : ∀ v ∈ t.operands, f v = g v) : resolveTarget f t = resolveTarget g t := by
  obtain ⟨dest, args⟩ := t
  have hargs : ∀ {vs : List ℕ}, (∀ v ∈ vs, f v = g v) →
      (vs.map fun v => (f v).bits) = vs.map fun v => (g v).bits := fun h =>
    List.map_congr_left fun v hv => by rw [h v hv]
  cases dest with
  | block b => exact congrArg (BlockResult.jump b) (hargs h)
  | ret => exact congrArg BlockResult.ret (hargs h)
  | dyn v =>
      simp only [IRBranchTarget.operands, List.forall_mem_cons] at h
      simp only [resolveTarget, h.1, hargs h.2]

theorem evalTerminator_congr {f g : ℕ → Value} {t : IRTerminator}
    (h : ∀ v ∈ t.operands, f v = g v) : evalTerminator f t = evalTerminator g t := by
  cases t with
  | jmp t => exact congrArg some (resolveTarget_congr h)
  | jumpCond condition t e =>
      simp only [IRTerminator.operands, List.cons_append, List.forall_mem_cons,
        List.forall_mem_append] at h
      simp only [evalTerminator, h.1, resolveTarget_congr h.2.1, resolveTarget_congr h.2.2]
  | jumpTable index cases =>
      simp only [IRTerminator.operands, List.forall_mem_cons] at h
      simp only [evalTerminator, h.1]
      cases hcase : cases.get (caseKey (g index).bits) with
      | none => rfl
      | some t =>
          exact congrArg some (resolveTarget_congr fun v hv =>
            h.2 v (List.mem_flatMap.mpr ⟨_, SortedMap.mem_of_get hcase, hv⟩))

def paramValues (tys : List TypeId) (args : List (List Bool)) : List Value :=
  tys.zipWith (fun ty bits => ⟨bits, some ty, []⟩) args

theorem length_paramValues {tys : List TypeId} {args : List (List Bool)}
    (h : args.length = tys.length) : (paramValues tys args).length = tys.length := by
  simp [paramValues, h]

section
variable {P : Type} (table : TypeTable) (world : Externals)

def blockFrame (b : IRBlock P) (args : List (List Bool)) (σ : EvalState) :
    Ssa.Frame Value EvalState :=
  (language table world).run ⟨paramValues b.params args, σ⟩ b.kinds

/-- `eval_ir_block`: the statements, then the terminator. `none` is a panic. -/
def evalBlock (b : IRBlock P) (args : List (List Bool)) (σ : EvalState) :
    Option (BlockResult × EvalState) :=
  if args.length = b.params.length then
    let f := blockFrame table world b args σ
    (evalTerminator (Ssa.look f.vals) b.terminator).map fun r => (r, f.st)
  else none

inductive Config where
  | running (block : ℕ) (args : List (List Bool)) (σ : EvalState)
  | returned (vals : List (List Bool)) (σ : EvalState)
  | stuck

def Config.values : Config → Option (List (List Bool))
  | .returned vals _ => some vals
  | _ => none

def EvalState.enter (σ : EvalState) (block : ℕ) : EvalState :=
  { σ with next := ⟨σ.next.execution, block, 0⟩ }

def EvalState.leave (σ : EvalState) : EvalState :=
  { σ with next := ⟨σ.next.execution + 1, 0, 0⟩ }

/-- Execute the current block to its terminator. -/
def stepBlock (p : IRBlocks P) : Config → Config
  | .running cur args σ =>
      match p.blocks[cur]? with
      | none => .stuck
      | some b =>
          match evalBlock table world b args (σ.enter cur) with
          | none => .stuck
          | some (.ret vals, σ') => .returned vals σ'.leave
          | some (.jump next args', σ') => .running next args' σ'.leave
  | c => c

/-- The run after at most `budget` blocks. -/
def runBlocks (p : IRBlocks P) (budget : ℕ) (c : Config) : Config :=
  (stepBlock table world p)^[budget] c

end

def handedOn : Option (BlockResult × EvalState) → Option (BlockResult × EvalState) :=
  Option.map fun r => (r.1, r.2.leave)

/-- The configuration after a block that handed on `r`. -/
def Config.next : Option (BlockResult × EvalState) → Config
  | none => .stuck
  | some (.ret vals, σ) => .returned vals σ
  | some (.jump target args, σ) => .running target args σ

section
variable {P Q : Type} {table : TypeTable} {world world' : Externals}

theorem stepBlock_running (p : IRBlocks P) {cur : ℕ} {b : IRBlock P}
    (hb : p.blocks[cur]? = some b) (args : List (List Bool)) (σ : EvalState) :
    stepBlock table world p (.running cur args σ) =
      .next (handedOn (evalBlock table world b args (σ.enter cur))) := by
  simp only [stepBlock, hb, handedOn]
  cases evalBlock table world b args (σ.enter cur) with
  | none => rfl
  | some r =>
      obtain ⟨exit, ρ⟩ := r
      cases exit <;> rfl

end

def IRBlock.WellFormed {P : Type} (b : IRBlock P) : Prop :=
  Ssa.Defined IRStmt.operands b.params.length b.kinds ∧
    ∀ v ∈ b.terminator.operands, v < b.varSpace

instance {P : Type} (b : IRBlock P) : Decidable b.WellFormed :=
  inferInstanceAs (Decidable (_ ∧ _))

structure PreInitSegment where
  storage : StorageId
  ty : TypeId
  offset : ℕ
  data : List Constant
  deriving DecidableEq, Repr

structure IRProgram (P : Type) extends IRBlocks P where
  preInit : List PreInitSegment
  deriving DecidableEq

section
variable (table : TypeTable)

/-- Every element has an address and its bits: no `offset + i` is beyond a `usize`, and no bit
is beyond the 256 of a constant. -/
def PreInitSegment.InRange (seg : PreInitSegment) : Prop :=
  ∀ i < seg.data.length, seg.offset + i ≤ usizeMax ∧ table.bitWidth seg.ty ≤ 256

instance : DecidablePred (PreInitSegment.InRange table) := fun seg => by
  unfold PreInitSegment.InRange
  infer_instance

/-- The cells of one segment, from its `i`-th element on. The addresses wrap around. -/
def PreInitSegment.apply (seg : PreInitSegment) : (i : ℕ) → List Constant → StorageMap → StorageMap
  | _, [], storage => storage
  | i, c :: data, storage =>
      seg.apply (i + 1) data
        (Function.update storage (seg.storage, seg.ty, (seg.offset + i) % (usizeMax + 1))
          (some (constBits c (table.bitWidth seg.ty))))

/-- `apply_pre_init` without overflow checks: later segments override earlier ones. -/
def applyPreInit (preInit : List PreInitSegment) (storage : StorageMap) : StorageMap :=
  preInit.foldl (fun storage seg => seg.apply table 0 seg.data storage) storage

/-- `apply_pre_init` with overflow checks, where an address that wraps around is a panic, and
so is the shift for a bit that no constant has. -/
def applyPreInitChecked (preInit : List PreInitSegment) (storage : StorageMap) :
    Option StorageMap :=
  if ∀ seg ∈ preInit, seg.InRange table then some (applyPreInit table preInit storage) else none

def EvalState.start : EvalState := ⟨fun _ => none, [], ⟨0, 0, 0⟩⟩

def IRProgram.initial {P : Type} (p : IRProgram P) (inputs : List (List Bool)) : Config :=
  .running 0 inputs { EvalState.start with
    storage := applyPreInit table p.preInit EvalState.start.storage }

end

end VolarIR.Ir
