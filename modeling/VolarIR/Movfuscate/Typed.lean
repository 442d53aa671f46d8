import VolarIR.Ir.Eval
import VolarIR.Movfuscate.Step
import Mathlib.Data.List.Sort

/-!
# Movfuscation of typed programs

The `IRBlocks` half of `movfuscate.rs`. The bodies of all blocks run in every step, so each
storage write is made a selection between the new value and the current one. Storage ids
are doubled: block references go to the even lanes as vectors of PC bits, everything else
to the odd ones.
-/
namespace VolarIR.Movfuscate
open Ir Stateful DispatchBitPrimitives DispatchSlotPrimitives

def substVars (g : ℕ → ℕ) : IRStmt → IRStmt
  | .poly ty coeffs constant =>
      .poly ty (.ofList (coeffs.entries.map fun e =>
        ((e.1.map g).insertionSort (· ≤ ·), e.2))) constant
  | s => s.mapVars g

/-- `subst_ir_owned`; a var past the end of the map is a panic. -/
def substIr (stmt : IRStmt) (varMap : List ℕ) : Option IRStmt :=
  if ∀ v ∈ stmt.operands, v < varMap.length then some (substVars (fun v => varMap.getD v 0) stmt)
  else none

def promoteType (a b : TypeId) (types : TypeTable) : Option TypeId :=
  if types.isBit a then some b
  else if types.isBit b then some a
  else if a = b then some a
  else none

def inferPolyResultType (coeffs : PolyCoeffs) (varTypes : List TypeId) (types : TypeTable)
    (bitTypeId : TypeId) : Option TypeId :=
  (coeffs.entries.flatMap Prod.fst).foldlM (fun result var => do
    promoteType result (← varTypes[var]?) types) bitTypeId

def bitWidthForEqFrom (types : TypeTable) : (fuel : ℕ) → TypeId → Option ℕ
  | 0, _ => none
  | fuel + 1, ty =>
      match types.get ty with
      | some (.primitive .bit) => some 1
      | some (.vec n inner) => (bitWidthForEqFrom types fuel inner).map fun w => n * w
      | some (.extField wrapped degree _) =>
          (bitWidthForEqFrom types fuel wrapped).map fun w => degree * w
      | some (.tuple parts) => (parts.mapM (bitWidthForEqFrom types fuel)).map List.sum
      | some (.block _) => some 32
      | _ => none

/-- `bit_width_for_eq`; it panics on function and prime field types. -/
def bitWidthForEq (types : TypeTable) (ty : TypeId) : Option ℕ :=
  bitWidthForEqFrom types types.types.length ty

/-- What the context is built with and never changes. -/
structure IrConfig (P : Type) where
  bitTypeId : TypeId
  vecPcTypeId : TypeId
  combinedParamTypes : List TypeId
  irTypes : TypeTable
  pcWidth : ℕ
  ctrlProv : P
  slotOf : List (List (ℕ × ℕ))
  sigFallback : SortedMap (List ℕ) (List (ℕ × ℕ))

structure IrCtx (P : Type) where
  config : IrConfig P
  stmts : List (Node IRStmt P)
  pendingProv : P
  nextId : ℕ
  varTypes : List TypeId
  /-- The vars of the current block that are block references, with their bits. -/
  blockVarToBits : SortedMap ℕ (List ℕ × List TypeId)

namespace IrCtx
variable {P : Type}

def new (firstId : ℕ) (config : IrConfig P) : IrCtx P where
  config := config
  stmts := []
  pendingProv := config.ctrlProv
  nextId := firstId
  varTypes := config.combinedParamTypes
  blockVarToBits := .empty

def kinds (c : IrCtx P) : List IRStmt := c.stmts.map Node.kind

def pushed (c : IrCtx P) (stmt : IRStmt) (resultType : TypeId) : IrCtx P :=
  { c with
    stmts := c.stmts ++ [Node.new stmt c.pendingProv]
    nextId := c.nextId + 1
    varTypes := c.varTypes ++ [resultType] }

def pushTyped (stmt : IRStmt) (resultType : TypeId) : Emit (IrCtx P) ℕ :=
  modifyGet fun c => (c.nextId, c.pushed stmt resultType)

def getConfig : Emit (IrCtx P) (IrConfig P) := do pure (← get).config

def emitPoly (coeffs : PolyCoeffs) (constantLo : BitVec 128) : Emit (IrCtx P) ℕ := do
  let c ← get
  let resultType ← orPanic
    (inferPolyResultType coeffs c.varTypes c.config.irTypes c.config.bitTypeId)
  pushTyped (.poly resultType coeffs ⟨0, constantLo⟩) resultType

def emitShuffleBit (src : ℕ) (bitJ : U8) : Emit (IrCtx P) ℕ := do
  let bt := (← getConfig).bitTypeId
  pushTyped (.shuffle [(bitJ, src)] bt) bt

def emitConstBit (bit : BitVec 128) : Emit (IrCtx P) ℕ := do
  let bt := (← getConfig).bitTypeId
  pushTyped (.const ⟨0, bit⟩ bt) bt

def single (key : List ℕ) : PolyCoeffs := .ofList [(key, 1)]

def pair (a b : ℕ) : PolyCoeffs := .ofList [([a], 1), ([b], 1)]

instance : DispatchBitPrimitives (IrCtx P) where
  emitZeroBit := emitConstBit 0
  emitOneBit := emitConstBit 1
  emitAndBit a b := if a = b then pure a else emitPoly (single [min a b, max a b]) 0
  emitXorBit a b := if a = b then emitConstBit 0 else emitPoly (pair a b) 0
  emitNot a := emitPoly (single [a]) 1

def emitZeroSlot (ty : TypeId) : Emit (IrCtx P) ℕ := pushTyped (.const .zero ty) ty

instance : DispatchSlotPrimitives (IrCtx P) TypeId where
  emitZeroSlot := emitZeroSlot
  emitGate isActive val ty :=
    if isActive = val then pure isActive
    else pushTyped (.poly ty (single [min isActive val, max isActive val]) .zero) ty
  emitFieldAdd a b ty :=
    if a = b then emitZeroSlot ty else pushTyped (.poly ty (pair a b) .zero) ty

def trackBlock (var : ℕ) (bits : List ℕ) (sig : List TypeId) : Emit (IrCtx P) PUnit :=
  modify fun c => { c with blockVarToBits := c.blockVarToBits.upsert var fun _ => (bits, sig) }

/-- `vars[start..start + count]`; a range past the end is a panic. -/
def sliceVars (vars : List ℕ) (start count : ℕ) : Option (List ℕ) :=
  if start + count ≤ vars.length then some ((vars.drop start).take count) else none

/-- The vars of the next parameter. A block reference stands for its first bit. -/
def mapParam (stateVars varMap : List ℕ) (slot : ℕ × ℕ) (ty : TypeId) :
    Emit (IrCtx P) (List ℕ) := do
  match (← getConfig).irTypes.blockParams ty with
  | some sig =>
      let bits ← orPanic (sliceVars stateVars slot.1 slot.2)
      trackBlock varMap.length bits sig
      let rep ← orPanic bits.head?
      pure (varMap ++ [rep])
  | none =>
      let v ← orPanic stateVars[slot.1]?
      pure (varMap ++ [v])

def mapParams (stateVars : List ℕ) : List (ℕ × ℕ) → List TypeId → (varMap : List ℕ) →
    Emit (IrCtx P) (List ℕ)
  | [], _, varMap => pure varMap
  | _ :: _, [], _ => failure
  | slot :: slots, ty :: tys, varMap => do
      let varMap ← mapParam stateVars varMap slot ty
      mapParams stateVars slots tys varMap

/-- The lane of a storage id: even for block references, odd for the rest. Ids are 32 bits
wide, and doubling one that does not fit is a panic. -/
def storageLane (storage : StorageId) (isBlock : Bool) : Option StorageId :=
  if storage.id * 2 ≤ u32Max then some ⟨storage.id * 2 + if isBlock then 0 else 1⟩ else none

def pushBlockVar (varMap bits : List ℕ) (sig : List TypeId) : Emit (IrCtx P) (List ℕ) := do
  let rep ← match bits with
    | bit :: _ => pure bit
    | [] => emitZeroBit
  trackBlock varMap.length bits sig
  pure (varMap ++ [rep])

/-- A write that leaves the cell as it is unless the block is active. -/
def emitGatedWrite (isActive : ℕ) (storage : StorageId) (src : ℕ) (ty : TypeId) (addr : ℕ) :
    Emit (IrCtx P) ℕ := do
  let current ← pushTyped (.storageRead storage ty addr) ty
  let gatedSrc ← emitSelectSlot isActive src current ty
  pushTyped (.storageWrite storage gatedSrc ty addr) (← getConfig).bitTypeId

def emitStorageWrite (isActive : ℕ) (origSrc : ℕ) (storage : StorageId) (src : ℕ) (ty : TypeId)
    (addr : ℕ) : Emit (IrCtx P) ℕ := do
  match (← get).blockVarToBits.get origSrc with
  | some (bits, _) =>
      let vecPcTy := (← getConfig).vecPcTypeId
      let merged ← pushTyped (.merge bits vecPcTy) vecPcTy
      let lane ← orPanic (storageLane storage true)
      emitGatedWrite isActive lane merged vecPcTy addr
  | none =>
      let lane ← orPanic (storageLane storage false)
      emitGatedWrite isActive lane src ty addr

/-- A block reference is read as a vector of PC bits and taken apart. -/
def emitBlockRead (varMap : List ℕ) (storage : StorageId) (sig : List TypeId) (addr : ℕ) :
    Emit (IrCtx P) (List ℕ) := do
  let config ← getConfig
  let lane ← orPanic (storageLane storage true)
  let merged ← pushTyped (.storageRead lane config.vecPcTypeId addr) config.vecPcTypeId
  let bits ← (List.range config.pcWidth).mapM fun j => emitShuffleBit merged (BitVec.ofNat 8 j)
  pushBlockVar varMap bits sig

/-- Emit one statement of a block, with its operands replaced. -/
def emitStmt (isActive : ℕ) (varMap : List ℕ) (stmt : Node IRStmt P) :
    Emit (IrCtx P) (List ℕ) := do
  modify fun c => { c with pendingProv := stmt.prov }
  let mapped ← orPanic (substIr stmt.kind varMap)
  let config ← getConfig
  let ordinary : Emit (IrCtx P) (List ℕ) := do
    let id ← pushTyped mapped (inferStmtResultType config.bitTypeId mapped)
    pure (varMap ++ [id])
  match stmt.kind, mapped with
  | _, .const cnst ty =>
      match config.irTypes.blockParams ty with
      | some sig => do
          let bits ← encodePcBits (cnst.lo.setWidth 64).toNat config.pcWidth
          pushBlockVar varMap bits sig
      | none => ordinary
  | .storageWrite _ origSrc _ _, .storageWrite storage src ty addr => do
      let id ← emitStorageWrite isActive origSrc storage src ty addr
      pure (varMap ++ [id])
  | _, .storageRead storage ty addr =>
      match config.irTypes.blockParams ty with
      | some sig => emitBlockRead varMap storage sig addr
      | none => do
          let lane ← orPanic (storageLane storage false)
          let id ← pushTyped (.storageRead lane ty addr) ty
          pure (varMap ++ [id])
  | _, _ => ordinary

/-- The slots of a target's parameters: those of its block, or for a dynamic target those of
any block with the parameters it expects. -/
def slotMapFor (blockIdx : Option ℕ) (params : List TypeId) : Emit (IrCtx P) (List (ℕ × ℕ)) := do
  let config ← getConfig
  match blockIdx with
  | some b => orPanic config.slotOf[b]?
  | none =>
      if params = [] then pure []
      else orPanic (config.sigFallback.get (params.map TypeId.id))

def setFrom (state : List (Option ℕ)) : (start : ℕ) → List ℕ → List (Option ℕ)
  | _, [] => state
  | start, bit :: bits => setFrom (state.set start (some bit)) (start + 1) bits

def scatterArg (blockVals : List ℕ) (state : List (Option ℕ)) (arg : ℕ) (slot : ℕ × ℕ) :
    Emit (IrCtx P) (List (Option ℕ)) := do
  match (← get).blockVarToBits.get arg with
  | some (bits, _) => pure (setFrom state slot.1 bits)
  | none =>
      if slot.1 < state.length then do
        let v ← orPanic blockVals[arg]?
        pure (state.set slot.1 (some v))
      else pure state

def scatterFrom (blockVals : List ℕ) : List ℕ → List (ℕ × ℕ) → (state : List (Option ℕ)) →
    Emit (IrCtx P) (List (Option ℕ))
  | arg :: args, slot :: slots, state => do
      let state ← scatterArg blockVals state arg slot
      scatterFrom blockVals args slots state
  | _, _, state => pure state

/-- `scatter_args_to_state`: a slot that no argument goes to keeps its incoming value. -/
def scatterArgsToState (args blockVals : List ℕ) (targetSlotMap : List (ℕ × ℕ))
    (stateSlotTypes : List TypeId) : Emit (IrCtx P) (List ℕ) := do
  let nextState ← scatterFrom blockVals args targetSlotMap
    (List.replicate stateSlotTypes.length none)
  let pcWidth := (← getConfig).pcWidth
  pure (nextState.mapIdx fun k v => v.getD (pcWidth + k))

def returnSlots (blockVals : List ℕ) (arg : ℕ) : Emit (IrCtx P) (List ℕ) := do
  match (← get).blockVarToBits.get arg with
  | some (bits, _) => pure bits
  | none => do
      let v ← orPanic blockVals[arg]?
      pure [v]

/-- `process_ir_target`. Returning any other number of slots than the first `Return` edge
does is a panic. -/
def processIrTarget (target : IRBranchTarget) (blockVals : List ℕ) (pcWidth : ℕ)
    (stateSlotTypes returnSlotTypes : List TypeId) (blocks : IRBlocks P) :
    Emit (IrCtx P) TermResult :=
  match target.dest with
  | .ret => do
      let done ← emitOneBit
      let nextPc ← encodePcBits 0 pcWidth
      let nextState ← stateSlotTypes.mapM emitZeroSlot
      let ret ← target.args.mapM (returnSlots blockVals)
      if ret.flatten.length = returnSlotTypes.length then
        pure ⟨done, nextPc, nextState, ret.flatten⟩
      else failure
  | .block j => do
      let done ← emitZeroBit
      let nextPc ← encodePcBits j pcWidth
      let block ← orPanic blocks.blocks[j]?
      let targetSlotMap ← slotMapFor (some j) block.params
      let nextState ← scatterArgsToState target.args blockVals targetSlotMap stateSlotTypes
      let ret ← returnSlotTypes.mapM emitZeroSlot
      pure ⟨done, nextPc, nextState, ret⟩
  | .dyn v => do
      let (nextPc, sig) ← orPanic ((← get).blockVarToBits.get v)
      let done ← emitZeroBit
      let targetSlotMap ← slotMapFor none sig
      let nextState ← scatterArgsToState target.args blockVals targetSlotMap stateSlotTypes
      let ret ← returnSlotTypes.mapM emitZeroSlot
      pure ⟨done, nextPc, nextState, ret⟩

/-- The first `n` vars of either side, selected by `cond`. -/
def emitSelectBits (cond : ℕ) : (n : ℕ) → (thenVars elseVars : List ℕ) → Emit (IrCtx P) (List ℕ)
  | 0, _, _ => pure []
  | n + 1, t :: ts, e :: es => do
      let v ← emitSelectBit cond t e
      let vs ← emitSelectBits cond n ts es
      pure (v :: vs)
  | _ + 1, _, _ => failure

/-- The slots of either side, selected by `cond`. -/
def emitSelectSlots (cond : ℕ) : List TypeId → (thenVars elseVars : List ℕ) →
    Emit (IrCtx P) (List ℕ)
  | [], _, _ => pure []
  | ty :: tys, t :: ts, e :: es => do
      let v ← emitSelectSlot cond t e ty
      let vs ← emitSelectSlots cond tys ts es
      pure (v :: vs)
  | _ :: _, _, _ => failure

def emitPolyXorConst (val : ℕ) (constK : Constant) (ty : TypeId) : Emit (IrCtx P) ℕ :=
  pushTyped (.poly ty (single [val]) constK) ty

/-- The conjunction of the complements of `n` bits of `diff`, from bit `j` on. -/
def emitAllZero (diff : ℕ) : (n j : ℕ) → (isZero : ℕ) → Emit (IrCtx P) ℕ
  | 0, _, isZero => pure isZero
  | n + 1, j, isZero => do
      let bitJ ← emitShuffleBit diff (BitVec.ofNat 8 j)
      let notJ ← emitNot bitJ
      let isZero ← emitAndBit isZero notJ
      emitAllZero diff n (j + 1) isZero

/-- `emit_eq_const_ir`; the number of bits compared is an 8-bit number. -/
def emitEqConstIr (val : ℕ) (constK : Constant) (idxTy : TypeId) : Emit (IrCtx P) ℕ := do
  let types := (← getConfig).irTypes
  if types.isBit idxTy then
    if constK.lo = 0 then emitNot val else pure val
  else do
    let diff ← emitPolyXorConst val constK idxTy
    let checkWidth ← orPanic (bitWidthForEq types idxTy)
    let isZero ← emitOneBit
    emitAllZero diff (checkWidth % 256) 0 isZero

/-- One case of a jump table, added to the sums under its equality test. -/
def accumulateCase (idxVal : ℕ) (idxTy : TypeId) (blockVals : List ℕ) (pcWidth : ℕ)
    (stateSlotTypes returnSlotTypes : List TypeId) (blocks : IRBlocks P) (acc : TermResult)
    (case : Constant × IRBranchTarget) : Emit (IrCtx P) TermResult := do
  let isCase ← emitEqConstIr idxVal case.1 idxTy
  let t ← processIrTarget case.2 blockVals pcWidth stateSlotTypes returnSlotTypes blocks
  let g ← emitAndBit isCase t.done
  let done ← emitXorBit acc.done g
  let nextPc ← accumulateBits isCase acc.nextPcBits t.nextPcBits
  let nextState ← accumulateReturns isCase stateSlotTypes acc.nextState t.nextState
  let ret ← accumulateReturns isCase returnSlotTypes acc.retVals t.retVals
  pure ⟨done, nextPc, nextState, ret⟩

def emitTerminator (terminator : IRTerminator) (blockVals : List ℕ) (pcWidth : ℕ)
    (stateSlotTypes returnSlotTypes : List TypeId) (blocks : IRBlocks P) :
    Emit (IrCtx P) TermResult :=
  match terminator with
  | .jmp target => processIrTarget target blockVals pcWidth stateSlotTypes returnSlotTypes blocks
  | .jumpCond condition thenTarget elseTarget => do
      let cond ← orPanic blockVals[condition]?
      let t ← processIrTarget thenTarget blockVals pcWidth stateSlotTypes returnSlotTypes blocks
      let e ← processIrTarget elseTarget blockVals pcWidth stateSlotTypes returnSlotTypes blocks
      let done ← emitSelectBit cond t.done e.done
      let nextPc ← emitSelectBits cond pcWidth t.nextPcBits e.nextPcBits
      let nextState ← emitSelectSlots cond stateSlotTypes t.nextState e.nextState
      let ret ← emitSelectSlots cond returnSlotTypes t.retVals e.retVals
      pure ⟨done, nextPc, nextState, ret⟩
  | .jumpTable index cases => do
      let idxVal ← orPanic blockVals[index]?
      let idxTy ← orPanic (← get).varTypes[idxVal]?
      let done ← emitZeroBit
      let nextPc ← (List.range pcWidth).mapM fun _ => emitZeroBit
      let nextState ← stateSlotTypes.mapM emitZeroSlot
      let ret ← returnSlotTypes.mapM emitZeroSlot
      cases.entries.foldlM (accumulateCase idxVal idxTy blockVals pcWidth stateSlotTypes
        returnSlotTypes blocks) ⟨done, nextPc, nextState, ret⟩

instance : MovfuscCtx (IrCtx P) (IRBlocks P) TypeId where
  numBlocks blocks := blocks.blocks.length
  emitBlockStmts blocks blockIdx stateVars isActive := do
    let block ← orPanic blocks.blocks[blockIdx]?
    modify fun c => { c with blockVarToBits := .empty }
    let slots ← slotMapFor (some blockIdx) block.params
    let params ← mapParams stateVars slots block.params []
    block.stmts.foldlM (emitStmt isActive) params
  emitBlockTerminator blocks blockIdx blockVals pcWidth stateSlotTypes returnSlotTypes := do
    let block ← orPanic blocks.blocks[blockIdx]?
    emitTerminator block.terminator blockVals pcWidth stateSlotTypes returnSlotTypes blocks
  buildOutput ctx _ doneVar loopVars retVars :=
    { blocks := [{
        params := ctx.config.combinedParamTypes
        stmts := ctx.stmts
        terminator := .jumpCond doneVar ⟨.ret, retVars⟩ ⟨.block 0, loopVars⟩ }] }

end IrCtx

section
variable {P : Type}

def remapPreInit (types : TypeTable) (seg : PreInitSegment) : Option PreInitSegment :=
  (IrCtx.storageLane seg.storage (isBlockType types seg.ty)).map fun lane =>
    { seg with storage := lane }

def internPcType (types : TypeTable) (pcWidth : ℕ) (bitTypeId : TypeId) : TypeId × TypeTable :=
  if 0 < pcWidth then types.intern (.vec pcWidth bitTypeId) else (bitTypeId, types)

/-- `movfuscate_ir_impl`. The type table grows by the bit type and the type of a block
reference in storage. A program whose layout has a single block is returned as laid out. -/
def movfuscateIrImpl (p : IRProgram P) (types : TypeTable) (controlProv : Option P) :
    Option (IRProgram P × TypeTable) := do
  let (bitTypeId, types) := types.intern (.primitive .bit)
  let blocks ← layoutCfgForMovfuscationTyped p.toIRBlocks types
  let n := blocks.blocks.length
  if n = 1 then some (⟨blocks, p.preInit⟩, types)
  else do
    let pcWidth := pcBitsNeeded n
    let (vecPcTypeId, types) := internPcType types pcWidth bitTypeId
    let classes ← computeStaticSlotClasses types bitTypeId pcWidth blocks
    let returnSlotTypes ← computeReturnSlotTypes types bitTypeId pcWidth blocks
    let firstProv := (blocks.blocks.flatMap IRBlock.stmts).head?.map Node.prov
    let ctrlProv ← firstProv.or controlProv
    let config : IrConfig P :=
      { bitTypeId, vecPcTypeId, irTypes := types, pcWidth, ctrlProv
        combinedParamTypes := List.replicate pcWidth bitTypeId ++ classes.stateSlotTypes
        slotOf := classes.slotOf
        sigFallback := classes.sigFallback }
    let result ← movfuscate (IrCtx.new (pcWidth + classes.stateSlotTypes.length) config) blocks
      classes.stateSlotTypes returnSlotTypes
    let preInit ← p.preInit.mapM (remapPreInit types)
    some (⟨result, preInit⟩, types)

def movfuscateIr (p : IRProgram P) (types : TypeTable) : Option (IRProgram P × TypeTable) :=
  movfuscateIrImpl p types none

def movfuscateIrWithControlProvenance (p : IRProgram P) (types : TypeTable) (controlProv : P) :
    Option (IRProgram P × TypeTable) := movfuscateIrImpl p types (some controlProv)

/-- `movfuscate_entry_param_slots`: the state slots of the entry block's parameters. -/
def movfuscateEntryParamSlots (p : IRProgram P) (types : TypeTable) : Option (List (ℕ × ℕ)) := do
  let (bitTypeId, types) := types.intern (.primitive .bit)
  let blocks ← layoutCfgForMovfuscationTyped p.toIRBlocks types
  let n := blocks.blocks.length
  if n = 0 then some []
  else do
    let classes ← computeStaticSlotClasses types bitTypeId (pcBitsNeeded n) blocks
    some (classes.slotOf.head?.getD [])

end
end VolarIR.Movfuscate
