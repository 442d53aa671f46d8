import VolarIR.Movfuscate.Step
import VolarIR.Boolar.Syntax

/-!
# Movfuscation of Boolar programs

The `BIrBlocks` half of `movfuscate.rs`: all slots are bits, statements are copied with
their operands renamed, and nothing is gated but the results of the terminators.
-/
namespace VolarIR

namespace Boolar

def BIrTerminator.targets {V : Type} : BIrTerminator V → List (BIrTarget V)
  | .jmp t => [t]
  | .condJmp _ t e => [t, e]

/-- `return_val_width`: the arguments of the first `Return` edge found. -/
def BIrBlocks.returnValWidth {P : Type} (blocks : BIrBlocks P) : ℕ :=
  let returned := blocks.blocks.findSome? fun b =>
    b.terminator.targets.findSome? fun t =>
      match t.block with
      | .ret => some t.args.length
      | _ => none
  returned.getD 0

def BIrBlocks.stateWidth {P : Type} (blocks : BIrBlocks P) : ℕ :=
  (blocks.blocks.map BIrBlock.params).foldr max 0

end Boolar

namespace Movfuscate
open Boolar Stateful DispatchBitPrimitives

/-- `subst_biir`; a var past the end of the map is a panic. -/
def substBiir (stmt : Stmt) (varMap : List ℕ) : Option Stmt :=
  stmt.map (fun v => varMap[v]?) pure

structure BIrCtx (P : Type) where
  stmts : List (Node Stmt P)
  nextId : ℕ
  ctrlProv : P

namespace BIrCtx
variable {P : Type}

def new (firstId : ℕ) (ctrlProv : P) : BIrCtx P := ⟨[], firstId, ctrlProv⟩

def kinds (c : BIrCtx P) : List Stmt := c.stmts.map Node.kind

def pushed (c : BIrCtx P) (stmt : Stmt) (prov : P) : BIrCtx P :=
  { c with stmts := c.stmts ++ [Node.new stmt prov], nextId := c.nextId + 1 }

def push (stmt : Stmt) (prov : P) : Emit (BIrCtx P) ℕ :=
  modifyGet fun c => (c.nextId, c.pushed stmt prov)

def pushControl (stmt : Stmt) : Emit (BIrCtx P) ℕ :=
  modifyGet fun c => (c.nextId, c.pushed stmt c.ctrlProv)

instance : DispatchBitPrimitives (BIrCtx P) where
  emitZeroBit := pushControl .zero
  emitOneBit := pushControl .one
  emitAndBit a b := if a = b then pure a else pushControl (.and a b)
  emitXorBit a b := if a = b then pushControl .zero else pushControl (.xor a b)
  emitNot a := pushControl (.not a)

instance : DispatchSlotPrimitives (BIrCtx P) Unit where
  emitZeroSlot _ := emitZeroBit
  emitGate isActive val _ := emitAndBit isActive val
  emitFieldAdd a b _ := emitXorBit a b

def emitZeros (n : ℕ) : Emit (BIrCtx P) (List ℕ) := (List.range n).mapM fun _ => emitZeroBit

def lookups (blockVals args : List ℕ) : Emit (BIrCtx P) (List ℕ) :=
  args.mapM fun v => orPanic blockVals[v]?

/-- `process_biir_target`. -/
def processBiirTarget (target : BIrTarget ℕ) (blockVals : List ℕ)
    (pcWidth stateWidth retWidth : ℕ) : Emit (BIrCtx P) TermResult :=
  match target.block with
  | .ret => do
      let done ← emitOneBit
      let nextPc ← encodePcBits 0 pcWidth
      let nextState ← emitZeros stateWidth
      let ret ← lookups blockVals target.args
      let padding ← emitZeros (retWidth - ret.length)
      pure ⟨done, nextPc, nextState, ret ++ padding⟩
  | .block j => do
      let done ← emitZeroBit
      let nextPc ← encodePcBits j pcWidth
      let nextState ← lookups blockVals target.args
      let padding ← emitZeros (stateWidth - nextState.length)
      let ret ← emitZeros retWidth
      pure ⟨done, nextPc, nextState ++ padding, ret⟩
  | .dyn _ => failure

/-- The first `n` vars of either side, selected by `cond`. -/
def emitSelectBits (cond : ℕ) : (n : ℕ) → (thenVars elseVars : List ℕ) → Emit (BIrCtx P) (List ℕ)
  | 0, _, _ => pure []
  | n + 1, t :: ts, e :: es => do
      let v ← emitSelectBit cond t e
      let vs ← emitSelectBits cond n ts es
      pure (v :: vs)
  | _ + 1, _, _ => failure

/-- Bit-select of every result; here it is slot-select as well. -/
def emitSelectResults (cond pcWidth stateWidth retWidth : ℕ) (t e : TermResult) :
    Emit (BIrCtx P) TermResult := do
  let done ← emitSelectBit cond t.done e.done
  let nextPc ← emitSelectBits cond pcWidth t.nextPcBits e.nextPcBits
  let nextState ← emitSelectBits cond stateWidth t.nextState e.nextState
  let ret ← emitSelectBits cond retWidth t.retVals e.retVals
  pure ⟨done, nextPc, nextState, ret⟩

def emitTerminator (terminator : BIrTerminator ℕ) (blockVals : List ℕ)
    (pcWidth stateWidth retWidth : ℕ) : Emit (BIrCtx P) TermResult :=
  match terminator with
  | .jmp target => processBiirTarget target blockVals pcWidth stateWidth retWidth
  | .condJmp val thenTarget elseTarget => do
      let cond ← orPanic blockVals[val]?
      let t ← processBiirTarget thenTarget blockVals pcWidth stateWidth retWidth
      let e ← processBiirTarget elseTarget blockVals pcWidth stateWidth retWidth
      emitSelectResults cond pcWidth stateWidth retWidth t e

def emitStmt (varMap : List ℕ) (stmt : Node Stmt P) : Emit (BIrCtx P) (List ℕ) := do
  let mapped ← orPanic (substBiir stmt.kind varMap)
  let id ← push mapped stmt.prov
  pure (varMap ++ [id])

/-- The first `n` vars; fewer are a panic. -/
def prefixVars (n : ℕ) (vars : List ℕ) : Option (List ℕ) :=
  if n ≤ vars.length then some (vars.take n) else none

instance : MovfuscCtx (BIrCtx P) (BIrBlocks P) Unit where
  numBlocks blocks := blocks.blocks.length
  emitBlockStmts blocks blockIdx stateVars _ := do
    let block ← orPanic blocks.blocks[blockIdx]?
    let params ← orPanic (prefixVars block.params stateVars)
    block.stmts.foldlM emitStmt params
  emitBlockTerminator blocks blockIdx blockVals pcWidth stateSlotTypes returnSlotTypes := do
    let block ← orPanic blocks.blocks[blockIdx]?
    emitTerminator block.terminator blockVals pcWidth stateSlotTypes.length
      returnSlotTypes.length
  buildOutput ctx combinedParams doneVar loopVars retVars :=
    { blocks := [{
        params := combinedParams
        stmts := ctx.stmts
        terminator := .condJmp doneVar ⟨.ret, retVars⟩ ⟨.block 0, loopVars⟩ }]
      preInit := [] }

end BIrCtx

section
variable {P : Type}

def controlProvenance (blocks : BIrBlocks P) (controlProv : Option P) : Option P :=
  ((blocks.blocks.flatMap BIrBlock.stmts).head?.map Node.prov).or controlProv

/-- `movfuscate_biir_impl`. It panics without a control provenance, and when the counter of var
ids overflows. -/
def movfuscateBiirImpl (blocks : BIrBlocks P) (controlProv : Option P) : Option (BIrBlocks P) :=
  if blocks.blocks.length = 1 then some blocks
  else do
    let pcWidth := pcBitsNeeded blocks.blocks.length
    let combinedParams := pcWidth + blocks.stateWidth
    let ctrlProv ← controlProvenance blocks controlProv
    let result ← movfuscate (BIrCtx.new combinedParams ctrlProv) blocks
      (List.replicate blocks.stateWidth ()) (List.replicate blocks.returnValWidth ())
    -- the counter starts at the parameters and only grows, so its end decides; parameters
    -- past `u32` are cut by a cast, and the widest block's slice of the slots panics
    if result.blocks.all fun b => decide (b.params + b.stmts.length ≤ u32Max) then
      pure { result with preInit := blocks.preInit }
    else none

def movfuscateBiir (blocks : BIrBlocks P) : Option (BIrBlocks P) := movfuscateBiirImpl blocks none

def movfuscateBiirWithControlProvenance (blocks : BIrBlocks P) (controlProv : P) :
    Option (BIrBlocks P) := movfuscateBiirImpl blocks (some controlProv)

end
end Movfuscate
end VolarIR
