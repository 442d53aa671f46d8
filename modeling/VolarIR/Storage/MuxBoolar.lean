import VolarIR.Boolar.Eval
import VolarIR.Circuit.LowerToCircuit

/-!
# Storage to multiplexers

`storage_to_mux_boolar`: one lane of one storage becomes a register file, one var per cell.
A read selects among the registers, a write replaces one of them, both by comparing the
address with every index bit by bit. Every other statement is copied, those that store the
result of an action in the lane included. Whether the build checks overflow decides what
becomes of an address of more than 64 bits. The ids handed out are natural numbers; with overflow
checks the pass panics when they leave `u32`.
-/
namespace VolarIR.Storage

open Boolar

variable {P : Type}

structure StorageToMuxBoolarConfig where
  storage : StorageId
  lane : LaneId
  numCells : ℕ

inductive StorageToMuxBoolarError where
  | readOnlyWrite (storage : StorageId)
  | notSingleBlockCircuit
  | zeroCells
  | addressTooNarrow (addrBits numCells : ℕ)
  | preInitAddressTooWide (addrBits : ℕ)
  deriving DecidableEq, Repr

abbrev MuxResult := Outcome StorageToMuxBoolarError

def push (block : BIrBlock P) (stmt : Stmt) (prov : P) : ℕ × BIrBlock P :=
  (block.params + block.stmts.length,
    { block with stmts := block.stmts ++ [Node.new stmt prov] })

def eqTerm (block : BIrBlock P) (bitVar : ℕ) (bitSet : Bool) (prov : P) : ℕ × BIrBlock P :=
  if bitSet = true then (bitVar, block) else push block (.not bitVar) prov

def conjoin (acc : Option ℕ) (term : ℕ × BIrBlock P) (prov : P) : ℕ × BIrBlock P :=
  match acc with
  | none => term
  | some a => push term.2 (.and a term.1) prov

/-- The fold of `eq_const` over the address bits from position `j` on. The shift `index >> j`
takes `j` modulo 64. -/
def eqConstFrom (index : ℕ) (prov : P) (j : ℕ) (addr : List ℕ)
    (state : Option ℕ × BIrBlock P) : Option ℕ × BIrBlock P :=
  match addr with
  | [] => state
  | bitVar :: addr =>
      let next := conjoin state.1 (eqTerm state.2 bitVar (index.testBit (j % 64)) prov) prov
      eqConstFrom index prov (j + 1) addr (some next.1, next.2)

section
variable (overflowChecks : Bool)

/-- `eq_const`: whether the address bits are those of `index`. With overflow checks the shift
`index >> j` panics at the 65th address bit. -/
def eqConst (block : BIrBlock P) (addr : List ℕ) (index : ℕ) (prov : P) :
    MuxResult (ℕ × BIrBlock P) :=
  if overflowChecks ∧ 64 < addr.length then .error .panic
  else match eqConstFrom index prov 0 addr (none, block) with
    | (some acc, block) => .ok (acc, block)
    | (none, block) => .ok (push block .one prov)

/-- `MUX(cond, a, b) = AND(cond, XOR(a, b)) XOR b`. -/
def mux (block : BIrBlock P) (cond a b : ℕ) (prov : P) : ℕ × BIrBlock P :=
  let (xorAb, block) := push block (.xor a b) prov
  let (andC, block) := push block (.and cond xorAb) prov
  push block (.xor andC b) prov

/-- The fold of `mux_read` over the cells from index `i` on. -/
def muxReadFrom (addr : List ℕ) (prov : P) : ℕ → List ℕ → ℕ × BIrBlock P →
    MuxResult (ℕ × BIrBlock P)
  | _, [], state => .ok state
  | i, cell :: cells, (acc, block) => do
      let (eqI, block) ← eqConst overflowChecks block addr i prov
      muxReadFrom addr prov (i + 1) cells (mux block eqI cell acc prov)

/-- `mux_read`: fold a selection over every cell. -/
def muxRead (block : BIrBlock P) (cells addr : List ℕ) (prov : P) : MuxResult (ℕ × BIrBlock P) :=
  muxReadFrom overflowChecks addr prov 0 cells (push block .zero prov)

/-- The map of `mux_write` over the cells from index `i` on. -/
def muxWriteFrom (addr : List ℕ) (src : ℕ) (prov : P) : ℕ → List ℕ → BIrBlock P →
    MuxResult (List ℕ × BIrBlock P)
  | _, [], block => .ok ([], block)
  | i, cell :: cells, block => do
      let (eqI, block) ← eqConst overflowChecks block addr i prov
      let (written, block) := mux block eqI src cell prov
      let (rest, block) ← muxWriteFrom addr src prov (i + 1) cells block
      return (written :: rest, block)

/-- `mux_write`: demux `src` into every cell. -/
def muxWrite (block : BIrBlock P) (cells addr : List ℕ) (src : ℕ) (prov : P) :
    MuxResult (List ℕ × BIrBlock P) :=
  muxWriteFrom overflowChecks addr src prov 0 cells block

end

/-- `address_to_usize`. -/
def addressToUsize (addr : List Bool) : Option ℕ :=
  if 64 < addr.length then none else some (Bits.value addr)

def laneSegments (cfg : StorageToMuxBoolarConfig) (segments : List BIrPreInitSegment) :
    List BIrPreInitSegment :=
  segments.filter fun seg => seg.storage = cfg.storage ∧ seg.lane = cfg.lane

def otherSegments (cfg : StorageToMuxBoolarConfig) (segments : List BIrPreInitSegment) :
    List BIrPreInitSegment :=
  segments.filter fun seg => ¬ (seg.storage = cfg.storage ∧ seg.lane = cfg.lane)

/-- The initial contents of the cells. Addresses past the declared count are dropped. -/
def initValues (cfg : StorageToMuxBoolarConfig) (segments : List BIrPreInitSegment) :
    MuxResult (List Bool) :=
  (laneSegments cfg segments).foldlM (fun values seg =>
    seg.cells.foldlM (fun values cell =>
      match addressToUsize cell.1 with
      | none => .error (.error (.preInitAddressTooWide cell.1.length))
      | some idx => .ok (if idx < cfg.numCells then values.set idx cell.2 else values)) values)
    (List.replicate cfg.numCells false)

def pushCells (block : BIrBlock P) (prov : P) : List Bool → List ℕ × BIrBlock P
  | [] => ([], block)
  | bit :: values =>
      let (cell, block) := push block (if bit then .one else .zero) prov
      let (rest, block) := pushCells block prov values
      (cell :: rest, block)

structure MuxState (P : Type) where
  block : BIrBlock P
  remap : List ℕ
  cells : List ℕ

def remapVar (remap : List ℕ) (v : ℕ) : MuxResult ℕ := expect remap[v]?

def checkAddress (cfg : StorageToMuxBoolarConfig) (addr : List ℕ) : MuxResult Unit :=
  if 2 ^ min addr.length 63 < cfg.numCells ∨ (addr.isEmpty = true ∧ 1 < cfg.numCells) then
    .error (.error (.addressTooNarrow addr.length cfg.numCells))
  else .ok ()

def copyStmt (state : MuxState P) (stmt : Stmt) (prov : P) : MuxResult (MuxState P) := do
  let remapped ← stmt.map (remapVar state.remap) pure
  let (id, block) := push state.block remapped prov
  return { state with block := block, remap := state.remap ++ [id] }

def Accesses (cfg : StorageToMuxBoolarConfig) (storage : StorageId) (lane : LaneId) : Prop :=
  storage = cfg.storage ∧ lane = cfg.lane

instance (cfg : StorageToMuxBoolarConfig) (storage : StorageId) (lane : LaneId) :
    Decidable (Accesses cfg storage lane) := instDecidableAnd

/-- One statement of the walk. -/
def muxStmt (overflowChecks : Bool) (cfg : StorageToMuxBoolarConfig) (state : MuxState P)
    (node : Node Stmt P) :
    MuxResult (MuxState P) :=
  match node.kind with
  | .storageRead storage lane addr =>
      if Accesses cfg storage lane then do
        checkAddress cfg addr
        let addrNew ← addr.mapM (remapVar state.remap)
        let (result, block) ← muxRead overflowChecks state.block state.cells addrNew node.prov
        return { state with block := block, remap := state.remap ++ [result] }
      else copyStmt state node.kind node.prov
  | .storageWrite storage lane src addr =>
      if Accesses cfg storage lane then do
        checkAddress cfg addr
        let addrNew ← addr.mapM (remapVar state.remap)
        let srcNew ← remapVar state.remap src
        let (cells, block) ← muxWrite overflowChecks state.block state.cells addrNew
            srcNew node.prov
        let (dummy, block) := push block .zero node.prov
        return ⟨block, state.remap ++ [dummy], cells⟩
      else copyStmt state node.kind node.prov
  | _ => copyStmt state node.kind node.prov

def remapTarget (remap : List ℕ) (target : BIrTarget ℕ) : MuxResult (BIrTarget ℕ) := do
  return ⟨target.block, ← target.args.mapM (remapVar remap)⟩

def remapTerminator (remap : List ℕ) : BIrTerminator ℕ → MuxResult (BIrTerminator ℕ)
  | .jmp target => do return .jmp (← remapTarget remap target)
  | .condJmp val thenTarget elseTarget => do
      return .condJmp (← remapVar remap val) (← remapTarget remap thenTarget)
        (← remapTarget remap elseTarget)

/-- Whether some statement writes the storage, whatever the lane. -/
def writesStorage (blocks : BIrBlocks P) (storage : StorageId) : Bool :=
  blocks.blocks.any fun block => block.stmts.any fun node =>
    match node.kind with
    | .storageWrite found _ _ _ => decide (found = storage)
    | _ => false

def storageToMuxBoolarWithAccess [Inhabited P] (overflowChecks : Bool) (blocks : BIrBlocks P)
    (cfg : StorageToMuxBoolarConfig) (storageAccess : Option StorageTable) :
    MuxResult (BIrBlocks P) :=
  if (storageAccess.any fun table => table.accessOf cfg.storage = .readOnly) = true ∧
      writesStorage blocks cfg.storage = true then
    .error (.error (.readOnlyWrite cfg.storage))
  else if blocks.isCircuit = false then .error (.error .notSingleBlockCircuit)
  else if cfg.numCells = 0 then .error (.error .zeroCells)
  else match blocks.blocks with
  | [] => .error .panic
  | old :: _ => do
      let values ← initValues cfg blocks.preInit
      let (cells, block) := pushCells ⟨old.params, [], old.terminator⟩ default values
      let final ← old.stmts.foldlM (muxStmt overflowChecks cfg)
        ⟨block, List.range old.params, cells⟩
      -- the ids only grow: an overflow shows in the finished block
      if overflowChecks ∧ ¬final.block.IdsFit then .error .panic
      let terminator ← remapTerminator final.remap old.terminator
      return ⟨[{ final.block with terminator := terminator }], otherSegments cfg blocks.preInit⟩

/-- `storage_to_mux_boolar`. -/
def storageToMuxBoolar [Inhabited P] (overflowChecks : Bool) (blocks : BIrBlocks P)
    (cfg : StorageToMuxBoolarConfig) : MuxResult (BIrBlocks P) :=
  storageToMuxBoolarWithAccess overflowChecks blocks cfg none

end VolarIR.Storage
