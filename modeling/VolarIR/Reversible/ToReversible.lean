import VolarIR.Reversible.RCircuit

/-!
# Boolar to reversible circuits

`volar-ir-passes/src/to_reversible.rs`: the naive Bennett-style synthesis and its
hardened upgrade, function by function. Wires are laid out as

  x register | statement results | y register | scratch | borrowed

with the y register provisionally behind every possible statement result; a
single-use XOR operand is consumed in place, and the holes this leaves are closed
by one renumbering after the statement loop. Use counts and the ids of results are
`u32`s; where one overflows the function panics, as in a build with overflow checks.
-/
namespace VolarIR.Rev
open Boolar

inductive ToReversibleError where
  | unsupportedStmt (var : ℕ)
  | useBeforeDef (user operand : ℕ)
  | statefulStmtInHardenedMode (var : ℕ)
  deriving DecidableEq, Repr

inductive ReversibleMode where
  | naive
  | hardened
  deriving DecidableEq, Repr

structure ReversibleOptions where
  mode : ReversibleMode
  shareScratch : Bool
  deriving DecidableEq, Repr

structure VarWireMap where
  map : List ℕ
  numWires : ℕ
  yBase : ℕ
  workspace : List ℕ
  borrowed : List ℕ
  mode : ReversibleMode
  deriving DecidableEq, Repr

/-- `VarWireMap::wire`. -/
def VarWireMap.wire (m : VarWireMap) (v : ℕ) : Option ℕ := m.map[v]?

abbrev SynthResult := Outcome ToReversibleError

/-- The operands the use-count analysis counts; call-handle forms are skipped. -/
def usedVars : Stmt → List ℕ
  | .xor a b | .and a b | .or a b => [a, b]
  | .not a => [a]
  | .storageRead _ _ addr => addr
  | .storageWrite _ _ src addr => src :: addr
  | .oracleBit _ args _ _ => args
  | .actionStoreBit _ guard args fallback _ _ addr _ _ => guard :: args ++ fallback :: addr
  | _ => []

/-- `bump`; counting a var outside the var space panics, and so does the use after
the `u32::MAX`th. -/
def bump (uses : List ℕ) (v : ℕ) : SynthResult (List ℕ) :=
  if v < uses.length ∧ uses.getD v 0 < u32Max then .ok (uses.modify v (· + 1))
  else .error .panic

def countUses {P : Type} (c : BCircuit P) : SynthResult (List ℕ) :=
  (c.kinds.flatMap usedVars ++ c.outputs).foldlM bump (List.replicate c.varSpace 0)

structure Synth where
  gates : List RGate
  map : List ℕ
  scratch : AncillaPool
  nextAnc : ℕ

/-- `IRVarId(params + i as u32)`. -/
def resultVar (params i : ℕ) : SynthResult ℕ :=
  if params + i ≤ u32Max then .ok (params + i) else .error .panic

/-- `check_operand` for the statement whose result is `r`. -/
def checkOperand (r v : ℕ) : SynthResult Unit :=
  if v > r then .error (.error (.useBeforeDef r v))
  else if v ≥ r ∧ v ≠ r then .error (.error (.useBeforeDef r v))
  else .ok ()

def checkOperandList (r : ℕ) : List ℕ → SynthResult Unit
  | [] => .ok ()
  | v :: vs => do
      checkOperand r v
      checkOperandList r vs

namespace Synth

/-- `map_vec[v]`. -/
def wire (st : Synth) (v : ℕ) : SynthResult ℕ := expect st.map[v]?

def wires (st : Synth) (vs : List ℕ) : SynthResult (List ℕ) := vs.mapM st.wire

def finishFresh (st : Synth) (gates : List RGate) : Synth :=
  { st with gates := st.gates ++ gates, map := st.map ++ [st.nextAnc], nextAnc := st.nextAnc + 1 }

def finishInPlace (st : Synth) (gates : List RGate) (w : ℕ) : Synth :=
  { st with gates := st.gates ++ gates, map := st.map ++ [w] }

end Synth

/-- The XOR operand consumed in place, if one is: a non-input var read nowhere else. -/
def reuseCandidate (params : ℕ) (uses : List ℕ) (a b wa wb : ℕ) : Option ℕ :=
  let isCandidate := fun v => decide (params ≤ v) && uses.getD v 0 == 1
  let sa := isCandidate a
  let sb := isCandidate b
  if sa && !sb then some a
  else if sb && !sa then some b
  else if sa && sb && a != b && wa != wb then some a
  else none

/-- `res := ¬(¬a ∧ ¬b)` through two scratch copies. -/
def orGates (wa wb na nb wr : ℕ) : List RGate :=
  [.cnot wa na, .x na, .cnot wb nb, .x nb, .ccnot na nb wr, .x wr]

def orRestore (wa wb na nb : ℕ) : List RGate := [.x nb, .cnot wb nb, .x na, .cnot wa na]

/-- One arm of the statement loop; `i` is the statement's index. -/
def synthStmt (params : ℕ) (uses : List ℕ) (share : Bool) (i : ℕ) (st : Synth) :
    Stmt → SynthResult Synth
  | .zero => return st.finishFresh []
  | .one => return st.finishFresh [.x st.nextAnc]
  | .xor a b => do
      checkOperand (params + i) a
      checkOperand (params + i) b
      let wa ← st.wire a
      let wb ← st.wire b
      match reuseCandidate params uses a b wa wb with
      | some c =>
          let wc ← st.wire c
          let otherWire := if c = a then wb else wa
          return st.finishInPlace [.cnot otherWire wc] wc
      | none => return st.finishFresh [.cnot wa st.nextAnc, .cnot wb st.nextAnc]
  | .and a b => do
      checkOperand (params + i) a
      checkOperand (params + i) b
      let wa ← st.wire a
      let wb ← st.wire b
      return st.finishFresh [.ccnot wa wb st.nextAnc]
  | .not a => do
      checkOperand (params + i) a
      let wa ← st.wire a
      return st.finishFresh [.cnot wa st.nextAnc, .x st.nextAnc]
  | .or a b => do
      checkOperand (params + i) a
      checkOperand (params + i) b
      let wr := st.nextAnc
      let (na, pool) := st.scratch.acquire
      let (nb, pool) := pool.acquire
      let wa ← st.wire a
      let wb ← st.wire b
      if share then
        let pool ← expect (pool.release na)
        let pool ← expect (pool.release nb)
        return { st with scratch := pool }.finishFresh (orGates wa wb na nb wr ++
            orRestore wa wb na nb)
      else return { st with scratch := pool }.finishFresh (orGates wa wb na nb wr)
  | .storageRead storage lane addr => do
      checkOperandList (params + i) addr
      let (s, pool) := st.scratch.acquire
      let addrWires ← st.wires addr
      let swap := RGate.storageSwap storage lane addrWires s
      let gates := [swap, .cnot s st.nextAnc, swap]
      if share then
        let pool ← expect (pool.release s)
        return { st with scratch := pool }.finishFresh gates
      else return { st with scratch := pool }.finishFresh gates
  | .storageWrite storage lane src addr => do
      checkOperand (params + i) src
      checkOperandList (params + i) addr
      let (t, pool) := st.scratch.acquire
      let wsrc ← st.wire src
      let addrWires ← st.wires addr
      -- the old cell value stays in `t`, which is never released
      return { st with scratch := pool }.finishFresh
        [.cnot wsrc t, .storageSwap storage lane addrWires t]
  | .oracleBit name args bit occ => do
      checkOperandList (params + i) args
      let argWires ← st.wires args
      return st.finishFresh [.externalXor .oracle name argWires st.nextAnc bit occ]
  | .rngBit name bit occ =>
      return st.finishFresh [.externalXor .rng name [] st.nextAnc bit occ]
  | .actionStoreBit name guard args fallback storage lane addr bit occ => do
      checkOperand (params + i) guard
      checkOperandList (params + i) args
      checkOperand (params + i) fallback
      checkOperandList (params + i) addr
      let wg ← st.wire guard
      let argWires ← st.wires args
      let wf ← st.wire fallback
      let addrWires ← st.wires addr
      return st.finishFresh
        [.externalStorageXor name wg argWires wf storage lane addrWires bit occ]
  | .oracleCall .. | .oracleProjectedBit .. | .actionCall .. | .actionBit .. | .rng .. =>
      .error (.error (.unsupportedStmt (params + i)))

/-- The statement loop from index `i` on. -/
def synthFrom (params : ℕ) (uses : List ℕ) (share : Bool) :
    ℕ → Synth → List Stmt → SynthResult Synth
  | _, st, [] => .ok st
  | i, st, s :: rest => do
      let _ ← resultVar params i
      let st ← synthStmt params uses share i st s
      synthFrom params uses share (i + 1) st rest

/-- Rename every wire of a gate. -/
def RGate.mapWires (f : ℕ → ℕ) : RGate → RGate
  | .x w => .x (f w)
  | .cnot ctrl target => .cnot (f ctrl) (f target)
  | .ccnot c1 c2 target => .ccnot (f c1) (f c2) (f target)
  | .xorLut2 c0 c1 target table => .xorLut2 (f c0) (f c1) (f target) table
  | .storageSwap storage lane addr target => .storageSwap storage lane (addr.map f) (f target)
  | .externalXor kind name args target bit occ =>
      .externalXor kind name (args.map f) (f target) bit occ
  | .externalStorageXor name guard args fallback storage lane addr bit occ =>
      .externalStorageXor name (f guard) (args.map f) (f fallback) storage lane (addr.map f) bit occ

/-- `shift`: close the gap of `delta` unused wires below `yBaseProv`. -/
def shift (yBaseProv delta w : ℕ) : ℕ := if w ≥ yBaseProv then w - delta else w

/-- The loop state before the first statement: wire `i` carries parameter `i`. -/
def Synth.init (params yBaseProv outputs : ℕ) : Synth where
  gates := []
  map := List.range params
  scratch := .new (yBaseProv + outputs)
  nextAnc := params

def outputGates (gate : ℕ → ℕ → RGate) (map : List ℕ) (yBase : ℕ) :
    ℕ → List ℕ → SynthResult (List RGate)
  | _, [] => .ok []
  | k, out :: outs => do
      let w ← expect map[out]?
      let rest ← outputGates gate map yBase (k + 1) outs
      return gate w (yBase + k) :: rest

/-- `synthesize_naive`. -/
def synthesizeNaive {P : Type} (c : BCircuit P) (share : Bool) :
    SynthResult (RCircuit × VarWireMap) := do
  let params := c.params
  let yBaseProv := params + c.stmts.length
  let uses ← countUses c
  let st ← synthFrom params uses share 0 (.init params yBaseProv c.outputs.length) c.kinds
  let yBase := st.nextAnc
  let delta := yBaseProv - yBase
  let compact := fun w => if delta > 0 then shift yBaseProv delta w else w
  let gates := st.gates.map (RGate.mapWires compact)
  let map := st.map.map compact
  let outs ← outputGates .cnot map yBase 0 c.outputs
  let numWires := yBaseProv + c.outputs.length + st.scratch.peakAllocated - delta
  match RCircuit.new numWires (gates ++ outs) with
  | .error _ => .error .panic
  | .ok circuit =>
      let yEnd := yBase + c.outputs.length
      return (circuit, {
        map := map
        numWires := numWires
        yBase := yBase
        workspace := List.range' params (yBase - params) ++ List.range' yEnd (numWires - yEnd)
        borrowed := []
        mode := .naive })

/-- Step `i` of the ladder: the first two controls, or the previous rung and the next control. -/
def ladderRung (controls dirty : List ℕ) (i : ℕ) : RGate :=
  if i = 0 then .ccnot (controls.getD 0 0) (controls.getD 1 0) (dirty.getD 0 0)
  else .ccnot (dirty.getD (i - 1) 0) (controls.getD (i + 1) 0) (dirty.getD i 0)

/-- `append_dirty_ladder`: climb, toggle the target, climb down. -/
def dirtyLadder (controls : List ℕ) (target : ℕ) (dirty : List ℕ) (includeFirst : Bool) :
    List RGate :=
  let first := if includeFirst then 0 else 1
  let climb := (List.range' first (dirty.length - first)).map (ladderRung controls dirty)
  climb ++ .ccnot (dirty.getLastD 0) (controls.getLastD 0) target :: climb.reverse

/-- `append_mcx_with_dirty`. -/
def mcxWithDirty (controls : List ℕ) (target : ℕ) (dirty : List ℕ) : List RGate :=
  match controls with
  | [control] => [.cnot control target]
  | [c1, c2] => [.ccnot c1 c2 target]
  | _ =>
      let ladder := dirty.take (controls.length - 2)
      dirtyLadder controls target ladder true ++ dirtyLadder controls target ladder false

/-- `append_zero_test`: toggle the target iff every control is zero. -/
def zeroTest (controls : List ℕ) (target : ℕ) (dirty : List ℕ) : List RGate :=
  controls.map .x ++ mcxWithDirty controls target dirty ++ controls.map .x

/-- `harden`. -/
def harden {P : Type} (c : BCircuit P) (circuit : RCircuit) (map : VarWireMap) :
    SynthResult (RCircuit × VarWireMap) :=
  let compute := circuit.gates.take (circuit.gates.length - c.outputs.length)
  if map.workspace.isEmpty then return (circuit, { map with mode := .hardened })
  else do
    let borrowedBase := circuit.numWires
    let borrowedCount := max (map.workspace.length - 2 + 1) 1
    let borrowed := List.range' borrowedBase borrowedCount
    let selector ← expect borrowed.getLast?
    let copy ← outputGates (fun w y => .ccnot w selector y) map.map map.yBase 0 c.outputs
    let controlledCleanCopy := compute ++ copy ++ compute.reverse
    let test := zeroTest map.workspace selector (borrowed.take (borrowed.length - 1))
    let gates := controlledCleanCopy ++ test ++ controlledCleanCopy ++ test
    let numWires := borrowedBase + borrowed.length
    match RCircuit.new numWires gates with
    | .error _ => .error .panic
    | .ok hardened =>
        return (hardened,
          { map with numWires := numWires, borrowed := borrowed, mode := .hardened })

def stateful : Stmt → Bool
  | .storageRead .. | .storageWrite .. | .actionStoreBit .. => true
  | _ => false

/-- The check of hardened mode, from statement index `i` on. -/
def checkStateless (params : ℕ) : ℕ → List Stmt → SynthResult Unit
  | _, [] => .ok ()
  | i, s :: rest =>
      if stateful s then do
        let var ← resultVar params i
        .error (.error (.statefulStmtInHardenedMode var))
      else checkStateless params (i + 1) rest

/-- `to_reversible_with_options`. -/
def toReversibleWithOptions {P : Type} (c : BCircuit P) (options : ReversibleOptions) :
    SynthResult (RCircuit × VarWireMap) := do
  if options.mode = .hardened then checkStateless c.params 0 c.kinds
  let (circuit, map) ← synthesizeNaive c options.shareScratch
  match options.mode with
  | .naive => return (circuit, map)
  | .hardened => harden c circuit map

/-- `to_reversible_with_mode`. -/
def toReversibleWithMode {P : Type} (c : BCircuit P) (mode : ReversibleMode) :
    SynthResult (RCircuit × VarWireMap) :=
  toReversibleWithOptions c ⟨mode, false⟩

/-- `to_reversible`. -/
def toReversible {P : Type} (c : BCircuit P) : SynthResult (RCircuit × VarWireMap) :=
  toReversibleWithMode c .naive

end VolarIR.Rev
