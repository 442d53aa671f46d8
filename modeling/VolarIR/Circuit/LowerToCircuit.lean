import VolarIR.Boolar.Syntax

/-!
# Bounded unrolling of a step program

The Boolar half of `volar-ir-passes/src/lower_to_circuit.rs`: a single block that jumps
back to itself is unrolled `limit` times, and a cascade of multiplexers selects the
result of the first iteration that returned. The emitter counts in natural numbers. Its
counter only grows, so the `u32` of the source overflows, and panics, just when the count
ends above `u32Max`.
-/
namespace VolarIR

namespace Boolar

/-- `is_movfuscated`. -/
def BIrBlocks.isMovfuscated {P : Type} (blocks : BIrBlocks P) : Bool := blocks.blocks.length == 1

/-- `is_circuit`: one block, whose only exit is `Return`. -/
def BIrBlocks.isCircuit {P : Type} (blocks : BIrBlocks P) : Bool :=
  blocks.isMovfuscated &&
    match blocks.blocks with
    | ⟨_, _, .jmp ⟨.ret, _⟩⟩ :: _ => true
    | _ => false

end Boolar

namespace Circuit
open Boolar

/-- A function of this pass returns or panics. -/
abbrev LowerResult := Outcome Empty

inductive LoweringMode where
  | unconditional
  | withTerminationFlag
  deriving DecidableEq, Repr

inductive SubstitutedGateKind where
  | zero
  | one
  | and
  | or
  | xor
  | not
  deriving DecidableEq, Repr

structure SubstitutedGateKey where
  kind : SubstitutedGateKind
  lo : ℕ
  hi : ℕ
  deriving DecidableEq, Repr

namespace SubstitutedGateKey

/-- `constant`. -/
def constant (kind : SubstitutedGateKind) : SubstitutedGateKey := ⟨kind, 0, 0⟩

/-- `binary`: the operands in ascending order. -/
def binary (kind : SubstitutedGateKind) (a b : ℕ) : SubstitutedGateKey :=
  if a ≤ b then ⟨kind, a, b⟩ else ⟨kind, b, a⟩

/-- `from_stmt`. -/
def fromStmt : Stmt → Option SubstitutedGateKey
  | .zero => some (constant .zero)
  | .one => some (constant .one)
  | .and a b => some (binary .and a b)
  | .or a b => some (binary .or a b)
  | .xor a b => some (binary .xor a b)
  | .not a => some ⟨.not, a, 0⟩
  | _ => none

end SubstitutedGateKey

structure SubstitutedGateCache where
  slots : ℕ → Option (SubstitutedGateKey × ℕ)

namespace SubstitutedGateCache

def capacity : UInt64 := (1 : UInt64) <<< 18

/-- `slot`. -/
def slot (key : SubstitutedGateKey) : ℕ :=
  let tag : UInt64 := match key.kind with
    | .zero => 0
    | .one => 1
    | .and => 2
    | .or => 3
    | .xor => 4
    | .not => 5
  let hash := (UInt64.ofNat key.lo <<< 32) ||| UInt64.ofNat key.hi
  let hash := hash ^^^ (tag * 0x9e3779b97f4a7c15)
  let hash := (hash ^^^ (hash >>> 30)) * 0xbf58476d1ce4e5b9
  let hash := (hash ^^^ (hash >>> 27)) * 0x94d049bb133111eb
  let hash := hash ^^^ (hash >>> 31)
  (hash &&& (capacity - 1)).toNat

def new : SubstitutedGateCache := ⟨fun _ => none⟩

def get (cache : SubstitutedGateCache) (key : SubstitutedGateKey) : Option ℕ :=
  match cache.slots (slot key) with
  | some (stored, value) => if stored = key then some value else none
  | none => none

def insert (cache : SubstitutedGateCache) (key : SubstitutedGateKey) (value : ℕ) :
    SubstitutedGateCache :=
  ⟨fun i => if i = slot key then some (key, value) else cache.slots i⟩

end SubstitutedGateCache

/-- `Emitter`: the statements so far and the next var. -/
structure Emitter (P : Type) where
  stmts : List (Node Stmt P)
  nextId : ℕ
  substitutedGates : Option SubstitutedGateCache

namespace Emitter
variable {P : Type}

def new (firstId : ℕ) : Emitter P := ⟨[], firstId, none⟩

def emit (e : Emitter P) (stmt : Stmt) (prov : P) : ℕ × Emitter P :=
  (e.nextId, { e with stmts := e.stmts ++ [Node.new stmt prov], nextId := e.nextId + 1 })

/-- `emit_substituted`: reuse an equal gate that the cache still remembers. -/
def emitSubstituted (e : Emitter P) (stmt : Stmt) (prov : P) : ℕ × Emitter P :=
  match SubstitutedGateKey.fromStmt stmt with
  | none => e.emit stmt prov
  | some key =>
      match e.substitutedGates.bind (·.get key) with
      | some existing => (existing, e)
      | none =>
          let (result, e) := e.emit stmt prov
          let cache := e.substitutedGates.getD .new
          (result, { e with substitutedGates := some (cache.insert key result) })

/-- `emit_mux`: `(s ∧ (a ⊕ b)) ⊕ b`. -/
def mux (e : Emitter P) (s a b : ℕ) (prov : P) : ℕ × Emitter P :=
  let (xab, e) := e.emit (.xor a b) prov
  let (sel, e) := e.emit (.and s xab) prov
  e.emit (.xor sel b) prov

/-- `emit_or`: `¬(¬a ∧ ¬b)`. -/
def or (e : Emitter P) (a b : ℕ) (prov : P) : ℕ × Emitter P :=
  let (na, e) := e.emit (.not a) prov
  let (nb, e) := e.emit (.not b) prov
  let (nand, e) := e.emit (.and na nb) prov
  e.emit (.not nand) prov

def muxes (e : Emitter P) (s : ℕ) (prov : P) : List (ℕ × ℕ) → List ℕ × Emitter P
  | [] => ([], e)
  | (a, b) :: rest =>
      let (v, e) := e.mux s a b prov
      let (vs, e) := e.muxes s prov rest
      (v :: vs, e)

end Emitter

section
variable {P : Type}

/-- The lookup of a source var; a var outside the map panics. -/
def lookup (varMap : List ℕ) (v : ℕ) : LowerResult ℕ := expect varMap[v]?

/-- `subst_stmt`. -/
def substStmt (stmt : Stmt) (varMap : List ℕ) : LowerResult Stmt :=
  stmt.map (lookup varMap) pure

def emitBody (e : Emitter P) (varMap : List ℕ) : List (Node Stmt P) →
    LowerResult (List ℕ × Emitter P)
  | [] => .ok (varMap, e)
  | stmt :: rest => do
      let kind ← substStmt stmt.kind varMap
      let (out, e) := e.emitSubstituted kind stmt.prov
      emitBody e (varMap ++ [out]) rest

/-- What `process_terminator` returns: the done wire, the result and the next arguments. -/
structure Exit where
  done : ℕ
  result : List ℕ
  next : List ℕ

/-- `process_terminator`. -/
def processTerminator (terminator : BIrTerminator ℕ) (varMap : List ℕ) (e : Emitter P)
    (currentState : List ℕ) (ctrlProv : P) : LowerResult (Exit × Emitter P) :=
  match terminator with
  | .jmp ⟨.ret, args⟩ => do
      let (oneId, e) := e.emit .one ctrlProv
      let result ← args.mapM (lookup varMap)
      return (⟨oneId, result, result⟩, e)
  | .jmp ⟨.block 0, args⟩ => do
      let (zeroId, e) := e.emit .zero ctrlProv
      let next ← args.mapM (lookup varMap)
      return (⟨zeroId, currentState, next⟩, e)
  | .jmp _ => .error .panic
  | .condJmp val thenTarget elseTarget => do
      let v ← lookup varMap val
      match thenTarget, elseTarget with
      | ⟨.ret, thenArgs⟩, ⟨.block 0, elseArgs⟩ => do
          let result ← thenArgs.mapM (lookup varMap)
          let next ← elseArgs.mapM (lookup varMap)
          return (⟨v, result, next⟩, e)
      | ⟨.block 0, thenArgs⟩, ⟨.ret, elseArgs⟩ => do
          let (notVal, e) := e.emit (.not v) ctrlProv
          let result ← elseArgs.mapM (lookup varMap)
          let next ← thenArgs.mapM (lookup varMap)
          return (⟨notVal, result, next⟩, e)
      | ⟨.ret, thenArgs⟩, ⟨.ret, elseArgs⟩ => do
          let (oneId, e) := e.emit .one ctrlProv
          let thenV ← thenArgs.mapM (lookup varMap)
          let elseV ← elseArgs.mapM (lookup varMap)
          if thenV.length = elseV.length then
            let (result, e) := e.muxes v ctrlProv (thenV.zip elseV)
            return (⟨oneId, result, currentState⟩, e)
          else .error .panic
      | _, _ => .error .panic

/-- The unrolling loop: the exits in order, and the state after the last iteration. -/
def unroll (block0 : BIrBlock P) (ctrlProv : P) : ℕ → Emitter P → List ℕ →
    LowerResult (List Exit × List ℕ × Emitter P)
  | 0, e, currentState => .ok ([], currentState, e)
  | n + 1, e, currentState => do
      let (varMap, e) ← emitBody e currentState block0.stmts
      let (exit, e) ← processTerminator block0.terminator varMap e currentState ctrlProv
      let (exits, final, e) ← unroll block0 ctrlProv n e exit.next
      return (exit :: exits, final, e)

/-- `v.resize(width, *v.last().unwrap_or(&0))`. -/
def resize (v : List ℕ) (width : ℕ) : List ℕ :=
  v.take width ++ List.replicate (width - v.length) (v.getLastD 0)

/-- The multiplexer cascade, from the last iteration to the first. -/
def muxCascade (e : Emitter P) (ctrlProv : P) (fallback : List ℕ) : List Exit →
    List ℕ × Emitter P
  | [] => (fallback, e)
  | exit :: rest =>
      let (gated, e) := muxCascade e ctrlProv fallback rest
      let wires := gated.zipIdx.map fun p => (exit.result.getD p.2 p.1, p.1)
      e.muxes exit.done ctrlProv wires

def orCascade (e : Emitter P) (ctrlProv : P) : List ℕ → ℕ → ℕ × Emitter P
  | [], acc => (acc, e)
  | done :: rest, acc =>
      let (acc, e) := e.or acc done ctrlProv
      orCascade e ctrlProv rest acc

/-- The two cascades after the loop: the gated wires and the overall done flag. -/
def selectFirst (e : Emitter P) (ctrlProv : P) (exits : List Exit) (final : List ℕ) :
    List ℕ × ℕ × Emitter P :=
  let outputWidth := match exits with
    | exit :: _ => exit.result.length
    | [] => final.length
  let (gated, e) := muxCascade e ctrlProv (resize final outputWidth) exits
  let (overallDone, e) := match exits with
    | [] => e.emit .zero ctrlProv
    | exit :: rest => orCascade e ctrlProv (rest.map Exit.done) exit.done
  (gated, overallDone, e)

def ctrlProvOf (block0 : BIrBlock P) (controlProv : Option P) : Option P :=
  (block0.stmts.head?.map Node.prov).or controlProv

def emitCircuit (block0 : BIrBlock P) (ctrlProv : P) (limit : ℕ) :
    LowerResult (List ℕ × ℕ × Emitter P) := do
  let (exits, final, e) ← unroll block0 ctrlProv limit (.new block0.params)
    (List.range block0.params)
  return selectFirst e ctrlProv exits final

/-- `lower_to_circuit_impl`. -/
def lowerToCircuitImpl (blocks : BIrBlocks P) (limit : ℕ) (mode : LoweringMode)
    (controlProv : Option P) : LowerResult (BIrBlocks P) :=
  if blocks.isCircuit then .ok blocks
  else match blocks.blocks with
  | [block0] => do
      let ctrlProv ← expect (ctrlProvOf block0 controlProv)
      let (gated, overallDone, e) ← emitCircuit block0 ctrlProv limit
      if u32Max < e.nextId then .error .panic
      let retArgs := match mode with
        | .withTerminationFlag => overallDone :: gated
        | .unconditional => gated
      return ⟨[⟨block0.params, e.stmts, .jmp ⟨.ret, retArgs⟩⟩], blocks.preInit⟩
  | _ => .error .panic

/-- `lower_to_circuit`. -/
def lowerToCircuit (blocks : BIrBlocks P) (limit : ℕ) (mode : LoweringMode) :
    LowerResult (BIrBlocks P) := lowerToCircuitImpl blocks limit mode none

/-- `lower_to_circuit_with_control_provenance`. -/
def lowerToCircuitWithControlProvenance (blocks : BIrBlocks P) (limit : ℕ) (mode : LoweringMode)
    (controlProv : P) : LowerResult (BIrBlocks P) :=
  lowerToCircuitImpl blocks limit mode (some controlProv)

structure SkipBoundary where
  stateWidth : ℕ
  hasDoneFlag : Bool
  deriving DecidableEq, Repr

def skipBoundary (circuit : BIrBlocks P) (mode : LoweringMode) : SkipBoundary :=
  let hasDoneFlag := mode == .withTerminationFlag
  let retLen := match circuit.blocks with
    | ⟨_, _, .jmp t⟩ :: _ => t.args.length
    | _ => 0
  ⟨retLen - hasDoneFlag.toNat, hasDoneFlag⟩

/-- `lower_to_circuit_with_boundary`. -/
def lowerToCircuitWithBoundary (blocks : BIrBlocks P) (limit : ℕ) (mode : LoweringMode) :
    LowerResult (BIrBlocks P × SkipBoundary) := do
  let circuit ← lowerToCircuit blocks limit mode
  return (circuit, skipBoundary circuit mode)

end
end Circuit
end VolarIR
