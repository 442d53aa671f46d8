import VolarIR.Reversible.RCircuit

/-!
# Reversible to Boolar circuits

`volar-ir-passes/src/from_reversible.rs`, function by function: the SSA form of a
reversible circuit, and the two rewrites of a circuit's public interface. A var id
counts from the parameters up, and no rewrite may push past `u32::MAX` vars.
-/
namespace VolarIR.Rev
open Boolar

inductive CircuitTransformError where
  | invalidRCircuit (e : RCircuitError)
  | wireCountOutOfRange (numWires : ℕ)
  | varSpaceExhausted
  | unsupportedGate (gate : ℕ)
  | actionBitIndexOverflow (gate : ℕ)
  | duplicateInput (input : ℕ)
  | inputOutOfRange (input params : ℕ)
  | duplicateOutput (output : ℕ)
  | outputOutOfRange (output outputs : ℕ)
  | unknownValue (var knownValues : ℕ)
  deriving DecidableEq, Repr

abbrev TransformResult := Outcome CircuitTransformError

/-- `checked_push_stmt`. -/
def checkedPushStmt {P : Type} (c : BCircuit P) (kind : Stmt) (prov : P) :
    TransformResult (ℕ × BCircuit P) :=
  if c.varSpace = u32Max then .error (.error .varSpaceExhausted)
  else .ok (c.pushStmt kind prov)

structure BoolarBuilder where
  circuit : BCircuit Unit
  wires : List ℕ

namespace BoolarBuilder

/-- `BoolarBuilder::new`. -/
def new (params : ℕ) : BoolarBuilder := ⟨.new params, List.range params⟩

/-- `emit`: the new statement's var, and the builder with it. -/
def emit (b : BoolarBuilder) (kind : Stmt) : TransformResult (ℕ × BoolarBuilder) := do
  let (v, c) ← checkedPushStmt b.circuit kind ()
  return (v, { b with circuit := c })

/-- `wire`. -/
def wire (b : BoolarBuilder) (w : ℕ) : TransformResult ℕ := expect b.wires[w]?

/-- `wires`. -/
def wiresOf (b : BoolarBuilder) (ws : List ℕ) : TransformResult (List ℕ) := ws.mapM b.wire

/-- `set_wire`. -/
def setWire (b : BoolarBuilder) (w v : ℕ) : BoolarBuilder := { b with wires := b.wires.set w v }

/-- `finish`. -/
def finish (b : BoolarBuilder) : BCircuit Unit := { b.circuit with outputs := b.wires }

end BoolarBuilder

/-- `append_xor_term`. -/
def appendXorTerm (b : BoolarBuilder) (accumulator : Option ℕ) (term : ℕ) :
    TransformResult (Option ℕ × BoolarBuilder) :=
  match accumulator with
  | some value => do
      let (v, b) ← b.emit (.xor value term)
      return (some v, b)
  | none => return (some term, b)

def lutConstant (b : BoolarBuilder) (present : Bool) : TransformResult (Option ℕ × BoolarBuilder) :=
  if present then do
    let (one, b) ← b.emit .one
    appendXorTerm b none one
  else return (none, b)

def lutLinear (present : Bool) (term : ℕ) (r : Option ℕ × BoolarBuilder) :
    TransformResult (Option ℕ × BoolarBuilder) :=
  if present then appendXorTerm r.2 r.1 term else return r

def lutProduct (present : Bool) (control0 control1 : ℕ) (r : Option ℕ × BoolarBuilder) :
    TransformResult (Option ℕ × BoolarBuilder) :=
  if present then do
    let (product, b) ← r.2.emit (.and control0 control1)
    appendXorTerm b r.1 product
  else return r

/-- `lower_lut2_xor`: exclusive-or the table's algebraic normal form into the target. -/
def lowerLut2Xor (b : BoolarBuilder) (c0 c1 target : ℕ) (table : BitVec 8) :
    TransformResult BoolarBuilder := do
  let t00 := (table >>> 3) &&& 1#8 != 0#8
  let t01 := (table >>> 2) &&& 1#8 != 0#8
  let t10 := (table >>> 1) &&& 1#8 != 0#8
  let t11 := table &&& 1#8 != 0#8
  let control0 ← b.wire c0
  let control1 ← b.wire c1
  let r ← lutConstant b t00
  let r ← lutLinear (t00 ^^ t10) control0 r
  let r ← lutLinear (t00 ^^ t01) control1 r
  let (value, b) ← lutProduct (t00 ^^ t01 ^^ t10 ^^ t11) control0 control1 r
  match value with
  | some value => do
      let before ← b.wire target
      let (next, b) ← b.emit (.xor before value)
      return b.setWire target next
  | none => return b

/-- `vec![v; n]` of four-byte ids; more than `isize::MAX` bytes overflow the capacity, a panic. -/
def idVec (v n : ℕ) : TransformResult (List ℕ) :=
  if 4 * n ≤ isizeMax then .ok (List.replicate n v) else .error .panic

/-- One arm of the gate loop; `i` is the gate's index. -/
def lowerGate (i : ℕ) (b : BoolarBuilder) : RGate → TransformResult BoolarBuilder
  | .x target => do
      let before ← b.wire target
      let (next, b) ← b.emit (.not before)
      return b.setWire target next
  | .cnot ctrl target => do
      let c ← b.wire ctrl
      let before ← b.wire target
      let (next, b) ← b.emit (.xor c before)
      return b.setWire target next
  | .ccnot c1 c2 target => do
      let v1 ← b.wire c1
      let v2 ← b.wire c2
      let (product, b) ← b.emit (.and v1 v2)
      let before ← b.wire target
      let (next, b) ← b.emit (.xor before product)
      return b.setWire target next
  | .xorLut2 c0 c1 target table => lowerLut2Xor b c0 c1 target table
  | .storageSwap storage lane addr target => do
      let addr ← b.wiresOf addr
      let before ← b.wire target
      let (stored, b) ← b.emit (.storageRead storage lane addr)
      let (_, b) ← b.emit (.storageWrite storage lane before addr)
      return b.setWire target stored
  | .externalXor kind name args target bit occ => do
      let (source, b) ← match kind with
        | .oracle => do
            let args ← b.wiresOf args
            b.emit (.oracleBit name args bit occ)
        | .rng => b.emit (.rngBit name bit occ)
      let before ← b.wire target
      let (next, b) ← b.emit (.xor before source)
      return b.setWire target next
  | .externalStorageXor name guard args fallback storage lane addr bit _ =>
      if bit = usizeMax then .error (.error (.actionBitIndexOverflow i))
      else do
        let resultBits := bit + 1
        let addr ← b.wiresOf addr
        let (stored, b) ← b.emit (.storageRead storage lane addr)
        let g ← b.wire guard
        let args ← b.wiresOf args
        let fallback ← idVec (← b.wire fallback) resultBits
        let (action, b) ← b.emit (.actionCall name g args fallback resultBits)
        let (actionBit, b) ← b.emit (.actionBit action bit)
        let (next, b) ← b.emit (.xor stored actionBit)
        let (_, b) ← b.emit (.storageWrite storage lane next addr)
        return b

/-- The gate loop from index `i` on. -/
def lowerGates : ℕ → BoolarBuilder → List RGate → TransformResult BoolarBuilder
  | _, b, [] => .ok b
  | i, b, g :: gs => do
      let b ← lowerGate i b g
      lowerGates (i + 1) b gs

/-- `to_boolar_circuit`. -/
def toBoolarCircuit (source : RCircuit) : TransformResult (BCircuit Unit) :=
  match source.validate with
  | .error e => .error (.error (.invalidRCircuit e))
  | .ok () =>
      if source.numWires > u32Max then
        .error (.error (.wireCountOutOfRange source.numWires))
      else do
        let b ← lowerGates 0 (.new source.numWires) source.gates
        return b.finish

/-- `lookup_remap`. -/
def lookupRemap (remap : List ℕ) (v : ℕ) : TransformResult ℕ :=
  match remap[v]? with
  | some u => .ok u
  | none => .error (.error (.unknownValue v remap.length))

/-- The loop that records each fixing in its slot. -/
def fixInputs (params : ℕ) : List (Option Bool) → List (ℕ × Bool) →
    TransformResult (List (Option Bool))
  | fixed, [] => .ok fixed
  | fixed, (input, value) :: rest =>
      match fixed[input]? with
      | none => .error (.error (.inputOutOfRange input params))
      | some slot =>
          if slot.isSome then .error (.error (.duplicateInput input))
          else fixInputs params (fixed.set input (some value)) rest

/-- The loop over the slots: a constant for a fixed input, the next parameter otherwise. -/
def mapInputs {P : Type} (prov : P) : BCircuit P → List ℕ → ℕ → List (Option Bool) →
    BCircuit P × List ℕ
  | result, remap, _, [] => (result, remap)
  | result, remap, nextParam, slot :: rest =>
      match slot with
      | some value =>
          let (v, result) := result.pushStmt (if value then .one else .zero) prov
          mapInputs prov result (remap ++ [v]) nextParam rest
      | none => mapInputs prov result (remap ++ [nextParam]) (nextParam + 1) rest

/-- The loop over the statements. -/
def remapStmts {P : Type} : BCircuit P → List ℕ → List (Node Stmt P) →
    TransformResult (BCircuit P × List ℕ)
  | result, remap, [] => .ok (result, remap)
  | result, remap, node :: rest => do
      let kind ← node.kind.map (lookupRemap remap) (fun storage => pure storage)
      if result.varSpace = u32Max then .error (.error .varSpaceExhausted)
      else
        let pushed := { result with stmts := result.stmts ++ [{ node with kind := kind }] }
        remapStmts pushed (remap ++ [result.varSpace]) rest

/-- `hardcode_circuit_inputs`. -/
def hardcodeCircuitInputs {P : Type} (c : BCircuit P) (hardcoded : List (ℕ × Bool))
    (constantProvenance : P) : TransformResult (BCircuit P) := do
  let fixed ← fixInputs c.params (List.replicate c.params none) hardcoded
  let remaining := fixed.countP Option.isNone
  if remaining > u32Max then .error (.error .varSpaceExhausted)
  else
    let (result, remap) := mapInputs constantProvenance
      ⟨remaining, [], c.preInit, []⟩ [] 0 fixed
    let (result, remap) ← remapStmts result remap c.stmts
    let outputs ← c.outputs.mapM (lookupRemap remap)
    return { result with outputs := outputs }

/-- The loop that collects the positions to remove. -/
def removedPositions (outputs : ℕ) : List ℕ → List ℕ → TransformResult (List ℕ)
  | positions, [] => .ok positions
  | positions, output :: rest =>
      if outputs ≤ output then .error (.error (.outputOutOfRange output outputs))
      else if output ∈ positions then .error (.error (.duplicateOutput output))
      else removedPositions outputs (output :: positions) rest

/-- `remove_circuit_outputs`. -/
def removeCircuitOutputs {P : Type} (c : BCircuit P) (removed : List ℕ) :
    TransformResult (BCircuit P) := do
  let positions ← removedPositions c.outputs.length [] removed
  return { c with outputs := (c.outputs.zipIdx.filter fun p => p.2 ∉ positions).map Prod.fst }

end VolarIR.Rev
