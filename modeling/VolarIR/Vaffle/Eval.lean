import VolarIR.Vaffle.Target
import VolarIR.Ir.PolyEval

/-!
# Evaluation of VAFFLE values

What the values of an arena evaluate to under an assignment of those that are there already,
after `volar-fuzz/src/interpreter/vaffle.rs`. A call runs the callee, and the call depth is
bounded.
-/
namespace VolarIR.Vaffle
open Common

/-- Two readings of `Output`: the interpreter takes the indexed result of the call, the lowering
to Volar IR the indexed bit of all its results. -/
inductive OutputReading where
  | result
  | bit
  deriving DecidableEq, Repr

structure Entry where
  bits : List Bool
  results : List (List Bool)
  deriving DecidableEq, Repr

instance : Inhabited Entry := ⟨⟨[], []⟩⟩

def Entry.ofBits (bits : List Bool) : Entry := ⟨bits, []⟩

abbrev Table := List Entry

def Table.look (table : Table) (id : ℕ) : Entry := table.getD id default

def Table.bit (table : Table) (id : ℕ) : Bool := (table.look id).bits.headD false

def polyBit (coeffs : PolyCoeffs ℕ) (constant : Constant) (table : Table) (k : ℕ) : Bool :=
  coeffs.iter.foldl (fun acc e =>
    if e.2.getLsbD 0 then acc ^^ e.1.all fun v => (table.look v).bits.getD k false else acc)
    (constant.bit k)

/-- `truncate`, then padding with zeros. -/
def fit (bits : List Bool) (width : ℕ) : List Bool :=
  (List.range width).map fun k => bits.getD k false

def projected (reading : OutputReading) (results : List (List Bool)) (idx : ℕ) : List Bool :=
  match reading with
  | .result => results.getD idx []
  | .bit => (results.flatten[idx]?).toList

section
variable (reading : OutputReading)

/-- One value, given how calls are answered. -/
def evalValue (answer : ℕ → List (List Bool) → Option (List (List Bool))) (table : Table) :
    Value → Option Entry
  | .param .. | .other => none
  | .const c ty => some (.ofBits (Ir.constBits c ty.width))
  | .poly ty coeffs constant =>
      some (.ofBits ((List.range ty.width).map (polyBit coeffs constant table)))
  | .merge parts ty => some (.ofBits (fit (parts.flatMap fun v => (table.look v).bits) ty.width))
  | .shuffle resultBits ty =>
      some (.ofBits (fit (resultBits.map fun e => (table.look e.2).bits.getD e.1.toNat false)
        ty.width))
  | .call func args => do
      return ⟨[], ← answer func (args.map fun v => (table.look v).bits)⟩
  | .output value idx => some (.ofBits (projected reading (table.look value).results idx))

def evalValues (answer : ℕ → List (List Bool) → Option (List (List Bool))) (table : Table)
    (values : List Value) : Option Table :=
  values.foldlM (fun table v => do return table ++ [← evalValue reading answer table v]) table

/-- A function applied to arguments. -/
def evalFunc (funcs : List FuncDecl) : (depth : ℕ) → ℕ → List (List Bool) →
    Option (List (List Bool))
  | 0, _, _ => none
  | depth + 1, func, args =>
      match funcs[func]? with
      | some (.body body) =>
          if args.length = body.params.length then do
            let table ← evalValues reading (evalFunc funcs depth) (args.map Entry.ofBits)
              (body.values.drop body.params.length)
            return [(table.look body.ret).bits]
          else none
      | _ => none

end

namespace VaffleTarget

def kinds (t : VaffleTarget) : List Value := t.values.map ArenaNode.kind

structure Assigns (t : VaffleTarget) (table : Table) : Prop where
  length : table.length = t.values.length
  const : ∀ {id c ty}, t.kind id = .const c ty → (table.look id).bits.headD false = c.lo.getLsbD 0

def evaluate (t : VaffleTarget) (reading : OutputReading) (depth : ℕ) (table : Table) :
    Option Table :=
  evalValues reading (evalFunc reading t.funcs depth) table (t.kinds.drop table.length)

end VaffleTarget
end VolarIR.Vaffle
