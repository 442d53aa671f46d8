import VolarIR.Basic
import VolarIR.Library.Numerals
import VolarIR.Library.TextRows
import Mathlib.Data.Finset.Basic

/-!
# The Bristol Fashion parser

`volar-circuit-interop/src/bristol.rs`: three header lines and one line per gate. Sizes are
`usize` values; sums of them are checked, and what the source indexes or subtracts unchecked
is a panic here when it fails. A text is its characters.
-/
namespace VolarIR.Interop

inductive InteropError where
  | notSingleBlock (found : ℕ)
  | notReturnTerminator
  | preInitUnsupported
  | unsupportedStatement (index : ℕ)
  | invalidStatementInput (statement var : ℕ)
  | invalidOutput (output var : ℕ)
  | varSpaceOverflow
  | bristolParse (line : ℕ) (message : String)
  | unsupportedBristolGate (line : ℕ) (operation : String)
  | ioLayoutMismatch (kind : String) (expected got : ℕ)
  | bristolCountOverflow
  deriving DecidableEq, Repr

structure BristolLimits where
  maxGates : ℕ
  maxWires : ℕ
  maxIoWires : ℕ
  deriving DecidableEq, Repr

/-- The default limits. -/
instance : Inhabited BristolLimits := ⟨⟨1000000, 2000000, 1000000⟩⟩

structure BristolIoLayout where
  inputGroups : List ℕ
  outputGroups : List ℕ
  deriving DecidableEq, Repr

/-- One member of a `MAND` operation. -/
structure BristolAnd where
  a : ℕ
  b : ℕ
  out : ℕ
  deriving DecidableEq, Repr

inductive BristolGate where
  | and (a b out : ℕ)
  | andBatch (batch : List BristolAnd)
  | xor (a b out : ℕ)
  | not (input out : ℕ)
  | const (value : Bool) (out : ℕ)
  | copy (input out : ℕ)
  deriving DecidableEq, Repr

structure BristolCircuit where
  wireCount : ℕ
  inputGroups : List ℕ
  outputGroups : List ℕ
  gates : List BristolGate
  deriving DecidableEq, Repr

structure SourceLine where
  number : ℕ
  text : List Char
  deriving DecidableEq, Repr

def lines (input : List Char) : List (List Char) := TextRows.lines '\n' '\r' input

def tokens (line : SourceLine) : List (List Char) := TextRows.words isWhitespace line.text

def sourceLines (input : List Char) : List SourceLine :=
  (lines input).zipIdx.filterMap fun (text, index) =>
    if TextRows.trim isWhitespace text ≠ [] then
      some ⟨index + 1, TextRows.trim isWhitespace text⟩
    else none

def parseError {α : Type} (line : ℕ) (message : String) : Outcome InteropError α :=
  .error (.error (.bristolParse line message))

def parseUsize (token : List Char) (line : ℕ) (field : String) : Outcome InteropError ℕ :=
  match Numerals.parse usizeMax token with
  | some n => .ok n
  | none => parseError line s!"invalid {field}: {String.ofList token}"

def enforceLimit (actual limit : ℕ) (field : String) (line : ℕ) : Outcome InteropError Unit :=
  if limit < actual then
    parseError line s!"{field} {actual} exceeds configured limit {limit}"
  else .ok ()

def uncheckedSub (a b : ℕ) : Outcome InteropError ℕ :=
  if b ≤ a then .ok (a - b) else .error .panic

/-- `&parts[from..to]`. -/
def slice {α : Type} (parts : List α) (start stop : ℕ) : Outcome InteropError (List α) :=
  if start ≤ stop ∧ stop ≤ parts.length then .ok ((parts.take stop).drop start)
  else .error .panic

/-- `Vec::with_capacity`, which refuses more than `isize::MAX` bytes. -/
def withCapacity (count bytes : ℕ) : Outcome InteropError Unit :=
  if count * bytes ≤ isizeMax then .ok () else .error .panic

def index {α : Type} (parts : List α) (i : ℕ) : Outcome InteropError α := expect parts[i]?

/-- The sum of some widths, if it is a `usize`. -/
def checkedSum (widths : List ℕ) : Option ℕ := widths.foldlM checkedAdd 0

def parseGroups (line : SourceLine) (kind : String) : Outcome InteropError (List ℕ × ℕ) :=
  match tokens line with
  | [] => parseError line.number s!"missing {kind} group count"
  | countToken :: widthTokens => do
      let count ← parseUsize countToken line.number s!"{kind} group count"
      match checkedAdd count 1 with
      | none => parseError line.number s!"{kind} group count overflows"
      | some expected =>
          if (countToken :: widthTokens).length ≠ expected then
            parseError line.number s!"{kind} group count does not match widths"
          else
            let widths ← widthTokens.mapM fun token =>
              parseUsize token line.number s!"{kind} group width"
            match checkedSum widths with
            | none => parseError line.number s!"{kind} widths overflow"
            | some total => .ok (widths, total)

/-- `chunks(2)`. -/
def chunks2 {α : Type} : List α → List (List α)
  | [] => []
  | [a] => [[a]]
  | a :: b :: rest => [a, b] :: chunks2 rest

def checkWires (wires : List ℕ) (wireCount line : ℕ) : Outcome InteropError Unit :=
  match wires.find? fun wire => wireCount ≤ wire with
  | some wire => parseError line s!"wire {wire} exceeds declared wire count {wireCount}"
  | none => .ok ()

/-- The gate an operation makes of its wires. -/
def gateOf (line : ℕ) (operation : String) (inputCount outputCount : ℕ)
    (inputs outputs : List ℕ) : Outcome InteropError BristolGate :=
  let badArity : Outcome InteropError BristolGate :=
    parseError line s!"invalid input/output arity for {operation}"
  match operation with
  | "AND" =>
      if inputCount = 2 ∧ outputCount = 1 then do
        return .and (← index inputs 0) (← index inputs 1) (← index outputs 0)
      else badArity
  | "XOR" =>
      if inputCount = 2 ∧ outputCount = 1 then do
        return .xor (← index inputs 0) (← index inputs 1) (← index outputs 0)
      else badArity
  | "INV" | "NOT" =>
      if inputCount = 1 ∧ outputCount = 1 then do
        return .not (← index inputs 0) (← index outputs 0)
      else badArity
  | "EQ" =>
      if inputCount = 1 ∧ outputCount = 1 then do
        match ← index inputs 0 with
        | 0 => return .const false (← index outputs 0)
        | 1 => return .const true (← index outputs 0)
        | _ => parseError line "EQ constant source must be literal 0 or 1"
      else badArity
  | "EQW" =>
      if inputCount = 1 ∧ outputCount = 1 then do
        return .copy (← index inputs 0) (← index outputs 0)
      else badArity
  | "MAND" =>
      if 0 < outputCount ∧ inputCount % 2 = 0 ∧ inputCount / 2 = outputCount then do
        return .andBatch (← ((chunks2 inputs).zip outputs).mapM fun pair => do
          return ⟨← index pair.1 0, ← index pair.1 1, pair.2⟩)
      else badArity
  | _ => .error (.error (.unsupportedBristolGate line operation))

def parseGate (line : SourceLine) (wireCount : ℕ) : Outcome InteropError BristolGate := do
  let parts := tokens line
  if parts.length < 3 then parseError line.number "gate record is too short" else
  let inputCount ← parseUsize (← index parts 0) line.number "gate input count"
  let outputCount ← parseUsize (← index parts 1) line.number "gate output count"
  match (checkedAdd inputCount outputCount).bind fun count => checkedAdd count 3 with
  | none => parseError line.number "gate arity overflows record length"
  | some expected =>
      if parts.length ≠ expected then
        parseError line.number s!"gate record has {parts.length} fields, expected {expected}"
      else
        let inputsEnd := 2 + inputCount
        let outputsEnd := inputsEnd + outputCount
        let inputs ← (← slice parts 2 inputsEnd).mapM fun token =>
          parseUsize token line.number "input wire"
        let outputs ← (← slice parts inputsEnd outputsEnd).mapM fun token =>
          parseUsize token line.number "output wire"
        let operation := String.ofList (← index parts outputsEnd)
        checkWires outputs wireCount line.number
        -- The input of `EQ` is a constant, not a wire.
        if operation ≠ "EQ" then checkWires inputs wireCount line.number else pure ()
        if ¬ outputs.Nodup then
          parseError line.number "one gate assigns the same output wire more than once"
        else gateOf line.number operation inputCount outputCount inputs outputs

def gateWires : BristolGate → List ℕ × List ℕ
  | .and a b out | .xor a b out => ([a, b], [out])
  | .andBatch batch => (batch.flatMap fun gate => [gate.a, gate.b], batch.map BristolAnd.out)
  | .not input out | .copy input out => ([input], [out])
  | .const _ out => ([], [out])

structure GateScan where
  gates : List BristolGate
  produced : Finset ℕ

/-- The next gate line; its inputs are read before its outputs are assigned. -/
def scanGate (inputCount wireCount : ℕ) (scan : GateScan) (line : SourceLine) :
    Outcome InteropError GateScan := do
  let parsed ← parseGate line wireCount
  match (gateWires parsed).1.find? fun wire => inputCount ≤ wire ∧ wire ∉ scan.produced with
  | some wire => parseError line.number s!"gate reads undefined wire {wire}"
  | none => .ok ⟨scan.gates ++ [parsed], scan.produced ∪ (gateWires parsed).2.toFinset⟩

def parseBristolFashionWithLimits (input : List Char) (limits : BristolLimits) :
    Outcome InteropError BristolCircuit := do
  let rows := sourceLines input
  let endLine := min ((lines input).length + 1) usizeMax
  if rows.length < 3 then parseError endLine "expected three Bristol Fashion header lines" else
  let firstLine ← index rows 0
  let inputLine ← index rows 1
  let outputLine ← index rows 2
  let first := tokens firstLine
  if first.length ≠ 2 then
    parseError firstLine.number "first header line must contain gate and wire counts"
  else
  let gateCount ← parseUsize (← index first 0) firstLine.number "gate count"
  let wireCount ← parseUsize (← index first 1) firstLine.number "wire count"
  enforceLimit gateCount limits.maxGates "gate count" firstLine.number
  enforceLimit wireCount limits.maxWires "wire count" firstLine.number
  let (inputGroups, inputCount) ← parseGroups inputLine "input"
  let (outputGroups, outputCount) ← parseGroups outputLine "output"
  enforceLimit inputCount limits.maxIoWires "input wire count" inputLine.number
  enforceLimit outputCount limits.maxIoWires "output wire count" outputLine.number
  if wireCount < inputCount then
    parseError inputLine.number "input wires exceed declared wire count"
  else if wireCount < outputCount then
    parseError outputLine.number "output wires exceed declared wire count"
  else
  match checkedAdd 3 gateCount with
  | none => parseError firstLine.number "gate count overflows line count"
  | some expectedLines =>
      if rows.length ≠ expectedLines then
        parseError ((rows[expectedLines]?.map SourceLine.number).getD endLine)
          s!"header declares {gateCount} gates but file contains {rows.length - 3} gate records"
      else
        let scan ← (rows.drop 3).foldlM (scanGate inputCount wireCount) ⟨[], ∅⟩
        let firstOutput ← uncheckedSub wireCount outputCount
        match (List.range' firstOutput (wireCount - firstOutput)).find? fun wire =>
            inputCount ≤ wire ∧ wire ∉ scan.produced with
        | some wire => parseError outputLine.number s!"output wire {wire} is never defined"
        | none => .ok ⟨wireCount, inputGroups, outputGroups, scan.gates⟩

def parseBristolFashion (input : List Char) : Outcome InteropError BristolCircuit :=
  parseBristolFashionWithLimits input default

end VolarIR.Interop
