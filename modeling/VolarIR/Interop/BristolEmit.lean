import VolarIR.Interop.BristolImport

/-!
# Export from Boolar

`volar-circuit-interop/src/lib.rs` and `emit.rs`. A circuit is checked, and then written gate
by gate: every statement result and every output is a new wire, so a disjunction takes three
gates and an output a copy.
-/
namespace VolarIR.Interop
open Boolar

structure ValidatedBoolCircuit (P : Type) where
  block : BIrBlock P
  outputs : List ℕ

namespace ValidatedBoolCircuit
variable {P : Type} (circuit : ValidatedBoolCircuit P)

def params : ℕ := circuit.block.params

def stmts : List (Node Stmt P) := circuit.block.stmts

end ValidatedBoolCircuit

def checkInput (resultVar statement var : ℕ) : Outcome InteropError Unit :=
  if var < resultVar then .ok () else .error (.error (.invalidStatementInput statement var))

/-- The form of a statement, and that its operands come before it. -/
def checkStmt (params index : ℕ) (stmt : Stmt) : Outcome InteropError Unit := do
  let position ← toVarId index
  let resultVar ← toVarId (params + position)
  match stmt with
  | .zero | .one => pure ()
  | .and a b | .or a b | .xor a b => do
      checkInput resultVar index a
      checkInput resultVar index b
  | .not value => checkInput resultVar index value
  | _ => .error (.error (.unsupportedStatement index))

def checkOutput (varSpace index var : ℕ) : Outcome InteropError Unit :=
  if var < varSpace then .ok () else .error (.error (.invalidOutput index var))

def validateBoolCircuit {P : Type} (blocks : BIrBlocks P) :
    Outcome InteropError (ValidatedBoolCircuit P) :=
  match blocks.blocks with
  | [block] =>
      if blocks.preInit ≠ [] then .error (.error .preInitUnsupported)
      else
        match block.terminator with
        | .jmp ⟨.ret, outputs⟩ => do
            block.stmts.zipIdx.forM fun (node, index) => checkStmt block.params index node.kind
            let statementCount ← toVarId block.stmts.length
            let varSpace ← toVarId (block.params + statementCount)
            outputs.zipIdx.forM fun (var, index) => checkOutput varSpace index var
            return ⟨block, outputs⟩
        | _ => .error (.error .notReturnTerminator)
  | found => .error (.error (.notSingleBlock found.length))

structure EmitState where
  nextWire : ℕ
  gateCount : ℕ
  gateLines : String
  statementWires : List ℕ
  deriving DecidableEq, Repr

def wireFor (var params : ℕ) (statementWires : List ℕ) (currentStatement : ℕ) :
    Outcome InteropError ℕ :=
  if var < params then .ok var
  else if currentStatement ≤ var - params then
    .error (.error (.invalidStatementInput currentStatement var))
  else
    match statementWires[var - params]? with
    | some wire => .ok wire
    | none => .error (.error (.invalidStatementInput currentStatement var))

/-- `checked_add` of one wire or gate. -/
def increment (n : ℕ) : Outcome InteropError ℕ :=
  match checkedAdd n 1 with
  | some n => .ok n
  | none => .error (.error .bristolCountOverflow)

namespace EmitState

/-- `fresh_wire` and `write_gate`: a line about a new wire. -/
def emit (st : EmitState) (line : ℕ → String) : Outcome InteropError (ℕ × EmitState) := do
  let out := st.nextWire
  let nextWire ← increment st.nextWire
  let gateCount ← increment st.gateCount
  return (out, { st with nextWire, gateCount, gateLines := st.gateLines ++ line out ++ "\n" })

end EmitState

/-- The gates of a statement, and the wire of its result. -/
def emitStmt (params index : ℕ) (st : EmitState) (stmt : Stmt) :
    Outcome InteropError (ℕ × EmitState) := do
  match stmt with
  | .zero => st.emit fun out => s!"1 1 0 {out} EQ"
  | .one => st.emit fun out => s!"1 1 1 {out} EQ"
  | .and a b => do
      let a ← wireFor a params st.statementWires index
      let b ← wireFor b params st.statementWires index
      st.emit fun out => s!"2 1 {a} {b} {out} AND"
  | .xor a b => do
      let a ← wireFor a params st.statementWires index
      let b ← wireFor b params st.statementWires index
      st.emit fun out => s!"2 1 {a} {b} {out} XOR"
  | .not value => do
      let input ← wireFor value params st.statementWires index
      st.emit fun out => s!"1 1 {input} {out} INV"
  | .or a b => do
      let a ← wireFor a params st.statementWires index
      let b ← wireFor b params st.statementWires index
      let (andOut, st) ← st.emit fun out => s!"2 1 {a} {b} {out} AND"
      let (xorOut, st) ← st.emit fun out => s!"2 1 {a} {b} {out} XOR"
      st.emit fun out => s!"2 1 {andOut} {xorOut} {out} XOR"
  | _ => .error (.error (.unsupportedStatement index))

def emitNext {P : Type} (params : ℕ) (st : EmitState) (entry : Node Stmt P × ℕ) :
    Outcome InteropError EmitState := do
  let (resultWire, st) ← emitStmt params entry.2 st entry.1.kind
  return { st with statementWires := st.statementWires ++ [resultWire] }

def emitOutput (params count : ℕ) (st : EmitState) (output : ℕ) :
    Outcome InteropError EmitState := do
  let input ← wireFor output params st.statementWires count
  let (_, st) ← st.emit fun out => s!"1 1 {input} {out} EQW"
  return st

def writeGroups (groups : List ℕ) : String :=
  groups.foldl (fun text width => text ++ s!" {width}") s!"{groups.length}" ++ "\n"

/-- `sum_widths`. -/
def sumWidths (widths : List ℕ) : Outcome InteropError ℕ :=
  match checkedSum widths with
  | some total => .ok total
  | none => .error (.error .bristolCountOverflow)

def emitValidated {P : Type} (circuit : ValidatedBoolCircuit P) (io : BristolIoLayout) :
    Outcome InteropError String := do
  let inputWidth ← sumWidths io.inputGroups
  let outputWidth ← sumWidths io.outputGroups
  if inputWidth ≠ circuit.params then
    .error (.error (.ioLayoutMismatch "input" circuit.params inputWidth))
  else if outputWidth ≠ circuit.outputs.length then
    .error (.error (.ioLayoutMismatch "output" circuit.outputs.length outputWidth))
  else
    let st ← circuit.stmts.zipIdx.foldlM (emitNext circuit.params) ⟨circuit.params, 0, "", []⟩
    let st ← circuit.outputs.foldlM (emitOutput circuit.params circuit.stmts.length) st
    return s!"{st.gateCount} {st.nextWire}\n" ++ writeGroups io.inputGroups ++
      writeGroups io.outputGroups ++ "\n" ++ st.gateLines

def exportBristolFashionWithLayout {P : Type} (blocks : BIrBlocks P) (io : BristolIoLayout) :
    Outcome InteropError String := do
  emitValidated (← validateBoolCircuit blocks) io

def exportBristolFashion {P : Type} (blocks : BIrBlocks P) : Outcome InteropError String := do
  let view ← validateBoolCircuit blocks
  emitValidated view ⟨[view.params], [view.outputs.length]⟩

end VolarIR.Interop

/-!
## What the exporter writes

Every gate it writes defines the next wire, so the wires it has written so far are all known,
and the text is the rows of these gates. Run on any inputs, they leave on the wire of each
value the bit the value has.
-/
namespace VolarIR.Interop
open Boolar Fallible Registers TextRows

def numeral (n : ℕ) : List Char := Nat.toDigits 10 n

theorem toString_string (s : String) : toString s = s := rfl

theorem numeral_numeral {n : ℕ} (h : n ≤ usizeMax) : Numeral (numeral n) n :=
  Numerals.parse_toDigits h

theorem isWhitespace_of_isDigit {c : Char} (h : c.isDigit = true) : isWhitespace c = false := by
  have hge := (Char.isDigit_iff_toNat.mp h).1
  have hle := (Char.isDigit_iff_toNat.mp h).2
  have hzero : '0'.toNat = 48 := rfl
  have hnine : '9'.toNat = 57 := rfl
  simp only [isWhitespace, Bool.or_eq_false_iff, decide_eq_false_iff_not, beq_eq_false_iff_ne]
  omega

theorem isWord_numeral (n : ℕ) : IsWord isWhitespace (numeral n) :=
  ⟨Nat.toDigits_ne_nil, fun _ hc => isWhitespace_of_isDigit (Numerals.isDigit_of_mem_toDigits hc)⟩

/-- The row the exporter writes for a gate. It writes no batches. -/
def gateWords : BristolGate → List (List Char)
  | .and a b out => ["2".toList, "1".toList, numeral a, numeral b, numeral out, "AND".toList]
  | .xor a b out => ["2".toList, "1".toList, numeral a, numeral b, numeral out, "XOR".toList]
  | .not input out => ["1".toList, "1".toList, numeral input, numeral out, "INV".toList]
  | .const value out =>
      ["1".toList, "1".toList, numeral value.toNat, numeral out, "EQ".toList]
  | .copy input out => ["1".toList, "1".toList, numeral input, numeral out, "EQW".toList]
  | .andBatch _ => []

/-! The format strings write these rows. -/

theorem line_const (value : Bool) (out : ℕ) :
    (if value then s!"1 1 1 {out} EQ" else s!"1 1 0 {out} EQ").toList =
      unwords ' ' (gateWords (.const value out)) := by
  have hone : Nat.toDigits 10 1 = ['1'] := by decide
  cases value <;> simp [gateWords, unwords, toString_string, numeral, hone]

theorem line_and (a b out : ℕ) :
    (s!"2 1 {a} {b} {out} AND").toList = unwords ' ' (gateWords (.and a b out)) := by
  simp [gateWords, unwords, toString_string, numeral]

theorem line_xor (a b out : ℕ) :
    (s!"2 1 {a} {b} {out} XOR").toList = unwords ' ' (gateWords (.xor a b out)) := by
  simp [gateWords, unwords, toString_string, numeral]

theorem line_not (input out : ℕ) :
    (s!"1 1 {input} {out} INV").toList = unwords ' ' (gateWords (.not input out)) := by
  simp [gateWords, unwords, toString_string, numeral]

theorem line_copy (input out : ℕ) :
    (s!"1 1 {input} {out} EQW").toList = unwords ' ' (gateWords (.copy input out)) := by
  simp [gateWords, unwords, toString_string, numeral]

structure Plain (out : ℕ) (gate : BristolGate) : Prop where
  writes : gate.writes = [out]
  out_le : out ≤ usizeMax
  reads_lt : ∀ w ∈ gate.reads, w < out
  single : ∀ batch, gate ≠ .andBatch batch

theorem Plain.row {out : ℕ} {gate : BristolGate} (h : Plain out gate) :
    GateRow (gateWords gate) gate := by
  have hreads : ∀ w ∈ gate.reads, Numeral (numeral w) w := fun w hw =>
    numeral_numeral ((h.reads_lt w hw).le.trans h.out_le)
  have hwrites : ∀ w ∈ gate.writes, Numeral (numeral w) w := by
    rw [h.writes]
    intro w hw
    rw [List.mem_singleton.mp hw]
    exact numeral_numeral h.out_le
  have hone : Numeral "1".toList 1 := by decide
  have htwo : Numeral "2".toList 2 := by decide
  cases gate with
  | and a b out =>
      exact ⟨_, _, [_, _], [_], _, _, _, rfl, htwo, hone,
        .cons (hreads a (by simp [BristolGate.reads, gateWires]))
          (.cons (hreads b (by simp [BristolGate.reads, gateWires])) .nil),
        .cons (hwrites out (by simp [BristolGate.writes, gateWires])) .nil, .and a b out⟩
  | xor a b out =>
      exact ⟨_, _, [_, _], [_], _, _, _, rfl, htwo, hone,
        .cons (hreads a (by simp [BristolGate.reads, gateWires]))
          (.cons (hreads b (by simp [BristolGate.reads, gateWires])) .nil),
        .cons (hwrites out (by simp [BristolGate.writes, gateWires])) .nil, .xor a b out⟩
  | not input out =>
      exact ⟨_, _, [_], [_], _, _, _, rfl, hone, hone,
        .cons (hreads input (by simp [BristolGate.reads, gateWires])) .nil,
        .cons (hwrites out (by simp [BristolGate.writes, gateWires])) .nil, .inv input out⟩
  | const value out =>
      have hvalue : Numeral (numeral value.toNat) value.toNat :=
        numeral_numeral ((Bool.toNat_le value).trans (by decide))
      exact ⟨_, _, [_], [_], _, _, _, rfl, hone, hone, .cons hvalue .nil,
        .cons (hwrites out (by simp [BristolGate.writes, gateWires])) .nil, .const value out⟩
  | copy input out =>
      exact ⟨_, _, [_], [_], _, _, _, rfl, hone, hone,
        .cons (hreads input (by simp [BristolGate.reads, gateWires])) .nil,
        .cons (hwrites out (by simp [BristolGate.writes, gateWires])) .nil, .copy input out⟩
  | andBatch batch => exact absurd rfl (h.single batch)

theorem isWord_of_mem_gateWords {gate : BristolGate} {w : List Char} (h : w ∈ gateWords gate) :
    IsWord isWhitespace w := by
  have hword : ∀ s ∈ ["1".toList, "2".toList, "AND".toList, "XOR".toList, "INV".toList,
      "EQ".toList, "EQW".toList], IsWord isWhitespace s := by
    decide
  cases gate <;>
    simp only [gateWords, List.mem_cons, List.not_mem_nil, or_false] at h <;>
    rcases h with rfl | rfl | rfl | rfl | rfl | rfl <;>
    first | exact isWord_numeral _ | exact hword _ (by simp)

/-- The lines are the rows of the gates, each of which writes the next wire. -/
structure Lines (params : ℕ) (st : EmitState) (gates : List BristolGate) : Prop where
  text : st.gateLines.toList = unlines '\n' (gates.map fun gate => unwords ' ' (gateWords gate))
  count : st.gateCount = gates.length
  next : st.nextWire = params + gates.length
  plain : ∀ gate ∈ gates, ∃ out, Plain out gate
  known : knownAfter (Finset.range params) gates = Finset.range st.nextWire
  fit : ∀ wireCount, st.nextWire ≤ wireCount → GatesFit wireCount (Finset.range params) gates

theorem knownAfter_append (known : Finset ℕ) (gates more : List BristolGate) :
    knownAfter known (gates ++ more) = knownAfter (knownAfter known gates) more :=
  List.foldl_append

theorem gatesFit_append {wireCount : ℕ} {known : Finset ℕ} {gates more : List BristolGate} :
    GatesFit wireCount known (gates ++ more) ↔
      GatesFit wireCount known gates ∧ GatesFit wireCount (knownAfter known gates) more := by
  induction gates generalizing known with
  | nil => exact ⟨fun h => ⟨trivial, h⟩, And.right⟩
  | cons gate gates ih =>
      rw [List.cons_append, GatesFit, GatesFit, ih, and_assoc]
      rfl

theorem increment_eq {n : ℕ} (h : n + 1 ≤ usizeMax) : increment n = .ok (n + 1) := by
  rw [increment, checkedAdd_eq_some.mpr ⟨rfl, h⟩]

/-- One line more. -/
theorem emit_eq {params : ℕ} {st : EmitState} {gates : List BristolGate} {gate : BristolGate}
    (line : ℕ → String) (h : Lines params st gates) (hplain : Plain st.nextWire gate)
    (hroom : st.nextWire + 1 ≤ usizeMax)
    (hline : (line st.nextWire).toList = unwords ' ' (gateWords gate)) :
    ∃ st', st.emit line = .ok (st.nextWire, st') ∧ Lines params st' (gates ++ [gate]) ∧
      st'.nextWire = st.nextWire + 1 ∧ st'.statementWires = st.statementWires := by
  have hcount : st.gateCount + 1 ≤ usizeMax := by
    rw [h.count]
    have hnext := h.next
    omega
  have hwrites : (gate.writes.toFinset : Finset ℕ) = {st.nextWire} := by
    rw [hplain.writes]
    rfl
  refine ⟨{ st with
    nextWire := st.nextWire + 1, gateCount := st.gateCount + 1,
    gateLines := st.gateLines ++ line st.nextWire ++ "\n" }, ?_, ⟨?_, ?_, ?_, ?_, ?_, ?_⟩, rfl, rfl⟩
  · unfold EmitState.emit
    rw [increment_eq hroom, ok_bind, increment_eq hcount, ok_bind]
    rfl
  · dsimp only
    rw [String.toList_append, String.toList_append, h.text, hline, List.map_append, unlines,
      unlines, List.flatMap_append, List.append_assoc]
    simp
  · rw [List.length_append, ← h.count]
    rfl
  · rw [List.length_append, ← Nat.add_assoc, ← h.next]
    rfl
  · intro g hg
    cases List.mem_append.mp hg with
    | inl hg => exact h.plain g hg
    | inr hg => exact ⟨_, List.mem_singleton.mp hg ▸ hplain⟩
  · rw [knownAfter_append, h.known]
    change Finset.range st.nextWire ∪ gate.writes.toFinset = _
    rw [hwrites]
    ext w
    dsimp only
    rw [Finset.mem_union, Finset.mem_range, Finset.mem_range, Finset.mem_singleton]
    omega
  · intro wireCount hle
    dsimp only at hle
    apply gatesFit_append.mpr
    refine ⟨h.fit wireCount (by omega), ⟨?_, ?_, ?_, ?_⟩, trivial⟩
    · rw [h.known]
      exact fun w hw => Finset.mem_range.mpr (hplain.reads_lt w hw)
    · exact fun w hw => (hplain.reads_lt w hw).trans (by omega)
    · rw [hplain.writes]
      intro w hw
      rw [List.mem_singleton.mp hw]
      omega
    · rw [hplain.writes]
      exact List.nodup_singleton _

/-- A gate with one output changes one wire. -/
theorem exec_eq {wires : List (Option Bool)} {out : ℕ} {gate : BristolGate} {bits : List Bool}
    {b : Bool} (hwrites : gate.writes = [out]) (hout : out < wires.length)
    (hreads : readAll wires gate.reads = some bits) (hb : gate.compute bits = [b]) :
    ∃ wires', gate.exec wires = some wires' ∧ wires'.length = wires.length ∧
      ∀ w, read wires' w = if w = out then some b else read wires w := by
  obtain ⟨wires', hwires'⟩ := exists_write hout b
  refine ⟨wires', ?_, length_write hwires', read_write hwires'⟩
  rw [BristolGate.exec, hreads, hwrites]
  change writeAll wires ([out].zip (gate.compute bits)) = _
  rw [hb]
  exact (writeAll_singleton wires out b).trans hwires'

def gateIds : Stmt → ℕ
  | .or _ _ => 3
  | _ => 1

def Carries (params index : ℕ) (statementWires : List ℕ) (values : ℕ → Value)
    (wires : List (Option Bool)) : Prop :=
  ∀ v w, wireFor v params statementWires index = .ok w → read wires w = some (values v).bit

/-- The gates of a statement, next to the statement: they leave its bit on its wire, whatever
the wires of the operands hold. -/
structure Implements (params index out : ℕ) (st st' : EmitState) (stmt : Stmt)
    (more : List BristolGate) : Prop where
  next : st'.nextWire = st.nextWire + more.length
  size : more.length ≤ 3
  ids : (more.map BristolGate.cost).sum = gateIds stmt
  wires : st'.statementWires = st.statementWires
  out_lt : out < st'.nextWire
  run : ∀ (world : Externals) (σ : EvalState) (values : ℕ → Value) (wires : List (Option Bool)),
    Carries params index st.statementWires values wires → st'.nextWire ≤ wires.length →
      (evalStmt world σ (stmt.mapVars values)).2 = σ ∧
      ∃ wires', more.foldlM (fun wires gate => gate.exec wires) wires = some wires' ∧
        wires'.length = wires.length ∧ (∀ w, w < st.nextWire → read wires' w = read wires w) ∧
        read wires' out = some (evalStmt world σ (stmt.mapVars values)).1.bit

theorem of_checkInput {resultVar statement var : ℕ}
    (h : checkInput resultVar statement var = .ok ()) : var < resultVar := by
  rw [checkInput] at h
  split at h
  case isTrue hlt => exact hlt
  case isFalse => cases h

theorem wireFor_eq {var params index : ℕ} {statementWires : List ℕ} {bound : ℕ}
    (hlen : statementWires.length = index) (hwires : ∀ w ∈ statementWires, w < bound)
    (hparams : params ≤ bound) (h : var < params + index) :
    ∃ w, wireFor var params statementWires index = .ok w ∧ w < bound := by
  rw [wireFor]
  by_cases hlt : var < params
  · exact ⟨var, by rw [if_pos hlt], hlt.trans_le hparams⟩
  · have hidx : var - params < statementWires.length := by omega
    refine ⟨statementWires[var - params], ?_, hwires _ (List.getElem_mem hidx)⟩
    rw [if_neg hlt, if_neg (by omega), List.getElem?_eq_getElem hidx]

/-- A statement of one gate. -/
theorem emit_single {params index : ℕ} {st : EmitState} {gates : List BristolGate} {stmt : Stmt}
    {line : ℕ → String} {gate : BristolGate} (h : Lines params st gates)
    (hplain : Plain st.nextWire gate) (hroom : st.nextWire + 1 ≤ usizeMax)
    (hline : (line st.nextWire).toList = unwords ' ' (gateWords gate))
    (hcost : gate.cost = gateIds stmt)
    (hrun : ∀ (world : Externals) (σ : EvalState) (values : ℕ → Value)
      (wires : List (Option Bool)), Carries params index st.statementWires values wires →
        (evalStmt world σ (stmt.mapVars values)).2 = σ ∧ ∃ bits,
          readAll wires gate.reads = some bits ∧
            gate.compute bits = [(evalStmt world σ (stmt.mapVars values)).1.bit]) :
    ∃ out st' more, st.emit line = .ok (out, st') ∧ Lines params st' (gates ++ more) ∧
      Implements params index out st st' stmt more := by
  obtain ⟨st', hemit, hlines, hnext, hwires⟩ := emit_eq line h hplain hroom hline
  refine ⟨st.nextWire, st', [gate], hemit, hlines, hnext, by simp, by simp [hcost], hwires,
    by omega, ?_⟩
  intro world σ values wires hcarries hle
  obtain ⟨hcalm, bits, hbits, hcompute⟩ := hrun world σ values wires hcarries
  obtain ⟨wires', hexec, hlen, hread⟩ := exec_eq hplain.writes (by omega) hbits hcompute
  refine ⟨hcalm, wires', ?_, hlen, ?_, ?_⟩
  · rw [List.foldlM_cons, hexec]
    rfl
  · intro w hw
    rw [hread, if_neg (by omega)]
  · rw [hread, if_pos rfl]

theorem readAll_pair {wires : List (Option Bool)} {a b : ℕ} {x y : Bool}
    (ha : read wires a = some x) (hb : read wires b = some y) :
    readAll wires [a, b] = some [x, y] := by
  rw [readAll_cons, ha, readAll_cons, hb]
  rfl

theorem readAll_one {wires : List (Option Bool)} {a : ℕ} {x : Bool} (ha : read wires a = some x) :
    readAll wires [a] = some [x] := by
  rw [readAll_cons, ha]
  rfl

/-- Every checked statement is written as gates that implement it. -/
theorem emitStmt_eq {params index : ℕ} {st : EmitState} {gates : List BristolGate} {stmt : Stmt}
    (h : Lines params st gates) (hlen : st.statementWires.length = index)
    (hwires : ∀ w ∈ st.statementWires, w < st.nextWire) (hroom : st.nextWire + 3 ≤ usizeMax)
    (hcheck : checkStmt params index stmt = .ok ()) :
    ∃ out st' more, emitStmt params index st stmt = .ok (out, st') ∧
      Lines params st' (gates ++ more) ∧ Implements params index out st st' stmt more := by
  have hparams : params ≤ st.nextWire := by
    rw [h.next]
    exact Nat.le_add_right _ _
  obtain ⟨position, hposition, hcheck⟩ := Except.bind_eq_ok.mp hcheck
  obtain ⟨resultVar, hresult, hcheck⟩ := Except.bind_eq_ok.mp hcheck
  have hbelow : ∀ v, checkInput resultVar index v = .ok () →
      ∃ w, wireFor v params st.statementWires index = .ok w ∧ w < st.nextWire := by
    intro v hv
    apply wireFor_eq hlen hwires hparams
    have hpos := (ends_toVarId index).of_ok hposition
    have hres := (ends_toVarId _).of_ok hresult
    have hlt := of_checkInput hv
    omega
  have hplain : ∀ gate : BristolGate, gate.writes = [st.nextWire] →
      (∀ w ∈ gate.reads, w < st.nextWire) → (∀ batch, gate ≠ .andBatch batch) →
        Plain st.nextWire gate := fun gate hwrites hreads hsingle =>
    ⟨hwrites, by omega, hreads, hsingle⟩
  cases stmt with
  | zero =>
      unfold emitStmt
      dsimp only
      apply emit_single h (hplain
          (.const false st.nextWire) rfl (by simp [BristolGate.reads, gateWires])
        (by simp)) (by omega)
      · exact line_const false st.nextWire
      · rfl
      · exact fun _ _ _ _ _ => ⟨rfl, [], rfl, rfl⟩
  | one =>
      unfold emitStmt
      dsimp only
      apply emit_single h (hplain
          (.const true st.nextWire) rfl (by simp [BristolGate.reads, gateWires])
        (by simp)) (by omega)
      · exact line_const true st.nextWire
      · rfl
      · exact fun _ _ _ _ _ => ⟨rfl, [], rfl, rfl⟩
  | and a b =>
      obtain ⟨_, ha, hb⟩ := Except.bind_eq_ok.mp hcheck
      obtain ⟨wa, hwa, hlta⟩ := hbelow a ha
      obtain ⟨wb, hwb, hltb⟩ := hbelow b hb
      unfold emitStmt
      dsimp only
      rw [hwa, ok_bind, hwb, ok_bind]
      apply emit_single h (hplain (.and wa wb st.nextWire) rfl
        (by simp [BristolGate.reads, gateWires, hlta, hltb]) (by simp)) (by omega)
      · exact line_and wa wb st.nextWire
      · rfl
      · intro world σ values wires hcarries
        exact ⟨rfl, _, readAll_pair (hcarries a wa hwa) (hcarries b wb hwb), rfl⟩
  | xor a b =>
      obtain ⟨_, ha, hb⟩ := Except.bind_eq_ok.mp hcheck
      obtain ⟨wa, hwa, hlta⟩ := hbelow a ha
      obtain ⟨wb, hwb, hltb⟩ := hbelow b hb
      unfold emitStmt
      dsimp only
      rw [hwa, ok_bind, hwb, ok_bind]
      apply emit_single h (hplain (.xor wa wb st.nextWire) rfl
        (by simp [BristolGate.reads, gateWires, hlta, hltb]) (by simp)) (by omega)
      · exact line_xor wa wb st.nextWire
      · rfl
      · intro world σ values wires hcarries
        exact ⟨rfl, _, readAll_pair (hcarries a wa hwa) (hcarries b wb hwb), rfl⟩
  | not a =>
      obtain ⟨wa, hwa, hlta⟩ := hbelow a hcheck
      unfold emitStmt
      dsimp only
      rw [hwa, ok_bind]
      apply emit_single h (hplain (.not wa st.nextWire) rfl
        (by simp [BristolGate.reads, gateWires, hlta]) (by simp)) (by omega)
      · exact line_not wa st.nextWire
      · rfl
      · intro world σ values wires hcarries
        exact ⟨rfl, _, readAll_one (hcarries a wa hwa), rfl⟩
  | or a b =>
      obtain ⟨_, ha, hb⟩ := Except.bind_eq_ok.mp hcheck
      obtain ⟨wa, hwa, hlta⟩ := hbelow a ha
      obtain ⟨wb, hwb, hltb⟩ := hbelow b hb
      unfold emitStmt
      dsimp only
      rw [hwa, ok_bind, hwb, ok_bind]
      -- The disjunction is the exclusive one of the conjunction and the exclusive one.
      have hand : Plain st.nextWire (.and wa wb st.nextWire) :=
        hplain _ rfl (by simp [BristolGate.reads, gateWires, hlta, hltb]) (by simp)
      obtain ⟨st₁, hemit₁, hlines₁, hnext₁, hwires₁⟩ := emit_eq
        (fun out => s!"2 1 {wa} {wb} {out} AND") h hand (by omega) (line_and wa wb st.nextWire)
      have hxor : Plain st₁.nextWire (.xor wa wb st₁.nextWire) :=
        ⟨rfl, by omega, by simp [BristolGate.reads, gateWires]; omega, by simp⟩
      obtain ⟨st₂, hemit₂, hlines₂, hnext₂, hwires₂⟩ := emit_eq
        (fun out => s!"2 1 {wa} {wb} {out} XOR") hlines₁ hxor (by omega)
        (line_xor wa wb st₁.nextWire)
      have hboth : Plain st₂.nextWire (.xor st.nextWire st₁.nextWire st₂.nextWire) :=
        ⟨rfl, by omega, by simp [BristolGate.reads, gateWires]; omega, by simp⟩
      obtain ⟨st₃, hemit₃, hlines₃, hnext₃, hwires₃⟩ := emit_eq
        (fun out => s!"2 1 {st.nextWire} {st₁.nextWire} {out} XOR") hlines₂ hboth (by omega)
        (line_xor st.nextWire st₁.nextWire st₂.nextWire)
      rw [hemit₁, ok_bind]
      dsimp only
      rw [hemit₂, ok_bind]
      refine ⟨st₂.nextWire, st₃, [.and wa wb st.nextWire, .xor wa wb st₁.nextWire,
        .xor st.nextWire st₁.nextWire st₂.nextWire], hemit₃, ?_, ?_⟩
      · simpa using hlines₃
      · refine ⟨by simp; omega, le_refl _, rfl, by rw [hwires₃, hwires₂, hwires₁], by omega, ?_⟩
        intro world σ values wires hcarries hle
        have ha := hcarries a wa hwa
        have hb := hcarries b wb hwb
        obtain ⟨w₁, hexec₁, hlen₁, hread₁⟩ := exec_eq hand.writes (by omega)
          (readAll_pair ha hb) rfl
        have ha₁ : read w₁ wa = some (values a).bit := by rw [hread₁, if_neg (by omega), ha]
        have hb₁ : read w₁ wb = some (values b).bit := by rw [hread₁, if_neg (by omega), hb]
        obtain ⟨w₂, hexec₂, hlen₂, hread₂⟩ := exec_eq hxor.writes (by omega)
          (readAll_pair ha₁ hb₁) rfl
        have hand₂ : read w₂ st.nextWire = some ((values a).bit && (values b).bit) := by
          rw [hread₂, if_neg (by omega), hread₁, if_pos rfl]
        have hxor₂ : read w₂ st₁.nextWire = some ((values a).bit ^^ (values b).bit) := by
          rw [hread₂, if_pos rfl]
        obtain ⟨w₃, hexec₃, hlen₃, hread₃⟩ := exec_eq hboth.writes (by omega)
          (readAll_pair hand₂ hxor₂) rfl
        refine ⟨rfl, w₃, ?_, by omega, ?_, ?_⟩
        · rw [List.foldlM_cons, hexec₁]
          change ([.xor wa wb st₁.nextWire, .xor st.nextWire st₁.nextWire st₂.nextWire] :
            List BristolGate).foldlM (fun wires gate => gate.exec wires) w₁ = some w₃
          rw [List.foldlM_cons, hexec₂]
          change ([.xor st.nextWire st₁.nextWire st₂.nextWire] :
            List BristolGate).foldlM (fun wires gate => gate.exec wires) w₂ = some w₃
          rw [List.foldlM_cons, hexec₃]
          rfl
        · intro w hw
          rw [hread₃, if_neg (by omega), hread₂, if_neg (by omega), hread₁, if_neg (by omega)]
        · rw [hread₃, if_pos rfl]
          simp only [BIrStmt.mapVars, evalStmt]
          cases (values a).bit <;> cases (values b).bit <;> rfl
  | _ => cases hcheck

end VolarIR.Interop
