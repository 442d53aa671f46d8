import VolarIR.Interop.Bristol
import VolarIR.Library.Registers

/-!
# What a Bristol file says

The file as rows of words, the circuit such rows describe, and the machine that runs its
gates one after the other on an array of wires. Nothing here looks at the parser.
-/
namespace VolarIR.Interop
open Registers

def rows (input : List Char) : List (List (List Char)) :=
  ((lines input).map (TextRows.words isWhitespace)).filter (· ≠ [])

def Numeral (token : List Char) (n : ℕ) : Prop := Numerals.parse usizeMax token = some n

instance (token : List Char) (n : ℕ) : Decidable (Numeral token n) :=
  inferInstanceAs (Decidable (_ = _))

/-- The operations with the wires they take. -/
inductive Operation : String → List ℕ → List ℕ → BristolGate → Prop
  | and (a b out : ℕ) : Operation "AND" [a, b] [out] (.and a b out)
  | xor (a b out : ℕ) : Operation "XOR" [a, b] [out] (.xor a b out)
  | inv (input out : ℕ) : Operation "INV" [input] [out] (.not input out)
  | not (input out : ℕ) : Operation "NOT" [input] [out] (.not input out)
  | const (value : Bool) (out : ℕ) : Operation "EQ" [value.toNat] [out] (.const value out)
  | copy (input out : ℕ) : Operation "EQW" [input] [out] (.copy input out)
  | mand (batch : List BristolAnd) (h : batch ≠ []) :
      Operation "MAND" (batch.flatMap fun gate => [gate.a, gate.b]) (batch.map BristolAnd.out)
        (.andBatch batch)

/-- A gate row: how many inputs and outputs, the inputs, the outputs, the operation. -/
def GateRow (row : List (List Char)) (gate : BristolGate) : Prop :=
  ∃ inputCount outputCount inputs outputs operation ins outs,
    row = inputCount :: outputCount :: (inputs ++ outputs ++ [operation]) ∧
    Numeral inputCount inputs.length ∧ Numeral outputCount outputs.length ∧
    List.Forall₂ Numeral inputs ins ∧ List.Forall₂ Numeral outputs outs ∧
    Operation (String.ofList operation) ins outs gate

def GroupRow (row : List (List Char)) (widths : List ℕ) : Prop :=
  ∃ count tokens, row = count :: tokens ∧ Numeral count tokens.length ∧
    List.Forall₂ Numeral tokens widths

/-- The rows are those of the circuit: the counts and groups it declares, and as many gate
rows as declared. -/
structure IsFile (input : List Char) (circuit : BristolCircuit) : Prop where
  rows : ∃ gateCount wireCount inputs outputs gateRows,
    rows input = [gateCount, wireCount] :: inputs :: outputs :: gateRows ∧
    Numeral gateCount circuit.gates.length ∧ Numeral wireCount circuit.wireCount ∧
    GroupRow inputs circuit.inputGroups ∧ GroupRow outputs circuit.outputGroups ∧
    List.Forall₂ GateRow gateRows circuit.gates

namespace BristolGate

def reads (gate : BristolGate) : List ℕ := (gateWires gate).1

def writes (gate : BristolGate) : List ℕ := (gateWires gate).2

def andPairs : List Bool → List Bool
  | a :: b :: rest => (a && b) :: andPairs rest
  | _ => []

def compute : BristolGate → List Bool → List Bool
  | .and _ _ _, bits | .andBatch _, bits => andPairs bits
  | .xor _ _ _, [a, b] => [a ^^ b]
  | .not _ _, [a] => [!a]
  | .const value _, _ => [value]
  | .copy _ _, bits => bits
  | _, _ => []

def exec (gate : BristolGate) (wires : List (Option Bool)) : Option (List (Option Bool)) := do
  let bits ← readAll wires gate.reads
  writeAll wires (gate.writes.zip (gate.compute bits))

end BristolGate

namespace BristolCircuit

def inputCount (circuit : BristolCircuit) : ℕ := circuit.inputGroups.sum

def outputCount (circuit : BristolCircuit) : ℕ := circuit.outputGroups.sum

def exec (circuit : BristolCircuit) (inputs : List Bool) : Option (List (Option Bool)) :=
  circuit.gates.foldlM (fun wires gate => gate.exec wires) (init inputs circuit.wireCount)

def outputs (circuit : BristolCircuit) (wires : List (Option Bool)) : Option (List Bool) :=
  readAll wires (List.range' (circuit.wireCount - circuit.outputCount) circuit.outputCount)

end BristolCircuit

/-- A gate stays inside the array, reads wires that hold something and writes no wire
twice. -/
structure GateFits (wireCount : ℕ) (known : Finset ℕ) (gate : BristolGate) : Prop where
  reads_known : ∀ w ∈ gate.reads, w ∈ known
  reads_lt : ∀ w ∈ gate.reads, w < wireCount
  writes_lt : ∀ w ∈ gate.writes, w < wireCount
  writes_nodup : gate.writes.Nodup

def knownAfter (known : Finset ℕ) (gates : List BristolGate) : Finset ℕ :=
  gates.foldl (fun known gate => known ∪ gate.writes.toFinset) known

def GatesFit (wireCount : ℕ) : Finset ℕ → List BristolGate → Prop
  | _, [] => True
  | known, gate :: gates =>
      GateFits wireCount known gate ∧ GatesFit wireCount (known ∪ gate.writes.toFinset) gates

/-- The circuit runs: every gate fits, and all outputs hold something in the end. -/
structure BristolCircuit.Runs (circuit : BristolCircuit) : Prop where
  inputs_le : circuit.inputCount ≤ circuit.wireCount
  outputs_le : circuit.outputCount ≤ circuit.wireCount
  wires_le : circuit.wireCount ≤ usizeMax
  gates_fit : GatesFit circuit.wireCount (Finset.range circuit.inputCount) circuit.gates
  outputs_known : ∀ w, circuit.wireCount - circuit.outputCount ≤ w → w < circuit.wireCount →
    w ∈ knownAfter (Finset.range circuit.inputCount) circuit.gates

structure BristolLimits.Allow (limits : BristolLimits) (circuit : BristolCircuit) : Prop where
  gates : circuit.gates.length ≤ limits.maxGates
  wires : circuit.wireCount ≤ limits.maxWires
  inputs : circuit.inputCount ≤ limits.maxIoWires
  outputs : circuit.outputCount ≤ limits.maxIoWires

theorem length_andPairs {bits : List Bool} {n : ℕ} (h : bits.length = 2 * n) :
    (BristolGate.andPairs bits).length = n := by
  induction n generalizing bits with
  | zero =>
      rw [List.length_eq_zero_iff.mp h]
      rfl
  | succ n ih =>
      match bits, h with
      | [], h => simp at h
      | [_], h => simp at h; omega
      | a :: b :: rest, h =>
          rw [BristolGate.andPairs, List.length_cons, ih (by simp at h; omega)]

theorem BristolGate.length_compute {gate : BristolGate} {bits : List Bool}
    (h : bits.length = gate.reads.length) : (gate.compute bits).length = gate.writes.length := by
  cases gate with
  | and a b out => exact length_andPairs (n := 1) h
  | andBatch batch =>
      apply length_andPairs
      rw [h]
      simp [reads, writes, gateWires, List.length_flatMap, Nat.mul_comm]
  | xor a b out =>
      have hlen : bits.length = 2 := h
      match bits, hlen with
      | [_, _], _ => rfl
  | not input out =>
      have hlen : bits.length = 1 := h
      match bits, hlen with
      | [_], _ => rfl
  | const value out => rfl
  | copy input out => exact h

theorem BristolGate.exists_exec {gate : BristolGate} {wires : List (Option Bool)}
    {known : Finset ℕ} (h : GateFits wires.length known gate)
    (hknown : ∀ w ∈ known, (read wires w).isSome) :
    ∃ wires', gate.exec wires = some wires' ∧ wires'.length = wires.length ∧
      ∀ w ∈ known ∪ gate.writes.toFinset, (read wires' w).isSome := by
  obtain ⟨bits, hbits, hlen⟩ := exists_readAll fun w hw => hknown w (h.reads_known w hw)
  have hwrites := BristolGate.length_compute hlen
  have hfst : (gate.writes.zip (gate.compute bits)).map Prod.fst = gate.writes :=
    List.map_fst_zip hwrites.ge
  have hinside : ∀ w ∈ gate.writes.zip (gate.compute bits), w.1 < wires.length := fun w hw =>
    h.writes_lt w.1 (hfst ▸ List.mem_map_of_mem hw)
  obtain ⟨wires', hall, hlen', hread⟩ := exists_writeAll hinside
  refine ⟨wires', by rw [exec, hbits]; exact hall, hlen', ?_⟩
  intro w hw
  apply hread
  rw [hfst]
  cases Finset.mem_union.mp hw with
  | inl hw => exact .inl (hknown w hw)
  | inr hw => exact .inr (List.mem_toFinset.mp hw)

theorem exists_execAll {gates : List BristolGate} {wires : List (Option Bool)} {known : Finset ℕ}
    (h : GatesFit wires.length known gates) (hknown : ∀ w ∈ known, (read wires w).isSome) :
    ∃ wires', gates.foldlM (fun wires gate => gate.exec wires) wires = some wires' ∧
      wires'.length = wires.length ∧ ∀ w ∈ knownAfter known gates, (read wires' w).isSome := by
  induction gates generalizing wires known with
  | nil => exact ⟨wires, rfl, rfl, hknown⟩
  | cons gate gates ih =>
      obtain ⟨next, hnext, hlen, hread⟩ := gate.exists_exec h.1 hknown
      obtain ⟨wires', hall, hlen', hread'⟩ := ih (hlen ▸ h.2) hread
      refine ⟨wires', ?_, hlen'.trans hlen, hread'⟩
      rw [List.foldlM_cons, hnext]
      exact hall

theorem BristolCircuit.Runs.exists_exec {circuit : BristolCircuit} (h : circuit.Runs)
    {inputs : List Bool} (hinputs : inputs.length = circuit.inputCount) :
    ∃ wires outs, circuit.exec inputs = some wires ∧ circuit.outputs wires = some outs := by
  have hlen : (init inputs circuit.wireCount).length = circuit.wireCount :=
    length_init (hinputs ▸ h.inputs_le)
  have hknown : ∀ w ∈ Finset.range circuit.inputCount,
      (read (init inputs circuit.wireCount) w).isSome := by
    intro w hw
    rw [read_init, List.getElem?_eq_getElem (by rw [hinputs]; exact Finset.mem_range.mp hw)]
    rfl
  obtain ⟨wires, hall, hlen', hread⟩ := exists_execAll (hlen.symm ▸ h.gates_fit) hknown
  have houts : ∀ w ∈ List.range' (circuit.wireCount - circuit.outputCount) circuit.outputCount,
      (read wires w).isSome := by
    intro w hw
    have hrange := List.mem_range'_1.mp hw
    have hle := h.outputs_le
    exact hread w (h.outputs_known w hrange.1 (by omega))
  obtain ⟨outs, houts', -⟩ := exists_readAll houts
  exact ⟨wires, outs, hall, houts'⟩

end VolarIR.Interop
