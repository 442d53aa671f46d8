import VolarIR.Interop.BristolImport
import Mathlib.Algebra.Order.BigOperators.Group.List
import Mathlib.Order.Interval.Finset.Nat

/-!
# The importer on every text

Whatever the text says, the importer ends without a panic, and a block it returns computes
what the rows of the text compute on an array of wires.
-/
namespace VolarIR.Interop
open Boolar Fallible Registers

/-! ## Room for the outputs

The only allocation by a declared count is the one for the outputs. All of them are written
somewhere in the text, and a wire past every variable id takes eleven characters to write. -/

def far (wires : List ℕ) : List ℕ := wires.filter (10000000000 ≤ ·)

theorem length_far_le {tokens : List (List Char)} {wires : List ℕ}
    (h : List.Forall₂ Numeral tokens wires) :
    11 * (far wires).length ≤ (tokens.map List.length).sum := by
  induction h with
  | nil => exact le_refl _
  | @cons token wire tokens wires hwire _ ih =>
      rw [far, List.filter_cons, List.map_cons, List.sum_cons]
      rw [far] at ih
      split
      case isFalse => omega
      case isTrue hfar =>
        have hlt := Numerals.lt_of_parse hwire
        have hle : 10000000000 ≤ wire := of_decide_eq_true hfar
        have hlen : 11 ≤ token.length := by
          by_contra hshort
          have hpow : 10 ^ token.length ≤ 10 ^ 10 := Nat.pow_le_pow_right (by decide) (by omega)
          omega
        rw [List.length_cons]
        omega

theorem length_far_writes_le {row : List (List Char)} {gate : BristolGate} (h : GateRow row gate) :
    11 * (far gate.writes).length ≤ (row.map List.length).sum := by
  obtain ⟨inputCount, outputCount, inputs, outputs, operation, ins, outs, rfl, -, -, -, houts,
    hop⟩ := h
  have hfar := length_far_le houts
  rw [hop.writes]
  simp only [List.map_cons, List.map_append, List.sum_cons, List.sum_append]
  omega

theorem length_far_gates_le {gateRows : List (List (List Char))} {gates : List BristolGate}
    (h : List.Forall₂ GateRow gateRows gates) :
    11 * (far (gates.flatMap BristolGate.writes)).length ≤
      (gateRows.map fun row => (row.map List.length).sum).sum := by
  induction h with
  | nil => exact le_refl _
  | cons hrow _ ih =>
      have hfar := length_far_writes_le hrow
      rw [far] at ih hfar ⊢
      rw [List.flatMap_cons, List.filter_append, List.length_append, List.map_cons, List.sum_cons]
      omega

theorem sum_length_rows_le (input : List Char) :
    ((rows input).map fun row => (row.map List.length).sum).sum ≤ input.length := by
  have hlines : ((lines input).map List.length).sum ≤ input.length :=
    TextRows.sum_length_lines input
  have hgo : ∀ ls : List (List Char),
      (((ls.map (TextRows.words isWhitespace)).filter (· ≠ [])).map fun row =>
        (row.map List.length).sum).sum ≤ (ls.map List.length).sum := by
    intro ls
    induction ls with
    | nil => exact le_refl _
    | cons l ls ih =>
        have hwords : ((TextRows.words isWhitespace l).map List.length).sum ≤ l.length :=
          TextRows.sum_length_words l
        rw [List.map_cons, List.filter_cons, List.map_cons, List.sum_cons]
        split
        case isTrue =>
          rw [List.map_cons, List.sum_cons]
          omega
        case isFalse => omega
  exact (hgo _).trans hlines

theorem mem_knownAfter {known : Finset ℕ} {gates : List BristolGate} {w : ℕ}
    (h : w ∈ knownAfter known gates) : w ∈ known ∨ w ∈ gates.flatMap BristolGate.writes := by
  induction gates generalizing known with
  | nil => exact .inl h
  | cons gate gates ih =>
      rw [List.flatMap_cons, List.mem_append]
      have hrest : w ∈ known ∪ gate.writes.toFinset ∨ _ := ih h
      cases hrest with
      | inr h => exact .inr (.inr h)
      | inl h =>
          cases Finset.mem_union.mp h with
          | inl h => exact .inl h
          | inr h => exact .inr (.inl (List.mem_toFinset.mp h))

theorem capacity {input : List Char} {circuit : BristolCircuit} (hfile : IsFile input circuit)
    (h : circuit.Runs) (hlen : input.length ≤ isizeMax) (hinputs : circuit.inputCount ≤ u32Max) :
    circuit.outputCount * 4 ≤ isizeMax := by
  obtain ⟨gateCount, wireCount, inputs, outputs, gateRows, hrows, -, -, -, -, hgates⟩ := hfile.rows
  have hsum := sum_length_rows_le input
  rw [hrows] at hsum
  simp only [List.map_cons, List.sum_cons] at hsum
  have hfar := length_far_gates_le hgates
  let outs := Finset.Ico (circuit.wireCount - circuit.outputCount) circuit.wireCount
  have hcard : outs.card = circuit.outputCount := by
    rw [Nat.card_Ico]
    exact Nat.sub_sub_self h.outputs_le
  have hsubset : outs ⊆ Finset.range 10000000000 ∪
      (far (circuit.gates.flatMap BristolGate.writes)).toFinset := by
    intro w hw
    have hrange := Finset.mem_Ico.mp hw
    have hknown := mem_knownAfter (h.outputs_known w hrange.1 hrange.2)
    by_cases hlt : w < 10000000000
    · exact Finset.mem_union_left _ (Finset.mem_range.mpr hlt)
    · apply Finset.mem_union_right
      have hwritten := hknown.resolve_left fun hmem => by
        have hmem' := Finset.mem_range.mp hmem
        rw [u32Max] at hinputs
        omega
      exact List.mem_toFinset.mpr (List.mem_filter.mpr ⟨hwritten, decide_eq_true (not_lt.mp hlt)⟩)
  have hle := (Finset.card_le_card hsubset).trans (Finset.card_union_le _ _)
  have hdistinct := List.toFinset_card_le (far (circuit.gates.flatMap BristolGate.writes))
  rw [Finset.card_range, hcard] at hle
  rw [isizeMax] at hlen ⊢
  omega

/-- A block computes a circuit: on every input it returns what the gates leave on the output
wires, whatever surrounds it. -/
def Computes (blocks : BIrBlocks Unit) (circuit : BristolCircuit) : Prop :=
  ∀ inputs : List Bool, inputs.length = circuit.inputCount →
    ∃ wires outs, circuit.exec inputs = some wires ∧ circuit.outputs wires = some outs ∧
      ∀ (world : Externals) (σ : EvalState) (n : ℕ),
        runBlocks world blocks (n + 1) (.running 0 inputs σ) = .returned outs σ

theorem ends_import {input : List Char} (hlen : input.length ≤ isizeMax) (limits : BristolLimits) :
    Ends Reported (importBristolFashionWithLimits input limits) fun r => ∃ circuit,
      IsFile input circuit ∧ circuit.Runs ∧ limits.Allow circuit ∧
        r.2 = ⟨circuit.inputGroups, circuit.outputGroups⟩ ∧ Computes r.1 circuit := by
  unfold importBristolFashionWithLimits
  apply (ends_parse input limits).bind
  rintro circuit ⟨hfile, hruns, hallow⟩
  have hends : ∀ inputs : List Bool, inputs.length = circuit.inputCount →
      ∃ wires outs, circuit.exec inputs = some wires ∧ circuit.outputs wires = some outs ∧
        ∀ world σ, Ends (TooLarge circuit) (importCircuit circuit) fun r =>
          r.2 = ⟨circuit.inputGroups, circuit.outputGroups⟩ ∧ circuit.size ≤ u32Max + 1 ∧
            ∀ n, runBlocks world r.1 (n + 1) (.running 0 inputs σ) = .returned outs σ := by
    intro inputs hinputs
    obtain ⟨wires, outs, hexec, houts⟩ := hruns.exists_exec hinputs
    exact ⟨wires, outs, hexec, houts, fun world σ =>
      ends_importCircuit hruns hinputs (capacity hfile hruns hlen) hexec houts⟩
  have hzero := hends (List.replicate circuit.inputCount false) List.length_replicate
  obtain ⟨_, _, _, _, hzero⟩ := hzero
  cases hres : importCircuit circuit with
  | error e =>
      have hlarge := hzero ⟨fun _ _ _ => false, fun _ _ _ _ => false, fun _ _ _ => false⟩
        (.init .empty)
      rw [hres] at hlarge
      rw [ends_error, hlarge.1]
      exact nofun
  | ok r =>
      refine ⟨circuit, hfile, hruns, hallow, ?_, ?_⟩
      · have hlayout := (hzero ⟨fun _ _ _ => false, fun _ _ _ _ => false, fun _ _ _ => false⟩
          (.init .empty)).of_ok hres
        exact hlayout.1
      · intro inputs hinputs
        obtain ⟨wires, outs, hexec, houts, hrun⟩ := hends inputs hinputs
        exact ⟨wires, outs, hexec, houts, fun world σ => ((hrun world σ).of_ok hres).2.2⟩

/-- The importer on every text: neither the parser nor the import panics, and a block that
is returned computes what the gate rows of the text compute, read in order on the declared
wires. The gates run: each wire they read has been written or is an input. -/
theorem import_correct {input : List Char} (hlen : input.length ≤ isizeMax)
    (limits : BristolLimits) :
    parseBristolFashionWithLimits input limits ≠ .error .panic ∧
      importBristolFashionWithLimits input limits ≠ .error .panic ∧
      ∀ blocks io, importBristolFashionWithLimits input limits = .ok (blocks, io) →
        ∃ circuit, IsFile input circuit ∧ circuit.Runs ∧ limits.Allow circuit ∧
          io = ⟨circuit.inputGroups, circuit.outputGroups⟩ ∧ Computes blocks circuit := by
  have hends := ends_import hlen limits
  refine ⟨?_, ?_, ?_⟩
  · intro heq
    have hparse := ends_parse input limits
    rw [heq] at hparse
    exact hparse rfl
  · intro heq
    rw [heq] at hends
    exact hends rfl
  · intro blocks io hok
    exact hends.of_ok hok

def swapText : List Char := "2 6\n1 4\n1 2\n4 2 0 1 2 3 2 4 MAND\n1 1 2 5 EQW\n".toList

theorem import_correct_mand : ∃ circuit, IsFile swapText circuit ∧ circuit.Runs ∧
    (default : BristolLimits).Allow circuit ∧
      Computes ⟨[⟨4, [.new (.and 0 1) (), .new (.and 2 3) ()], .jmp ⟨.ret, [5, 4]⟩⟩], []⟩
        circuit := by
  have hok : importBristolFashionWithLimits swapText default =
      .ok (⟨[⟨4, [.new (.and 0 1) (), .new (.and 2 3) ()], .jmp ⟨.ret, [5, 4]⟩⟩], []⟩,
        ⟨[4], [2]⟩) := by decide +kernel
  have hlen : swapText.length ≤ isizeMax := by decide +kernel
  obtain ⟨circuit, hfile, hruns, hallow, -, hcomputes⟩ :=
    (import_correct hlen default).2.2 _ _ hok
  exact ⟨circuit, hfile, hruns, hallow, hcomputes⟩

end VolarIR.Interop
