import VolarIR.Interop.BristolFile
import VolarIR.Library.Fallible

/-!
# The parser reads what the file says

No step of the parser panics, and a circuit it returns is the one the rows describe, with
gates that fit the declared wires.
-/
namespace VolarIR.Interop
open Fallible

/-- Every error but a panic. -/
def Reported (e : Fault InteropError) : Prop := e ≠ .panic

theorem ends_parseError {α : Type} {Q : α → Prop} (line : ℕ) (message : String) :
    Ends Reported (parseError line message) Q :=
  nofun

theorem ends_parseUsize (token : List Char) (line : ℕ) (field : String) :
    Ends Reported (parseUsize token line field) (Numeral token) := by
  unfold parseUsize
  split
  case h_1 n hn => exact hn
  case h_2 => exact ends_parseError _ _

theorem ends_index {α : Type} {parts : List α} {i : ℕ} (h : i < parts.length) :
    Ends Reported (index parts i) fun a => parts[i]? = some a := by
  rw [index, List.getElem?_eq_getElem h]
  rfl

theorem ends_uncheckedSub {a b : ℕ} (h : b ≤ a) :
    Ends Reported (uncheckedSub a b) fun c => c = a - b := by
  rw [uncheckedSub, if_pos h]
  rfl

theorem ends_enforceLimit (actual limit : ℕ) (field : String) (line : ℕ) :
    Ends Reported (enforceLimit actual limit field line) fun _ => actual ≤ limit := by
  unfold enforceLimit
  split
  case isTrue => exact ends_parseError _ _
  case isFalse h => exact not_lt.mp h

theorem foldlM_checkedAdd {widths : List ℕ} {start total : ℕ} (h : start ≤ usizeMax) :
    widths.foldlM checkedAdd start = some total ↔
      start + widths.sum = total ∧ total ≤ usizeMax := by
  induction widths generalizing start with
  | nil =>
      rw [List.foldlM_nil, List.sum_nil, Nat.add_zero]
      constructor
      · intro heq
        obtain rfl := Option.some.inj heq
        exact ⟨rfl, h⟩
      · rintro ⟨rfl, -⟩
        rfl
  | cons width widths ih =>
      rw [List.foldlM_cons, List.sum_cons, ← Nat.add_assoc]
      by_cases hle : start + width ≤ usizeMax
      · rw [checkedAdd_eq_some.mpr ⟨rfl, hle⟩]
        exact ih hle
      · rw [checkedAdd, if_neg hle]
        constructor
        · intro heq
          cases heq
        · rintro ⟨rfl, hsum⟩
          omega

theorem checkedSum_eq_some {widths : List ℕ} {total : ℕ} :
    checkedSum widths = some total ↔ widths.sum = total ∧ total ≤ usizeMax := by
  rw [checkedSum, foldlM_checkedAdd (Nat.zero_le _), Nat.zero_add]

theorem ends_parseGroups (line : SourceLine) (kind : String) :
    Ends Reported (parseGroups line kind) fun r =>
      GroupRow (tokens line) r.1 ∧ r.2 = r.1.sum ∧ r.2 ≤ usizeMax := by
  unfold parseGroups
  split
  case h_1 => exact ends_parseError _ _
  case h_2 countToken widthTokens hline =>
    apply (ends_parseUsize _ _ _).bind
    intro count hcount
    split
    case h_1 => exact ends_parseError _ _
    case h_2 expected hexpected =>
      split
      case isTrue => exact ends_parseError _ _
      case isFalse hlen =>
        rw [not_not, List.length_cons] at hlen
        have hsum := (checkedAdd_eq_some.mp hexpected).1
        have hcount' : count = widthTokens.length := by omega
        apply (Ends.mapM fun token _ => ends_parseUsize token _ _).bind
        intro widths hwidths
        split
        case h_1 => exact ends_parseError _ _
        case h_2 total htotal =>
          have htotal' := checkedSum_eq_some.mp htotal
          rw [hline]
          exact ⟨⟨countToken, widthTokens, rfl, hcount' ▸ hcount, hwidths⟩, htotal'.1.symm,
            htotal'.2⟩

theorem Operation.writes {operation : String} {ins outs : List ℕ} {gate : BristolGate}
    (h : Operation operation ins outs gate) : gate.writes = outs := by
  cases h <;> rfl

theorem Operation.reads {operation : String} {ins outs : List ℕ} {gate : BristolGate}
    (h : Operation operation ins outs gate) :
    gate.reads = if operation = "EQ" then [] else ins := by
  cases h <;> rfl

theorem ends_checkWires (wires : List ℕ) (wireCount line : ℕ) :
    Ends Reported (checkWires wires wireCount line) fun _ => ∀ w ∈ wires, w < wireCount := by
  unfold checkWires
  split
  case h_1 => exact ends_parseError _ _
  case h_2 h =>
    intro w hw
    have hnot := List.find?_eq_none.mp h w hw
    simpa using hnot

theorem ends_pairs {ins outs : List ℕ} (h : ins.length = 2 * outs.length) :
    Ends Reported (((chunks2 ins).zip outs).mapM fun pair => do
      return (⟨← index pair.1 0, ← index pair.1 1, pair.2⟩ : BristolAnd)) fun batch =>
        ins = batch.flatMap (fun gate => [gate.a, gate.b]) ∧ outs = batch.map BristolAnd.out := by
  induction outs generalizing ins with
  | nil =>
      rw [List.length_eq_zero_iff.mp h]
      exact ⟨rfl, rfl⟩
  | cons out outs ih =>
      match ins, h with
      | [], h => simp at h
      | [_], h => simp at h; omega
      | a :: b :: rest, h =>
          have hrest : rest.length = 2 * outs.length := by simp at h; omega
          rw [chunks2, List.zip_cons_cons, List.mapM_cons]
          apply (ih hrest).bind
          rintro batch ⟨hins, houts⟩
          rw [hins, houts]
          exact ⟨rfl, rfl⟩

theorem ends_gateOf (line : ℕ) (operation : String) (ins outs : List ℕ) :
    Ends Reported (gateOf line operation ins.length outs.length ins outs)
      (Operation operation ins outs) := by
  have two_one : ins.length = 2 ∧ outs.length = 1 → ∃ a b out, ins = [a, b] ∧ outs = [out] := by
    rintro ⟨hins, houts⟩
    have hins' := List.length_eq_two.mp hins
    have houts' := List.length_eq_one_iff.mp houts
    exact ⟨_, _, _, hins'.choose_spec.choose_spec, houts'.choose_spec⟩
  have one_one : ins.length = 1 ∧ outs.length = 1 → ∃ a out, ins = [a] ∧ outs = [out] := by
    rintro ⟨hins, houts⟩
    exact ⟨_, _, (List.length_eq_one_iff.mp hins).choose_spec,
      (List.length_eq_one_iff.mp houts).choose_spec⟩
  unfold gateOf
  split
  case h_1 =>
    split
    case isTrue hlen =>
      obtain ⟨a, b, out, rfl, rfl⟩ := two_one hlen
      exact .and a b out
    case isFalse => exact ends_parseError _ _
  case h_2 =>
    split
    case isTrue hlen =>
      obtain ⟨a, b, out, rfl, rfl⟩ := two_one hlen
      exact .xor a b out
    case isFalse => exact ends_parseError _ _
  case h_3 =>
    split
    case isTrue hlen =>
      obtain ⟨a, out, rfl, rfl⟩ := one_one hlen
      exact .inv a out
    case isFalse => exact ends_parseError _ _
  case h_4 =>
    split
    case isTrue hlen =>
      obtain ⟨a, out, rfl, rfl⟩ := one_one hlen
      exact .not a out
    case isFalse => exact ends_parseError _ _
  case h_5 =>
    split
    case isTrue hlen =>
      obtain ⟨a, out, rfl, rfl⟩ := one_one hlen
      match a with
      | 0 => exact .const false out
      | 1 => exact .const true out
      | _ + 2 => exact ends_parseError _ _
    case isFalse => exact ends_parseError _ _
  case h_6 =>
    split
    case isTrue hlen =>
      obtain ⟨a, out, rfl, rfl⟩ := one_one hlen
      exact .copy a out
    case isFalse => exact ends_parseError _ _
  case h_7 =>
    split
    case isTrue hlen =>
      have hpos := hlen.1
      have htwice : ins.length = 2 * outs.length := by omega
      apply (ends_pairs htwice).bind
      rintro batch ⟨hins, houts⟩
      have hne : batch ≠ [] := by
        rintro rfl
        rw [houts] at hpos
        exact absurd hpos (lt_irrefl 0)
      rw [hins, houts]
      exact .mand batch hne
    case isFalse => exact ends_parseError _ _
  case h_8 => exact nofun

structure ReadsAs (line : SourceLine) (wireCount : ℕ) (gate : BristolGate) : Prop where
  row : GateRow (tokens line) gate
  reads_lt : ∀ w ∈ gate.reads, w < wireCount
  writes_lt : ∀ w ∈ gate.writes, w < wireCount
  writes_nodup : gate.writes.Nodup

theorem slice_append {α : Type} (before piece after : List α) :
    slice (before ++ (piece ++ after)) before.length (before.length + piece.length) =
      .ok piece := by
  have hlen : before.length + piece.length ≤ (before ++ (piece ++ after)).length := by
    rw [List.length_append, List.length_append]
    omega
  rw [slice, if_pos ⟨Nat.le_add_right _ _, hlen⟩, List.take_length_add_append, List.take_left,
    List.drop_left]

theorem index_append {α : Type} (before : List α) (a : α) (after : List α) :
    index (before ++ a :: after) before.length = .ok a := by
  rw [index, List.getElem?_append_right (le_refl _), Nat.sub_self]
  rfl

/-- The pieces of a gate row. -/
theorem pieces {α : Type} (a b operation : α) (inputs outputs : List α) :
    slice (a :: b :: (inputs ++ outputs ++ [operation])) 2 (2 + inputs.length) = .ok inputs ∧
      slice (a :: b :: (inputs ++ outputs ++ [operation])) (2 + inputs.length)
        (2 + inputs.length + outputs.length) = .ok outputs ∧
      index (a :: b :: (inputs ++ outputs ++ [operation]))
        (2 + inputs.length + outputs.length) = .ok operation := by
  have hins := slice_append [a, b] inputs (outputs ++ [operation])
  have houts := slice_append ([a, b] ++ inputs) outputs [operation]
  have hop := index_append ([a, b] ++ inputs ++ outputs) operation []
  have hlen : ([a, b] ++ inputs).length = 2 + inputs.length := by
    rw [List.length_append]
    rfl
  rw [List.length_append, hlen] at hop
  rw [hlen] at houts
  simp only [List.append_assoc] at hins houts hop ⊢
  exact ⟨hins, houts, hop⟩

theorem exists_pieces {α : Type} {parts : List α} {a b : α} {m n : ℕ} (ha : parts[0]? = some a)
    (hb : parts[1]? = some b) (hlen : parts.length = 2 + m + n + 1) :
    ∃ inputs outputs operation, parts = a :: b :: (inputs ++ outputs ++ [operation]) ∧
      inputs.length = m ∧ outputs.length = n := by
  match parts, ha, hb, hlen with
  | a' :: b' :: rest, ha, hb, hlen =>
      obtain rfl := Option.some.inj ha
      obtain rfl := Option.some.inj hb
      have hrest : rest.length = m + n + 1 := by simp at hlen; omega
      have hne : rest ≠ [] := List.ne_nil_of_length_pos (by omega)
      have hlen' : rest.dropLast.length = m + n := by rw [List.length_dropLast]; omega
      refine ⟨rest.dropLast.take m, rest.dropLast.drop m, rest.getLast hne, ?_, ?_, ?_⟩
      · rw [List.take_append_drop, List.dropLast_append_getLast]
      · rw [List.length_take]; omega
      · rw [List.length_drop]; omega

theorem ends_parseGate (line : SourceLine) (wireCount : ℕ) :
    Ends Reported (parseGate line wireCount) (ReadsAs line wireCount) := by
  unfold parseGate
  dsimp only
  split
  case isTrue => exact ends_parseError _ _
  case isFalse hshort =>
    apply (ends_index (by omega)).bind
    intro inputToken hinputToken
    apply (ends_parseUsize _ _ _).bind
    intro inputCount hinputCount
    apply (ends_index (by omega)).bind
    intro outputToken houtputToken
    apply (ends_parseUsize _ _ _).bind
    intro outputCount houtputCount
    split
    case h_1 => exact ends_parseError _ _
    case h_2 expected hexpected =>
      split
      case isTrue => exact ends_parseError _ _
      case isFalse hlen =>
        obtain ⟨sum, hsum, hthree⟩ := Option.bind_eq_some_iff.mp hexpected
        have hcount : (tokens line).length = 2 + inputCount + outputCount + 1 := by
          have h1 := (checkedAdd_eq_some.mp hsum).1
          have h2 := (checkedAdd_eq_some.mp hthree).1
          omega
        obtain ⟨inputTokens, outputTokens, operation, hrow, rfl, rfl⟩ :=
          exists_pieces hinputToken houtputToken hcount
        have hpieces := pieces inputToken outputToken operation inputTokens outputTokens
        rw [hrow, hpieces.1, ok_bind]
        apply (Ends.mapM fun token _ => ends_parseUsize token _ _).bind
        intro ins hins
        rw [hpieces.2.1, ok_bind]
        apply (Ends.mapM fun token _ => ends_parseUsize token _ _).bind
        intro outs houts
        rw [hpieces.2.2, ok_bind, hins.length_eq, houts.length_eq]
        apply (ends_checkWires _ _ _).bind
        intro _ houts_lt
        have hrest : (∀ w ∈ if String.ofList operation = "EQ" then [] else ins, w < wireCount) →
            Ends Reported (if ¬ outs.Nodup then
                parseError line.number "one gate assigns the same output wire more than once"
              else gateOf line.number (String.ofList operation) ins.length outs.length ins outs)
              (ReadsAs line wireCount) := by
          intro hreads_lt
          split
          case isTrue => exact ends_parseError _ _
          case isFalse hnodup =>
            apply (ends_gateOf _ _ _ _).mono
            intro gate hgate
            rw [← hgate.reads] at hreads_lt
            rw [← hgate.writes] at houts_lt hnodup
            exact ⟨⟨inputToken, outputToken, inputTokens, outputTokens, operation, ins, outs, hrow,
              hinputCount, houtputCount, hins, houts, hgate⟩, hreads_lt, houts_lt,
              not_not.mp hnodup⟩
        split
        case isTrue hne =>
          apply (ends_checkWires _ _ _).bind
          intro _ hreads_lt
          exact hrest (by rwa [if_neg hne])
        case isFalse heq =>
          rw [if_pos (not_not.mp heq)] at hrest
          exact hrest fun w hw => absurd hw List.not_mem_nil

def GateScan.known (scan : GateScan) (inputCount : ℕ) : Finset ℕ :=
  Finset.range inputCount ∪ scan.produced

theorem ends_scanGate (inputCount wireCount : ℕ) (scan : GateScan) (line : SourceLine) :
    Ends Reported (scanGate inputCount wireCount scan line) fun next => ∃ gate,
      GateRow (tokens line) gate ∧ GateFits wireCount (scan.known inputCount) gate ∧
      next.gates = scan.gates ++ [gate] ∧
      next.known inputCount = scan.known inputCount ∪ gate.writes.toFinset := by
  unfold scanGate
  apply (ends_parseGate line wireCount).bind
  intro gate hgate
  split
  case h_1 => exact ends_parseError _ _
  case h_2 hfind =>
    refine ⟨gate, hgate.row, ⟨?_, hgate.reads_lt, hgate.writes_lt, hgate.writes_nodup⟩, rfl, ?_⟩
    · intro w hw
      have hnot := List.find?_eq_none.mp hfind w hw
      rw [decide_eq_true_eq, not_and, not_not] at hnot
      by_cases hlt : w < inputCount
      · exact Finset.mem_union_left _ (Finset.mem_range.mpr hlt)
      · exact Finset.mem_union_right _ (hnot (not_lt.mp hlt))
    · rw [GateScan.known, GateScan.known, Finset.union_assoc]
      rfl

theorem ends_scanGates (inputCount wireCount : ℕ) (scan : GateScan) (ls : List SourceLine) :
    Ends Reported (ls.foldlM (scanGate inputCount wireCount) scan) fun next => ∃ gates,
      List.Forall₂ (fun line => GateRow (tokens line)) ls gates ∧
      GatesFit wireCount (scan.known inputCount) gates ∧ next.gates = scan.gates ++ gates ∧
      next.known inputCount = knownAfter (scan.known inputCount) gates := by
  induction ls generalizing scan with
  | nil => exact ⟨[], .nil, trivial, (List.append_nil _).symm, rfl⟩
  | cons line ls ih =>
      rw [List.foldlM_cons]
      apply (ends_scanGate inputCount wireCount scan line).bind
      rintro next ⟨gate, hrow, hfits, hgates, hknown⟩
      apply (ih next).mono
      rintro last ⟨gates, hrows, hfit, hgates', hknown'⟩
      rw [hknown] at hfit hknown'
      refine ⟨gate :: gates, .cons hrow hrows, ⟨hfits, hfit⟩, ?_, hknown'⟩
      rw [hgates', hgates, List.append_assoc]
      rfl

theorem tokens_sourceLines (input : List Char) : (sourceLines input).map tokens = rows input := by
  have hgo : ∀ (ls : List (List Char)) (k : ℕ),
      ((ls.zipIdx k).filterMap fun line =>
        if TextRows.trim isWhitespace line.1 ≠ [] then
          some (⟨line.2 + 1, TextRows.trim isWhitespace line.1⟩ : SourceLine)
        else none).map tokens = (ls.map (TextRows.words isWhitespace)).filter (· ≠ []) := by
    intro ls
    induction ls with
    | nil => exact fun _ => rfl
    | cons text ls ih =>
        intro k
        rw [List.zipIdx_cons, List.filterMap_cons, List.map_cons, List.filter_cons]
        by_cases hblank : TextRows.trim isWhitespace text = []
        · have hwords := TextRows.trim_eq_nil_iff.mp hblank
          simp only [hblank, hwords, ne_eq, not_true_eq_false, if_false, decide_false,
            Bool.false_eq_true]
          exact ih (k + 1)
        · have hwords : TextRows.words isWhitespace text ≠ [] := fun h =>
            hblank (TextRows.trim_eq_nil_iff.mpr h)
          simp only [hblank, hwords, ne_eq, not_false_eq_true, if_true, decide_true,
            List.map_cons]
          rw [tokens, TextRows.words_trim]
          exact congrArg _ (ih (k + 1))
  exact hgo _ 0

theorem ends_parse (input : List Char) (limits : BristolLimits) :
    Ends Reported (parseBristolFashionWithLimits input limits) fun circuit =>
      IsFile input circuit ∧ circuit.Runs ∧ limits.Allow circuit := by
  have hrows := tokens_sourceLines input
  unfold parseBristolFashionWithLimits
  dsimp only
  generalize sourceLines input = ls at hrows
  split
  case isTrue => exact ends_parseError _ _
  case isFalse hshort =>
    match ls, hrows, hshort with
    | [], _, hshort => simp at hshort
    | [_], _, hshort => simp at hshort
    | [_, _], _, hshort => simp at hshort
    | firstLine :: inputLine :: outputLine :: gateLines, hrows, _ =>
        have hfirst : index (firstLine :: inputLine :: outputLine :: gateLines) 0
            = .ok firstLine := rfl
        have hinput : index (firstLine :: inputLine :: outputLine :: gateLines) 1
            = .ok inputLine := rfl
        have houtput : index (firstLine :: inputLine :: outputLine :: gateLines) 2
            = .ok outputLine := rfl
        rw [hfirst, ok_bind, hinput, ok_bind, houtput, ok_bind]
        split
        case isTrue => exact ends_parseError _ _
        case isFalse htwo =>
          have htokens := List.length_eq_two.mp (not_not.mp htwo)
          obtain ⟨gateToken, wireToken, htokens⟩ := htokens
          rw [htokens]
          apply (ends_parseUsize gateToken _ _).bind
          intro gateCount hgateCount
          apply (ends_parseUsize wireToken _ _).bind
          intro wireCount hwireCount
          apply (ends_enforceLimit _ _ _ _).bind
          intro _ hmaxGates
          apply (ends_enforceLimit _ _ _ _).bind
          intro _ hmaxWires
          apply (ends_parseGroups _ _).bind
          rintro ⟨inputGroups, inputCount⟩ ⟨hinputRow, hinputSum, -⟩
          apply (ends_parseGroups _ _).bind
          rintro ⟨outputGroups, outputCount⟩ ⟨houtputRow, houtputSum, -⟩
          dsimp only at hinputSum houtputSum ⊢
          subst hinputSum houtputSum
          apply (ends_enforceLimit _ _ _ _).bind
          intro _ hmaxInputs
          apply (ends_enforceLimit _ _ _ _).bind
          intro _ hmaxOutputs
          split
          case isTrue => exact ends_parseError _ _
          case isFalse hinputs =>
            split
            case isTrue => exact ends_parseError _ _
            case isFalse houtputs =>
              rw [not_lt] at hinputs houtputs
              split
              case h_1 => exact ends_parseError _ _
              case h_2 expected hexpected =>
                split
                case isTrue => exact ends_parseError _ _
                case isFalse hlen =>
                  have hthree := (checkedAdd_eq_some.mp hexpected).1
                  have hgateLines : gateLines.length = gateCount := by
                    simp at hlen
                    omega
                  apply (ends_scanGates _ _ _ _).bind
                  rintro scan ⟨gates, hgateRows, hfit, hgates, hknown⟩
                  apply (ends_uncheckedSub houtputs).bind
                  rintro firstOutput rfl
                  have hnone : GateScan.known ⟨[], ∅⟩ inputGroups.sum
                      = Finset.range inputGroups.sum := by simp [GateScan.known]
                  rw [hnone] at hfit hknown
                  split
                  case h_1 => exact ends_parseError _ _
                  case h_2 hfind =>
                    have hcount : gates.length = gateCount :=
                      hgateRows.length_eq.symm.trans hgateLines
                    rw [List.nil_append] at hgates
                    rw [ends_ok, hgates]
                    have hfile : IsFile input ⟨wireCount, inputGroups, outputGroups, gates⟩ := by
                      refine ⟨gateToken, wireToken, tokens inputLine, tokens outputLine,
                        gateLines.map tokens, ?_, hcount ▸ hgateCount, hwireCount, hinputRow,
                        houtputRow, List.forall₂_map_left_iff.mpr hgateRows⟩
                      rw [← hrows, ← htokens]
                      rfl
                    refine ⟨hfile, ⟨hinputs, houtputs, Numerals.parse_le hwireCount, hfit, ?_⟩,
                      ⟨hcount ▸ hmaxGates, hmaxWires, hmaxInputs, hmaxOutputs⟩⟩
                    intro w hlow hhigh
                    have hmem : w ∈ List.range' (wireCount - outputGroups.sum)
                        (wireCount - (wireCount - outputGroups.sum)) :=
                      List.mem_range'_1.mpr ⟨hlow, by dsimp only at hhigh; omega⟩
                    have hnot := List.find?_eq_none.mp hfind w hmem
                    rw [decide_eq_true_eq, not_and, not_not] at hnot
                    change w ∈ knownAfter (Finset.range inputGroups.sum) gates
                    rw [← hknown]
                    by_cases hlt : w < inputGroups.sum
                    · exact Finset.mem_union_left _ (Finset.mem_range.mpr hlt)
                    · exact Finset.mem_union_right _ (hnot (not_lt.mp hlt))

end VolarIR.Interop
