import VolarIR.Interop.BristolEmit
import VolarIR.Interop.BristolParseComplete
import Mathlib.Algebra.Order.BigOperators.Group.List

/-!
# Export, then import

The text of a validated circuit is parsed into the gates it was written for, and the block
they are imported into returns what the circuit returns. Only the variable ids can run out:
a disjunction comes back as three statements.
-/
namespace VolarIR.Interop
open Boolar Fallible Registers TextRows

/-- The gates written for some statements compute the values of the statements. -/
structure Emitted (params : ℕ) (stmts : List Stmt) (st : EmitState) (gates : List BristolGate) :
    Prop where
  lines : Lines params st gates
  wires_length : st.statementWires.length = stmts.length
  wires_lt : ∀ w ∈ st.statementWires, w < st.nextWire
  size : gates.length ≤ 3 * stmts.length
  ids : (gates.map BristolGate.cost).sum = (stmts.map gateIds).sum
  run : ∀ (world : Externals) (σ : EvalState) (inputs : List Bool), inputs.length = params →
    ∀ wireCount, st.nextWire ≤ wireCount →
      (evalStmts world ⟨paramValues inputs, σ⟩ stmts).st = σ ∧
      ∃ wires, gates.foldlM (fun wires gate => gate.exec wires) (init inputs wireCount)
          = some wires ∧ wires.length = wireCount ∧
        Carries params stmts.length st.statementWires
          (look (evalStmts world ⟨paramValues inputs, σ⟩ stmts).vals) wires

theorem emitted_nil (params : ℕ) : Emitted params [] ⟨params, 0, "", []⟩ [] where
  lines := ⟨rfl, rfl, rfl, nofun, rfl, fun _ _ => trivial⟩
  wires_length := rfl
  wires_lt := nofun
  size := le_refl _
  ids := rfl
  run := by
    intro world σ inputs hinputs wireCount hle
    refine ⟨rfl, _, rfl, length_init (hinputs ▸ hle), ?_⟩
    intro v w hw
    rw [wireFor] at hw
    split at hw
    case isTrue hlt =>
      obtain rfl := Except.ok.inj hw
      change read _ v = some (look (paramValues inputs) v).bit
      rw [read_init, look_paramValues, List.getD_eq_getElem?_getD,
        List.getElem?_eq_getElem (hinputs ▸ hlt)]
      rfl
    case isFalse => simp at hw

theorem wireFor_append {v w params out : ℕ} {statementWires : List ℕ}
    (h : wireFor v params (statementWires ++ [out]) (statementWires.length + 1) = .ok w) :
    wireFor v params statementWires statementWires.length = .ok w ∨
      v = params + statementWires.length ∧ w = out := by
  rw [wireFor] at h ⊢
  split at h
  case isTrue hlt =>
    rw [if_pos hlt]
    exact .inl h
  case isFalse hlt =>
    rw [if_neg hlt]
    split at h
    case isTrue => cases h
    case isFalse hidx =>
      by_cases hlast : v - params = statementWires.length
      · rw [hlast, List.getElem?_concat_length] at h
        exact .inr ⟨by omega, (Except.ok.inj h).symm⟩
      · have hlt : v - params < statementWires.length := by omega
        rw [List.getElem?_append_left hlt, List.getElem?_eq_getElem hlt] at h
        rw [if_neg (by omega), List.getElem?_eq_getElem hlt]
        exact .inl h

theorem wireFor_lt {v w params bound : ℕ} {statementWires : List ℕ} {index : ℕ}
    (hwires : ∀ w ∈ statementWires, w < bound) (hparams : params ≤ bound)
    (h : wireFor v params statementWires index = .ok w) : w < bound := by
  rw [wireFor] at h
  split at h
  case isTrue hlt =>
    obtain rfl := Except.ok.inj h
    omega
  case isFalse =>
    split at h
    case isTrue => cases h
    case isFalse =>
      split at h
      case h_1 wire hwire =>
        obtain rfl := Except.ok.inj h
        exact hwires wire (List.mem_of_getElem? hwire)
      case h_2 => cases h

/-- One statement more. -/
theorem emitNext_eq {P : Type} {params : ℕ} {stmts : List Stmt} {st : EmitState}
    {gates : List BristolGate} {node : Node Stmt P} (h : Emitted params stmts st gates)
    (hroom : params + 3 * stmts.length + 3 ≤ usizeMax)
    (hcheck : checkStmt params stmts.length node.kind = .ok ()) :
    ∃ st' gates', emitNext params st (node, stmts.length) = .ok st' ∧
      Emitted params (stmts ++ [node.kind]) st' gates' := by
  have hnext := h.lines.next
  have hsize := h.size
  obtain ⟨out, st', more, hemit, hlines, himpl⟩ := emitStmt_eq h.lines h.wires_length h.wires_lt
    (by omega) hcheck
  refine ⟨{ st' with statementWires := st'.statementWires ++ [out] }, gates ++ more, ?_, ?_⟩
  · unfold emitNext
    rw [hemit]
    rfl
  · have hmore := himpl.size
    have hnext' := himpl.next
    refine ⟨⟨hlines.text, hlines.count, hlines.next, hlines.plain, hlines.known, hlines.fit⟩,
      ?_, ?_, ?_, ?_, ?_⟩
    · rw [List.length_append, List.length_append, himpl.wires, h.wires_length]
      rfl
    · intro w hw
      dsimp only at hw ⊢
      rw [himpl.wires] at hw
      cases List.mem_append.mp hw with
      | inl hw =>
          have hlt := h.wires_lt w hw
          omega
      | inr hw =>
          rw [List.mem_singleton.mp hw]
          exact himpl.out_lt
    · rw [List.length_append, List.length_append, List.length_singleton]
      omega
    · rw [List.map_append, List.sum_append, h.ids, himpl.ids, List.map_append, List.sum_append]
      simp
    · intro world σ inputs hinputs wireCount hle
      dsimp only at hle
      obtain ⟨hcalm, wires, hexec, hlen, hcarries⟩ := h.run world σ inputs hinputs wireCount
        (by omega)
      obtain ⟨hcalm', wires', hexec', hlen', hkeep, hout⟩ := himpl.run world σ _ wires hcarries
        (by omega)
      have hvals : (evalStmts world ⟨paramValues inputs, σ⟩ stmts).vals.length
          = params + stmts.length := by rw [evalStmts_length, paramValues_length, hinputs]
      rw [evalStmts_append]
      refine ⟨?_, wires', ?_, hlen'.trans hlen, ?_⟩
      · rw [evalStmts_cons, evalStmts_nil, stepStmt, hcalm]
        exact hcalm'
      · rw [List.foldlM_append, hexec]
        exact hexec'
      · intro v w hw
        dsimp only at hw
        rw [himpl.wires, List.length_append, List.length_singleton, ← h.wires_length] at hw
        rw [evalStmts_cons, evalStmts_nil, stepStmt, hcalm]
        dsimp only
        cases wireFor_append hw with
        | inl hold =>
            have hlt := wireFor_lt h.wires_lt (by omega) hold
            rw [h.wires_length] at hold
            have hv : v < params + stmts.length := by
              rw [wireFor] at hold
              split at hold
              case isTrue => omega
              case isFalse =>
                split at hold
                case isTrue => cases hold
                case isFalse => omega
            rw [look_append_left (hvals ▸ hv), hkeep w hlt]
            exact hcarries v w hold
        | inr hlast =>
            rw [hlast.1, hlast.2, h.wires_length, ← hvals, look_append_length]
            exact hout

theorem emitAll_eq {P : Type} {params : ℕ} {rest : List (Node Stmt P)} {stmts : List Stmt}
    {st : EmitState} {gates : List BristolGate} (h : Emitted params stmts st gates)
    (hroom : params + 3 * (stmts.length + rest.length) ≤ usizeMax)
    (hcheck : ∀ entry ∈ rest.zipIdx stmts.length,
      checkStmt params entry.2 entry.1.kind = .ok ()) :
    ∃ st' gates', (rest.zipIdx stmts.length).foldlM (emitNext params) st = .ok st' ∧
      Emitted params (stmts ++ rest.map Node.kind) st' gates' := by
  induction rest generalizing stmts st gates with
  | nil => exact ⟨st, gates, rfl, by rwa [List.map_nil, List.append_nil]⟩
  | cons node rest ih =>
      rw [List.zipIdx_cons] at hcheck ⊢
      rw [List.length_cons] at hroom
      obtain ⟨st₁, gates₁, hnext, h₁⟩ := emitNext_eq h (by omega)
        (hcheck _ List.mem_cons_self)
      have hlen : (stmts ++ [node.kind]).length = stmts.length + 1 := List.length_append
      obtain ⟨st', gates', hfold, hall⟩ := ih h₁ (by rw [hlen]; omega) (by
        rw [hlen]
        exact fun entry hentry => hcheck entry (List.mem_cons_of_mem _ hentry))
      rw [hlen] at hfold
      refine ⟨st', gates', ?_, ?_⟩
      · rw [List.foldlM_cons, hnext]
        exact hfold
      · rw [List.append_assoc] at hall
        exact hall

/-- Every output is copied to the next wire, in order. -/
theorem emitOutputs_eq {params count : ℕ} {outputs : List ℕ} {st : EmitState}
    {gates : List BristolGate} (h : Lines params st gates)
    (hlen : st.statementWires.length = count) (hwires : ∀ w ∈ st.statementWires, w < st.nextWire)
    (hroom : st.nextWire + outputs.length ≤ usizeMax)
    (houtputs : ∀ v ∈ outputs, v < params + count) :
    ∃ st' copies, outputs.foldlM (emitOutput params count) st = .ok st' ∧
      Lines params st' (gates ++ copies) ∧ st'.nextWire = st.nextWire + outputs.length ∧
      (copies.map BristolGate.cost).sum = 0 ∧
      ∀ (values : ℕ → Value) (wires : List (Option Bool)),
        Carries params count st.statementWires values wires → st'.nextWire ≤ wires.length →
          ∃ wires', copies.foldlM (fun wires gate => gate.exec wires) wires = some wires' ∧
            (∀ w, w < st.nextWire → read wires' w = read wires w) ∧
            readAll wires' (List.range' st.nextWire outputs.length) =
              some (outputs.map fun v => (values v).bit) := by
  induction outputs generalizing st gates with
  | nil =>
      exact ⟨st, [], rfl, by rwa [List.append_nil], rfl, rfl, fun _ wires _ _ =>
        ⟨wires, rfl, fun _ _ => rfl, rfl⟩⟩
  | cons v outputs ih =>
      rw [List.length_cons] at hroom
      have hparams : params ≤ st.nextWire := by
        rw [h.next]
        exact Nat.le_add_right _ _
      obtain ⟨w, hw, hlt⟩ := wireFor_eq hlen hwires hparams (houtputs v List.mem_cons_self)
      have hcopy : Plain st.nextWire (.copy w st.nextWire) :=
        ⟨rfl, by omega, by simpa [BristolGate.reads, gateWires] using hlt, nofun⟩
      obtain ⟨st₁, hemit, hlines₁, hnext₁, hwires₁⟩ := emit_eq
        (fun out => s!"1 1 {w} {out} EQW") h hcopy (by omega) (line_copy w st.nextWire)
      have hstep : emitOutput params count st v = .ok st₁ := by
        unfold emitOutput
        rw [hw, ok_bind, hemit]
        rfl
      obtain ⟨st', copies, hfold, hlines, hnext, hcost, hrun⟩ := ih hlines₁ (hwires₁ ▸ hlen)
        (by rw [hwires₁]; exact fun w hw => (hwires w hw).trans (by omega)) (by omega)
        fun v hv => houtputs v (List.mem_cons_of_mem _ hv)
      refine ⟨st', .copy w st.nextWire :: copies, ?_, ?_, ?_, ?_, ?_⟩
      · rw [List.foldlM_cons, hstep]
        exact hfold
      · rwa [List.append_assoc] at hlines
      · rw [List.length_cons]
        omega
      · rw [List.map_cons, List.sum_cons, hcost]
        rfl
      · intro values wires hcarries hle
        have hread := hcarries v w hw
        obtain ⟨wires₁, hexec₁, hlen₁, hread₁⟩ := exec_eq hcopy.writes (by omega)
          (readAll_one hread) rfl
        have hcarries₁ : Carries params count st₁.statementWires values wires₁ := by
          intro v' w' hw'
          rw [hwires₁] at hw'
          have hlt' := wireFor_lt hwires hparams hw'
          rw [hread₁, if_neg (by omega)]
          exact hcarries v' w' hw'
        obtain ⟨wires', hexec, hkeep, houts⟩ := hrun values wires₁ hcarries₁ (by omega)
        refine ⟨wires', ?_, ?_, ?_⟩
        · rw [List.foldlM_cons, hexec₁]
          exact hexec
        · intro w' hw'
          rw [hkeep w' (by omega), hread₁, if_neg (by omega)]
        · rw [List.length_cons, List.range'_succ, readAll_cons, hkeep _ (by omega), hread₁,
            if_pos rfl, ← hnext₁, houts]
          rfl

theorem unwords_cons (word : List Char) (ws : List (List Char)) :
    unwords ' ' (word :: ws) = word ++ ws.flatMap (' ' :: ·) := by
  induction ws generalizing word with
  | nil => exact (List.append_nil word).symm
  | cons w ws ih => rw [unwords, ih, List.flatMap_cons, List.cons_append]

def groupWords (groups : List ℕ) : List (List Char) :=
  numeral groups.length :: groups.map numeral

theorem toList_writeGroups (groups : List ℕ) :
    (writeGroups groups).toList = unwords ' ' (groupWords groups) ++ ['\n'] := by
  have hgo : ∀ (ws : List ℕ) (text : String),
      (ws.foldl (fun text width => text ++ s!" {width}") text).toList =
        text.toList ++ (ws.map numeral).flatMap (' ' :: ·) := by
    intro ws
    induction ws with
    | nil => exact fun text => (List.append_nil _).symm
    | cons w ws ih =>
        intro text
        rw [List.foldl_cons, ih]
        simp [toString_string, numeral]
  rw [writeGroups, String.toList_append, hgo, groupWords, unwords_cons]
  simp [numeral]

theorem groupRow_groupWords {groups : List ℕ} (hlen : groups.length ≤ usizeMax)
    (hgroups : ∀ w ∈ groups, w ≤ usizeMax) : GroupRow (groupWords groups) groups := by
  refine ⟨_, _, rfl, ?_, ?_⟩
  · rw [List.length_map]
    exact numeral_numeral hlen
  · rw [List.forall₂_map_left_iff, List.forall₂_same]
    exact fun w hw => numeral_numeral (hgroups w hw)

theorem mem_unwords {c : Char} {ws : List (List Char)} (h : c ∈ unwords ' ' ws) :
    c = ' ' ∨ ∃ w ∈ ws, c ∈ w := by
  cases ws with
  | nil => cases h
  | cons w ws =>
      rw [unwords_cons, List.mem_append, List.mem_flatMap] at h
      rcases h with h | ⟨w', hw', h⟩
      · exact .inr ⟨w, List.mem_cons_self, h⟩
      · rcases List.mem_cons.mp h with h | h
        · exact .inl h
        · exact .inr ⟨w', List.mem_cons_of_mem w hw', h⟩

theorem rows_unlines {rs : List (List (List Char))}
    (hwords : ∀ row ∈ rs, ∀ w ∈ row, IsWord isWhitespace w) :
    rows (unlines '\n' (rs.map (unwords ' '))) = rs.filter (· ≠ []) := by
  have hbreak : ∀ l ∈ rs.map (unwords ' '), '\n' ∉ l ∧ '\r' ∉ l := by
    intro l hl
    obtain ⟨row, hrow, rfl⟩ := List.mem_map.mp hl
    have hno : ∀ c, isWhitespace c = true → c ≠ ' ' → c ∉ unwords ' ' row := by
      intro c hc hspace hmem
      rcases mem_unwords hmem with heq | ⟨w, hw, hcw⟩
      · exact hspace heq
      · have hword := (hwords row hrow w hw).2 c hcw
        rw [hc] at hword
        cases hword
    exact ⟨hno '\n' (by decide) (by decide), hno '\r' (by decide) (by decide)⟩
  have hmap : rs.map (words isWhitespace ∘ unwords ' ') = rs.map id :=
    List.map_congr_left fun row hrow => words_unwords (by decide) (hwords row hrow)
  rw [rows, lines, lines_unlines hbreak, List.map_map, hmap, List.map_id]

theorem isWord_groupWords {groups : List ℕ} {w : List Char} (h : w ∈ groupWords groups) :
    IsWord isWhitespace w := by
  rcases List.mem_cons.mp h with rfl | h
  · exact isWord_numeral _
  · obtain ⟨n, -, rfl⟩ := List.mem_map.mp h
    exact isWord_numeral n

/-- The rows of an exported file; the blank line is none. -/
theorem rows_text {params : ℕ} {st : EmitState} {gates : List BristolGate} {io : BristolIoLayout}
    (h : Lines params st gates) :
    rows (s!"{st.gateCount} {st.nextWire}\n" ++ writeGroups io.inputGroups ++
        writeGroups io.outputGroups ++ "\n" ++ st.gateLines).toList =
      [numeral gates.length, numeral st.nextWire] :: groupWords io.inputGroups ::
        groupWords io.outputGroups :: gates.map gateWords := by
  have htext : (s!"{st.gateCount} {st.nextWire}\n" ++ writeGroups io.inputGroups ++
      writeGroups io.outputGroups ++ "\n" ++ st.gateLines).toList =
      unlines '\n' (([numeral gates.length, numeral st.nextWire] :: groupWords io.inputGroups ::
        groupWords io.outputGroups :: [] :: gates.map gateWords).map (unwords ' ')) := by
    rw [String.toList_append, String.toList_append, String.toList_append, String.toList_append,
      toList_writeGroups, toList_writeGroups, h.text, h.count]
    simp [toString_string, numeral, unlines, unwords, List.map_map, Function.comp_def]
  have hwords : ∀ row ∈ [numeral gates.length, numeral st.nextWire] ::
      groupWords io.inputGroups :: groupWords io.outputGroups :: [] :: gates.map gateWords,
      ∀ w ∈ row, IsWord isWhitespace w := by
    simp only [List.forall_mem_cons]
    refine ⟨⟨isWord_numeral _, isWord_numeral _, List.forall_mem_nil _⟩,
      fun w => isWord_groupWords, fun w => isWord_groupWords, List.forall_mem_nil _, ?_⟩
    intro row hrow
    obtain ⟨gate, -, rfl⟩ := List.mem_map.mp hrow
    exact fun w => isWord_of_mem_gateWords
  have hgates : (gates.map gateWords).filter (· ≠ []) = gates.map gateWords := by
    apply List.filter_eq_self.mpr
    intro row hrow
    obtain ⟨gate, hgate, rfl⟩ := List.mem_map.mp hrow
    obtain ⟨out, hplain⟩ := h.plain gate hgate
    cases gate with
    | andBatch batch => exact absurd rfl (hplain.single batch)
    | _ => rfl
  rw [htext, rows_unlines hwords]
  simp only [List.filter_cons, hgates, groupWords, ne_eq, reduceCtorEq, not_false_eq_true,
    decide_true, if_true, not_true_eq_false, decide_false, Bool.false_eq_true, if_false]

/-- An exported file describes its circuit. -/
theorem isFile_text {params : ℕ} {st : EmitState} {gates : List BristolGate} {io : BristolIoLayout}
    (h : Lines params st gates) (hroom : st.nextWire ≤ usizeMax)
    (hin : io.inputGroups.length ≤ usizeMax) (hout : io.outputGroups.length ≤ usizeMax)
    (hinSum : io.inputGroups.sum ≤ usizeMax) (houtSum : io.outputGroups.sum ≤ usizeMax) :
    IsFile (s!"{st.gateCount} {st.nextWire}\n" ++ writeGroups io.inputGroups ++
        writeGroups io.outputGroups ++ "\n" ++ st.gateLines).toList
      ⟨st.nextWire, io.inputGroups, io.outputGroups, gates⟩ := by
  have hnext := h.next
  have hle : ∀ {ws : List ℕ}, ws.sum ≤ usizeMax → ∀ w ∈ ws, w ≤ usizeMax := fun hsum w hw =>
    (List.single_le_sum (fun _ _ => Nat.zero_le _) w hw).trans hsum
  refine ⟨_, _, _, _, _, rows_text h, numeral_numeral (by omega),
    numeral_numeral hroom, groupRow_groupWords hin (hle hinSum), groupRow_groupWords hout
    (hle houtSum), ?_⟩
  rw [List.forall₂_map_left_iff, List.forall₂_same]
  intro gate hgate
  obtain ⟨out, hplain⟩ := h.plain gate hgate
  exact hplain.row

def ValidatedBoolCircuit.ids {P : Type} (circuit : ValidatedBoolCircuit P) : ℕ :=
  circuit.params + ((circuit.stmts.map Node.kind).map gateIds).sum

/-- Two programs that return the same bits on every input, in every world. -/
def SameFunction {P Q : Type} (params : ℕ) (p : BIrBlocks P) (q : BIrBlocks Q) : Prop :=
  ∀ inputs : List Bool, inputs.length = params → ∀ (world : Externals) (σ : EvalState) (n : ℕ),
    ∃ outs, runBlocks world p (n + 1) (.running 0 inputs σ) = .returned outs σ ∧
      runBlocks world q (n + 1) (.running 0 inputs σ) = .returned outs σ

/-- What a validated program is. -/
structure Validated {P : Type} (blocks : BIrBlocks P) (circuit : ValidatedBoolCircuit P) :
    Prop where
  single : blocks.blocks = [circuit.block]
  returns : circuit.block.terminator = .jmp ⟨.ret, circuit.outputs⟩
  stmts : ∀ entry ∈ circuit.stmts.zipIdx, checkStmt circuit.params entry.2 entry.1.kind = .ok ()
  fits : circuit.params + circuit.stmts.length ≤ u32Max
  outputs : ∀ v ∈ circuit.outputs, v < circuit.params + circuit.stmts.length

theorem validated {P : Type} {blocks : BIrBlocks P} {circuit : ValidatedBoolCircuit P}
    (h : validateBoolCircuit blocks = .ok circuit) : Validated blocks circuit := by
  unfold validateBoolCircuit at h
  split at h
  case h_1 block hblock =>
    split at h
    case isTrue => cases h
    case isFalse =>
      split at h
      case h_1 outputs hterm =>
        obtain ⟨_, hstmts, h⟩ := Except.bind_eq_ok.mp h
        obtain ⟨count, hcount, h⟩ := Except.bind_eq_ok.mp h
        obtain ⟨space, hspace, h⟩ := Except.bind_eq_ok.mp h
        obtain ⟨_, houtputs, h⟩ := Except.bind_eq_ok.mp h
        obtain rfl := Except.ok.inj h
        have hcount' := ((ends_toVarId _).of_ok hcount).1
        have hspace' := (ends_toVarId _).of_ok hspace
        rw [hcount'] at hspace'
        refine ⟨hblock, hterm, of_forM_eq_ok hstmts, hspace'.2, ?_⟩
        intro v hv
        obtain ⟨i, hi, hget⟩ := List.getElem_of_mem hv
        have hmem : (v, i) ∈ outputs.zipIdx := by
          rw [List.mk_mem_zipIdx_iff_getElem?, List.getElem?_eq_getElem hi, hget]
        have hcheck := of_forM_eq_ok houtputs (v, i) hmem
        dsimp only at hcheck
        rw [checkOutput] at hcheck
        split at hcheck
        case isTrue hlt => exact hspace'.1 ▸ hlt
        case isFalse => cases hcheck
      case h_2 => cases h
  case h_2 => cases h

/-- A validated circuit returns the bits of its outputs. -/
theorem Validated.runBlocks {P : Type} {blocks : BIrBlocks P} {circuit : ValidatedBoolCircuit P}
    (h : Validated blocks circuit) {world : Externals} {σ : EvalState} {inputs : List Bool}
    (hinputs : inputs.length = circuit.params)
    (hcalm : (evalStmts world ⟨paramValues inputs, σ⟩ (circuit.stmts.map Node.kind)).st = σ)
    (n : ℕ) : runBlocks world blocks (n + 1) (.running 0 inputs σ) =
      .returned (circuit.outputs.map fun v => (look (evalStmts world ⟨paramValues inputs, σ⟩
        (circuit.stmts.map Node.kind)).vals v).bit) σ := by
  have hparams : inputs.length = circuit.block.params := hinputs
  have hblock : evalBlock world circuit.block inputs σ =
      some (.ret (circuit.outputs.map fun v => (look (evalStmts world ⟨paramValues inputs, σ⟩
        (circuit.stmts.map Node.kind)).vals v).bit), σ) := by
    rw [evalBlock, if_pos hparams, h.returns]
    dsimp only
    rw [evalTerminator, resolveTarget, Option.map_some]
    exact congrArg (fun st => some (_, st)) hcalm
  rw [Boolar.runBlocks, stepBlock, h.single]
  simp only [List.getElem?_cons_zero, hblock]
  exact runBlocks_returned _ _ _ _ _

theorem sumWidths_eq_ok {groups : List ℕ} (h : groups.sum ≤ usizeMax) :
    sumWidths groups = .ok groups.sum := by
  rw [sumWidths, checkedSum_eq_some.mpr ⟨rfl, h⟩]

/-- A text, the circuit it describes, and what that circuit computes. -/
structure Exported {P : Type} (blocks : BIrBlocks P) (circuit : ValidatedBoolCircuit P)
    (io : BristolIoLayout) (text : String) (file : BristolCircuit) : Prop where
  isFile : IsFile text.toList file
  runs : file.Runs
  size : file.size = circuit.ids
  inputGroups : file.inputGroups = io.inputGroups
  outputGroups : file.outputGroups = io.outputGroups
  row_le : ∀ row ∈ rows text.toList, row.length ≤ usizeMax
  rows_le : (rows text.toList).length ≤ usizeMax
  computes : ∀ inputs : List Bool, inputs.length = circuit.params →
    ∀ (world : Externals) (σ : EvalState), ∃ wires outs,
      file.exec inputs = some wires ∧ file.outputs wires = some outs ∧
        ∀ n, runBlocks world blocks (n + 1) (.running 0 inputs σ) = .returned outs σ

/-- The export of a validated circuit succeeds, and its gates leave on the last wires what
the circuit returns. -/
theorem export_eq {P : Type} {blocks : BIrBlocks P} {circuit : ValidatedBoolCircuit P}
    {io : BristolIoLayout} (hvalid : validateBoolCircuit blocks = .ok circuit)
    (hin : io.inputGroups.sum = circuit.params)
    (hout : io.outputGroups.sum = circuit.outputs.length)
    (houtputs : circuit.outputs.length * 4 ≤ isizeMax)
    (hinGroups : io.inputGroups.length * 8 ≤ isizeMax)
    (houtGroups : io.outputGroups.length * 8 ≤ isizeMax) :
    ∃ text file, exportBristolFashionWithLayout blocks io = .ok text ∧
      Exported blocks circuit io text file := by
  have h := validated hvalid
  have hfits := h.fits
  have hbig : 4 * u32Max + isizeMax + 3 ≤ usizeMax := by decide
  have hstmts : ∃ st gates, circuit.stmts.zipIdx.foldlM (emitNext circuit.params)
      ⟨circuit.params, 0, "", []⟩ = .ok st ∧
        Emitted circuit.params (circuit.stmts.map Node.kind) st gates :=
    emitAll_eq (emitted_nil circuit.params) (by rw [List.length_nil]; omega) h.stmts
  obtain ⟨st, gates, hfold, hemitted⟩ := hstmts
  have hlen := hemitted.wires_length
  have hsize := hemitted.size
  have hnext := hemitted.lines.next
  rw [List.length_map] at hlen hsize
  obtain ⟨st', copies, hcopies, hlines, hnext', hcost, hrun⟩ := emitOutputs_eq hemitted.lines hlen
    hemitted.wires_lt (by omega) h.outputs
  have hnextAll := hlines.next
  have hroom : st'.nextWire + 3 ≤ usizeMax := by omega
  have hinSum : io.inputGroups.sum ≤ usizeMax := by omega
  have houtSum : io.outputGroups.sum ≤ usizeMax := by omega
  refine ⟨_, ⟨st'.nextWire, io.inputGroups, io.outputGroups, gates ++ copies⟩, ?_,
    isFile_text hlines (by omega) (by omega) (by omega) hinSum houtSum, ?_, ?_, rfl, rfl, ?_, ?_,
    ?_⟩
  · unfold exportBristolFashionWithLayout
    rw [hvalid, ok_bind]
    unfold emitValidated
    rw [sumWidths_eq_ok hinSum, ok_bind, sumWidths_eq_ok houtSum, ok_bind,
      if_neg (not_not.mpr hin), if_neg (not_not.mpr hout), hfold, ok_bind, hcopies]
    rfl
  · refine ⟨?_, ?_, by dsimp only; omega, ?_, ?_⟩
    · change io.inputGroups.sum ≤ st'.nextWire
      omega
    · change io.outputGroups.sum ≤ st'.nextWire
      omega
    · change GatesFit st'.nextWire (Finset.range io.inputGroups.sum) (gates ++ copies)
      rw [hin]
      exact hlines.fit _ (le_refl _)
    · intro w _ hw
      change w ∈ knownAfter (Finset.range io.inputGroups.sum) (gates ++ copies)
      rw [hin, hlines.known]
      exact Finset.mem_range.mpr hw
  · change io.inputGroups.sum + ((gates ++ copies).map BristolGate.cost).sum = circuit.ids
    rw [List.map_append, List.sum_append, hemitted.ids, hcost, hin]
    rfl
  · rw [rows_text hlines]
    simp only [List.forall_mem_cons, groupWords, List.length_cons, List.length_map]
    refine ⟨by simp; omega, by omega, by omega, ?_⟩
    intro row hrow
    obtain ⟨gate, -, rfl⟩ := List.mem_map.mp hrow
    have hshort : (gateWords gate).length ≤ 6 := by cases gate <;> simp [gateWords]
    exact hshort.trans (by decide)
  · rw [rows_text hlines]
    simp only [List.length_cons, List.length_map]
    omega
  · intro inputs hinputs world σ
    obtain ⟨hcalm, wires, hexec, hwires, hcarries⟩ := hemitted.run world σ inputs hinputs
      st'.nextWire (by omega)
    rw [List.length_map] at hcarries
    obtain ⟨wires', hexec', -, houts⟩ := hrun _ wires hcarries hwires.ge
    refine ⟨wires', _, ?_, ?_, h.runBlocks hinputs hcalm⟩
    · change (gates ++ copies).foldlM (fun wires gate => gate.exec wires)
        (init inputs st'.nextWire) = some wires'
      rw [List.foldlM_append, hexec]
      exact hexec'
    · change readAll wires' (List.range' (st'.nextWire - io.outputGroups.sum)
        io.outputGroups.sum) = _
      rw [hout, hnext', Nat.add_sub_cancel]
      exact houts

/-- Export, then import. Under limits that allow the counts of the text, the import returns
the layout and a block with the same function when the ids suffice, and reports that they do
not otherwise. -/
theorem export_import {P : Type} {blocks : BIrBlocks P} {circuit : ValidatedBoolCircuit P}
    {io : BristolIoLayout} (hvalid : validateBoolCircuit blocks = .ok circuit)
    (hin : io.inputGroups.sum = circuit.params)
    (hout : io.outputGroups.sum = circuit.outputs.length)
    (houtputs : circuit.outputs.length * 4 ≤ isizeMax)
    (hinGroups : io.inputGroups.length * 8 ≤ isizeMax)
    (houtGroups : io.outputGroups.length * 8 ≤ isizeMax) :
    ∃ text file, exportBristolFashionWithLayout blocks io = .ok text ∧
      IsFile text.toList file ∧ ∀ limits : BristolLimits, limits.Allow file →
        (circuit.ids ≤ u32Max + 1 → ∃ imported,
          importBristolFashionWithLimits text.toList limits = .ok (imported, io) ∧
            SameFunction circuit.params blocks imported) ∧
        (u32Max + 1 < circuit.ids →
          importBristolFashionWithLimits text.toList limits =
            .error (.error .varSpaceOverflow)) := by
  obtain ⟨text, file, hexport, h⟩ := export_eq hvalid hin hout houtputs hinGroups houtGroups
  refine ⟨text, file, hexport, h.isFile, ?_⟩
  intro limits hallow
  have hfits := (validated hvalid).fits
  have hinputCount : file.inputCount = circuit.params := by
    rw [BristolCircuit.inputCount, h.inputGroups, hin]
  have houtputCount : file.outputCount = circuit.outputs.length := by
    rw [BristolCircuit.outputCount, h.outputGroups, hout]
  have himport : importBristolFashionWithLimits text.toList limits = importCircuit file := by
    unfold importBristolFashionWithLimits
    rw [parse_eq h.isFile h.runs hallow h.row_le h.rows_le, ok_bind]
  have hends : ∀ inputs : List Bool, inputs.length = circuit.params →
      ∀ (world : Externals) (σ : EvalState), ∃ outs,
        (∀ n, Boolar.runBlocks world blocks (n + 1) (.running 0 inputs σ) = .returned outs σ) ∧
        Ends (TooLarge file) (importCircuit file) fun r =>
          r.2 = ⟨file.inputGroups, file.outputGroups⟩ ∧ file.size ≤ u32Max + 1 ∧
            ∀ n, Boolar.runBlocks world r.1 (n + 1) (.running 0 inputs σ) = .returned outs σ := by
    intro inputs hinputs world σ
    obtain ⟨wires, outs, hexec, houts, hrun⟩ := h.computes inputs hinputs world σ
    exact ⟨outs, hrun, ends_importCircuit h.runs (hinputs.trans hinputCount.symm)
      (fun _ => houtputCount ▸ houtputs) hexec houts⟩
  obtain ⟨_, -, hzero⟩ := hends (List.replicate circuit.params false) List.length_replicate
    ⟨fun _ _ _ => false, fun _ _ _ _ => false, fun _ _ _ => false⟩ (.init .empty)
  rw [himport, ← h.size]
  cases hres : importCircuit file with
  | error e =>
      rw [hres] at hzero
      have hlarge := hzero.2
      rw [hinputCount] at hlarge
      constructor
      · intro hle
        omega
      · intro _
        rw [hzero.1]
  | ok r =>
      have hok := hzero.of_ok hres
      constructor
      · intro _
        refine ⟨r.1, ?_, ?_⟩
        · rw [h.inputGroups, h.outputGroups] at hok
          exact congrArg Except.ok (Prod.ext rfl hok.1)
        · intro inputs hinputs world σ n
          obtain ⟨outs, hrun, hrun'⟩ := hends inputs hinputs world σ
          exact ⟨outs, hrun n, (hrun'.of_ok hres).2.2 n⟩
      · intro hlt
        omega

def orCircuit : BIrBlocks Unit := ⟨[⟨2, [.new (.or 0 1) ()], .jmp ⟨.ret, [2, 0]⟩⟩], []⟩

theorem export_import_or :
    ∃ text file, exportBristolFashionWithLayout orCircuit ⟨[1, 1], [2]⟩ = .ok text ∧
      IsFile text.toList file ∧ ∀ limits : BristolLimits, limits.Allow file →
        (5 ≤ u32Max + 1 → ∃ imported,
          importBristolFashionWithLimits text.toList limits = .ok (imported, ⟨[1, 1], [2]⟩) ∧
            SameFunction 2 orCircuit imported) ∧
        (u32Max + 1 < 5 →
          importBristolFashionWithLimits text.toList limits = .error (.error .varSpaceOverflow)) :=
  export_import (show validateBoolCircuit orCircuit =
    .ok ⟨⟨2, [.new (.or 0 1) ()], .jmp ⟨.ret, [2, 0]⟩⟩, [2, 0]⟩ from rfl) rfl rfl
    (by decide) (by decide) (by decide)

theorem Exported.allow {P : Type} {blocks : BIrBlocks P} {circuit : ValidatedBoolCircuit P}
    {io : BristolIoLayout} {text : String} {file : BristolCircuit}
    (h : Exported blocks circuit io text file) :
    BristolLimits.Allow ⟨usizeMax, usizeMax, usizeMax⟩ file := by
  obtain ⟨_, _, _, _, _, -, hgates, -⟩ := h.isFile.rows
  have hwires := h.runs.wires_le
  exact ⟨Numerals.parse_le hgates, hwires, h.runs.inputs_le.trans hwires,
    h.runs.outputs_le.trans hwires⟩

def wideCircuit : BIrBlocks Unit := ⟨[⟨4294967294, [.new (.or 0 1) ()], .jmp ⟨.ret, []⟩⟩], []⟩

theorem not_export_import : ¬ ∀ (blocks : BIrBlocks Unit) (circuit : ValidatedBoolCircuit Unit)
    (io : BristolIoLayout) (text : String) (file : BristolCircuit) (limits : BristolLimits),
    validateBoolCircuit blocks = .ok circuit → io.inputGroups.sum = circuit.params →
      io.outputGroups.sum = circuit.outputs.length →
      exportBristolFashionWithLayout blocks io = .ok text → IsFile text.toList file →
      limits.Allow file →
      ∃ imported, importBristolFashionWithLimits text.toList limits = .ok (imported, io) := by
  intro h
  have hvalid : validateBoolCircuit wideCircuit =
      .ok ⟨⟨4294967294, [.new (.or 0 1) ()], .jmp ⟨.ret, []⟩⟩, []⟩ := rfl
  obtain ⟨text, file, hexport, hexported⟩ := export_eq hvalid
    (show (⟨[4294967294], []⟩ : BristolIoLayout).inputGroups.sum = 4294967294 from rfl) rfl
    (by decide) (by decide) (by decide)
  have htext : exportBristolFashionWithLayout wideCircuit ⟨[4294967294], []⟩ =
      .ok ("3 4294967297\n1 4294967294\n0\n\n2 1 0 1 4294967294 AND\n" ++
        "2 1 0 1 4294967295 XOR\n2 1 4294967294 4294967295 4294967296 XOR\n") := by
    decide +kernel
  have hfound := h wideCircuit _ _ text file _ hvalid rfl rfl hexport hexported.isFile
    hexported.allow
  obtain ⟨imported, himported⟩ := hfound
  rw [htext] at hexport
  rw [← Except.ok.inj hexport] at himported
  have herror : importBristolFashionWithLimits
      ("3 4294967297\n1 4294967294\n0\n\n2 1 0 1 4294967294 AND\n" ++
        "2 1 0 1 4294967295 XOR\n2 1 4294967294 4294967295 4294967296 XOR\n").toList
      ⟨usizeMax, usizeMax, usizeMax⟩ = .error (.error .varSpaceOverflow) := by decide +kernel
  rw [herror] at himported
  cases himported

end VolarIR.Interop
