import VolarIR.Interop.BristolParseSound

/-!
# The parser accepts what runs

A text whose rows describe a circuit that runs and stays within the limits is parsed into
that circuit.
-/
namespace VolarIR.Interop
open Fallible

theorem parseUsize_eq {token : List Char} {n : ℕ} (h : Numeral token n) (line : ℕ)
    (field : String) : parseUsize token line field = .ok n := by
  rw [parseUsize, h]

theorem mapM_parseUsize_eq {ts : List (List Char)} {ns : List ℕ}
    (h : List.Forall₂ Numeral ts ns) (line : ℕ) (field : String) :
    (ts.mapM fun token => parseUsize token line field) = .ok ns := by
  induction h with
  | nil => rfl
  | cons hn _ ih =>
      rw [List.mapM_cons, parseUsize_eq hn, ih]
      rfl

theorem parseGroups_eq {line : SourceLine} {widths : List ℕ} (h : GroupRow (tokens line) widths)
    (hlen : (tokens line).length ≤ usizeMax) (hsum : widths.sum ≤ usizeMax) (kind : String) :
    parseGroups line kind = .ok (widths, widths.sum) := by
  obtain ⟨count, ts, hrow, hcount, hwidths⟩ := h
  rw [hrow, List.length_cons] at hlen
  unfold parseGroups
  rw [hrow]
  dsimp only
  rw [parseUsize_eq hcount, ok_bind, checkedAdd_eq_some.mpr ⟨rfl, hlen⟩]
  dsimp only
  rw [if_neg (by rw [List.length_cons]; simp), mapM_parseUsize_eq hwidths, ok_bind,
    checkedSum_eq_some.mpr ⟨rfl, hsum⟩]

theorem pairs_eq (batch : List BristolAnd) :
    ((chunks2 (batch.flatMap fun gate => [gate.a, gate.b])).zip (batch.map BristolAnd.out)).mapM
      (fun pair => do
        return (⟨← index pair.1 0, ← index pair.1 1, pair.2⟩ : BristolAnd)) = .ok batch := by
  induction batch with
  | nil => rfl
  | cons gate batch ih =>
      rw [List.flatMap_cons, List.map_cons, List.cons_append, List.cons_append, List.nil_append,
        chunks2, List.zip_cons_cons, List.mapM_cons, ih]
      rfl

theorem gateOf_eq {operation : String} {ins outs : List ℕ} {gate : BristolGate}
    (h : Operation operation ins outs gate) (line : ℕ) :
    gateOf line operation ins.length outs.length ins outs = .ok gate := by
  cases h with
  | and a b out => rfl
  | xor a b out => rfl
  | inv input out => rfl
  | not input out => rfl
  | const value out => cases value <;> rfl
  | copy input out => rfl
  | mand batch hne =>
      have hpos := List.length_pos_iff.mpr hne
      have hins : (batch.flatMap fun gate => [gate.a, gate.b]).length = 2 * batch.length := by
        simp [List.length_flatMap, Nat.mul_comm]
      have houts : (batch.map BristolAnd.out).length = batch.length := List.length_map _
      have hmand : ∀ (name : String) (m n : ℕ) (ins outs : List ℕ), name = "MAND" →
          gateOf line name m n ins outs =
            if 0 < n ∧ m % 2 = 0 ∧ m / 2 = n then do
              return .andBatch (← ((chunks2 ins).zip outs).mapM fun pair => do
                return ⟨← index pair.1 0, ← index pair.1 1, pair.2⟩)
            else parseError line s!"invalid input/output arity for {name}" := by
        rintro name m n ins outs rfl
        rfl
      rw [hmand "MAND" _ _ _ _ rfl, if_pos (by omega), pairs_eq]
      rfl

theorem checkWires_eq {wires : List ℕ} {wireCount : ℕ} (h : ∀ w ∈ wires, w < wireCount)
    (line : ℕ) : checkWires wires wireCount line = .ok () := by
  have hfind : (wires.find? fun wire => wireCount ≤ wire) = none :=
    List.find?_eq_none.mpr fun w hw => by simpa using h w hw
  rw [checkWires, hfind]

theorem parseGate_eq {line : SourceLine} {wireCount : ℕ} {gate : BristolGate}
    (h : ReadsAs line wireCount gate) (hlen : (tokens line).length ≤ usizeMax) :
    parseGate line wireCount = .ok gate := by
  obtain ⟨inputToken, outputToken, inputTokens, outputTokens, operation, ins, outs, hrow,
    hinputCount, houtputCount, hins, houts, hop⟩ := h.row
  have hreads := h.reads_lt
  have hwrites := h.writes_lt
  have hnodup := h.writes_nodup
  rw [hop.reads] at hreads
  rw [hop.writes] at hwrites hnodup
  have hcount : (tokens line).length = inputTokens.length + outputTokens.length + 3 := by
    rw [hrow]
    simp [Nat.add_assoc]
  have hpieces := pieces inputToken outputToken operation inputTokens outputTokens
  have hfirst : index (tokens line) 0 = .ok inputToken := by rw [hrow]; rfl
  have hsecond : index (tokens line) 1 = .ok outputToken := by rw [hrow]; rfl
  have hexpected : ((checkedAdd inputTokens.length outputTokens.length).bind fun count =>
      checkedAdd count 3) = some (inputTokens.length + outputTokens.length + 3) := by
    rw [checkedAdd_eq_some.mpr ⟨rfl, by omega⟩]
    exact checkedAdd_eq_some.mpr ⟨rfl, by omega⟩
  unfold parseGate
  dsimp only
  rw [if_neg (by omega), hfirst, ok_bind, parseUsize_eq hinputCount, ok_bind, hsecond, ok_bind,
    parseUsize_eq houtputCount, ok_bind, hexpected]
  dsimp only
  rw [if_neg (by omega), hrow, hpieces.1, ok_bind, mapM_parseUsize_eq hins, ok_bind, hpieces.2.1,
    ok_bind, mapM_parseUsize_eq houts, ok_bind, hpieces.2.2, ok_bind, checkWires_eq hwrites,
    ok_bind]
  have hlast : gateOf line.number (String.ofList operation) inputTokens.length
      outputTokens.length ins outs = .ok gate := by
    rw [hins.length_eq, houts.length_eq, gateOf_eq hop]
  split
  case isTrue hne =>
    rw [if_neg hne] at hreads
    rw [checkWires_eq hreads, ok_bind]
    exact hlast
  case isFalse => exact hlast

theorem enforceLimit_eq {actual limit : ℕ} (h : actual ≤ limit) (field : String) (line : ℕ) :
    enforceLimit actual limit field line = .ok () := by
  rw [enforceLimit, if_neg (not_lt.mpr h)]

theorem scanGate_eq {inputCount wireCount : ℕ} {scan : GateScan} {line : SourceLine}
    {gate : BristolGate} (hrow : GateRow (tokens line) gate)
    (hfits : GateFits wireCount (scan.known inputCount) gate)
    (hlen : (tokens line).length ≤ usizeMax) :
    scanGate inputCount wireCount scan line =
      .ok ⟨scan.gates ++ [gate], scan.produced ∪ gate.writes.toFinset⟩ := by
  have hfind : (gate.reads.find? fun wire => inputCount ≤ wire ∧ wire ∉ scan.produced) = none := by
    apply List.find?_eq_none.mpr
    intro w hw
    have hknown := hfits.reads_known w hw
    rw [GateScan.known, Finset.mem_union, Finset.mem_range] at hknown
    simp only [decide_eq_true_eq, not_and, not_not]
    exact fun hle => hknown.resolve_left (not_lt.mpr hle)
  unfold scanGate
  rw [parseGate_eq ⟨hrow, hfits.reads_lt, hfits.writes_lt, hfits.writes_nodup⟩ hlen, ok_bind]
  rw [show (gateWires gate).1 = gate.reads from rfl, hfind]
  rfl

theorem scanGates_eq {inputCount wireCount : ℕ} {scan : GateScan} {ls : List SourceLine}
    {gates : List BristolGate} (hrows : List.Forall₂ (fun line => GateRow (tokens line)) ls gates)
    (hfit : GatesFit wireCount (scan.known inputCount) gates)
    (hlen : ∀ line ∈ ls, (tokens line).length ≤ usizeMax) :
    ∃ produced, ls.foldlM (scanGate inputCount wireCount) scan =
        .ok ⟨scan.gates ++ gates, produced⟩ ∧
      GateScan.known ⟨scan.gates ++ gates, produced⟩ inputCount =
        knownAfter (scan.known inputCount) gates := by
  induction hrows generalizing scan with
  | nil => exact ⟨scan.produced, by rw [List.append_nil]; rfl, rfl⟩
  | @cons line gate ls gates hrow _ ih =>
      have hstep := scanGate_eq hrow hfit.1 (hlen line List.mem_cons_self)
      have hknown : GateScan.known ⟨scan.gates ++ [gate], scan.produced ∪ gate.writes.toFinset⟩
          inputCount = scan.known inputCount ∪ gate.writes.toFinset := by
        rw [GateScan.known, GateScan.known, Finset.union_assoc]
      have hrest := ih (hknown ▸ hfit.2) fun line hline => hlen line (List.mem_cons_of_mem _ hline)
      obtain ⟨produced, hfold, hafter⟩ := hrest
      rw [List.append_assoc] at hfold hafter
      refine ⟨produced, ?_, ?_⟩
      · rw [List.foldlM_cons, hstep]
        exact hfold
      · rw [hknown] at hafter
        exact hafter

theorem parse_eq {input : List Char} {limits : BristolLimits} {circuit : BristolCircuit}
    (hfile : IsFile input circuit) (hruns : circuit.Runs) (hallow : limits.Allow circuit)
    (hlen : ∀ row ∈ rows input, row.length ≤ usizeMax) (hcount : (rows input).length ≤ usizeMax) :
    parseBristolFashionWithLimits input limits = .ok circuit := by
  obtain ⟨gateToken, wireToken, inputRow, outputRow, gateRows, hrows, hgateCount, hwireCount,
    hinputs, houtputs, hgates⟩ := hfile.rows
  have hlines := tokens_sourceLines input
  rw [hrows] at hlines hlen hcount
  unfold parseBristolFashionWithLimits
  dsimp only
  generalize sourceLines input = ls at hlines
  match ls, hlines with
  | [_], hlines => simp at hlines
  | [_, _], hlines => simp at hlines
  | firstLine :: inputLine :: outputLine :: gateLines, hlines =>
      simp only [List.map_cons, List.cons.injEq] at hlines
      obtain ⟨hfirst, rfl, rfl, rfl⟩ := hlines
      simp only [List.forall_mem_cons] at hlen
      simp only [List.length_cons, List.length_map] at hcount
      have hgateRows := List.forall₂_map_left_iff.mp hgates
      have hgateLines : gateLines.length = circuit.gates.length := hgateRows.length_eq
      have hinputSum : circuit.inputGroups.sum ≤ usizeMax := hruns.inputs_le.trans hruns.wires_le
      have houtputSum : circuit.outputGroups.sum ≤ usizeMax :=
        hruns.outputs_le.trans hruns.wires_le
      have hnone : GateScan.known ⟨[], ∅⟩ circuit.inputGroups.sum
          = Finset.range circuit.inputGroups.sum := by simp [GateScan.known]
      have hfit : GatesFit circuit.wireCount (GateScan.known ⟨[], ∅⟩ circuit.inputGroups.sum)
          circuit.gates := hnone ▸ hruns.gates_fit
      have hscan := scanGates_eq hgateRows hfit fun line hline =>
        hlen.2.2.2 _ (List.mem_map_of_mem hline)
      obtain ⟨produced, hfold, hknown⟩ := hscan
      rw [List.nil_append] at hfold hknown
      have hindex : index (firstLine :: inputLine :: outputLine :: gateLines) 0
          = .ok firstLine := rfl
      have hindex' : index (firstLine :: inputLine :: outputLine :: gateLines) 1
          = .ok inputLine := rfl
      have hindex'' : index (firstLine :: inputLine :: outputLine :: gateLines) 2
          = .ok outputLine := rfl
      have hgateToken : index [gateToken, wireToken] 0 = .ok gateToken := rfl
      have hwireToken : index [gateToken, wireToken] 1 = .ok wireToken := rfl
      have hmaxInputs : circuit.inputGroups.sum ≤ limits.maxIoWires := hallow.inputs
      have hmaxOutputs : circuit.outputGroups.sum ≤ limits.maxIoWires := hallow.outputs
      have hinputsLe : circuit.inputGroups.sum ≤ circuit.wireCount := hruns.inputs_le
      have houtputsLe : circuit.outputGroups.sum ≤ circuit.wireCount := hruns.outputs_le
      rw [if_neg (by simp), hindex, ok_bind, hindex', ok_bind, hindex'', ok_bind, hfirst,
        if_neg (by simp), hgateToken, ok_bind, parseUsize_eq hgateCount, ok_bind, hwireToken,
        ok_bind, parseUsize_eq hwireCount, ok_bind, enforceLimit_eq hallow.gates, ok_bind,
        enforceLimit_eq hallow.wires, ok_bind, parseGroups_eq hinputs hlen.2.1 hinputSum, ok_bind,
        parseGroups_eq houtputs hlen.2.2.1 houtputSum, ok_bind]
      dsimp only
      rw [enforceLimit_eq hmaxInputs, ok_bind, enforceLimit_eq hmaxOutputs, ok_bind,
        if_neg (not_lt.mpr hinputsLe), if_neg (not_lt.mpr houtputsLe),
        checkedAdd_eq_some.mpr ⟨rfl, by omega⟩]
      dsimp only
      have hdrop : (firstLine :: inputLine :: outputLine :: gateLines).drop 3 = gateLines := rfl
      rw [if_neg (by simp; omega), hdrop, hfold, ok_bind, uncheckedSub, if_pos houtputsLe, ok_bind]
      have hfind : ((List.range' (circuit.wireCount - circuit.outputGroups.sum)
          (circuit.wireCount - (circuit.wireCount - circuit.outputGroups.sum))).find? fun wire =>
            circuit.inputGroups.sum ≤ wire ∧ wire ∉ produced) = none := by
        apply List.find?_eq_none.mpr
        intro w hw
        have hrange := List.mem_range'_1.mp hw
        have hout := hruns.outputs_known w hrange.1 (by omega)
        have hmem : w ∈ GateScan.known ⟨circuit.gates, produced⟩ circuit.inputGroups.sum := by
          rw [hknown, hnone]
          exact hout
        rw [GateScan.known, Finset.mem_union, Finset.mem_range] at hmem
        simp only [decide_eq_true_eq, not_and, not_not]
        exact fun hle => hmem.resolve_left (not_lt.mpr hle)
      dsimp only
      rw [hfind]

end VolarIR.Interop
