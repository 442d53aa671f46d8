import VolarIR.Boolar.Eval
import VolarIR.Interop.Bristol
import VolarIR.Interop.BristolParseSound

/-!
# Import into Boolar

Every gate becomes statements of one block. Which statement holds a wire is tracked by a
map, so a wire that is written again costs nothing, and a copy is no statement.
-/
namespace VolarIR.Interop
open Boolar

/-- `u32::try_from` of a variable id. -/
def toVarId (n : ℕ) : Outcome InteropError ℕ :=
  if n ≤ u32Max then .ok n else .error (.error .varSpaceOverflow)

structure ImportState where
  params : ℕ
  stmts : List (Node Stmt Unit)
  currentValues : ℕ → Option ℕ

namespace ImportState

/-- `push_stmt`: the block with a statement more, and its id. -/
def pushStmt (st : ImportState) (stmt : Stmt) : Outcome InteropError (ℕ × ImportState) := do
  let position ← toVarId st.stmts.length
  let id ← toVarId (st.params + position)
  return (id, { st with stmts := st.stmts ++ [Node.new stmt ()] })

def bind (st : ImportState) (out id : ℕ) : ImportState :=
  { st with currentValues := Function.update st.currentValues out (some id) }

def define (st : ImportState) (out : ℕ) (stmt : Stmt) : Outcome InteropError ImportState := do
  let (id, st) ← st.pushStmt stmt
  return st.bind out id

end ImportState

def currentValue (wire inputCount : ℕ) (currentValues : ℕ → Option ℕ) : Outcome InteropError ℕ :=
  match currentValues wire with
  | some value => .ok value
  | none =>
      if wire < inputCount then toVarId wire
      else parseError 0 s!"wire {wire} lost its validated definition"

/-- The statements of one gate. A `MAND` resolves all its operands first. -/
def importGate (inputCount : ℕ) (st : ImportState) : BristolGate → Outcome InteropError ImportState
  | .and a b out => do
      let lhs ← currentValue a inputCount st.currentValues
      let rhs ← currentValue b inputCount st.currentValues
      st.define out (.and lhs rhs)
  | .andBatch batch => do
      let resolved ← batch.mapM fun gate => do
        return (← currentValue gate.a inputCount st.currentValues,
          ← currentValue gate.b inputCount st.currentValues, gate.out)
      resolved.foldlM (fun st (a, b, out) => st.define out (.and a b)) st
  | .xor a b out => do
      let lhs ← currentValue a inputCount st.currentValues
      let rhs ← currentValue b inputCount st.currentValues
      st.define out (.xor lhs rhs)
  | .not input out => do
      let value ← currentValue input inputCount st.currentValues
      st.define out (.not value)
  | .const value out => st.define out (if value then .one else .zero)
  | .copy input out => do
      let value ← currentValue input inputCount st.currentValues
      return st.bind out value

/-- `sum_groups`. -/
def sumGroups (groups : List ℕ) : Outcome InteropError ℕ :=
  match checkedSum groups with
  | some total => .ok total
  | none => .error (.error .varSpaceOverflow)

/-- The block of a parsed circuit. -/
def importCircuit (circuit : BristolCircuit) :
    Outcome InteropError (BIrBlocks Unit × BristolIoLayout) := do
  let inputCount ← sumGroups circuit.inputGroups
  let outputCount ← sumGroups circuit.outputGroups
  let params ← toVarId inputCount
  let st ← circuit.gates.foldlM (importGate inputCount) ⟨params, [], fun _ => none⟩
  let firstOutput ← uncheckedSub circuit.wireCount outputCount
  withCapacity outputCount 4
  let outputs ← (List.range' firstOutput (circuit.wireCount - firstOutput)).mapM fun wire =>
    currentValue wire inputCount st.currentValues
  return (⟨[⟨st.params, st.stmts, .jmp ⟨.ret, outputs⟩⟩], []⟩,
    ⟨circuit.inputGroups, circuit.outputGroups⟩)

def importBristolFashionWithLimits (input : List Char) (limits : BristolLimits) :
    Outcome InteropError (BIrBlocks Unit × BristolIoLayout) := do
  importCircuit (← parseBristolFashionWithLimits input limits)

def importBristolFashion (input : List Char) :
    Outcome InteropError (BIrBlocks Unit × BristolIoLayout) :=
  importBristolFashionWithLimits input default

end VolarIR.Interop

/-!
## The imported block computes what the gates compute

The map of current values and the array of wires move together: what a wire holds is the
bit of the value the map gives it. Only the number of ids can stop the import.
-/
namespace VolarIR.Interop
open Boolar Fallible Registers

def BristolGate.cost : BristolGate → ℕ
  | .andBatch batch => batch.length
  | .copy _ _ => 0
  | _ => 1

def ImportState.size (st : ImportState) : ℕ := st.params + st.stmts.length

/-- The error of an import that needs `size` ids. -/
def Overflow (size : ℕ) (e : Fault InteropError) : Prop :=
  e = .error .varSpaceOverflow ∧ u32Max + 1 < size

theorem Overflow.mono {size size' : ℕ} {e : Fault InteropError} (h : Overflow size e)
    (hle : size ≤ size') : Overflow size' e :=
  ⟨h.1, h.2.trans_le hle⟩

theorem ends_weaken {α : Type} {E F : Fault InteropError → Prop} {m : Outcome InteropError α}
    {Q : α → Prop} (h : Ends E m Q) (hle : ∀ e, E e → F e) : Ends F m Q := by
  cases m with
  | ok a => exact h
  | error e => exact hle e h

section
variable (world : Externals) (σ : EvalState) (inputs : List Bool)

def ImportState.frame (st : ImportState) : Frame :=
  evalStmts world ⟨paramValues inputs, σ⟩ (st.stmts.map Node.kind)

def ImportState.Bit (st : ImportState) (v : ℕ) (b : Bool) : Prop :=
  v < st.size ∧ (look (st.frame world σ inputs).vals v).bit = b

/-- The map gives every wire that holds a bit a value with that bit. -/
structure ImportState.Holds (st : ImportState) (wires : List (Option Bool)) : Prop where
  params : st.params = inputs.length
  fits : st.size ≤ u32Max + 1
  calm : (st.frame world σ inputs).st = σ
  value : ∀ w b, read wires w = some b →
    ∃ v, currentValue w inputs.length st.currentValues = .ok v ∧ st.Bit world σ inputs v b

variable {world σ inputs} {st : ImportState} {wires wires' : List (Option Bool)} {v out : ℕ}
  {b : Bool}

theorem length_frame (h : st.Holds world σ inputs wires) :
    (st.frame world σ inputs).vals.length = st.size := by
  rw [ImportState.frame, evalStmts_length, paramValues_length, List.length_map, ImportState.size,
    h.params]

theorem currentValue_update {w out id inputCount : ℕ} {values : ℕ → Option ℕ} :
    currentValue w inputCount (Function.update values out (some id)) =
      if w = out then .ok id else currentValue w inputCount values := by
  rw [currentValue]
  by_cases hw : w = out
  · rw [if_pos hw, hw, Function.update_self]
  · rw [if_neg hw, Function.update_of_ne hw]
    rfl

theorem ImportState.Holds.bind (h : st.Holds world σ inputs wires)
    (hv : st.Bit world σ inputs v b) (hwrite : write wires out b = some wires') :
    (st.bind out v).Holds world σ inputs wires' where
  params := h.params
  fits := h.fits
  calm := h.calm
  value := by
    intro w b' hw
    rw [read_write hwrite] at hw
    rw [ImportState.bind, currentValue_update]
    split at hw
    case isTrue heq =>
      obtain rfl := Option.some.inj hw
      rw [if_pos heq]
      exact ⟨v, rfl, hv⟩
    case isFalse hne =>
      rw [if_neg hne]
      exact h.value w b' hw

theorem frame_push (st : ImportState) (stmt : Stmt) :
    ImportState.frame world σ inputs { st with stmts := st.stmts ++ [Node.new stmt ()] } =
      stepStmt world (st.frame world σ inputs) stmt := by
  rw [ImportState.frame, List.map_append, evalStmts_append]
  rfl

theorem ends_toVarId (n : ℕ) : Ends (Overflow (n + 1)) (toVarId n) fun m => m = n ∧ n ≤ u32Max := by
  unfold toVarId
  split
  case isTrue h => exact ⟨rfl, h⟩
  case isFalse h => exact ⟨rfl, by omega⟩

/-- A new statement defines a wire; the values before it stay. -/
theorem ends_define {stmt : Stmt} (h : st.Holds world σ inputs wires)
    (hstmt : evalStmt world σ (stmt.mapVars (look (st.frame world σ inputs).vals))
      = (⟨b, .none⟩, σ))
    (hwrite : write wires out b = some wires') :
    Ends (Overflow (st.size + 1)) (st.define out stmt) fun st' =>
      st'.Holds world σ inputs wires' ∧ st'.size = st.size + 1 ∧
        ∀ v b, st.Bit world σ inputs v b → st'.Bit world σ inputs v b := by
  unfold ImportState.define ImportState.pushStmt
  simp only [bind_assoc, pure_bind]
  have hsize : st.size = st.params + st.stmts.length := rfl
  apply (ends_weaken (ends_toVarId _) fun e he => he.mono (by omega)).bind
  rintro _ ⟨rfl, -⟩
  apply (ends_toVarId _).bind
  rintro id ⟨rfl, hid⟩
  have hlen := length_frame h
  set next : ImportState := { st with stmts := st.stmts ++ [Node.new stmt ()] } with hnext
  have hframe : next.frame world σ inputs =
      ⟨(st.frame world σ inputs).vals ++ [⟨b, .none⟩], σ⟩ := by
    rw [hnext, frame_push, stepStmt, h.calm, hstmt]
  have hnextSize : next.size = st.size + 1 := by
    simp [hnext, ImportState.size, Nat.add_assoc]
  have hold : ∀ v b, st.Bit world σ inputs v b → next.Bit world σ inputs v b := by
    rintro v b ⟨hv, hb⟩
    refine ⟨by omega, ?_⟩
    rw [hframe]
    dsimp only
    rw [look_append_left (by omega)]
    exact hb
  have hnew : next.Bit world σ inputs (st.params + st.stmts.length) b := by
    refine ⟨by omega, ?_⟩
    rw [hframe, ← hsize, ← hlen]
    exact congrArg Value.bit (look_append_length _ _)
  have hholds : next.Holds world σ inputs wires := by
    refine ⟨h.params, by omega, by rw [hframe], ?_⟩
    intro w b' hw
    obtain ⟨v, hv, hbit⟩ := h.value w b' hw
    exact ⟨v, hv, hold v b' hbit⟩
  exact ⟨hholds.bind hnew hwrite, hnextSize, hold⟩

theorem writeAll_singleton (wires : List (Option Bool)) (out : ℕ) (b : Bool) :
    writeAll wires [(out, b)] = write wires out b := by
  rw [writeAll_cons]
  cases write wires out b <;> rfl

def Resolved (world : Externals) (σ : EvalState) (inputs : List Bool) (st : ImportState)
    (member : ℕ × ℕ × ℕ) (write : ℕ × Bool) : Prop :=
  ∃ x y, st.Bit world σ inputs member.1 x ∧ st.Bit world σ inputs member.2.1 y ∧
    write = (member.2.2, x && y)

theorem exists_resolved (h : st.Holds world σ inputs wires) {batch : List BristolAnd}
    {bits : List Bool}
    (hbits : readAll wires (batch.flatMap fun gate => [gate.a, gate.b]) = some bits) :
    ∃ resolved, batch.mapM (fun gate => do
        return (← currentValue gate.a inputs.length st.currentValues,
          ← currentValue gate.b inputs.length st.currentValues, gate.out)) = .ok resolved ∧
      resolved.length = batch.length ∧ List.Forall₂ (Resolved world σ inputs st) resolved
        ((batch.map BristolAnd.out).zip (BristolGate.andPairs bits)) := by
  induction batch generalizing bits with
  | nil =>
      obtain rfl := Option.some.inj hbits
      exact ⟨[], rfl, rfl, .nil⟩
  | cons gate batch ih =>
      obtain ⟨x, tail, rfl, hx, htail⟩ := readAll_cons_eq_some hbits
      obtain ⟨y, rest, rfl, hy, hrest⟩ := readAll_cons_eq_some htail
      obtain ⟨resolved, hresolved, hlen, hall⟩ := ih hrest
      obtain ⟨va, hva, hbitA⟩ := h.value _ _ hx
      obtain ⟨vb, hvb, hbitB⟩ := h.value _ _ hy
      refine ⟨(va, vb, gate.out) :: resolved, ?_, congrArg (· + 1) hlen,
        .cons ⟨x, y, hbitA, hbitB, rfl⟩ hall⟩
      rw [List.mapM_cons, hva, hvb, hresolved]
      rfl

/-- The statements of a batch, after all its operands are resolved. -/
theorem ends_batch {resolved : List (ℕ × ℕ × ℕ)} {writes : List (ℕ × Bool)}
    (h : st.Holds world σ inputs wires)
    (hall : List.Forall₂ (Resolved world σ inputs st) resolved writes)
    (hwrites : writeAll wires writes = some wires') :
    Ends (Overflow (st.size + resolved.length))
      (resolved.foldlM (fun st (a, b, out) => st.define out (.and a b)) st) fun st' =>
        st'.Holds world σ inputs wires' ∧ st'.size = st.size + resolved.length := by
  induction resolved generalizing st wires writes with
  | nil =>
      cases hall
      obtain rfl := Option.some.inj hwrites
      exact ⟨h, rfl⟩
  | cons member resolved ih =>
      cases hall with
      | cons hmember hrest =>
          obtain ⟨x, y, hx, hy, rfl⟩ := hmember
          rw [writeAll_cons] at hwrites
          obtain ⟨next, hnext, hwrites⟩ := Option.bind_eq_some_iff.mp hwrites
          rw [List.foldlM_cons, List.length_cons]
          have hstmt : evalStmt world σ ((BIrStmt.and member.1 member.2.1).mapVars
              (look (st.frame world σ inputs).vals)) = (⟨x && y, .none⟩, σ) := by
            rw [BIrStmt.mapVars, evalStmt, hx.2, hy.2]
          apply (ends_weaken (ends_define h hstmt hnext) fun e he => he.mono (by omega)).bind
          rintro st' ⟨hholds, hsize, hold⟩
          have hkept : ∀ member write, Resolved world σ inputs st member write →
              Resolved world σ inputs st' member write := by
            intro member write hresolved
            rcases hresolved with ⟨x, y, hx, hy, heq⟩
            exact ⟨x, y, hold _ _ hx, hold _ _ hy, heq⟩
          apply (ends_weaken (ih hholds (hrest.imp hkept) hwrites) fun e he =>
            he.mono (by omega)).mono
          rintro last ⟨hlast, hsize'⟩
          exact ⟨hlast, by omega⟩

theorem ends_importGate {gate : BristolGate} (h : st.Holds world σ inputs wires)
    (hexec : gate.exec wires = some wires') :
    Ends (Overflow (st.size + gate.cost)) (importGate inputs.length st gate) fun st' =>
      st'.Holds world σ inputs wires' ∧ st'.size = st.size + gate.cost := by
  obtain ⟨bits, hbits, hwrites⟩ := Option.bind_eq_some_iff.mp hexec
  cases gate with
  | and a b out =>
      obtain ⟨x, tail, rfl, hx, htail⟩ := readAll_cons_eq_some hbits
      obtain ⟨y, rest, rfl, hy, hrest⟩ := readAll_cons_eq_some htail
      obtain rfl := Option.some.inj hrest
      obtain ⟨va, hva, hbitA⟩ := h.value _ _ hx
      obtain ⟨vb, hvb, hbitB⟩ := h.value _ _ hy
      have hwrite := (writeAll_singleton wires out (x && y)).symm.trans hwrites
      rw [importGate, hva, ok_bind, hvb, ok_bind]
      apply (ends_define h _ hwrite).mono
      · exact fun st' hst' => ⟨hst'.1, hst'.2.1⟩
      · rw [BIrStmt.mapVars, evalStmt, hbitA.2, hbitB.2]
  | andBatch batch =>
      obtain ⟨resolved, hresolved, hlen, hall⟩ := exists_resolved h hbits
      rw [importGate, hresolved, ok_bind, BristolGate.cost, ← hlen]
      exact ends_batch h hall hwrites
  | xor a b out =>
      obtain ⟨x, tail, rfl, hx, htail⟩ := readAll_cons_eq_some hbits
      obtain ⟨y, rest, rfl, hy, hrest⟩ := readAll_cons_eq_some htail
      obtain rfl := Option.some.inj hrest
      obtain ⟨va, hva, hbitA⟩ := h.value _ _ hx
      obtain ⟨vb, hvb, hbitB⟩ := h.value _ _ hy
      have hwrite := (writeAll_singleton wires out (x ^^ y)).symm.trans hwrites
      rw [importGate, hva, ok_bind, hvb, ok_bind]
      apply (ends_define h _ hwrite).mono
      · exact fun st' hst' => ⟨hst'.1, hst'.2.1⟩
      · rw [BIrStmt.mapVars, evalStmt, hbitA.2, hbitB.2]
  | not input out =>
      obtain ⟨x, tail, rfl, hx, htail⟩ := readAll_cons_eq_some hbits
      obtain rfl := Option.some.inj htail
      obtain ⟨v, hv, hbit⟩ := h.value _ _ hx
      have hwrite := (writeAll_singleton wires out (!x)).symm.trans hwrites
      rw [importGate, hv, ok_bind]
      apply (ends_define h _ hwrite).mono
      · exact fun st' hst' => ⟨hst'.1, hst'.2.1⟩
      · rw [BIrStmt.mapVars, evalStmt, hbit.2]
  | const value out =>
      have hwrite := (writeAll_singleton wires out value).symm.trans hwrites
      apply (ends_define h _ hwrite).mono
      · exact fun st' hst' => ⟨hst'.1, hst'.2.1⟩
      · cases value <;> rfl
  | copy input out =>
      obtain ⟨x, tail, rfl, hx, htail⟩ := readAll_cons_eq_some hbits
      obtain rfl := Option.some.inj htail
      obtain ⟨v, hv, hbit⟩ := h.value _ _ hx
      have hwrite := (writeAll_singleton wires out x).symm.trans hwrites
      rw [importGate, hv, ok_bind]
      exact ⟨h.bind hbit hwrite, rfl⟩

/-- The gates of a circuit are the statements of the block. -/
theorem ends_importGates {gates : List BristolGate} (h : st.Holds world σ inputs wires)
    (hexec : gates.foldlM (fun wires gate => gate.exec wires) wires = some wires') :
    Ends (Overflow (st.size + (gates.map BristolGate.cost).sum))
      (gates.foldlM (importGate inputs.length) st) fun st' =>
        st'.Holds world σ inputs wires' ∧
          st'.size = st.size + (gates.map BristolGate.cost).sum := by
  induction gates generalizing st wires with
  | nil =>
      obtain rfl := Option.some.inj hexec
      exact ⟨h, rfl⟩
  | cons gate gates ih =>
      rw [List.foldlM_cons] at hexec
      obtain ⟨next, hnext, hexec⟩ := Option.bind_eq_some_iff.mp hexec
      rw [List.foldlM_cons, List.map_cons, List.sum_cons]
      apply (ends_weaken (ends_importGate h hnext) fun e he => he.mono (by omega)).bind
      rintro st' ⟨hholds, hsize⟩
      apply (ends_weaken (ih hholds hexec) fun e he => he.mono (by omega)).mono
      rintro last ⟨hlast, hsize'⟩
      exact ⟨hlast, by omega⟩

theorem exists_values (h : st.Holds world σ inputs wires) {ws : List ℕ} {bits : List Bool}
    (hbits : readAll wires ws = some bits) :
    ∃ vs, ws.mapM (fun w => currentValue w inputs.length st.currentValues) = .ok vs ∧
      vs.map (fun v => (look (st.frame world σ inputs).vals v).bit) = bits := by
  induction ws generalizing bits with
  | nil =>
      obtain rfl := Option.some.inj hbits
      exact ⟨[], rfl, rfl⟩
  | cons w ws ih =>
      obtain ⟨x, rest, rfl, hx, hrest⟩ := readAll_cons_eq_some hbits
      obtain ⟨v, hv, hbit⟩ := h.value _ _ hx
      obtain ⟨vs, hvs, hmap⟩ := ih hrest
      refine ⟨v :: vs, ?_, by rw [List.map_cons, hbit.2, hmap]⟩
      rw [List.mapM_cons, hv, hvs]
      rfl

theorem holds_init {wireCount : ℕ} (hle : inputs.length ≤ u32Max) :
    ImportState.Holds world σ inputs ⟨inputs.length, [], fun _ => none⟩
      (init inputs wireCount) where
  params := rfl
  fits := Nat.le_succ_of_le hle
  calm := rfl
  value := by
    intro w b hw
    rw [read_init] at hw
    have hlt := (List.getElem?_eq_some_iff.mp hw).choose
    refine ⟨w, ?_, hlt, ?_⟩
    · rw [currentValue]
      dsimp only
      rw [if_pos hlt, toVarId, if_pos (by omega)]
    · change (look (paramValues inputs) w).bit = b
      rw [look_paramValues, List.getD_eq_getElem?_getD, hw]
      rfl

end

def BristolCircuit.size (circuit : BristolCircuit) : ℕ :=
  circuit.inputCount + (circuit.gates.map BristolGate.cost).sum

/-- The error of an import that needs more ids than there are. -/
def TooLarge (circuit : BristolCircuit) (e : Fault InteropError) : Prop :=
  e = .error .varSpaceOverflow ∧ (u32Max < circuit.inputCount ∨ u32Max + 1 < circuit.size)

theorem sumGroups_eq_ok {groups : List ℕ} (h : groups.sum ≤ usizeMax) :
    sumGroups groups = .ok groups.sum := by
  rw [sumGroups, checkedSum_eq_some.mpr ⟨rfl, h⟩]

/-- The imported block returns the outputs of the circuit. -/
theorem ends_importCircuit {circuit : BristolCircuit} {world : Externals} {σ : EvalState}
    {inputs outs : List Bool} {wires : List (Option Bool)} (h : circuit.Runs)
    (hinputs : inputs.length = circuit.inputCount)
    (hcapacity : circuit.inputCount ≤ u32Max → circuit.outputCount * 4 ≤ isizeMax)
    (hexec : circuit.exec inputs = some wires) (houts : circuit.outputs wires = some outs) :
    Ends (TooLarge circuit) (importCircuit circuit) fun r =>
      r.2 = ⟨circuit.inputGroups, circuit.outputGroups⟩ ∧ circuit.size ≤ u32Max + 1 ∧
        ∀ n, runBlocks world r.1 (n + 1) (.running 0 inputs σ) = .returned outs σ := by
  have hin : circuit.inputGroups.sum = circuit.inputCount := rfl
  have hout : circuit.outputGroups.sum = circuit.outputCount := rfl
  have hsub : circuit.wireCount - (circuit.wireCount - circuit.outputCount)
      = circuit.outputCount := Nat.sub_sub_self h.outputs_le
  unfold importCircuit
  rw [sumGroups_eq_ok (h.inputs_le.trans h.wires_le), ok_bind,
    sumGroups_eq_ok (h.outputs_le.trans h.wires_le), ok_bind, hin, hout]
  by_cases hle : circuit.inputCount ≤ u32Max
  case neg =>
    rw [toVarId, if_neg hle]
    exact ⟨rfl, .inl (not_le.mp hle)⟩
  case pos =>
    rw [toVarId, if_pos hle, ok_bind, ← hinputs]
    have hstart : ImportState.Holds world σ inputs ⟨inputs.length, [], fun _ => none⟩
        (init inputs circuit.wireCount) := holds_init (hinputs ▸ hle)
    have hsize : ImportState.size ⟨inputs.length, [], fun _ => none⟩
        + (circuit.gates.map BristolGate.cost).sum = circuit.size :=
      congrArg (· + (circuit.gates.map BristolGate.cost).sum) hinputs
    have hgates := ends_importGates hstart hexec
    rw [hsize] at hgates
    apply (ends_weaken hgates fun e he => ⟨he.1, .inr he.2⟩).bind
    rintro st ⟨hholds, hst⟩
    have hvalues := exists_values hholds houts
    obtain ⟨vs, hvs, hmap⟩ := hvalues
    rw [uncheckedSub, if_pos h.outputs_le, ok_bind, withCapacity, if_pos (hcapacity hle), ok_bind,
      hsub, hvs, ok_bind]
    refine ⟨rfl, hst ▸ hholds.fits, ?_⟩
    intro n
    have hblock : evalBlock world (⟨st.params, st.stmts, .jmp ⟨.ret, vs⟩⟩ : BIrBlock Unit) inputs σ
        = some (.ret outs, σ) := by
      rw [evalBlock, if_pos hholds.params.symm]
      have hcalm := hholds.calm
      rw [ImportState.frame] at hcalm hmap
      simp only [BIrBlock.kinds, evalTerminator, resolveTarget, Option.map_some, hmap, hcalm]
    rw [runBlocks, stepBlock]
    simp only [List.getElem?_cons_zero, hblock]
    exact runBlocks_returned _ _ _ _ _

end VolarIR.Interop
