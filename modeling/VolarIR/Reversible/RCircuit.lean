import VolarIR.Boolar.Eval
import VolarIR.Library.Toggle
import Mathlib.Data.Finset.Basic

/-!
# Reversible circuits

`volar-ir/src/rcircuit.rs`: gates over a fixed wire vector and a storage map,
their validation, evaluation and inversion. The wire vector and the storage map
are read through `view` and `StorageMap.read`; on that reading every validated
gate is an involution (`RGate.act_involutive`), and the faithful evaluator is the
run of those actions (`applyGates_view`).
-/
namespace VolarIR.Rev
open Boolar Words BitStore

inductive RExternalKind where
  | oracle
  | rng
  deriving DecidableEq, Repr

/-- One reversible gate; wires are positions in the enclosing circuit. -/
inductive RGate where
  | x (w : ℕ)
  | cnot (ctrl target : ℕ)
  | ccnot (c1 c2 target : ℕ)
  | storageSwap (storage : StorageId) (lane : LaneId) (addr : List ℕ) (target : ℕ)
  | xorLut2 (control0 control1 target : ℕ) (table : BitVec 8)
  | externalXor (kind : RExternalKind) (name : String) (args : List ℕ) (target : ℕ)
      (bit occurrence : ℕ)
  | externalStorageXor (name : String) (guard : ℕ) (args : List ℕ) (fallback : ℕ)
      (storage : StorageId) (lane : LaneId) (addr : List ℕ) (bit occurrence : ℕ)
  deriving DecidableEq, Repr

inductive RCircuitError where
  | indexOutOfRange (gate wire : ℕ)
  | targetAliased (gate wire : ℕ)
  | controlAliased (gate wire : ℕ)
  | invalidTruthTable (gate : ℕ) (table : BitVec 8)
  | wireCountMismatch (lhs rhs : ℕ)
  | storageOpsUnsupported
  | externalOpsUnsupported
  deriving DecidableEq, Repr

structure Registry where
  oracleBit : String → List Bool → ℕ → ℕ → Bool
  rngBit : String → ℕ → ℕ → Bool
  actionBit : String → List Bool → ℕ → ℕ → Bool

structure RCircuit where
  numWires : ℕ
  gates : List RGate
  deriving DecidableEq, Repr

/-- `if bad { return Err(e) }`. -/
def reject (bad : Prop) [Decidable bad] (e : RCircuitError) : Except RCircuitError Unit :=
  if bad then .error e else .ok ()

/-- `check`: is the wire inside the circuit? -/
def checkWire (n i w : ℕ) : Except RCircuitError Unit :=
  if w < n then .ok () else .error (.indexOutOfRange i w)

/-- The loop over address or argument wires: in range, and not the target. -/
def checkApart (n i target : ℕ) : List ℕ → Except RCircuitError Unit
  | [] => .ok ()
  | w :: ws => do
      checkWire n i w
      reject (w = target) (.targetAliased i w)
      checkApart n i target ws

/-- The loop over wires that only have to be in range. -/
def checkWires (n i : ℕ) : List ℕ → Except RCircuitError Unit
  | [] => .ok ()
  | w :: ws => do
      checkWire n i w
      checkWires n i ws

/-- `validate_gate_at`. -/
def validateGateAt (n i : ℕ) : RGate → Except RCircuitError Unit
  | .x w => checkWire n i w
  | .cnot ctrl target => do
      checkWire n i ctrl
      checkWire n i target
      reject (ctrl = target) (.targetAliased i ctrl)
  | .ccnot c1 c2 target => do
      checkWire n i c1
      checkWire n i c2
      checkWire n i target
      reject (target = c1 ∨ target = c2) (.targetAliased i target)
  | .xorLut2 c0 c1 target table => do
      checkWire n i c0
      checkWire n i c1
      checkWire n i target
      reject (target = c0 ∨ target = c1) (.targetAliased i target)
      reject (c0 = c1) (.controlAliased i c0)
      reject (table &&& ~~~0x0f#8 ≠ 0#8) (.invalidTruthTable i table)
  | .storageSwap _ _ addr target => do
      checkWire n i target
      checkApart n i target addr
  | .externalXor _ _ args target _ _ => do
      checkWire n i target
      checkApart n i target args
  | .externalStorageXor _ guard args fallback _ _ addr _ _ => do
      checkWire n i guard
      checkWire n i fallback
      checkWires n i (args ++ addr)

def validateFrom (n : ℕ) : ℕ → List RGate → Except RCircuitError Unit
  | _, [] => .ok ()
  | i, g :: gs => do
      validateGateAt n i g
      validateFrom n (i + 1) gs

/-- `RCircuit::validate`. -/
def RCircuit.validate (c : RCircuit) : Except RCircuitError Unit :=
  validateFrom c.numWires 0 c.gates

/-- `RCircuit::new`. -/
def RCircuit.new (numWires : ℕ) (gates : List RGate) : Except RCircuitError RCircuit := do
  let c : RCircuit := ⟨numWires, gates⟩
  c.validate
  return c

/-- What validation establishes of one gate. -/
def RGate.Valid (n : ℕ) : RGate → Prop
  | .x w => w < n
  | .cnot ctrl target => ctrl < n ∧ target < n ∧ ctrl ≠ target
  | .ccnot c1 c2 target => c1 < n ∧ c2 < n ∧ target < n ∧ target ≠ c1 ∧ target ≠ c2
  | .xorLut2 c0 c1 target table =>
      c0 < n ∧ c1 < n ∧ target < n ∧ target ≠ c0 ∧ target ≠ c1 ∧ c0 ≠ c1 ∧
        table &&& ~~~0x0f#8 = 0#8
  | .storageSwap _ _ addr target => target < n ∧ ∀ w ∈ addr, w < n ∧ w ≠ target
  | .externalXor _ _ args target _ _ => target < n ∧ ∀ w ∈ args, w < n ∧ w ≠ target
  | .externalStorageXor _ guard args fallback _ _ addr _ _ =>
      guard < n ∧ fallback < n ∧ ∀ w ∈ args ++ addr, w < n

section Validate
variable {n i : ℕ}

theorem bind_ok {e f : Except RCircuitError Unit} :
    (e >>= fun _ => f) = .ok () ↔ e = .ok () ∧ f = .ok () := by
  cases e <;> simp [bind, Except.bind]

theorem reject_ok {p : Prop} [Decidable p] {e : RCircuitError} :
    reject p e = .ok () ↔ ¬p := by
  unfold reject
  split_ifs with h <;> simp [h]

theorem checkWire_ok {w : ℕ} : checkWire n i w = .ok () ↔ w < n := by
  unfold checkWire
  split_ifs with h <;> simp [h]

theorem checkWires_ok {ws : List ℕ} : checkWires n i ws = .ok () ↔ ∀ w ∈ ws, w < n := by
  induction ws with
  | nil => simp [checkWires]
  | cons w ws ih => simp only [checkWires, bind_ok, checkWire_ok, ih, List.forall_mem_cons]

theorem checkApart_ok {target : ℕ} {ws : List ℕ} :
    checkApart n i target ws = .ok () ↔ ∀ w ∈ ws, w < n ∧ w ≠ target := by
  induction ws with
  | nil => simp [checkApart]
  | cons w ws ih =>
      simp only [checkApart, bind_ok, checkWire_ok, reject_ok, ih, List.forall_mem_cons, and_assoc]

theorem validateGateAt_ok {g : RGate} : validateGateAt n i g = .ok () ↔ g.Valid n := by
  cases g <;>
    simp only [validateGateAt, RGate.Valid, bind_ok, reject_ok, checkWire_ok, checkApart_ok,
      checkWires_ok, not_or, ne_eq, not_not, and_assoc]

end Validate

theorem validateFrom_ok {n i : ℕ} {gs : List RGate} :
    validateFrom n i gs = .ok () ↔ ∀ g ∈ gs, g.Valid n := by
  induction gs generalizing i with
  | nil => simp [validateFrom]
  | cons g gs ih =>
      simp only [validateFrom, List.forall_mem_cons, bind_ok, validateGateAt_ok, ih]

/-- A circuit `RCircuit::new` accepts is the one it was given, with valid gates. -/
theorem RCircuit.new_ok {n : ℕ} {gs : List RGate} {c : RCircuit} :
    RCircuit.new n gs = .ok c ↔ c = ⟨n, gs⟩ ∧ ∀ g ∈ gs, g.Valid n := by
  unfold RCircuit.new RCircuit.validate
  rw [← validateFrom_ok (i := 0)]
  cases h : validateFrom n 0 gs <;>
    simp [h, bind, Except.bind, pure, Except.pure, eq_comm]

/-- `wires[w]`, for a wire inside the vector. -/
def readWire (ws : List Bool) (w : ℕ) : Bool := ws.getD w false

/-- `wires[t] ^= b`. -/
def xorWire (ws : List Bool) (t : ℕ) (b : Bool) : List Bool := ws.set t (readWire ws t ^^ b)

/-- The bit of a lookup table at the two control bits, `00` first. -/
def lutBit (table : BitVec 8) (a b : Bool) : Bool :=
  let input := 2 * a.toNat ||| b.toNat
  ((table >>> (3 - input)) &&& 1#8) == 1#8

/-- One gate of the evaluation loop. -/
def applyGate (reg : Registry) (ws : List Bool) (m : StorageMap) :
    RGate → List Bool × StorageMap
  | .x w => (ws.set w (!readWire ws w), m)
  | .cnot ctrl target => (xorWire ws target (readWire ws ctrl), m)
  | .ccnot c1 c2 target => (xorWire ws target (readWire ws c1 && readWire ws c2), m)
  | .xorLut2 c0 c1 target table =>
      (xorWire ws target (lutBit table (readWire ws c0) (readWire ws c1)), m)
  | .storageSwap storage lane addr target =>
      let cell : Cell := ((storage, lane), addr.map (readWire ws))
      let stored := (m cell).getD false
      (ws.set target stored, (m.remove cell).insert cell (readWire ws target))
  | .externalXor kind name args target bit occ =>
      let args := args.map (readWire ws)
      let value := match kind with
        | .oracle => reg.oracleBit name args bit occ
        | .rng => reg.rngBit name bit occ
      (xorWire ws target value, m)
  | .externalStorageXor name guard args fallback storage lane addr bit occ =>
      let value := if readWire ws guard then reg.actionBit name (args.map (readWire ws)) bit occ
        else readWire ws fallback
      let cell : Cell := ((storage, lane), addr.map (readWire ws))
      let next := (m cell).getD false ^^ value
      -- a cleared cell is removed, so that inverse replay restores the sparse map too
      (ws, if next then m.insert cell true else m.remove cell)

def applyGates (reg : Registry) (gs : List RGate) (s : List Bool × StorageMap) :
    List Bool × StorageMap :=
  gs.foldl (fun s g => applyGate reg s.1 s.2 g) s

/-- `apply_with_externals`; `none` is the length assertion failing. -/
def RCircuit.applyWithExternals (c : RCircuit) (reg : Registry) (ws : List Bool)
    (m : StorageMap) : Option (List Bool × StorageMap) :=
  if ws.length = c.numWires then some (applyGates reg c.gates (ws, m)) else none

def RGate.usesStorage : RGate → Bool
  | .storageSwap .. | .externalStorageXor .. => true
  | _ => false

def RGate.usesExternals : RGate → Bool
  | .externalXor .. | .externalStorageXor .. => true
  | _ => false

def RCircuit.usesStorage (c : RCircuit) : Bool := c.gates.any RGate.usesStorage

def RCircuit.usesExternals (c : RCircuit) : Bool := c.gates.any RGate.usesExternals

/-- The registry `apply` runs with; its assertion keeps it from being asked. -/
def Registry.unused : Registry := ⟨fun _ _ _ _ => false, fun _ _ _ => false, fun _ _ _ _ => false⟩

/-- `apply`; `none` is a failed assertion. -/
def RCircuit.apply (c : RCircuit) (ws : List Bool) (m : StorageMap) :
    Option (List Bool × StorageMap) :=
  if c.usesExternals then none else c.applyWithExternals .unused ws m

/-- `apply_pure`: the outer error is the returned one, the inner `none` a panic. -/
def RCircuit.applyPure (c : RCircuit)
    (ws : List Bool) : Except RCircuitError (Option (List Bool)) :=
  if c.usesExternals then .error .externalOpsUnsupported
  else if c.usesStorage then .error .storageOpsUnsupported
  else .ok ((c.apply ws .empty).map Prod.fst)

/-- `inverse`: every gate is its own inverse, so reverse the list. -/
def RCircuit.inverse (c : RCircuit) : RCircuit := ⟨c.numWires, c.gates.reverse⟩

structure RState where
  wires : ℕ → Bool
  cells : Cell → Bool

@[ext] theorem RState.ext {s t : RState} (hw : s.wires = t.wires) (hc : s.cells = t.cells) :
    s = t := by
  cases s
  cases t
  simp_all

def RState.cell (s : RState) (storage : StorageId) (lane : LaneId) (addr : List ℕ) : Cell :=
  ((storage, lane), addr.map s.wires)

/-- The same gate on the functions. -/
def RGate.act (reg : Registry) (g : RGate) (s : RState) : RState :=
  match g with
  | .x w => { s with wires := toggle w true s.wires }
  | .cnot ctrl target => { s with wires := toggle target (s.wires ctrl) s.wires }
  | .ccnot c1 c2 target => { s with wires := toggle target (s.wires c1 && s.wires c2) s.wires }
  | .xorLut2 c0 c1 target table =>
      { s with wires := toggle target (lutBit table (s.wires c0) (s.wires c1)) s.wires }
  | .storageSwap storage lane addr target =>
      ⟨Function.update s.wires target (s.cells (s.cell storage lane addr)),
        Function.update s.cells (s.cell storage lane addr) (s.wires target)⟩
  | .externalXor kind name args target bit occ =>
      let value := match kind with
        | .oracle => reg.oracleBit name (args.map s.wires) bit occ
        | .rng => reg.rngBit name bit occ
      { s with wires := toggle target value s.wires }
  | .externalStorageXor name guard args fallback storage lane addr bit occ =>
      let value := if s.wires guard then reg.actionBit name (args.map s.wires) bit occ
        else s.wires fallback
      { s with cells := toggle (s.cell storage lane addr) value s.cells }

def view (s : List Bool × StorageMap) : RState := ⟨readWire s.1, s.2.read⟩

theorem readWire_set {ws : List Bool} {t : ℕ} (h : t < ws.length) (b : Bool) :
    readWire (ws.set t b) = Function.update (readWire ws) t b := by
  funext i
  by_cases hi : i = t
  · subst hi
    simp [readWire, h]
  · simp [readWire, Function.update_of_ne hi, List.getElem?_set_ne (Ne.symm hi)]

theorem readWire_xorWire {ws : List Bool} {t : ℕ} (h : t < ws.length) (b : Bool) :
    readWire (xorWire ws t b) = toggle t b (readWire ws) := readWire_set h _

@[simp] theorem applyGate_length (reg : Registry) (ws : List Bool) (m : StorageMap) (g : RGate) :
    (applyGate reg ws m g).1.length = ws.length := by
  cases g <;> simp [applyGate, xorWire]

/-- Writing `true` or removing the cell is a toggle of its value. -/
theorem read_toggleCell (m : StorageMap) (c : Cell) (b : Bool) :
    (if (m c).getD false ^^ b then m.insert c true else m.remove c).read = toggle c b m.read := by
  have hc : m.read c = (m c).getD false := rfl
  unfold toggle
  rw [hc]
  cases (m c).getD false ^^ b <;> simp [StorageMap.read_insert, StorageMap.read_remove]

theorem applyGate_view {reg : Registry} {ws : List Bool} {m : StorageMap} {g : RGate}
    (h : g.Valid ws.length) : view (applyGate reg ws m g) = g.act reg (view (ws, m)) := by
  cases g with
  | x w =>
      apply RState.ext
      · simp only [view, applyGate, RGate.act]
        rw [readWire_set h]
        simp [toggle]
      · rfl
  | cnot ctrl target => exact RState.ext (readWire_xorWire h.2.1 _) rfl
  | ccnot c1 c2 target => exact RState.ext (readWire_xorWire h.2.2.1 _) rfl
  | xorLut2 c0 c1 target table => exact RState.ext (readWire_xorWire h.2.2.1 _) rfl
  | storageSwap storage lane addr target =>
      apply RState.ext
      · exact readWire_set h.1 _
      · simp only [view, applyGate, RGate.act, StorageMap.read_insert, StorageMap.read_remove,
          Function.update_idem]
        rfl
  | externalXor kind name args target bit occ => exact RState.ext (readWire_xorWire h.1 _) rfl
  | externalStorageXor name guard args fallback storage lane addr bit occ =>
      apply RState.ext
      · rfl
      · simp only [view, applyGate, RGate.act]
        exact read_toggleCell ..

theorem applyGates_view (reg : Registry) {gs : List RGate} {s : List Bool × StorageMap}
    (h : ∀ g ∈ gs, g.Valid s.1.length) :
    (applyGates reg gs s).1.length = s.1.length ∧
      view (applyGates reg gs s) = run (RGate.act reg) gs (view s) := by
  induction gs generalizing s with
  | nil => exact ⟨rfl, rfl⟩
  | cons g gs ih =>
      have hl : (applyGate reg s.1 s.2 g).1.length = s.1.length := applyGate_length ..
      obtain ⟨h₁, h₂⟩ := ih (s := applyGate reg s.1 s.2 g) (fun a ha => by
        rw [hl]
        exact h a (List.mem_cons_of_mem g ha))
      refine ⟨h₁.trans hl, ?_⟩
      rw [run_cons, ← applyGate_view (h g List.mem_cons_self)]
      exact h₂

theorem eq_of_readWire {ws vs : List Bool} (hl : ws.length = vs.length)
    (h : ∀ i < ws.length, readWire ws i = readWire vs i) : ws = vs := by
  apply List.ext_getElem hl
  intro i h₁ h₂
  simpa [readWire, h₁, h₂] using h i h₁

theorem RGate.act_involutive {n : ℕ} {g : RGate} (h : g.Valid n) (reg : Registry) :
    Function.Involutive (g.act reg) := by
  -- a list of wires away from the target reads the same after the target changed
  have apart : ∀ {ws : List ℕ} {t : ℕ} (f f' : ℕ → Bool), (∀ w ∈ ws, w < n ∧ w ≠ t) →
      (∀ w, w ≠ t → f' w = f w) → ws.map f' = ws.map f := fun f f' hw hf =>
    List.map_congr_left fun w hm => hf w (hw w hm).2
  intro s
  cases g with
  | x w => simp [act]
  | cnot ctrl target => simp [act, h.2.2]
  | ccnot c1 c2 target =>
      simp [act, Ne.symm h.2.2.2.1, Ne.symm h.2.2.2.2]
  | xorLut2 c0 c1 target table =>
      simp [act, Ne.symm h.2.2.2.1, Ne.symm h.2.2.2.2.1]
  | storageSwap storage lane addr target =>
      have hc : ∀ b cs, RState.cell ⟨Function.update s.wires target b, cs⟩ storage lane addr =
          s.cell storage lane addr := fun b cs => by
        simp only [RState.cell]
        rw [apart s.wires _ h.2 fun w hw => Function.update_of_ne hw ..]
      simp only [act, hc]
      apply RState.ext <;> simp
  | externalXor kind name args target bit occ =>
      have ha : ∀ b, args.map (toggle target b s.wires) = args.map s.wires := fun b =>
        apart _ _ h.2 fun w hw => toggle_of_ne hw ..
      cases kind <;> simp [act, ha]
  | externalStorageXor name guard args fallback storage lane addr bit occ =>
      exact RState.ext rfl (toggle_toggle _ _ s.cells)

def RCircuit.Valid (c : RCircuit) : Prop := ∀ g ∈ c.gates, g.Valid c.numWires

@[simp] theorem RCircuit.inverse_inverse (c : RCircuit) : c.inverse.inverse = c := by
  simp [inverse]

theorem RCircuit.Valid.inverse {c : RCircuit} (h : c.Valid) : c.inverse.Valid := fun g hg =>
  h g (List.mem_reverse.mp hg)

theorem RCircuit.Valid.applyWithExternals {c : RCircuit} (h : c.Valid) (reg : Registry)
    {ws : List Bool} (hl : ws.length = c.numWires) (m : StorageMap) :
    ∃ s, c.applyWithExternals reg ws m = some s ∧ s.1.length = c.numWires ∧
      view s = run (RGate.act reg) c.gates (view (ws, m)) := by
  have hv : ∀ g ∈ c.gates, g.Valid (ws, m).1.length := fun g hg => hl ▸ h g hg
  obtain ⟨h₁, h₂⟩ := applyGates_view reg hv
  exact ⟨_, if_pos hl, h₁.trans hl, h₂⟩

theorem RCircuit.Valid.inverse_undoes {c : RCircuit} (h : c.Valid) (reg : Registry)
    {ws : List Bool} (hl : ws.length = c.numWires) (m : StorageMap) :
    ∃ s t, c.applyWithExternals reg ws m = some s ∧
      c.inverse.applyWithExternals reg s.1 s.2 = some t ∧
      t.1 = ws ∧ ∀ cell, t.2.read cell = m.read cell := by
  obtain ⟨s, hs, hsl, hsv⟩ := h.applyWithExternals reg hl m
  obtain ⟨t, ht, htl, htv⟩ := h.inverse.applyWithExternals reg hsl s.2
  refine ⟨s, t, hs, ht, ?_⟩
  have hundo : view t = view (ws, m) := by
    rw [htv, show view (s.1, s.2) = view s from rfl, hsv]
    exact run_reverse_run (fun g hg => RGate.act_involutive (h g hg) reg) _
  constructor
  · apply eq_of_readWire (htl.trans hl.symm)
    intro i _
    exact congrFun (congrArg RState.wires hundo) i
  · exact congrFun (congrArg RState.cells hundo)

/-- Every circuit the constructor accepts is a reversible map, and `inverse`
undoes it on either side. -/
theorem inverse_restores {n : ℕ} {gs : List RGate} {c : RCircuit}
    (hc : RCircuit.new n gs = .ok c) (reg : Registry) (ws : List Bool) (m : StorageMap)
    (hl : ws.length = c.numWires) :
    (∃ s t, c.applyWithExternals reg ws m = some s ∧
        c.inverse.applyWithExternals reg s.1 s.2 = some t ∧
        t.1 = ws ∧ ∀ cell, t.2.read cell = m.read cell) ∧
      ∃ s t, c.inverse.applyWithExternals reg ws m = some s ∧
        c.applyWithExternals reg s.1 s.2 = some t ∧
        t.1 = ws ∧ ∀ cell, t.2.read cell = m.read cell := by
  obtain ⟨rfl, hv⟩ := RCircuit.new_ok.mp hc
  have h : (RCircuit.mk n gs).Valid := hv
  refine ⟨h.inverse_undoes reg hl m, ?_⟩
  simpa using h.inverse.inverse_undoes reg hl m

/-- A circuit that exchanges a wire with a cell and then acts on that cell. -/
theorem inverse_restores_swap :
    let gs : List RGate := [.storageSwap ⟨0⟩ ⟨0⟩ [0] 1, .ccnot 0 1 2,
      .externalStorageXor "act" 2 [0, 1] 3 ⟨0⟩ ⟨0⟩ [1] 0 7]
    let c : RCircuit := ⟨4, gs⟩
    let ws := [true, false, true, true]
    (∃ s t, c.applyWithExternals .unused ws .empty = some s ∧
        c.inverse.applyWithExternals .unused s.1 s.2 = some t ∧
        t.1 = ws ∧ ∀ cell, t.2.read cell = StorageMap.empty.read cell) ∧
      ∃ s t, c.inverse.applyWithExternals .unused ws .empty = some s ∧
        c.applyWithExternals .unused s.1 s.2 = some t ∧
        t.1 = ws ∧ ∀ cell, t.2.read cell = StorageMap.empty.read cell := by
  intro gs c ws
  have hc : RCircuit.new 4 gs = .ok c := rfl
  exact inverse_restores hc .unused ws .empty rfl

/-! ## The ancilla pool

`rcircuit/ancilla.rs`: a free list over the wires from `base` up. The facts its debug
assertions rely on are fields, so a pool that would trip one cannot be built. -/

structure AncillaPool where
  base : ℕ
  nextFresh : ℕ
  /-- Restored wires, the most recently released first. -/
  free : List ℕ
  live : Finset ℕ
  base_le : base ≤ nextFresh
  free_nodup : free.Nodup
  free_range : ∀ w ∈ free, base ≤ w ∧ w < nextFresh ∧ w ∉ live
  live_range : ∀ w ∈ live, base ≤ w ∧ w < nextFresh

namespace AncillaPool

/-- `AncillaPool::new`. -/
def new (base : ℕ) : AncillaPool where
  base := base
  nextFresh := base
  free := []
  live := ∅
  base_le := le_rfl
  free_nodup := List.nodup_nil
  free_range := by simp
  live_range := by simp

/-- `acquire`: the most recently released wire, else a fresh one. -/
def acquire (p : AncillaPool) : ℕ × AncillaPool :=
  match hf : p.free with
  | w :: rest =>
      (w, { p with
        free := rest
        live := insert w p.live
        free_nodup := (List.nodup_cons.mp (hf ▸ p.free_nodup)).2
        free_range := fun v hv => by
          have h := p.free_range v (hf ▸ List.mem_cons_of_mem w hv)
          have hw : v ≠ w := fun e =>
            (List.nodup_cons.mp (hf ▸ p.free_nodup)).1 (e ▸ hv)
          exact ⟨h.1, h.2.1, by simp [hw, h.2.2]⟩
        live_range := fun v hv => by
          rcases Finset.mem_insert.mp hv with rfl | h
          · have h := p.free_range v (hf ▸ List.mem_cons_self)
            exact ⟨h.1, h.2.1⟩
          · exact p.live_range v h })
  | [] =>
      (p.nextFresh, { p with
        nextFresh := p.nextFresh + 1
        live := insert p.nextFresh p.live
        base_le := Nat.le_succ_of_le p.base_le
        free_range := by simp [hf]
        live_range := fun v hv => by
          have hb := p.base_le
          rcases Finset.mem_insert.mp hv with rfl | h
          · omega
          · have h := p.live_range v h
            omega })

/-- `release`; `none` is its assertion failing. -/
def release (p : AncillaPool) (w : ℕ) : Option AncillaPool :=
  if h : p.base ≤ w ∧ w < p.nextFresh ∧ w ∈ p.live then
    some { p with
      free := w :: p.free
      live := p.live.erase w
      free_nodup := List.nodup_cons.mpr
        ⟨fun hm => (p.free_range w hm).2.2 h.2.2, p.free_nodup⟩
      free_range := fun v hv => by
        rcases List.mem_cons.mp hv with rfl | hm
        · exact ⟨h.1, h.2.1, by simp⟩
        · have h := p.free_range v hm
          exact ⟨h.1, h.2.1, fun hl => h.2.2 (Finset.mem_of_mem_erase hl)⟩
      live_range := fun v hv => p.live_range v (Finset.mem_of_mem_erase hv) }
  else none

/-- `peak_allocated`. -/
def peakAllocated (p : AncillaPool) : ℕ := p.nextFresh - p.base

def Idle (p : AncillaPool) (w : ℕ) : Prop := w ∈ p.free ∨ p.nextFresh ≤ w

@[simp] theorem acquire_base (p : AncillaPool) : p.acquire.2.base = p.base := by
  unfold acquire
  split <;> rfl

theorem acquire_nextFresh_le (p : AncillaPool) : p.nextFresh ≤ p.acquire.2.nextFresh := by
  unfold acquire
  split
  · exact le_rfl
  · exact Nat.le_succ _

theorem acquire_wire (p : AncillaPool) :
    p.Idle p.acquire.1 ∧ p.acquire.1 ∈ p.acquire.2.live ∧
      p.base ≤ p.acquire.1 ∧ p.acquire.1 < p.acquire.2.nextFresh := by
  have hb := p.base_le
  unfold acquire Idle
  split
  · rename_i w rest hf
    have hw : w ∈ p.free := by simp [hf]
    have h := p.free_range w hw
    exact ⟨.inl hw, Finset.mem_insert_self .., h.1, h.2.1⟩
  · exact ⟨.inr le_rfl, Finset.mem_insert_self .., hb, Nat.lt_succ_self _⟩

theorem acquire_idle (p : AncillaPool) (w : ℕ) :
    p.acquire.2.Idle w ↔ p.Idle w ∧ w ≠ p.acquire.1 := by
  unfold acquire Idle
  split
  · rename_i v rest hf
    have hn := List.nodup_cons.mp (hf ▸ p.free_nodup)
    have hr := p.free_range v (hf ▸ List.mem_cons_self)
    simp only [hf, List.mem_cons]
    constructor
    · rintro (h | h)
      · exact ⟨.inl (.inr h), fun e => hn.1 (e ▸ h)⟩
      · exact ⟨.inr h, by omega⟩
    · rintro ⟨(h | h) | h, hne⟩
      · exact (hne h).elim
      · exact .inl h
      · exact .inr h
  · rename_i hf
    simp only [hf, List.not_mem_nil, false_or]
    omega

theorem live_mono_acquire (p : AncillaPool) {w : ℕ} (h : w ∈ p.live) :
    w ∈ p.acquire.2.live := by
  unfold acquire
  split <;> exact Finset.mem_insert_of_mem h

theorem release_of_live {p : AncillaPool} {w : ℕ} (h : w ∈ p.live) :
    ∃ q, p.release w = some q ∧ q.base = p.base ∧ q.nextFresh = p.nextFresh ∧
      q.live = p.live.erase w ∧ ∀ v, q.Idle v ↔ p.Idle v ∨ v = w := by
  have hr := p.live_range w h
  refine ⟨_, dif_pos ⟨hr.1, hr.2, h⟩, rfl, rfl, rfl, fun v => ?_⟩
  simp only [Idle, List.mem_cons]
  tauto

theorem base_le_of_idle {p : AncillaPool} {w : ℕ} (h : p.Idle w) : p.base ≤ w := by
  rcases h with h | h
  · exact (p.free_range w h).1
  · exact p.base_le.trans h

end AncillaPool
end VolarIR.Rev
