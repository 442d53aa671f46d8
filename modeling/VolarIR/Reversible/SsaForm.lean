import VolarIR.Reversible.FromReversible
import VolarIR.Library.Fallible

/-!
# The SSA form of a reversible circuit

Wires become names: at every point of the gate loop each wire has a current var whose
value is the wire's, and the storage agrees with the cells (`Names`). Emitting a
statement keeps every value already named (`emit_ends`); a gate rebinds its target.
The only failure left to a valid circuit is running out of var ids.
-/
namespace VolarIR.Rev
open Boolar Words BitStore Fallible

/-- The externals a registry stands for: calls are answered by name, arguments and bit. -/
def Registry.externals (reg : Registry) : Externals where
  oracleCall name args bit := reg.oracleBit name args bit 0
  oracleBit := reg.oracleBit
  effect _ call bit :=
    match call with
    | .actionCall name args _ => reg.actionBit name args bit 0
    | .actionBit name args _ occ => reg.actionBit name args bit occ
    | .rngBit name _ occ => reg.rngBit name bit occ
    | .rng name => reg.rngBit name bit 0
    | .oracleCall .. | .oracleBit .. => false

def Registry.IgnoresOccurrence (reg : Registry) : Prop :=
  (∀ name args bit o o', reg.oracleBit name args bit o = reg.oracleBit name args bit o') ∧
    (∀ name bit o o', reg.rngBit name bit o = reg.rngBit name bit o') ∧
    ∀ name args bit o o', reg.actionBit name args bit o = reg.actionBit name args bit o'

def Exhausted (e : Fault CircuitTransformError) : Prop := e = .error .varSpaceExhausted

section
variable (world : Externals) (inputs : List Bool) (σ₀ : EvalState)

namespace BoolarBuilder

def frame (b : BoolarBuilder) : Frame := b.circuit.evalFrame world inputs σ₀

def val (b : BoolarBuilder) (v : ℕ) : Value := look (b.frame world inputs σ₀).vals v

def nameOf (b : BoolarBuilder) (w : ℕ) : ℕ := b.wires.getD w 0

/-- The circuit is in SSA order, fits the var space, and takes `inputs`. -/
structure Ok (b : BoolarBuilder) : Prop where
  params : inputs.length = b.circuit.params
  fits : b.circuit.varSpace ≤ u32Max
  ssa : Defined b.circuit.params b.circuit.kinds

/-- `b'` has emitted more than `b`, under the same names. -/
structure Extends (b b' : BoolarBuilder) : Prop where
  params : b'.circuit.params = b.circuit.params
  wires : b'.wires = b.wires
  varSpace : b.circuit.varSpace ≤ b'.circuit.varSpace
  val : ∀ v < b.circuit.varSpace, b'.val world inputs σ₀ v = b.val world inputs σ₀ v

variable {world inputs σ₀} {b b' b'' : BoolarBuilder}

theorem Extends.refl : Extends world inputs σ₀ b b :=
  ⟨rfl, rfl, Nat.le_refl _, fun _ _ => rfl⟩

theorem Extends.trans (h : Extends world inputs σ₀ b b') (h' : Extends world inputs σ₀ b' b'') :
    Extends world inputs σ₀ b b'' where
  params := h'.params.trans h.params
  wires := h'.wires.trans h.wires
  varSpace := Nat.le_trans h.varSpace h'.varSpace
  val := fun v hv => (h'.val v (Nat.lt_of_lt_of_le hv h.varSpace)).trans (h.val v hv)

theorem Extends.nameOf (h : Extends world inputs σ₀ b b') : b'.nameOf = b.nameOf := by
  funext w
  rw [BoolarBuilder.nameOf, BoolarBuilder.nameOf, h.wires]

theorem frame_length (h : b.Ok inputs) :
    (b.frame world inputs σ₀).vals.length = b.circuit.varSpace := by
  simp [frame, BCircuit.evalFrame, BCircuit.varSpace, BCircuit.kinds, h.params]

def push (b : BoolarBuilder) (s : Stmt) : BoolarBuilder :=
  { b with circuit := (b.circuit.pushStmt s ()).2 }

theorem emit_eq {s : Stmt} (h : b.circuit.varSpace ≠ u32Max) :
    b.emit s = .ok (b.circuit.varSpace, b.push s) := by
  simp only [emit, checkedPushStmt, if_neg h]
  rfl

@[simp] theorem push_varSpace (b : BoolarBuilder) (s : Stmt) :
    (b.push s).circuit.varSpace = b.circuit.varSpace + 1 := by
  simp [push, BCircuit.pushStmt, BCircuit.varSpace, Nat.add_assoc]

theorem push_kinds (b : BoolarBuilder) (s : Stmt) :
    (b.push s).circuit.kinds = b.circuit.kinds ++ [s] := by
  simp [push, BCircuit.pushStmt, BCircuit.kinds, Node.new]

theorem push_frame (b : BoolarBuilder) (s : Stmt) :
    (b.push s).frame world inputs σ₀ = stepStmt world (b.frame world inputs σ₀) s := by
  simp only [frame, BCircuit.evalFrame, push_kinds, evalStmts_append]
  rfl

/-- Emitting a statement over defined vars evaluates it on top of the frame so far. -/
theorem emit_ends {s : Stmt} (h : b.Ok inputs) (hs : ∀ v ∈ s.operands, v < b.circuit.varSpace) :
    Ends Exhausted (b.emit s) fun r =>
      r.2.Ok inputs ∧ Extends world inputs σ₀ b r.2 ∧ r.1 < r.2.circuit.varSpace ∧
        r.2.val world inputs σ₀ r.1 =
          (evalStmt world (b.frame world inputs σ₀).st (s.mapVars (b.val world inputs σ₀))).1 ∧
        (r.2.frame world inputs σ₀).st =
          (evalStmt world (b.frame world inputs σ₀).st (s.mapVars (b.val world inputs σ₀))).2 := by
  by_cases hfull : b.circuit.varSpace = u32Max
  · unfold emit checkedPushStmt
    rw [if_pos hfull]
    exact rfl
  have hlen : (b.frame world inputs σ₀).vals.length = b.circuit.varSpace := frame_length h
  have hfits := h.fits
  rw [emit_eq hfull, ends_ok]
  dsimp only
  refine ⟨⟨h.params, ?_, ?_⟩, ⟨rfl, rfl, ?_, fun v hv => ?_⟩, ?_, ?_, ?_⟩
  · rw [push_varSpace]
    omega
  · rw [push_kinds, show (b.push s).circuit.params = b.circuit.params from rfl, defined_append]
    refine ⟨h.ssa, ?_, trivial⟩
    simpa [BCircuit.varSpace, BCircuit.kinds] using hs
  · rw [push_varSpace]
    exact Nat.le_succ _
  · rw [val, push_frame, stepStmt_look (hlen ▸ hv)]
    rfl
  · rw [push_varSpace]
    exact Nat.lt_succ_self _
  · rw [val, push_frame, ← hlen, stepStmt, look_append_length]
    rfl
  · rw [push_frame]
    rfl

end BoolarBuilder

/-- Every wire has a defined name with its value, and the storage agrees with the cells. -/
structure Names (n : ℕ) (b : BoolarBuilder) (t : RState) : Prop where
  ok : b.Ok inputs
  length : b.wires.length = n
  defined : ∀ w < n, b.nameOf w < b.circuit.varSpace
  value : ∀ w < n, (b.val world inputs σ₀ (b.nameOf w)).bit = t.wires w
  cells : (b.frame world inputs σ₀).st.storage.read = t.cells

section Steps
variable {world inputs σ₀} {n : ℕ} {b b' : BoolarBuilder} {t : RState}

theorem Names.wire_eq (h : Names world inputs σ₀ n b t) {w : ℕ} (hw : w < n) :
    b.wire w = .ok (b.nameOf w) := by
  have hl : w < b.wires.length := by rw [h.length]; exact hw
  simp [BoolarBuilder.wire, BoolarBuilder.nameOf, expect, hl]

theorem Names.wiresOf_eq (h : Names world inputs σ₀ n b t) {ws : List ℕ} (hw : ∀ w ∈ ws, w < n) :
    b.wiresOf ws = .ok (ws.map b.nameOf) :=
  mapM_eq_ok fun w hm => h.wire_eq (hw w hm)

theorem Names.names_lt (h : Names world inputs σ₀ n b t) {ws : List ℕ} (hw : ∀ w ∈ ws, w < n) :
    ∀ v ∈ ws.map b.nameOf, v < b.circuit.varSpace := by
  intro v hv
  obtain ⟨w, hm, rfl⟩ := List.mem_map.mp hv
  exact h.defined w (hw w hm)

theorem Names.bits (h : Names world inputs σ₀ n b t) {ws : List ℕ} (hw : ∀ w ∈ ws, w < n) :
    Value.bits ((ws.map b.nameOf).map (b.val world inputs σ₀)) = ws.map t.wires := by
  rw [Value.bits, List.map_map, List.map_map]
  exact List.map_congr_left fun w hm => h.value w (hw w hm)

theorem Names.extend (h : Names world inputs σ₀ n b t) (he : b.Extends world inputs σ₀ b')
    (hok : b'.Ok inputs) {m : Cell → Bool}
    (hc : (b'.frame world inputs σ₀).st.storage.read = m) :
    Names world inputs σ₀ n b' { t with cells := m } where
  ok := hok
  length := by rw [he.wires, h.length]
  defined := fun w hw => by
    rw [BoolarBuilder.nameOf, he.wires]
    exact Nat.lt_of_lt_of_le (h.defined w hw) he.varSpace
  value := fun w hw => by
    rw [BoolarBuilder.nameOf, he.wires]
    exact (congrArg Value.bit (he.val _ (h.defined w hw))).trans (h.value w hw)
  cells := hc

theorem Names.setWire (h : Names world inputs σ₀ n b t) {w v : ℕ} (hv : v < b.circuit.varSpace)
    {x : Bool} (hx : (b.val world inputs σ₀ v).bit = x) (hw : w < n) :
    Names world inputs σ₀ n (b.setWire w v) { t with wires := Function.update t.wires w x } where
  ok := ⟨h.ok.params, h.ok.fits, h.ok.ssa⟩
  length := by simp [BoolarBuilder.setWire, h.length]
  defined := fun u hu => by
    by_cases huw : u = w
    · subst huw
      simpa [BoolarBuilder.setWire, BoolarBuilder.nameOf, h.length, hu] using hv
    · simpa [BoolarBuilder.setWire, BoolarBuilder.nameOf, List.getElem?_set_ne (Ne.symm huw)]
        using h.defined u hu
  value := fun u hu => by
    by_cases huw : u = w
    · subst huw
      have hname : (b.setWire u v).nameOf u = v := by
        simp [BoolarBuilder.setWire, BoolarBuilder.nameOf, h.length, hu]
      rw [hname]
      exact hx.trans (Function.update_self u x t.wires).symm
    · have hname : (b.setWire w v).nameOf u = b.nameOf u := by
        simp [BoolarBuilder.setWire, BoolarBuilder.nameOf, List.getElem?_set_ne (Ne.symm huw)]
      rw [hname]
      exact (h.value u hu).trans (Function.update_of_ne huw x t.wires).symm
  cells := h.cells

/-- Emit a statement over defined vars: a new name for its value, and its effect. -/
theorem Names.emit (h : Names world inputs σ₀ n b t) {s : Stmt}
    (hs : ∀ v ∈ s.operands, v < b.circuit.varSpace) {x : Value} {m : Cell → Bool}
    (hx : (evalStmt world (b.frame world inputs σ₀).st (s.mapVars (b.val world inputs σ₀))).1 = x)
    (hc : (evalStmt world (b.frame world inputs σ₀).st
      (s.mapVars (b.val world inputs σ₀))).2.storage.read = m) :
    Ends Exhausted (b.emit s) fun r =>
      Names world inputs σ₀ n r.2 { t with cells := m } ∧ b.Extends world inputs σ₀ r.2 ∧
        r.1 < r.2.circuit.varSpace ∧ r.2.val world inputs σ₀ r.1 = x :=
  (BoolarBuilder.emit_ends h.ok hs).mono fun r hr => by
    obtain ⟨hok, he, hlt, hval, hst⟩ := hr
    exact ⟨h.extend he hok (by rw [hst, hc]), he, hlt, hval.trans hx⟩

theorem Names.xorInto (h : Names world inputs σ₀ n b t) {w v : ℕ} {x : Bool} (hw : w < n)
    (hv : v < b.circuit.varSpace) (hx : (b.val world inputs σ₀ v).bit = x) :
    Ends Exhausted (do
      let before ← b.wire w
      let (next, b) ← b.emit (.xor before v)
      return b.setWire w next)
      fun b' => Names world inputs σ₀ n b' { t with wires := toggle w x t.wires } := by
  rw [h.wire_eq hw, ok_bind]
  refine (h.emit (s := .xor (b.nameOf w) v) (x := ⟨t.wires w ^^ x, .none⟩) ?_ ?_ h.cells).bind ?_
  · simp only [BIrStmt.operands, List.mem_cons, List.not_mem_nil, or_false]
    rintro u (rfl | rfl)
    · exact h.defined w hw
    · exact hv
  · simp only [BIrStmt.mapVars, evalStmt, h.value w hw, hx]
  · rintro ⟨next, b'⟩ ⟨h', -, hlt, hval⟩
    exact h'.setWire hlt (by rw [hval]) hw

end Steps

end

section Gates
variable {reg : Registry} {inputs : List Bool} {σ₀ : EvalState} {n : ℕ} {b : BoolarBuilder}
  {t : RState}

theorem Names.x (h : Names reg.externals inputs σ₀ n b t) (i : ℕ) {w : ℕ} (hw : w < n) :
    Ends Exhausted (lowerGate i b (.x w)) fun b' =>
      Names reg.externals inputs σ₀ n b' ((RGate.x w).act reg t) := by
  simp only [lowerGate, h.wire_eq hw, ok_bind]
  refine (h.emit (s := .not (b.nameOf w)) (x := ⟨!t.wires w, .none⟩) ?_ ?_ h.cells).bind ?_
  · simpa [BIrStmt.operands] using h.defined w hw
  · simp only [BIrStmt.mapVars, evalStmt, h.value w hw]
  · rintro ⟨next, b'⟩ ⟨h', -, hlt, hval⟩
    have := h'.setWire hlt (congrArg Value.bit hval) hw
    simpa [RGate.act, toggle] using this

theorem Names.cnot (h : Names reg.externals inputs σ₀ n b t) (i : ℕ) {c w : ℕ} (hc : c < n)
    (hw : w < n) : Ends Exhausted (lowerGate i b (.cnot c w)) fun b' =>
      Names reg.externals inputs σ₀ n b' ((RGate.cnot c w).act reg t) := by
  simp only [lowerGate, h.wire_eq hc, h.wire_eq hw, ok_bind]
  refine (h.emit (s := .xor (b.nameOf c) (b.nameOf w)) (x := ⟨t.wires c ^^ t.wires w, .none⟩)
    ?_ ?_ h.cells).bind ?_
  · simpa [BIrStmt.operands] using ⟨h.defined c hc, h.defined w hw⟩
  · simp only [BIrStmt.mapVars, evalStmt, h.value c hc, h.value w hw]
  · rintro ⟨next, b'⟩ ⟨h', -, hlt, hval⟩
    have := h'.setWire hlt (congrArg Value.bit hval) hw
    simpa [RGate.act, toggle, Bool.xor_comm] using this

theorem Names.ccnot (h : Names reg.externals inputs σ₀ n b t) (i : ℕ) {c1 c2 w : ℕ}
    (h1 : c1 < n) (h2 : c2 < n) (hw : w < n) :
    Ends Exhausted (lowerGate i b (.ccnot c1 c2 w)) fun b' =>
      Names reg.externals inputs σ₀ n b' ((RGate.ccnot c1 c2 w).act reg t) := by
  simp only [lowerGate, h.wire_eq h1, h.wire_eq h2, ok_bind]
  refine (h.emit (s := .and (b.nameOf c1) (b.nameOf c2)) (x := ⟨t.wires c1 && t.wires c2, .none⟩)
    ?_ ?_ h.cells).bind ?_
  · simpa [BIrStmt.operands] using ⟨h.defined c1 h1, h.defined c2 h2⟩
  · simp only [BIrStmt.mapVars, evalStmt, h.value c1 h1, h.value c2 h2]
  · rintro ⟨product, b'⟩ ⟨h', -, hlt, hval⟩
    exact h'.xorInto hw hlt (congrArg Value.bit hval)

theorem Names.storageSwap (h : Names reg.externals inputs σ₀ n b t) (i : ℕ)
    {storage : StorageId} {lane : LaneId} {addr : List ℕ} {w : ℕ} (ha : ∀ v ∈ addr, v < n)
    (hw : w < n) : Ends Exhausted (lowerGate i b (.storageSwap storage lane addr w)) fun b' =>
      Names reg.externals inputs σ₀ n b' ((RGate.storageSwap storage lane addr w).act reg t) := by
  have haddr := h.names_lt ha
  simp only [lowerGate, h.wiresOf_eq ha, h.wire_eq hw, ok_bind]
  refine (h.emit (s := .storageRead storage lane (addr.map b.nameOf))
    (x := ⟨t.cells (t.cell storage lane addr), .none⟩) haddr ?_ h.cells).bind ?_
  · simp only [BIrStmt.mapVars, evalStmt, h.bits ha, h.cells]
    rfl
  rintro ⟨stored, b₁⟩ ⟨h₁, he₁, hlt₁, hval₁⟩
  rw [← he₁.nameOf] at *
  refine (h₁.emit (s := .storageWrite storage lane (b₁.nameOf w) (addr.map b₁.nameOf)) ?_ rfl
    (m := Function.update t.cells (t.cell storage lane addr) (t.wires w)) ?_).bind ?_
  · exact List.forall_mem_cons.mpr ⟨h₁.defined w hw, h₁.names_lt ha⟩
  · simp only [BIrStmt.mapVars, evalStmt, StorageMap.read_insert, h₁.cells, h₁.bits ha,
      h₁.value w hw]
    rfl
  · rintro ⟨_, b₂⟩ ⟨h₂, he₂, -, -⟩
    exact h₂.setWire (Nat.lt_of_lt_of_le hlt₁ he₂.varSpace)
      (by rw [he₂.val _ hlt₁, hval₁]) hw

theorem Names.externalXor (h : Names reg.externals inputs σ₀ n b t) (i : ℕ)
    {kind : RExternalKind} {name : String} {args : List ℕ} {w bit occ : ℕ}
    (ha : ∀ v ∈ args, v < n) (hw : w < n) :
    Ends Exhausted (lowerGate i b (.externalXor kind name args w bit occ)) fun b' =>
      Names reg.externals inputs σ₀ n b'
          ((RGate.externalXor kind name args w bit occ).act reg t) := by
  have hargs := h.names_lt ha
  cases kind with
  | oracle =>
      simp only [lowerGate, h.wiresOf_eq ha, ok_bind]
      refine (h.emit (s := .oracleBit name (args.map b.nameOf) bit occ)
        (x := ⟨reg.oracleBit name (args.map t.wires) bit occ, .none⟩) hargs ?_ h.cells).bind ?_
      · simp only [BIrStmt.mapVars, evalStmt, h.bits ha]
        rfl
      · rintro ⟨source, b'⟩ ⟨h', -, hlt, hval⟩
        exact h'.xorInto hw hlt (congrArg Value.bit hval)
  | rng =>
      simp only [lowerGate]
      refine (h.emit (s := .rngBit name bit occ) (x := ⟨reg.rngBit name bit occ, .none⟩)
        (by simp [BIrStmt.operands]) rfl h.cells).bind ?_
      rintro ⟨source, b'⟩ ⟨h', -, hlt, hval⟩
      exact h'.xorInto hw hlt (congrArg Value.bit hval)

/-- The last of `bit + 1` result bits is the action's, or the fallback. -/
theorem evalStmt_actionCall (σ : EvalState) (name : String) (g : Value) (args : List Value)
    (f : Value) (bit : ℕ) :
    (evalStmt reg.externals σ
        (.actionCall name g args (List.replicate (bit + 1) f) (bit + 1))).1.call.actionBit bit =
        (if g.bit then reg.actionBit name (Value.bits args) bit 0 else f.bit) ∧
      (evalStmt reg.externals σ
        (.actionCall name g args (List.replicate (bit + 1) f) (bit + 1))).2.storage =
        σ.storage := by
  cases hg : g.bit
  · simp [evalStmt, hg, CallBits.actionBit, Value.bits]
  · simp [evalStmt, hg, CallBits.actionBit, Registry.externals]

theorem Names.externalStorageXor (h : Names reg.externals inputs σ₀ n b t)
    (hreg : reg.IgnoresOccurrence) (i : ℕ) {name : String} {guard : ℕ} {args : List ℕ}
    {fallback : ℕ} {storage : StorageId} {lane : LaneId} {addr : List ℕ} {bit occ : ℕ}
    (hg : guard < n) (hf : fallback < n) (ha : ∀ v ∈ args, v < n) (hd : ∀ v ∈ addr, v < n)
    (hbit : 4 * (bit + 1) ≤ isizeMax) :
    Ends Exhausted
      (lowerGate i b (.externalStorageXor name guard args fallback storage lane addr bit occ))
      fun b' => Names reg.externals inputs σ₀ n b'
        ((RGate.externalStorageXor name guard args fallback storage lane addr bit occ).act
            reg t) := by
  have hnot : bit ≠ usizeMax := by
    unfold isizeMax at hbit
    unfold usizeMax
    omega
  simp only [lowerGate, if_neg hnot, idVec, if_pos hbit, h.wiresOf_eq hd, ok_bind]
  refine (h.emit (s := .storageRead storage lane (addr.map b.nameOf))
    (x := ⟨t.cells (t.cell storage lane addr), .none⟩) (h.names_lt hd) ?_ h.cells).bind ?_
  · simp only [BIrStmt.mapVars, evalStmt, h.bits hd, h.cells]
    rfl
  rintro ⟨stored, b₁⟩ ⟨h₁, he₁, hlt₁, hval₁⟩
  simp only [← he₁.nameOf, h₁.wire_eq hg, h₁.wire_eq hf, h₁.wiresOf_eq ha, ok_bind]
  refine (h₁.emit (s := .actionCall name (b₁.nameOf guard) (args.map b₁.nameOf)
    (List.replicate (bit + 1) (b₁.nameOf fallback)) (bit + 1)) (m := t.cells) ?_ rfl ?_).bind ?_
  · simp only [BIrStmt.operands, List.mem_append, List.mem_cons]
    rintro v ((rfl | hv) | hv)
    · exact h₁.defined guard hg
    · exact h₁.names_lt ha v hv
    · rw [List.eq_of_mem_replicate hv]
      exact h₁.defined fallback hf
  · simp only [BIrStmt.mapVars, List.map_replicate, (evalStmt_actionCall ..).2]
    exact h₁.cells
  rintro ⟨action, b₂⟩ ⟨h₂, he₂, hlt₂, hval₂⟩
  -- the handle's bit is what the gate toggles the cell by
  have haction : (b₂.val reg.externals inputs σ₀ action).call.actionBit bit =
      if t.wires guard then reg.actionBit name (args.map t.wires) bit occ
      else t.wires fallback := by
    rw [hval₂]
    simp only [BIrStmt.mapVars, List.map_replicate, (evalStmt_actionCall ..).1]
    rw [h₁.value guard hg, h₁.bits ha, h₁.value fallback hf, hreg.2.2 _ _ _ occ 0]
  refine (h₂.emit (s := .actionBit action bit) (by simpa [BIrStmt.operands] using hlt₂)
    (congrArg (Value.mk · .none) haction) h₂.cells).bind ?_
  rintro ⟨actionBit, b₃⟩ ⟨h₃, he₃, hlt₃, hval₃⟩
  have hlt₁₃ := Nat.lt_of_lt_of_le hlt₁ (he₂.trans he₃).varSpace
  have hstored : (b₃.val reg.externals inputs σ₀ stored).bit =
      t.cells (t.cell storage lane addr) := by
    rw [(he₂.trans he₃).val _ hlt₁, hval₁]
  refine (h₃.emit (s := .xor stored actionBit) ?_ rfl h₃.cells).bind ?_
  · simpa [BIrStmt.operands] using ⟨hlt₁₃, hlt₃⟩
  rintro ⟨next, b₄⟩ ⟨h₄, he₄, hlt₄, hval₄⟩
  have hnext : (b₄.val reg.externals inputs σ₀ next).bit =
      (t.cells (t.cell storage lane addr) ^^
        if t.wires guard then reg.actionBit name (args.map t.wires) bit occ
        else t.wires fallback) := by
    rw [hval₄]
    simp only [BIrStmt.mapVars, evalStmt, hstored, hval₃]
  have hname : b₁.nameOf = b₄.nameOf := ((he₂.trans he₃).trans he₄).nameOf.symm
  rw [hname]
  refine (h₄.emit (s := .storageWrite storage lane next (addr.map b₄.nameOf)) ?_ rfl
    (m := toggle (t.cell storage lane addr)
      (if t.wires guard then reg.actionBit name (args.map t.wires) bit occ
        else t.wires fallback) t.cells) ?_).bind ?_
  · exact List.forall_mem_cons.mpr ⟨hlt₄, h₄.names_lt hd⟩
  · simp only [BIrStmt.mapVars, evalStmt, StorageMap.read_insert, h₄.cells, h₄.bits hd, hnext]
    rfl
  · rintro ⟨_, b₅⟩ ⟨h₅, -, -, -⟩
    exact h₅

def AccIs (world : Externals) (inputs : List Bool) (σ₀ : EvalState) (b : BoolarBuilder)
    (value : Option ℕ) (x : Bool) : Prop :=
  match value with
  | none => x = false
  | some v => v < b.circuit.varSpace ∧ (b.val world inputs σ₀ v).bit = x

/-- Half way through a table: the names of `b` still stand, and the sum so far is `x`. -/
def LutState (world : Externals) (inputs : List Bool) (σ₀ : EvalState) (n : ℕ)
    (b : BoolarBuilder) (t : RState) (r : Option ℕ × BoolarBuilder) (x : Bool) : Prop :=
  Names world inputs σ₀ n r.2 t ∧ b.Extends world inputs σ₀ r.2 ∧ AccIs world inputs σ₀ r.2 r.1 x

theorem AccIs.extend {world : Externals} {b' : BoolarBuilder} {value : Option ℕ} {x : Bool}
    (h : AccIs world inputs σ₀ b value x) (he : b.Extends world inputs σ₀ b') :
    AccIs world inputs σ₀ b' value x := by
  cases value with
  | none => exact h
  | some v =>
      exact ⟨Nat.lt_of_lt_of_le h.1 he.varSpace, (congrArg Value.bit (he.val v h.1)).trans h.2⟩

theorem appendXorTerm_ends {world : Externals} {b₀ b : BoolarBuilder} {value : Option ℕ}
    {x y : Bool}
    (h : LutState world inputs σ₀ n b₀ t (value, b) x) {term : ℕ}
    (hlt : term < b.circuit.varSpace) (hy : (b.val world inputs σ₀ term).bit = y) :
    Ends Exhausted (appendXorTerm b value term) fun r =>
      LutState world inputs σ₀ n b₀ t r (x ^^ y) := by
  obtain ⟨hn, he, hacc⟩ := h
  cases value with
  | none =>
      obtain rfl : x = false := hacc
      exact ⟨hn, he, hlt, by simpa using hy⟩
  | some v =>
      refine (hn.emit (s := .xor v term) (x := ⟨x ^^ y, .none⟩) ?_ ?_ hn.cells).bind ?_
      · simpa [BIrStmt.operands] using ⟨hacc.1, hlt⟩
      · simp only [BIrStmt.mapVars, evalStmt, hacc.2, hy]
      · rintro ⟨v', b'⟩ ⟨hn', he', hlt', hval'⟩
        exact ⟨hn', he.trans he', hlt', congrArg Value.bit hval'⟩

theorem lutLinear_ends {world : Externals} {b₀ : BoolarBuilder} {r : Option ℕ × BoolarBuilder}
    {x y c : Bool} (h : LutState world inputs σ₀ n b₀ t r x) {term : ℕ}
    (hlt : term < b₀.circuit.varSpace) (hy : (b₀.val world inputs σ₀ term).bit = y) :
    Ends Exhausted (lutLinear c term r) fun r' =>
      LutState world inputs σ₀ n b₀ t r' (x ^^ (c && y)) := by
  cases c with
  | false =>
      rw [Bool.false_and, Bool.xor_false]
      exact h
  | true =>
      rw [lutLinear, if_pos rfl, Bool.true_and]
      exact appendXorTerm_ends h (Nat.lt_of_lt_of_le hlt h.2.1.varSpace)
        ((congrArg Value.bit (h.2.1.val term hlt)).trans hy)

theorem lutConstant_ends {world : Externals} (h : Names world inputs σ₀ n b t) (c : Bool) :
    Ends Exhausted (lutConstant b c) fun r => LutState world inputs σ₀ n b t r c := by
  cases c with
  | false => exact ⟨h, .refl, rfl⟩
  | true =>
      rw [lutConstant, if_pos rfl]
      refine (h.emit (s := .one) (x := ⟨true, .none⟩) (by simp [BIrStmt.operands]) rfl
        h.cells).bind ?_
      rintro ⟨one, b'⟩ ⟨h', he', hlt, hval⟩
      exact ⟨h', he', hlt, congrArg Value.bit hval⟩

/-- The product term of the normal form. -/
theorem lutProduct_ends {world : Externals} {b₀ : BoolarBuilder} {r : Option ℕ × BoolarBuilder}
    {x y z c : Bool} (h : LutState world inputs σ₀ n b₀ t r x) {v w : ℕ}
    (hv : v < b₀.circuit.varSpace) (hy : (b₀.val world inputs σ₀ v).bit = y)
    (hw : w < b₀.circuit.varSpace) (hz : (b₀.val world inputs σ₀ w).bit = z) :
    Ends Exhausted (lutProduct c v w r) fun r' =>
      LutState world inputs σ₀ n b₀ t r' (x ^^ (c && (y && z))) := by
  cases c with
  | false =>
      rw [Bool.false_and, Bool.xor_false]
      exact h
  | true =>
      obtain ⟨hn, he, hacc⟩ := h
      rw [lutProduct, if_pos rfl, Bool.true_and]
      refine (hn.emit (s := .and v w) (x := ⟨y && z, .none⟩) ?_ ?_ hn.cells).bind ?_
      · simpa [BIrStmt.operands] using
          ⟨Nat.lt_of_lt_of_le hv he.varSpace, Nat.lt_of_lt_of_le hw he.varSpace⟩
      · simp only [BIrStmt.mapVars, evalStmt, he.val v hv, he.val w hw, hy, hz]
      · rintro ⟨product, b'⟩ ⟨hn', he', hlt', hval'⟩
        refine appendXorTerm_ends ⟨hn', he.trans he', hacc.extend he'⟩ hlt' ?_
        exact congrArg Value.bit hval'

theorem and_one_beq (x : BitVec 8) : ((x &&& 1#8) == 1#8) = (x &&& 1#8 != 0#8) := by
  have h : x &&& 1#8 = 0#8 ∨ x &&& 1#8 = 1#8 := by
    have hx : (x &&& 1#8).toNat = x.toNat % 2 := by simp
    rcases Nat.mod_two_eq_zero_or_one x.toNat with h | h
    · exact .inl (BitVec.eq_of_toNat_eq (by rw [hx, h]; rfl))
    · exact .inr (BitVec.eq_of_toNat_eq (by rw [hx, h]; rfl))
  rcases h with h | h <;> simp [h]

/-- The lookup is the algebraic normal form of its table. -/
theorem lutBit_eq {table : BitVec 8} {t00 t01 t10 t11 : Bool}
    (h00 : (table >>> 3 &&& 1#8 != 0#8) = t00) (h01 : (table >>> 2 &&& 1#8 != 0#8) = t01)
    (h10 : (table >>> 1 &&& 1#8 != 0#8) = t10) (h11 : (table &&& 1#8 != 0#8) = t11)
    (a b : Bool) :
    lutBit table a b =
      (((t00 ^^ ((t00 ^^ t10) && a)) ^^ ((t00 ^^ t01) && b)) ^^
        ((t00 ^^ t01 ^^ t10 ^^ t11) && (a && b))) := by
  have hbit : lutBit table a b =
      if a then (if b then t11 else t10) else (if b then t01 else t00) := by
    rw [← h00, ← h01, ← h10, ← h11]
    simp only [← and_one_beq]
    cases a <;> cases b <;> simp [lutBit]
  rw [hbit]
  cases a <;> cases b <;> cases t00 <;> cases t01 <;> cases t10 <;> cases t11 <;> rfl

theorem Names.xorLut2 (h : Names reg.externals inputs σ₀ n b t) (i : ℕ) {c0 c1 w : ℕ}
    {table : BitVec 8} (h0 : c0 < n) (h1 : c1 < n) (hw : w < n) :
    Ends Exhausted (lowerGate i b (.xorLut2 c0 c1 w table)) fun b' =>
      Names reg.externals inputs σ₀ n b' ((RGate.xorLut2 c0 c1 w table).act reg t) := by
  have hv0 := h.defined c0 h0
  have hv1 := h.defined c1 h1
  simp only [lowerGate, lowerLut2Xor, h.wire_eq h0, h.wire_eq h1, ok_bind]
  refine (lutConstant_ends h _).bind fun r₁ hr₁ => ?_
  refine (lutLinear_ends hr₁ hv0 (h.value c0 h0)).bind fun r₂ hr₂ => ?_
  refine (lutLinear_ends hr₂ hv1 (h.value c1 h1)).bind fun r₃ hr₃ => ?_
  refine (lutProduct_ends hr₃ hv0 (h.value c0 h0) hv1 (h.value c1 h1)).bind ?_
  rintro ⟨value, b'⟩ hr
  rw [← lutBit_eq rfl rfl rfl rfl] at hr
  obtain ⟨hn, he, hacc⟩ := hr
  cases value with
  | none =>
      have hz : lutBit table (t.wires c0) (t.wires c1) = false := hacc
      simpa [RGate.act, hz] using hn
  | some v => exact hn.xorInto hw hacc.1 hacc.2

def RGate.BitFits : RGate → Prop
  | .externalStorageXor _ _ _ _ _ _ _ bit _ => 4 * (bit + 1) ≤ isizeMax
  | _ => True

theorem lowerGate_ends (h : Names reg.externals inputs σ₀ n b t) (hreg : reg.IgnoresOccurrence)
    (i : ℕ) {g : RGate} (hv : g.Valid n) (hbit : g.BitFits) :
    Ends Exhausted (lowerGate i b g) fun b' =>
      Names reg.externals inputs σ₀ n b' (g.act reg t) := by
  cases g with
  | x w => exact h.x i hv
  | cnot ctrl target => exact h.cnot i hv.1 hv.2.1
  | ccnot c1 c2 target => exact h.ccnot i hv.1 hv.2.1 hv.2.2.1
  | xorLut2 c0 c1 target table => exact h.xorLut2 i hv.1 hv.2.1 hv.2.2.1
  | storageSwap storage lane addr target =>
      exact h.storageSwap i (fun w hw => (hv.2 w hw).1) hv.1
  | externalXor kind name args target bit occ =>
      exact h.externalXor i (fun w hw => (hv.2 w hw).1) hv.1
  | externalStorageXor name guard args fallback storage lane addr bit occ =>
      exact h.externalStorageXor hreg i hv.1 hv.2.1
        (fun w hw => hv.2.2 w (List.mem_append_left addr hw))
        (fun w hw => hv.2.2 w (List.mem_append_right args hw)) hbit

/-- The gate loop, by induction on the gates. -/
theorem lowerGates_ends (hreg : reg.IgnoresOccurrence) {gs : List RGate} {i : ℕ}
    (h : Names reg.externals inputs σ₀ n b t) (hv : ∀ g ∈ gs, g.Valid n)
    (hbit : ∀ g ∈ gs, g.BitFits) :
    Ends Exhausted (lowerGates i b gs) fun b' =>
      Names reg.externals inputs σ₀ n b' (run (RGate.act reg) gs t) := by
  induction gs generalizing i b t with
  | nil => exact h
  | cons g gs ih =>
      rw [List.forall_mem_cons] at hv hbit
      exact (lowerGate_ends h hreg i hv.1 hbit.1).bind fun b' h' => ih h' hv.2 hbit.2

end Gates

theorem RCircuit.validate_ok {c : RCircuit} : c.validate = .ok () ↔ c.Valid := validateFrom_ok

theorem Names.new (world : Externals) (ws : List Bool) (m : StorageMap)
    (hn : ws.length ≤ u32Max) :
    Names world ws (.init m) ws.length (.new ws.length) (view (ws, m)) := by
  have hname : ∀ w < ws.length, (BoolarBuilder.new ws.length).nameOf w = w := fun w hw => by
    simp [BoolarBuilder.nameOf, BoolarBuilder.new, hw]
  refine ⟨⟨rfl, hn, trivial⟩, List.length_range, fun w hw => ?_, fun w hw => ?_, rfl⟩
  · rw [hname w hw]
    exact hw
  · rw [hname w hw, BoolarBuilder.val]
    exact congrArg Value.bit (look_paramValues ws w)

/-- What the SSA form of a reversible circuit is, whatever the inputs. -/
structure SsaForm (rc : RCircuit) (c : BCircuit Unit) : Prop where
  wellFormed : c.WellFormed
  fits : c.varSpace ≤ u32Max
  params : c.params = rc.numWires
  outputs : c.outputs.length = rc.numWires
  eval : ∀ (reg : Registry), reg.IgnoresOccurrence → ∀ (ws : List Bool) (m : StorageMap),
    ws.length = rc.numWires → ∃ s, rc.applyWithExternals reg ws m = some s ∧
      c.eval reg.externals ws (.init m) = s.1 ∧
      ∀ cell, (c.evalFrame reg.externals ws (.init m)).st.storage.read cell = s.2.read cell

/-- The lowering of a valid circuit, for one wire vector, storage and registry. -/
theorem toBoolarCircuit_ends {rc : RCircuit} (hv : rc.Valid) (hbit : ∀ g ∈ rc.gates, g.BitFits)
    (hn : rc.numWires ≤ u32Max) {reg : Registry} (hreg : reg.IgnoresOccurrence)
    {ws : List Bool} (hl : ws.length = rc.numWires) (m : StorageMap) :
    Ends Exhausted (toBoolarCircuit rc) fun c => ∃ b, c = b.finish ∧
      Names reg.externals ws (.init m) rc.numWires b
        (run (RGate.act reg) rc.gates (view (ws, m))) := by
  have hnew := Names.new reg.externals ws m (hl ▸ hn)
  rw [hl] at hnew
  simp only [toBoolarCircuit, RCircuit.validate_ok.mpr hv, if_neg (Nat.not_lt.mpr hn)]
  exact (lowerGates_ends hreg hnew hv hbit).bind fun b h => ⟨b, rfl, h⟩

theorem Names.finish_eval {world : Externals} {inputs : List Bool} {σ₀ : EvalState} {n : ℕ}
    {b : BoolarBuilder} {t : RState} (h : Names world inputs σ₀ n b t) {ws : List Bool}
    (hl : ws.length = n) (hw : ∀ w < n, readWire ws w = t.wires w) :
    b.finish.eval world inputs σ₀ = ws := by
  have hlen : (b.finish.eval world inputs σ₀).length = n := by
    rw [BCircuit.eval, List.length_map]
    exact h.length
  apply eq_of_readWire (hlen.trans hl.symm)
  intro w hlt
  rw [hlen] at hlt
  have hwl : w < b.wires.length := by rw [h.length]; exact hlt
  rw [hw w hlt, ← h.value w hlt]
  simp [readWire, BCircuit.eval, BoolarBuilder.finish, BoolarBuilder.nameOf, hwl]
  rfl

theorem Names.finish_wellFormed {world : Externals} {inputs : List Bool} {σ₀ : EvalState} {n : ℕ}
    {b : BoolarBuilder} {t : RState} (h : Names world inputs σ₀ n b t) :
    b.finish.WellFormed := by
  refine ⟨h.ok.ssa, fun v hv => ?_⟩
  obtain ⟨w, hw, rfl⟩ := List.getElem_of_mem hv
  have hd := h.defined w (h.length ▸ hw)
  have hname : b.wires.getD w 0 = b.finish.outputs[w] := by
    simp [BoolarBuilder.finish, show w < b.wires.length from hw]
  exact hname ▸ hd

theorem toBoolarCircuit_spec {rc : RCircuit} (hv : rc.Valid) (hbit : ∀ g ∈ rc.gates, g.BitFits)
    (hn : rc.numWires ≤ u32Max) (hx : toBoolarCircuit rc ≠ .error (.error .varSpaceExhausted)) :
    ∃ c, toBoolarCircuit rc = .ok c ∧ SsaForm rc c := by
  have hu : Registry.unused.IgnoresOccurrence := ⟨fun _ _ _ _ _ => rfl, fun _ _ _ _ => rfl,
    fun _ _ _ _ _ => rfl⟩
  obtain ⟨c, hc, b, rfl, h⟩ := (toBoolarCircuit_ends hv hbit hn hu
    (List.length_replicate (n := rc.numWires) (a := false)) .empty).exists_ok
      fun e he => by rw [he]; exact hx
  refine ⟨_, hc, h.finish_wellFormed, h.ok.fits, ?_, h.length, fun reg hreg ws m hl => ?_⟩
  · exact h.ok.params.symm.trans List.length_replicate
  · obtain ⟨s, hs, hsl, hsv⟩ := hv.applyWithExternals reg hl m
    obtain ⟨b', hb', h'⟩ := (toBoolarCircuit_ends hv hbit hn hreg hl m).of_ok hc
    rw [← hsv] at h'
    rw [hb']
    exact ⟨s, hs, h'.finish_eval hsl fun w _ => rfl, congrFun h'.cells⟩

/-- Sequential evaluation of the SSA form is evaluation of the reversible circuit: the
wires in order, and every cell of the storage. -/
theorem ssa_faithful (rc : RCircuit) (hv : rc.validate = .ok ())
    (hbit : ∀ g ∈ rc.gates, g.BitFits) (hn : rc.numWires ≤ u32Max)
    (hx : toBoolarCircuit rc ≠ .error (.error .varSpaceExhausted)) :
    ∃ c, toBoolarCircuit rc = .ok c ∧
      ∀ (reg : Registry), reg.IgnoresOccurrence → ∀ (ws : List Bool) (m : StorageMap),
        ws.length = rc.numWires → ∃ s, rc.applyWithExternals reg ws m = some s ∧
          c.eval reg.externals ws (.init m) = s.1 ∧
          ∀ cell, (c.evalFrame reg.externals ws (.init m)).st.storage.read cell =
            s.2.read cell := by
  obtain ⟨c, hc, h⟩ := toBoolarCircuit_spec (RCircuit.validate_ok.mp hv) hbit hn hx
  exact ⟨c, hc, h.eval⟩

/-- A swap, a table over the swapped bit, and an action on another cell. -/
theorem ssa_faithful_swap :
    let rc : RCircuit := ⟨4, [.storageSwap ⟨0⟩ ⟨0⟩ [0] 1, .xorLut2 0 1 2 6#8,
      .externalStorageXor "act" 2 [0, 1] 3 ⟨0⟩ ⟨0⟩ [1] 2 7]⟩
    ∃ c, toBoolarCircuit rc = .ok c ∧
      ∀ (reg : Registry), reg.IgnoresOccurrence → ∀ (ws : List Bool) (m : StorageMap),
        ws.length = rc.numWires → ∃ s, rc.applyWithExternals reg ws m = some s ∧
          c.eval reg.externals ws (.init m) = s.1 ∧
          ∀ cell, (c.evalFrame reg.externals ws (.init m)).st.storage.read cell =
            s.2.read cell := by
  intro rc
  refine ssa_faithful rc (by decide) ?_ (by decide) ?_
  · simp [rc, RGate.BitFits, isizeMax]
  · intro h
    cases h

/-- An action gate whose bit has no successor is refused, though the circuit is valid. -/
theorem toBoolarCircuit_overflow :
    let rc : RCircuit := ⟨1, [.externalStorageXor "act" 0 [] 0 ⟨0⟩ ⟨0⟩ [] usizeMax 0]⟩
    rc.validate = .ok () ∧ toBoolarCircuit rc = .error (.error (.actionBitIndexOverflow 0)) := by
  exact ⟨rfl, rfl⟩

end VolarIR.Rev
