import VolarIR.Lowering.Tables

/-!
# Lowering to bits: storage reads

A read of a value becomes one read for each of its bits. The address of bit `i` is that of the
element followed by the digits of `i`, each a constant wire that is emitted once and reused.
-/
namespace VolarIR.Lowering
open Boolar

def constStmt (bit : Bool) : Stmt := if bit then .one else .zero

structure Emitter (P : Type) where
  params : ℕ
  stmts : List (Node Stmt P)
  constWires : ℕ × Bool → Option ℕ
  placed : ∀ key w, constWires key = some w →
    ∃ i, w = params + i ∧ (stmts[i]?).map Node.kind = some (constStmt key.2)

namespace Emitter
variable {P : Type}

def new (params : ℕ) : Emitter P := ⟨params, [], fun _ => none, nofun⟩

def kinds (e : Emitter P) : List Stmt := e.stmts.map Node.kind

theorem placed_append {e : Emitter P} (more : List (Node Stmt P)) {key : ℕ × Bool} {w : ℕ}
    (h : e.constWires key = some w) :
    ∃ i, w = e.params + i ∧ ((e.stmts ++ more)[i]?).map Node.kind = some (constStmt key.2) := by
  obtain ⟨i, hw, hi⟩ := e.placed key w h
  obtain ⟨s, hs, -⟩ := Option.map_eq_some_iff.mp hi
  refine ⟨i, hw, ?_⟩
  rwa [List.getElem?_append_left (List.getElem?_eq_some_iff.mp hs).1]

def emit (stmt : Stmt) (prov : P) : StateM (Emitter P) ℕ := fun e =>
  (e.params + e.stmts.length,
    { e with
      stmts := e.stmts ++ [⟨stmt, prov, none⟩]
      placed := fun _ _ h => placed_append _ h })

/-- `const_bit_wire`: bit `j` of `i`. -/
def constBitWire (i j : ℕ) (prov : P) : StateM (Emitter P) ℕ := fun e =>
  match e.constWires (j, i.testBit j) with
  | some w => (w, e)
  | none =>
      (e.params + e.stmts.length,
        { params := e.params
          stmts := e.stmts ++ [⟨constStmt (i.testBit j), prov, none⟩]
          constWires := Function.update e.constWires (j, i.testBit j)
            (some (e.params + e.stmts.length))
          placed := by
            intro key w h
            by_cases hkey : key = (j, i.testBit j)
            · subst hkey
              rw [Function.update_self] at h
              cases h
              exact ⟨e.stmts.length, rfl, by simp⟩
            · rw [Function.update_of_ne hkey] at h
              exact placed_append _ h })

/-- `const_index_bits`: the digits that tell bit `i` of `k` apart. -/
def constIndexBits (i k : ℕ) (prov : P) : StateM (Emitter P) (List ℕ) :=
  (List.range (indexBits k)).mapM fun j => constBitWire i j prov

/-- A read of `k` bits at the address wires `base`. -/
def lowerStorageRead (storage : StorageId) (lane : LaneId) (base : List ℕ) (k : ℕ) (prov : P) :
    StateM (Emitter P) (List ℕ) :=
  (List.range k).mapM fun i => do
    let index ← constIndexBits i k prov
    emit (.storageRead storage lane (base ++ index)) prov

/-- `StorageRead`, at the lane of its type. -/
def lowerRead (types : TypeTable) (lanes : List TypeId) (storage : StorageId) (ty : TypeId)
    (base : List ℕ) (prov : P) (e : Emitter P) : Option (List ℕ × Emitter P) :=
  (laneOf lanes ty).map fun lane => lowerStorageRead storage lane base (irTypeBits types ty) prov e

section
variable (world : Externals) (inputs : List Bool) (σ : EvalState)

def frame (e : Emitter P) : Frame := evalStmts world ⟨paramValues inputs, σ⟩ e.kinds

structure Quiet (e e' : Emitter P) : Prop where
  params : e'.params = e.params
  stmts : e.stmts <+: e'.stmts
  st : (frame world inputs σ e').st = (frame world inputs σ e).st

structure Holds (e : Emitter P) (w : ℕ) (bit : Bool) : Prop where
  lt : w < e.params + e.stmts.length
  value : (look (frame world inputs σ e).vals w).bit = bit

end

variable {world : Externals} {inputs : List Bool} {σ : EvalState} {e e' e'' : Emitter P}

theorem Quiet.refl (e : Emitter P) : Quiet world inputs σ e e := ⟨rfl, List.prefix_refl _, rfl⟩

theorem Quiet.trans (h : Quiet world inputs σ e e') (h' : Quiet world inputs σ e' e'') :
    Quiet world inputs σ e e'' :=
  ⟨h'.params.trans h.params, h.stmts.trans h'.stmts, h'.st.trans h.st⟩

theorem length_frame (hlen : inputs.length = e.params) :
    (frame world inputs σ e).vals.length = e.params + e.stmts.length := by
  simp [frame, kinds, hlen]

theorem Holds.mono {w : ℕ} {bit : Bool} (h : Holds world inputs σ e w bit)
    (hlen : inputs.length = e.params) (hq : Quiet world inputs σ e e') :
    Holds world inputs σ e' w bit := by
  obtain ⟨more, hmore⟩ := hq.stmts
  have hlt := h.lt
  refine ⟨?_, ?_⟩
  · rw [hq.params, ← hmore, List.length_append]
    omega
  · have hframe : frame world inputs σ e' =
        evalStmts world (frame world inputs σ e) (more.map Node.kind) := by
      rw [frame, frame, kinds, kinds, ← hmore, List.map_append, evalStmts_append]
    rw [hframe, evalStmts_look (by rw [length_frame hlen]; exact hlt)]
    exact h.value

/-- A wire of a statement that leaves the storage alone. -/
theorem emit_yields (hlen : inputs.length = e.params) (stmt : Stmt) (prov : P) {bit : Bool}
    (h : evalStmt world (frame world inputs σ e).st
      (stmt.mapVars (look (frame world inputs σ e).vals)) =
        (⟨bit, .none⟩, (frame world inputs σ e).st)) :
    Quiet world inputs σ e (emit stmt prov e).2 ∧
      Holds world inputs σ (emit stmt prov e).2 (emit stmt prov e).1 bit := by
  have hframe : frame world inputs σ (emit stmt prov e).2 =
      stepStmt world (frame world inputs σ e) stmt := by
    simp [frame, kinds, emit, evalStmts_append]
  have hvals : (frame world inputs σ e).vals.length = _ := length_frame hlen
  refine ⟨⟨rfl, List.prefix_append _ _, ?_⟩, ?_, ?_⟩
  · rw [hframe, stepStmt, h]
  · simp [emit]
  · rw [hframe, stepStmt, h]
    show (look _ (e.params + e.stmts.length)).bit = bit
    rw [← hvals, look_append_length]

theorem evalStmt_constStmt (σ : EvalState) (values : ℕ → Value) (bit : Bool) :
    evalStmt world σ ((constStmt bit).mapVars values) = (⟨bit, .none⟩, σ) := by
  cases bit <;> rfl

theorem holds_constWire (hlen : inputs.length = e.params) {key : ℕ × Bool} {w : ℕ}
    (h : e.constWires key = some w) : Holds world inputs σ e w key.2 := by
  obtain ⟨i, rfl, hi⟩ := e.placed key w h
  obtain ⟨s, hs, hkind⟩ := Option.map_eq_some_iff.mp hi
  obtain ⟨hlt, hget⟩ := List.getElem?_eq_some_iff.mp hs
  refine ⟨by omega, ?_⟩
  have hsplit : e.kinds = e.kinds.take i ++ constStmt key.2 :: e.kinds.drop (i + 1) := by
    have hlt' : i < e.kinds.length := by rwa [kinds, List.length_map]
    have hat : e.kinds[i] = constStmt key.2 := by simp [kinds, hget, hkind]
    rw [← hat, ← List.drop_eq_getElem_cons hlt', List.take_append_drop]
  rw [frame, hsplit, evalStmts_append, evalStmts_cons]
  obtain ⟨before, hbefore⟩ : ∃ f, f = evalStmts world ⟨paramValues inputs, σ⟩ (e.kinds.take i) :=
    ⟨_, rfl⟩
  have hvals : before.vals.length = e.params + i := by
    rw [hbefore, evalStmts_length, paramValues_length, hlen, List.length_take, kinds,
      List.length_map]
    omega
  rw [← hbefore, evalStmts_look (by rw [stepStmt_length]; omega), stepStmt, evalStmt_constStmt]
  dsimp only
  rw [← hvals, look_append_length]

theorem constBitWire_yields (hlen : inputs.length = e.params) (i j : ℕ) (prov : P) :
    Quiet world inputs σ e (constBitWire i j prov e).2 ∧
      Holds world inputs σ (constBitWire i j prov e).2 (constBitWire i j prov e).1
        (i.testBit j) := by
  unfold constBitWire
  split
  · rename_i w hw
    exact ⟨.refl e, holds_constWire hlen hw⟩
  · have hemit := emit_yields hlen _ prov (evalStmt_constStmt
      (frame world inputs σ e).st (look (frame world inputs σ e).vals) (i.testBit j))
    exact ⟨⟨hemit.1.params, hemit.1.stmts, hemit.1.st⟩, hemit.2.lt, hemit.2.value⟩

/-- Wires made one after another. -/
theorem mapM_yields {α : Type} {f : α → StateM (Emitter P) ℕ} {g : α → Bool}
    (hlen : inputs.length = e.params) {xs : List α}
    (hf : ∀ x ∈ xs, ∀ e', Quiet world inputs σ e e' → Quiet world inputs σ e' (f x e').2 ∧
      Holds world inputs σ (f x e').2 (f x e').1 (g x)) :
    Quiet world inputs σ e (xs.mapM f e).2 ∧
      List.Forall₂ (Holds world inputs σ (xs.mapM f e).2) (xs.mapM f e).1 (xs.map g) := by
  induction xs generalizing e with
  | nil => exact ⟨.refl e, .nil⟩
  | cons x xs ih =>
      rw [List.mapM_cons]
      obtain ⟨hq, hhead⟩ := hf x List.mem_cons_self e (.refl e)
      have hlen' : inputs.length = (f x e).2.params := hlen.trans hq.params.symm
      obtain ⟨hrest, hall⟩ := ih hlen' fun y hy e' hq' =>
        hf y (List.mem_cons_of_mem x hy) e' (hq.trans hq')
      exact ⟨hq.trans hrest, .cons (hhead.mono hlen' hrest) hall⟩

theorem constIndexBits_yields (hlen : inputs.length = e.params) (i k : ℕ) (prov : P) :
    Quiet world inputs σ e (constIndexBits i k prov e).2 ∧
      List.Forall₂ (Holds world inputs σ (constIndexBits i k prov e).2)
        (constIndexBits i k prov e).1 ((List.range (indexBits k)).map i.testBit) :=
  mapM_yields hlen fun j _ _ hq => constBitWire_yields (hlen.trans hq.params.symm) i j prov

theorem bits_of_holds {ws : List ℕ} {bits : List Bool}
    (h : List.Forall₂ (Holds world inputs σ e) ws bits) :
    Value.bits (ws.map (look (frame world inputs σ e).vals)) = bits := by
  induction h with
  | nil => rfl
  | cons hw _ ih =>
      rw [Value.bits, List.map_cons, List.map_cons, hw.value]
      exact congrArg _ ih

/-- A read yields the bits at the addresses that continue the element's. -/
theorem lowerStorageRead_yields (hlen : inputs.length = e.params) (storage : StorageId)
    (lane : LaneId) {base : List ℕ} {a : List Bool}
    (hbase : List.Forall₂ (Holds world inputs σ e) base a) (k : ℕ) (prov : P) :
    Quiet world inputs σ e (lowerStorageRead storage lane base k prov e).2 ∧
      List.Forall₂ (Holds world inputs σ (lowerStorageRead storage lane base k prov e).2)
        (lowerStorageRead storage lane base k prov e).1
        ((List.range k).map fun i => (frame world inputs σ e).st.storage.read
          ((storage, lane), a ++ (List.range (indexBits k)).map i.testBit)) := by
  apply mapM_yields hlen
  intro i _ e' hq
  have hlen' : inputs.length = e'.params := hlen.trans hq.params.symm
  obtain ⟨hindex, hholds⟩ := constIndexBits_yields hlen' i k prov
  obtain ⟨mid, hmid⟩ : ∃ mid, mid = (constIndexBits i k prov e').2 := ⟨_, rfl⟩
  rw [← hmid] at hindex hholds
  have hbase' := hbase.imp fun _ _ hw => hw.mono hlen (hq.trans hindex)
  have haddr := bits_of_holds (List.rel_append hbase' hholds)
  have hstmt : evalStmt world (frame world inputs σ mid).st
      ((BIrStmt.storageRead storage lane (base ++ (constIndexBits i k prov e').1)).mapVars
        (look (frame world inputs σ mid).vals)) =
      (⟨(frame world inputs σ e).st.storage.read
        ((storage, lane), a ++ (List.range (indexBits k)).map i.testBit), .none⟩,
        (frame world inputs σ mid).st) := by
    rw [BIrStmt.mapVars, evalStmt, haddr, (hq.trans hindex).st]
  have hemit := emit_yields (hlen'.trans hindex.params.symm) _ prov hstmt
  rw [hmid] at hindex hemit
  exact ⟨hindex.trans hemit.1, hemit.2⟩

end Emitter
end VolarIR.Lowering
