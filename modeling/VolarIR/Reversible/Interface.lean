import VolarIR.Reversible.FromReversible
import VolarIR.Boolar.Renaming

/-!
# A circuit's public interface

Hardcoding inputs turns parameters into leading constants and renumbers every var once;
removing outputs filters the output list. The invariant of the first is `Renamed`: every
var of the original circuit has a defined counterpart with its value.
-/
namespace VolarIR.Rev
open Boolar Fallible

def slots (params : ℕ) (hardcoded : List (ℕ × Bool)) : List (Option Bool) :=
  (List.range params).map fun i => hardcoded.lookup i

def mergeInputs : List (Option Bool) → List Bool → List Bool
  | [], _ => []
  | some value :: rest, bits => value :: mergeInputs rest bits
  | none :: rest, bits => bits.headD false :: mergeInputs rest bits.tail

@[simp] theorem slots_length (params : ℕ) (hardcoded : List (ℕ × Bool)) :
    (slots params hardcoded).length = params := by
  simp [slots]

structure Fixings (params : ℕ) (hardcoded : List (ℕ × Bool)) : Prop where
  nodup : (hardcoded.map Prod.fst).Nodup
  inRange : ∀ p ∈ hardcoded, p.1 < params

/-- The loop fills free slots, by induction on the fixings. -/
theorem fixInputs_eq {params : ℕ} {hardcoded : List (ℕ × Bool)} {fixed : List (Option Bool)}
    (hnd : (hardcoded.map Prod.fst).Nodup) (hfree : ∀ p ∈ hardcoded, fixed[p.1]? = some none) :
    fixInputs params fixed hardcoded =
      .ok (fixed.mapIdx fun i slot => (hardcoded.lookup i).or slot) := by
  induction hardcoded generalizing fixed with
  | nil =>
      rw [fixInputs]
      congr 1
      apply List.ext_getElem <;> simp
  | cons p rest ih =>
      obtain ⟨input, value⟩ := p
      rw [List.map_cons, List.nodup_cons] at hnd
      obtain ⟨hin, hrest⟩ := List.forall_mem_cons.mp hfree
      have hin : fixed[input]? = some none := hin
      have hne : ∀ p ∈ rest, input ≠ p.1 := fun p hp he =>
        hnd.1 (List.mem_map.mpr ⟨p, hp, he.symm⟩)
      have hfree' : ∀ p ∈ rest, (fixed.set input (some value))[p.1]? = some none := fun p hp => by
        rw [List.getElem?_set_ne (hne p hp)]
        exact hrest p hp
      rw [fixInputs, hin]
      simp only [Option.isSome_none, Bool.false_eq_true, if_false]
      rw [ih hnd.2 hfree']
      have hnone : rest.lookup input = none := by
        rw [List.lookup_eq_none_iff]
        intro p hp
        simpa using hne p hp
      congr 1
      apply List.ext_getElem?
      intro i
      by_cases hi : i = input
      · subst hi
        have hlt : i < fixed.length := (List.getElem?_eq_some_iff.mp hin).1
        simp [hlt, hnone, List.lookup_cons]
      · have hbeq : (i == input) = false := beq_false_of_ne hi
        simp [List.getElem?_mapIdx, List.getElem?_set_ne (Ne.symm hi), List.lookup_cons, hbeq]

theorem Fixings.fixInputs_eq {params : ℕ} {hardcoded : List (ℕ × Bool)}
    (h : Fixings params hardcoded) :
    fixInputs params (List.replicate params none) hardcoded = .ok (slots params hardcoded) := by
  rw [Rev.fixInputs_eq h.nodup fun p hp => by simp [h.inRange p hp]]
  congr 1
  apply List.ext_getElem <;> simp [slots]

section Remap
variable {P : Type} {world : Externals} {bits : List Bool} {σ : EvalState} {H : ℕ → Prop}
  {result : BCircuit P} {remap : List ℕ} {f : Frame}

theorem kinds_append (result : BCircuit P) (node : Node Stmt P) :
    ({ result with stmts := result.stmts ++ [node] } : BCircuit P).kinds =
      result.kinds ++ [node.kind] := by
  simp [BCircuit.kinds]

theorem varSpace_eq (result : BCircuit P) (hb : bits.length = result.params) :
    bits.length + result.kinds.length = result.varSpace := by
  simp [BCircuit.varSpace, BCircuit.kinds, hb]

/-- The slots turn into leading constants and remaining parameters, by induction on them. -/
theorem mapInputs_renamed (prov : P) {slots : List (Option Bool)} {next : ℕ} {vals : List Value}
    (h : Renamed world bits σ H result.kinds remap ⟨vals, σ⟩) (hb : bits.length = result.params)
    (hbits : next + slots.countP Option.isNone ≤ bits.length) :
    Renamed world bits σ H (mapInputs prov result remap next slots).1.kinds
      (mapInputs prov result remap next slots).2
      ⟨vals ++ paramValues (mergeInputs slots (bits.drop next)), σ⟩ := by
  induction slots generalizing result remap next vals with
  | nil => simpa [mapInputs, mergeInputs, paramValues] using h
  | cons slot rest ih =>
      cases slot with
      | some value =>
          have hpush : Renamed world bits σ H
              (result.pushStmt (if value then .one else .zero) prov).2.kinds
              (remap ++ [result.varSpace]) ⟨vals ++ [⟨value, .none⟩], σ⟩ := by
            rw [BCircuit.pushStmt, kinds_append, ← varSpace_eq result hb]
            cases value with
            | false =>
                exact h.emit (s := .zero) (by simp [BIrStmt.operands])
                  (by simp [BIrStmt.handles])
            | true =>
                exact h.emit (s := .one) (by simp [BIrStmt.operands])
                  (by simp [BIrStmt.handles])
          have hbits : next + rest.countP Option.isNone ≤ bits.length := by simpa using hbits
          have := ih hpush hb hbits
          simpa [mapInputs, mergeInputs, paramValues, BCircuit.pushStmt, BCircuit.varSpace]
            using this
      | none =>
          rw [List.countP_cons_of_pos rfl] at hbits
          have hlt : next < bits.length := by omega
          have hpush := h.push (List.prefix_refl _) (u := next)
            (r := (⟨bits.getD next false, .none⟩, σ)) (Nat.lt_add_right _ hlt)
            (by rw [runStmts, evalStmts_look (by simpa using hlt), look_paramValues]) h.st
          have hbits : next + 1 + rest.countP Option.isNone ≤ bits.length := by omega
          have := ih hpush hb hbits
          have hhead : (bits.drop next).headD false = bits.getD next false := by
            simp [List.headD_eq_head?_getD, List.head?_drop]
          simpa [mapInputs, mergeInputs, paramValues, hhead] using this

theorem lookupRemap_ok {remap : List ℕ} {v : ℕ} (h : v < remap.length) :
    lookupRemap remap v = .ok (remap.getD v 0) := by
  simp [lookupRemap, h]

theorem lt_of_lookupRemap_ok {remap : List ℕ} {v w : ℕ} (h : lookupRemap remap v = .ok w) :
    v < remap.length := by
  by_contra hv
  simp [lookupRemap, List.getElem?_eq_none (Nat.le_of_not_lt hv)] at h

theorem kind_of_map_ok {remap : List ℕ} {s t : Stmt}
    (h : s.map (lookupRemap remap) (fun storage => pure storage) = .ok t) :
    (∀ v ∈ s.operands, v < remap.length) ∧ t = s.mapVars fun v => remap.getD v 0 := by
  have hlt : ∀ v ∈ s.operands, v < remap.length := fun v hv => by
    obtain ⟨w, hw⟩ := BIrStmt.of_map_eq_ok h v hv
    exact lt_of_lookupRemap_ok hw
  have heq := BIrStmt.map_eq_ok (f := lookupRemap remap) fun v hv => lookupRemap_ok (hlt v hv)
  exact ⟨hlt, (Except.ok.inj (heq.symm.trans h)).symm⟩

/-- The statements keep the invariant, by induction on them. -/
theorem remapStmts_renamed {stmts : List (Node Stmt P)} {result' : BCircuit P} {remap' : List ℕ}
    (h : Renamed world bits σ H result.kinds remap f) (hb : bits.length = result.params)
    (hH : ∀ v, H v)
    (hr : remapStmts result remap stmts = .ok (result', remap')) :
    Renamed world bits σ H result'.kinds remap' (evalStmts world f (stmts.map Node.kind)) ∧
      result'.params = result.params := by
  induction stmts generalizing result remap f with
  | nil =>
      obtain ⟨rfl, rfl⟩ := Prod.mk.inj (Except.ok.inj hr)
      exact ⟨h, rfl⟩
  | cons node rest ih =>
      rw [remapStmts, Except.bind_eq_ok] at hr
      obtain ⟨kind, hkind, hr⟩ := hr
      obtain ⟨hlt, rfl⟩ := kind_of_map_ok hkind
      split_ifs at hr with hfull
      have hemit := h.emit hlt fun v _ => hH v
      rw [varSpace_eq result hb] at hemit
      have hkinds := kinds_append result
        { node with kind := node.kind.mapVars fun v => remap.getD v 0 }
      rw [← hkinds] at hemit
      have hrest := ih hemit hb hr
      exact hrest

theorem remapStmts_ok (result : BCircuit P) (remap : List ℕ) {stmts : List (Node Stmt P)}
    (hd : Defined remap.length (stmts.map Node.kind))
    (hfit : result.varSpace + stmts.length ≤ u32Max) :
    ∃ r, remapStmts result remap stmts = .ok r ∧ r.2.length = remap.length + stmts.length := by
  induction stmts generalizing result remap with
  | nil => exact ⟨_, rfl, rfl⟩
  | cons node rest ih =>
      obtain ⟨hop, hd⟩ := hd
      rw [List.length_cons] at hfit
      have hkind := BIrStmt.map_eq_ok (s := node.kind) fun v hv => lookupRemap_ok (hop v hv)
      obtain ⟨r, hr, hl⟩ := ih
        { result with stmts := result.stmts ++ [{ node with
          kind := node.kind.mapVars fun v => remap.getD v 0 }] }
        (remap ++ [result.varSpace]) (by simpa using hd) (by simp [BCircuit.varSpace] at *; omega)
      refine ⟨r, ?_, by simp at hl; simp; omega⟩
      rw [remapStmts, show node.kind.map (lookupRemap remap) (fun storage => pure storage) = _
        from hkind, ok_bind, if_neg (by omega)]
      exact hr

theorem mapInputs_shape (prov : P) (result : BCircuit P) (remap : List ℕ) (next : ℕ)
    (slots : List (Option Bool)) :
    let r := mapInputs prov result remap next slots
    r.1.params = result.params ∧ r.2.length = remap.length + slots.length ∧
      r.1.varSpace + slots.countP Option.isNone = result.varSpace + slots.length := by
  induction slots generalizing result remap next with
  | nil => exact ⟨rfl, rfl, rfl⟩
  | cons slot rest ih =>
      cases slot with
      | some value =>
          obtain ⟨h₁, h₂, h₃⟩ := ih (result.pushStmt (if value then .one else .zero) prov).2
            (remap ++ [result.varSpace]) next
          refine ⟨h₁, ?_, ?_⟩
          · rw [List.length_append, List.length_singleton] at h₂
            rw [List.length_cons]
            exact h₂.trans (by omega)
          · have hpush : (result.pushStmt (if value then Boolar.BIrStmt.one else .zero)
              prov).2.varSpace =
                result.varSpace + 1 := by
              simp [BCircuit.pushStmt, BCircuit.varSpace, Nat.add_assoc]
            rw [hpush] at h₃
            rw [List.countP_cons_of_neg (by simp), List.length_cons]
            exact h₃.trans (by omega)
      | none =>
          obtain ⟨h₁, h₂, h₃⟩ := ih result (remap ++ [next]) (next + 1)
          refine ⟨h₁, ?_, ?_⟩
          · rw [List.length_append, List.length_singleton] at h₂
            rw [List.length_cons]
            exact h₂.trans (by omega)
          · rw [List.countP_cons_of_pos rfl, List.length_cons]
            simp only [mapInputs]
            omega

end Remap

section Hardcode
variable {P : Type} {c r : BCircuit P} {hardcoded : List (ℕ × Bool)} {prov : P}

theorem hardcode_eval (hf : Fixings c.params hardcoded)
    (hr : hardcodeCircuitInputs c hardcoded prov = .ok r) :
    r.params = (slots c.params hardcoded).countP Option.isNone ∧
      r.outputs.length = c.outputs.length ∧ ∀ (world : Externals) (bits : List Bool)
          (σ : EvalState), bits.length = r.params →
        let inputs := mergeInputs (slots c.params hardcoded) bits
        r.eval world bits σ = c.eval world inputs σ ∧
          (r.evalFrame world bits σ).st = (c.evalFrame world inputs σ).st := by
  rw [hardcodeCircuitInputs, hf.fixInputs_eq, ok_bind] at hr
  generalize slots c.params hardcoded = fixed at hr ⊢
  dsimp only at hr
  split_ifs at hr with hbig
  obtain ⟨⟨result, remap⟩, hstmts, hr⟩ := Except.bind_eq_ok.mp hr
  obtain ⟨outputs, houts, hr⟩ := Except.bind_eq_ok.mp hr
  obtain rfl := Except.ok.inj hr
  have hshape := mapInputs_shape prov ⟨fixed.countP Option.isNone, [], c.preInit, []⟩ [] 0 fixed
  -- the run of the specialised circuit, up to its outputs
  have hrun : ∀ (world : Externals) (bits : List Bool) (σ : EvalState),
      bits.length = fixed.countP Option.isNone →
      Renamed world bits σ (fun _ => True) result.kinds remap
          (c.evalFrame world (mergeInputs fixed bits) σ) ∧
        result.params = fixed.countP Option.isNone := by
    intro world bits σ hb
    have hinit : Renamed world bits σ (fun _ => True)
        (⟨fixed.countP Option.isNone, [], c.preInit, []⟩ : BCircuit P).kinds [] ⟨[], σ⟩ :=
      ⟨rfl, by simp, by simp, by simp, rfl⟩
    have hzero : 0 + fixed.countP Option.isNone ≤ bits.length := by omega
    have hinputs := mapInputs_renamed prov hinit hb hzero
    obtain ⟨h, hp⟩ := remapStmts_renamed hinputs (hb.trans hshape.1.symm) (fun _ => trivial) hstmts
    rw [List.drop_zero, List.nil_append] at h
    exact ⟨h, hp.trans hshape.1⟩
  have hparams := (hrun ⟨fun _ _ _ => false, fun _ _ _ _ => false, fun _ _ _ => false⟩
    (List.replicate _ false) (.init .empty) List.length_replicate).2
  have hlt : ∀ v ∈ c.outputs, v < remap.length := fun v hv => by
    obtain ⟨w, hw⟩ := of_mapM_eq_ok houts v hv
    exact lt_of_lookupRemap_ok hw
  have houts' : outputs = c.outputs.map fun v => remap.getD v 0 :=
    (Except.ok.inj ((mapM_eq_ok fun v hv => lookupRemap_ok (hlt v hv)).symm.trans houts)).symm
  refine ⟨hparams, by simp [houts'], fun world bits σ hb => ?_⟩
  obtain ⟨h, -⟩ := hrun world bits σ (hb.trans hparams)
  refine ⟨?_, h.st⟩
  rw [houts', BCircuit.eval, List.map_map, BCircuit.eval]
  exact List.map_congr_left fun v hv => h.bit v (hlt v hv)

theorem hardcode_ok (hf : Fixings c.params hardcoded) (hc : c.WellFormed)
    (hfit : c.varSpace ≤ u32Max) (prov : P) :
    ∃ r, hardcodeCircuitInputs c hardcoded prov = .ok r := by
  have hle : c.params ≤ c.varSpace := Nat.le_add_right ..
  rw [hardcodeCircuitInputs, hf.fixInputs_eq, ok_bind]
  have hlen : (slots c.params hardcoded).length = c.params := slots_length ..
  generalize slots c.params hardcoded = fixed at hlen ⊢
  have hcount : fixed.countP Option.isNone ≤ c.params := hlen ▸ List.countP_le_length
  dsimp only
  rw [if_neg (by omega)]
  have hshape := mapInputs_shape prov ⟨fixed.countP Option.isNone, [], c.preInit, []⟩ [] 0 fixed
  generalize mapInputs prov ⟨fixed.countP Option.isNone, [], c.preInit, []⟩ [] 0 fixed = r₀
    at hshape ⊢
  obtain ⟨h₁, h₂, h₃⟩ := hshape
  rw [List.length_nil, Nat.zero_add, hlen] at h₂
  obtain ⟨⟨result, remap⟩, hstmts, hl⟩ := remapStmts_ok r₀.1 r₀.2
    (show Defined r₀.2.length (c.stmts.map Node.kind) from h₂ ▸ hc.1)
    (by simp only [BCircuit.varSpace, List.length_nil] at *; omega)
  have houts : c.outputs.mapM (lookupRemap remap) = .ok (c.outputs.map fun v => remap.getD v 0) :=
    mapM_eq_ok fun v hv => lookupRemap_ok (by rw [hl, h₂]; exact hc.2 v hv)
  simp only [hstmts, ok_bind, houts]
  exact ⟨_, rfl⟩

end Hardcode

/-- Distinct in-range positions are collected, by induction on them. -/
theorem removedPositions_ok {outputs : ℕ} {positions removed : List ℕ} (hnd : removed.Nodup)
    (hin : ∀ i ∈ removed, i < outputs) (hd : ∀ i ∈ removed, i ∉ positions) :
    removedPositions outputs positions removed = .ok (removed.reverse ++ positions) := by
  induction removed generalizing positions with
  | nil => rfl
  | cons i rest ih =>
      rw [List.forall_mem_cons] at hin hd
      rw [List.nodup_cons] at hnd
      rw [removedPositions, if_neg (Nat.not_le.mpr hin.1), if_neg hd.1,
        ih hnd.2 hin.2 fun j hj hm => ?_]
      · simp
      · rcases List.mem_cons.mp hm with rfl | hm
        · exact hnd.1 hj
        · exact hd.2 j hj hm

/-- Every position outside the register of `k` outputs from `a` on. -/
def outside (outputs a k : ℕ) : List ℕ :=
  (List.range outputs).filter fun i => i < a ∨ a + k ≤ i

theorem mem_outside {outputs a k i : ℕ} (h : i < outputs) :
    i ∈ outside outputs a k ↔ i < a ∨ a + k ≤ i := by
  simp [outside, h]

theorem filter_register {α : Type} (l₁ l₂ l₃ : List α) {q : ℕ → Bool}
    (hq : ∀ i < l₁.length + l₂.length + l₃.length,
      (q i ↔ l₁.length ≤ i ∧ i < l₁.length + l₂.length)) :
    ((l₁ ++ (l₂ ++ l₃)).zipIdx.filter fun p => q p.2).map Prod.fst = l₂ := by
  have h₁ : l₁.zipIdx.filter (fun p => q p.2) = [] := by
    refine List.filter_eq_nil_iff.mpr fun p hp => ?_
    obtain ⟨-, hi, -⟩ := List.mem_zipIdx hp
    rw [hq p.2 (by omega)]
    omega
  have h₂ : (l₂.zipIdx l₁.length).filter (fun p => q p.2) = l₂.zipIdx l₁.length := by
    refine List.filter_eq_self.mpr fun p hp => ?_
    obtain ⟨hlo, hi, -⟩ := List.mem_zipIdx hp
    rw [hq p.2 (by omega)]
    omega
  have h₃ : (l₃.zipIdx (l₁.length + l₂.length)).filter (fun p => q p.2) = [] := by
    refine List.filter_eq_nil_iff.mpr fun p hp => ?_
    obtain ⟨hlo, hi, -⟩ := List.mem_zipIdx hp
    rw [hq p.2 (by omega)]
    omega
  rw [List.zipIdx_append, List.zipIdx_append, Nat.zero_add, List.filter_append,
    List.filter_append, h₁, h₂, h₃]
  simp

theorem remove_outside {P : Type} {c : BCircuit P} {a k : ℕ} (h : a + k ≤ c.outputs.length) :
    removeCircuitOutputs c (outside c.outputs.length a k) =
      .ok { c with outputs := (c.outputs.drop a).take k } := by
  have hpos : removedPositions c.outputs.length [] (outside c.outputs.length a k) =
      .ok ((outside c.outputs.length a k).reverse ++ []) :=
    removedPositions_ok (List.nodup_range.filter _)
      (fun i hi => List.mem_range.mp (List.mem_of_mem_filter hi)) fun i _ => List.not_mem_nil
  have hsplit : c.outputs =
      c.outputs.take a ++ ((c.outputs.drop a).take k ++ (c.outputs.drop a).drop k) := by
    rw [List.take_append_drop, List.take_append_drop]
  have hl : (c.outputs.take a).length = a := by simp; omega
  have hk : ((c.outputs.drop a).take k).length = k := by simp; omega
  have hkeep := filter_register (c.outputs.take a) ((c.outputs.drop a).take k)
    ((c.outputs.drop a).drop k)
    (q := fun i => i ∉ (outside c.outputs.length a k).reverse ++ [])
    fun i hi => by
      rw [hl, hk, List.length_drop, List.length_drop] at *
      simp only [List.append_nil, List.mem_reverse, decide_eq_true_eq]
      rw [mem_outside (by omega)]
      omega
  rw [← hsplit] at hkeep
  rw [removeCircuitOutputs, hpos, ok_bind]
  simp only [hkeep]
  rfl

end VolarIR.Rev
