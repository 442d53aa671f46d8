import VolarIR.Reversible.Synthesis

/-!
# The naive lowering simulates the circuit

The run of the synthesised gates and the sequential evaluation of the statements
are kept in step by `Sim`: every var still alive sits on its wire, unused wires are
clean, and the cells agree. A fresh step and an in-place step both preserve it, so
the statement loop does.
-/
namespace VolarIR.Rev
open Boolar Words BitStore

section Gates
variable (reg : Registry) (world : Externals) {share : Bool} {s : Stmt} {m : ℕ → ℕ} {wr : ℕ}
  {bs : List ℕ} {t : RState} {σ : EvalState} {val : ℕ → Value}

theorem cell_eq {storage : StorageId} {lane : LaneId} {addr : List ℕ} {w : ℕ → Bool}
    (h : ∀ v ∈ addr, w (m v) = (val v).bit) :
    ((storage, lane), (addr.map m).map w) = ((storage, lane), Value.bits (addr.map val)) := by
  simpa [Value.bits] using h

/-- From clean result and scratch wires, the gates leave the statement's value on
the result wire and its effect in the cells. -/
theorem stmtGates_run (hs : s.isLocal) (hb : bs.length = (scratchNeed share s).1)
    (hn : (wr :: bs).Nodup) (hm : ∀ v ∈ s.operands, m v ≠ wr ∧ m v ∉ bs)
    (hwr : t.wires wr = false) (hbs : ∀ b ∈ bs, t.wires b = false)
    (hc : t.cells = σ.storage.read) (hv : ∀ v ∈ s.operands, t.wires (m v) = (val v).bit) :
    (run (RGate.act reg) (stmtGates share m wr bs s) t).wires wr =
        (evalStmt world σ (s.mapVars val)).1.bit ∧
      ((scratchNeed share s).2 = true →
        ∀ b ∈ bs, (run (RGate.act reg) (stmtGates share m wr bs s) t).wires b = false) ∧
      (run (RGate.act reg) (stmtGates share m wr bs s) t).cells =
        (evalStmt world σ (s.mapVars val)).2.storage.read := by
  cases s with
  | zero | one =>
      obtain rfl := List.eq_nil_of_length_eq_zero hb
      simp [stmtGates, RGate.act, BIrStmt.mapVars, evalStmt, hwr, hc]
  | xor a b | and a b =>
      obtain rfl := List.eq_nil_of_length_eq_zero hb
      have ha := hm a (by simp [BIrStmt.operands])
      have hb := hm b (by simp [BIrStmt.operands])
      have hva := hv a (by simp [BIrStmt.operands])
      have hvb := hv b (by simp [BIrStmt.operands])
      simp [stmtGates, RGate.act, BIrStmt.mapVars, evalStmt, hwr, hc, hva, hvb, hb.1]
  | not a =>
      obtain rfl := List.eq_nil_of_length_eq_zero hb
      have hva := hv a (by simp [BIrStmt.operands])
      simp [stmtGates, RGate.act, BIrStmt.mapVars, evalStmt, hwr, hc, hva]
  | or a b =>
      obtain ⟨na, nb, rfl⟩ := List.length_eq_two.mp hb
      have ha := hm a (by simp [BIrStmt.operands])
      have hb' := hm b (by simp [BIrStmt.operands])
      have hva := hv a (by simp [BIrStmt.operands])
      have hvb := hv b (by simp [BIrStmt.operands])
      have hna := hbs na (by simp)
      have hnb := hbs nb (by simp)
      simp only [List.nodup_cons, List.mem_cons, List.not_mem_nil, or_false, not_or] at hn ha hb'
      cases share <;>
        simp [stmtGates, orGates, orRestore, RGate.act, BIrStmt.mapVars, evalStmt, scratchNeed,
          hwr, hc, hva, hvb, hna, hnb, hn.1.1, hn.1.2, hn.2.1, ha.2.1, ha.2.2, hb'.2.1, hb'.2.2,
          ha.1, hb'.1, Ne.symm hn.1.1, Ne.symm hn.1.2, Ne.symm hn.2.1]
  | storageRead storage lane addr =>
      obtain ⟨x, rfl⟩ := List.length_eq_one_iff.mp hb
      have hx := hbs x (by simp)
      have hxw : wr ≠ x := fun e => by simp [e] at hn
      have hmx : ∀ v ∈ addr, m v ≠ x ∧ m v ≠ wr := fun v hv => by
        have := hm v hv
        simp_all
      -- neither the scratch wire nor the result wire is part of the address
      have hcell : ∀ w : ℕ → Bool, (∀ j, j ≠ x → j ≠ wr → w j = t.wires j) →
          ((storage, lane), (addr.map m).map w) = ((storage, lane), Value.bits (addr.map val)) :=
        fun w hw => cell_eq fun v hv' => (hw _ (hmx v hv').1 (hmx v hv').2).trans (hv v hv')
      simp only [stmtGates, List.getD_cons_zero, run_cons, run_nil, RGate.act, RState.cell,
        BIrStmt.mapVars, evalStmt]
      rw [hcell t.wires fun _ _ _ => rfl, hcell _ fun j h₁ h₂ => by simp [h₁, h₂]]
      simp [hxw, hxw.symm, hwr, hx, hc]
  | storageWrite storage lane src addr =>
      obtain ⟨x, rfl⟩ := List.length_eq_one_iff.mp hb
      have hx := hbs x (by simp)
      have hxw : wr ≠ x := fun e => by simp [e] at hn
      have hsrc := hv src (by simp [BIrStmt.operands])
      have hcell : ((storage, lane), (addr.map m).map (toggle x (t.wires (m src)) t.wires)) =
          ((storage, lane), Value.bits (addr.map val)) := cell_eq fun v hv' => by
        have hmv := hm v (by simp [BIrStmt.operands, hv'])
        rw [toggle_of_ne (by simpa using hmv.2), hv v (by simp [BIrStmt.operands, hv'])]
      simp only [stmtGates, List.getD_cons_zero, run_cons, run_nil, RGate.act, RState.cell,
        BIrStmt.mapVars, evalStmt, hcell]
      simp [hxw, hwr, hx, hc, hsrc, scratchNeed, StorageMap.read_insert]
  | _ => simp [BIrStmt.isLocal, BIrStmt.isGate] at hs

end Gates

/-- A gate one step may append for `s`. -/
def Emits (share : Bool) (s : Stmt) (g : RGate) : Prop :=
  (∃ m wr bs, g ∈ stmtGates share m wr bs s) ∨ ∃ a b, g = .cnot a b

theorem Emits.no_externals {share : Bool} {s : Stmt} {g : RGate} (h : Emits share s g)
    (hs : s.isLocal) : g.usesExternals = false := by
  obtain ⟨m, wr, bs, hg⟩ | ⟨a, b, rfl⟩ := h
  · revert g
    cases s with
    | or a b => cases share <;> simp [stmtGates, orGates, orRestore, RGate.usesExternals]
    | _ => simp_all [stmtGates, RGate.usesExternals, BIrStmt.isLocal, BIrStmt.isGate]
  · rfl

theorem Emits.no_storage {share : Bool} {s : Stmt} {g : RGate} (h : Emits share s g)
    (hs : s.isGate) : g.usesStorage = false := by
  obtain ⟨m, wr, bs, hg⟩ | ⟨a, b, rfl⟩ := h
  · revert g
    cases s with
    | or a b => cases share <;> simp [stmtGates, orGates, orRestore, RGate.usesStorage]
    | _ => simp_all [stmtGates, RGate.usesStorage, BIrStmt.isGate]
  · rfl

/-- Between the statements' frame and the gates' state, half way through the loop. -/
structure Sim (prov : ℕ) (st : Synth) (dead : List ℕ) (f : Frame) (t : RState) : Prop where
  defined : f.vals.length = st.map.length
  vars : ∀ v < st.map.length, v ∉ dead → t.wires (st.wireOf v) = (look f.vals v).bit
  clean : ∀ w, st.nextAnc ≤ w → w < prov → t.wires w = false
  idle : ∀ w, st.scratch.Idle w → t.wires w = false
  cells : t.cells = f.st.storage.read

section Step
variable {reg : Registry} {world : Externals} {params prov base i : ℕ} {uses rest dead : List ℕ}
  {share : Bool} {st st' : Synth} {s : Stmt} {f : Frame} {t : RState}

theorem Sim.operand (h : Sim prov st dead f t) (hw : st.Wf params base i)
    (ho : st.Owned params i uses (s.operands ++ rest) dead)
    (hd : ∀ v ∈ s.operands, v < params + i) {v : ℕ} (hv : v ∈ s.operands) :
    t.wires (st.wireOf v) = (look f.vals v).bit :=
  h.vars v (hw.map_length ▸ hd v hv) fun hm => ho.unread v hm (List.mem_append_left _ hv)

theorem Synth.FreshStep.sim (hw : st.Wf params base i)
    (ho : st.Owned params i uses (s.operands ++ rest) dead)
    (hd : ∀ v ∈ s.operands, v < params + i) (hi : params + i < prov) (hp : prov ≤ base)
    (hf : FreshStep share st s st') :
    ∃ gs, st'.gates = st.gates ++ gs ∧ (∀ g ∈ gs, Emits share s g) ∧ ∀ (reg : Registry)
        (world : Externals) (f : Frame)
      (t : RState), s.isLocal → Sim prov st dead f t →
        Sim prov st' dead (stepStmt world f s) (run (RGate.act reg) gs t) := by
  obtain ⟨pool, bs, hB, hl, rfl⟩ := hf
  refine ⟨stmtGates share st.wireOf st.nextAnc bs s, rfl, fun g hg => .inl ⟨_, _, _, hg⟩,
    fun reg world f t hs h => ?_⟩
  have hanc := hw.anc_le
  have hbs : ∀ w ∈ bs, base ≤ w := fun w hm => hw.pool_base ▸ (hB.range w hm).1
  have hn : (st.nextAnc :: bs).Nodup := List.nodup_cons.mpr
    ⟨fun hm => by have := hbs _ hm; omega, hB.nodup⟩
  have hm : ∀ v ∈ s.operands, st.wireOf v ≠ st.nextAnc ∧ st.wireOf v ∉ bs := fun v hv => by
    have hlt := hw.map_lt (hd v hv)
    exact ⟨hlt.ne, fun hm => by have := hbs _ hm; omega⟩
  obtain ⟨hres, hrestored, hcells⟩ := stmtGates_run reg world hs hl hn hm
    (h.clean _ le_rfl (by omega)) (fun b hb => h.idle b (hB.was_idle b hb)) h.cells
    fun v hv => h.operand hw ho hd hv
  -- every other wire is as before
  have hframe : ∀ w, w ≠ st.nextAnc → w ∉ bs →
      (run (RGate.act reg) (stmtGates share st.wireOf st.nextAnc bs s) t).wires w = t.wires w :=
    fun w h₁ h₂ => run_wires_of_not_target fun g hg hm =>
      ((stmtGates_wires _ _ hl g hg).2 w hm).elim h₁ h₂
  obtain ⟨hold, hlast⟩ := Synth.wireOf_push
    (st.fresh pool (stmtGates share st.wireOf st.nextAnc bs s)) hw.map_length rfl
  have hlen : f.vals.length = params + i := h.defined.trans hw.map_length
  constructor
  · rw [stepStmt_length, h.defined]
    exact (List.length_append : (st.map ++ [st.nextAnc]).length = _).symm
  · intro v hv hvd
    have hv' : v < params + i ∨ v = params + i := by
      have : v < (st.map ++ [st.nextAnc]).length := hv
      rw [List.length_append, hw.map_length, List.length_singleton] at this
      omega
    rcases hv' with hv' | rfl
    · have hlt := hw.map_lt hv'
      rw [hold v hv', hframe _ hlt.ne fun hm => by have := hbs _ hm; omega,
        stepStmt_look (hlen ▸ hv')]
      exact h.vars v (hw.map_length ▸ hv') hvd
    · rw [hlast, hres, stepStmt, ← hlen, look_append_length]
  · intro w hlo hhi
    have hlo : st.nextAnc + 1 ≤ w := hlo
    rw [hframe w (by omega) fun hm => by have := hbs _ hm; omega]
    exact h.clean w (by omega) hhi
  · intro w hidle
    have hb := hB.idle w hidle
    by_cases hm : w ∈ bs
    · exact hrestored (hb.2 hm) w hm
    · have hge := hw.pool_base ▸ AncillaPool.base_le_of_idle hb.1
      rw [hframe w (by omega) hm]
      exact h.idle w hb.1
  · exact hcells

theorem Synth.InPlaceStep.sim (share : Bool) {c o : ℕ} (hw : st.Wf params base i)
    (ho : st.Owned params i uses (s.operands ++ rest) dead)
    (hd : ∀ v ∈ s.operands, v < params + i) (hi : params + i < prov) (hp : prov ≤ base)
    (hs : InPlaceStep params uses st s st' c o) :
    ∃ gs, st'.gates = st.gates ++ gs ∧ (∀ g ∈ gs, Emits share s g) ∧ ∀ (reg : Registry)
        (world : Externals) (f : Frame)
      (t : RState), Sim prov st dead f t →
        Sim prov st' (dead ++ [c]) (stepStmt world f s) (run (RGate.act reg) gs t) := by
  obtain ⟨hoc, hcr, hcs, hos⟩ := hs.consumed_once ho
  obtain ⟨hx, -, -, rfl⟩ := hs
  refine ⟨[.cnot (st.wireOf o) (st.wireOf c)], rfl,
    fun g hg => .inr ⟨_, _, List.mem_singleton.mp hg⟩, fun reg world f t h => ?_⟩
  have hcd : c ∉ dead := fun hm => ho.unread c hm (List.mem_append_left _ hcs)
  have hanc := hw.anc_le
  have hcw := hw.map_lt (hd c hcs)
  have hvo := h.operand hw ho hd hos
  have hvc := h.operand hw ho hd hcs
  obtain ⟨hold, hlast⟩ := Synth.wireOf_push
    (st.finishInPlace [.cnot (st.wireOf o) (st.wireOf c)] (st.wireOf c)) hw.map_length rfl
  have hlen : f.vals.length = params + i := h.defined.trans hw.map_length
  have hres : (evalStmt world f.st (s.mapVars (look f.vals))).1.bit =
      ((look f.vals c).bit ^^ (look f.vals o).bit) ∧
      (evalStmt world f.st (s.mapVars (look f.vals))).2 = f.st := by
    rcases hx with rfl | rfl
    · exact ⟨rfl, rfl⟩
    · exact ⟨Bool.xor_comm .., rfl⟩
  have hsame : ∀ w, w ≠ st.wireOf c → (run (RGate.act reg)
      [.cnot (st.wireOf o) (st.wireOf c)] t).wires w = t.wires w := fun w hne =>
    toggle_of_ne hne ..
  have hmix : (run (RGate.act reg) [.cnot (st.wireOf o) (st.wireOf c)] t).wires (st.wireOf c) =
      (t.wires (st.wireOf c) ^^ t.wires (st.wireOf o)) := toggle_same ..
  constructor
  · rw [stepStmt_length, h.defined]
    exact (List.length_append : (st.map ++ [st.wireOf c]).length = _).symm
  · intro v hv hvd
    simp only [List.mem_append, List.mem_singleton, not_or] at hvd
    have hv' : v < params + i ∨ v = params + i := by
      have : v < (st.map ++ [st.wireOf c]).length := hv
      rw [List.length_append, hw.map_length, List.length_singleton] at this
      omega
    rcases hv' with hv' | rfl
    · have hne : st.wireOf v ≠ st.wireOf c := fun e =>
        hvd.2 (ho.inj v c hv' (hd c hcs) hvd.1 hcd e)
      rw [hold v hv', hsame _ hne, stepStmt_look (hlen ▸ hv')]
      exact h.vars v (hw.map_length ▸ hv') hvd.1
    · rw [hlast, hmix, hvo, hvc, stepStmt, ← hlen, look_append_length, hres.1]
  · intro w hlo hhi
    have hlo : st.nextAnc ≤ w := hlo
    rw [hsame w (by omega)]
    exact h.clean w hlo hhi
  · intro w hidle
    have hge := hw.pool_base ▸ AncillaPool.base_le_of_idle hidle
    rw [hsame w (by omega)]
    exact h.idle w hidle
  · change t.cells = (evalStmt world f.st (s.mapVars (look f.vals))).2.storage.read
    rw [hres.2]
    exact h.cells

end Step

/-- The vars whose wires the loop's XORs consume, in order. -/
def consumedFrom (params : ℕ) (uses : List ℕ) (share : Bool) : ℕ → Synth → List Stmt → List ℕ
  | _, _, [] => []
  | i, st, s :: rest =>
      (st.consumes params uses s).toList ++
        match synthStmt params uses share i st s with
        | .ok st' => consumedFrom params uses share (i + 1) st' rest
        | .error _ => []

/-- On lowerable statements in SSA order the loop succeeds, keeps its invariants, and
appends gates that simulate the statements. -/
theorem synthFrom_spec (share : Bool) {params prov base : ℕ} {uses outs : List ℕ}
    (hp : prov ≤ base) : ∀ {stmts : List Stmt} {i : ℕ} {st : Synth} {dead : List ℕ},
    st.Wf params base i → st.Owned params i uses (stmts.flatMap BIrStmt.operands ++ outs) dead →
    Defined (params + i) stmts → (∀ s ∈ stmts, lowerable s) →
    (∀ j, i ≤ j → j < i + stmts.length → params + j ≤ u32Max) → params + i + stmts.length ≤ prov →
    ∃ st', synthFrom params uses share i st stmts = .ok st' ∧
      st'.Wf params base (i + stmts.length) ∧
      st'.Owned params (i + stmts.length) uses outs
        (dead ++ consumedFrom params uses share i st stmts) ∧
      ∃ gs, st'.gates = st.gates ++ gs ∧ (∀ g ∈ gs, ∃ s ∈ stmts, Emits share s g) ∧
        ∀ (reg : Registry) (world : Externals) (f : Frame) (t : RState),
          (∀ s ∈ stmts, s.isLocal) → Sim prov st dead f t →
          Sim prov st' (dead ++ consumedFrom params uses share i st stmts)
            (evalStmts world f stmts) (run (RGate.act reg) gs t) := by
  intro stmts
  induction stmts with
  | nil =>
      intro i st dead hw ho _ _ _ _
      refine ⟨st, rfl, hw, by simpa [consumedFrom] using ho, [], by simp, by simp, ?_⟩
      intro reg world f t _ h
      simpa [consumedFrom] using h
  | cons s rest ih =>
      intro i st dead hw ho hd hl hids hlen
      rw [List.length_cons] at hlen hids
      rw [List.flatMap_cons, List.append_assoc] at ho
      obtain ⟨st₁, hst, hcases⟩ := synthStmt_cases uses share hw.map_length
        (hl s List.mem_cons_self) hd.1
      -- one step: the invariants, and the simulation of `s`
      obtain ⟨hw₁, ho₁, gs₁, hgs₁, hem₁, hsim₁⟩ : st₁.Wf params base (i + 1) ∧
          st₁.Owned params (i + 1) uses (rest.flatMap BIrStmt.operands ++ outs)
            (dead ++ (st.consumes params uses s).toList) ∧
          ∃ gs, st₁.gates = st.gates ++ gs ∧ (∀ g ∈ gs, Emits share s g) ∧
            ∀ (reg : Registry) (world : Externals) (f : Frame) (t : RState), s.isLocal →
                Sim prov st dead f t →
              Sim prov st₁ (dead ++ (st.consumes params uses s).toList) (stepStmt world f s)
                (run (RGate.act reg) gs t) := by
        rcases hcases with ⟨hf, hc⟩ | ⟨c, o, hs, hc⟩
        · rw [hc, Option.toList_none, List.append_nil]
          exact ⟨hf.wf hw (by omega) hd.1, hf.owned hw ho, hf.sim hw ho hd.1 (by omega) hp⟩
        · rw [hc, Option.toList_some]
          obtain ⟨hoc, -, hcs, hos⟩ := hs.consumed_once ho
          have hne := ho.wire_ne hd.1 hcs hos hoc
          obtain ⟨gs, hgs, hem, hsim⟩ := hs.sim share hw ho hd.1 (by omega) hp
          exact ⟨hs.wf hw (hd.1 c hcs) (hd.1 o hos) hne, hs.owned hw hd.1 ho, gs, hgs, hem,
            fun reg world f t _ => hsim reg world f t⟩
      obtain ⟨st', hrun, hw', ho', gs, hgs, hem, hsim⟩ := ih hw₁ ho₁ hd.2
        (fun a ha => hl a (List.mem_cons_of_mem s ha))
        (fun j hj hlt => hids j (by omega) (by omega)) (by omega)
      have hcons : dead ++ consumedFrom params uses share i st (s :: rest) =
          dead ++ (st.consumes params uses s).toList ++
            consumedFrom params uses share (i + 1) st₁ rest := by
        simp [consumedFrom, hst]
      rw [show i + (s :: rest).length = i + 1 + rest.length by
          rw [List.length_cons]
          omega, hcons]
      refine ⟨st', ?_, hw', ho', gs₁ ++ gs, by rw [hgs, hgs₁, List.append_assoc], ?_, ?_⟩
      · rw [synthFrom, resultVar_ok (hids i le_rfl (by omega)), Fallible.ok_bind, hst]
        exact hrun
      · intro g hg
        rcases List.mem_append.mp hg with hg | hg
        · exact ⟨s, List.mem_cons_self, hem₁ g hg⟩
        · obtain ⟨a, ha, h⟩ := hem g hg
          exact ⟨a, List.mem_cons_of_mem s ha, h⟩
      · intro reg world f t hloc h
        rw [run_append, evalStmts_cons]
        exact hsim reg world _ _ (fun a ha => hloc a (List.mem_cons_of_mem s ha))
          (hsim₁ reg world f t (hloc s List.mem_cons_self) h)

end VolarIR.Rev
