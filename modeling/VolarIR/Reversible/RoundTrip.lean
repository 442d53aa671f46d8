import VolarIR.Reversible.Interface
import VolarIR.Reversible.Naive
import VolarIR.Reversible.SsaForm

/-!
# Lower, raise, specialise, project

The naive lowering of a pure circuit, raised to SSA form, with every wire above the
parameters hardcoded to zero and every output outside the y register removed, is the
circuit again.
-/
namespace VolarIR.Rev
open Boolar Fallible

theorem lt_of_wire_ok {st : Synth} {v w : ℕ} (h : st.wire v = .ok w) : v < st.map.length :=
  (List.getElem?_eq_some_iff.mp (expect_eq_ok.mp h)).1

theorem synthStmt_accepts {params i : ℕ} {uses : List ℕ} {share : Bool} {st st' : Synth} {s : Stmt}
    (hs : s.isGate) (h : synthStmt params uses share i st s = .ok st') :
    (∀ v ∈ s.operands, v < st.map.length) ∧ st'.map.length = st.map.length + 1 := by
  cases s with
  | zero | one =>
      obtain rfl := Except.ok.inj h
      simp [BIrStmt.operands, Synth.finishFresh]
  | not a =>
      simp only [synthStmt, Except.bind_eq_ok] at h
      obtain ⟨-, -, w, hw, h⟩ := h
      obtain rfl := Except.ok.inj h
      simp [BIrStmt.operands, Synth.finishFresh, lt_of_wire_ok hw]
  | and a b =>
      simp only [synthStmt, Except.bind_eq_ok] at h
      obtain ⟨-, -, -, -, wa, ha, wb, hb, h⟩ := h
      obtain rfl := Except.ok.inj h
      simp [BIrStmt.operands, Synth.finishFresh, lt_of_wire_ok ha, lt_of_wire_ok hb]
  | xor a b =>
      simp only [synthStmt, Except.bind_eq_ok] at h
      obtain ⟨-, -, -, -, wa, ha, wb, hb, h⟩ := h
      have hops := And.intro (lt_of_wire_ok ha) (lt_of_wire_ok hb)
      cases hr : reuseCandidate params uses a b wa wb with
      | none =>
          simp only [hr] at h
          obtain rfl := Except.ok.inj h
          simpa [BIrStmt.operands, Synth.finishFresh] using hops
      | some c =>
          simp only [hr, Except.bind_eq_ok] at h
          obtain ⟨wc, -, h⟩ := h
          obtain rfl := Except.ok.inj h
          simpa [BIrStmt.operands, Synth.finishInPlace] using hops
  | or a b =>
      simp only [synthStmt, Except.bind_eq_ok] at h
      obtain ⟨-, -, -, -, wa, ha, wb, hb, h⟩ := h
      have hops := And.intro (lt_of_wire_ok ha) (lt_of_wire_ok hb)
      cases share with
      | false =>
          obtain rfl := Except.ok.inj h
          simpa [BIrStmt.operands, Synth.finishFresh] using hops
      | true =>
          simp only [if_true, Except.bind_eq_ok] at h
          obtain ⟨p, -, q, -, h⟩ := h
          obtain rfl := Except.ok.inj h
          simpa [BIrStmt.operands, Synth.finishFresh] using hops
  | _ => simp [BIrStmt.isGate] at hs

theorem le_of_resultVar {params i var : ℕ} (h : resultVar params i = .ok var) :
    params + i ≤ u32Max := by
  by_contra hbig
  rw [resultVar, if_neg hbig] at h
  cases h

theorem synthFrom_accepts {params : ℕ} {uses : List ℕ} {share : Bool} {i : ℕ} {st st' : Synth}
    {stmts : List Stmt} (hs : ∀ s ∈ stmts, s.isGate)
    (h : synthFrom params uses share i st stmts = .ok st') :
    Defined st.map.length stmts ∧ st'.map.length = st.map.length + stmts.length ∧
      ∀ j, i ≤ j → j < i + stmts.length → params + j ≤ u32Max := by
  induction stmts generalizing i st with
  | nil =>
      obtain rfl := Except.ok.inj h
      exact ⟨trivial, rfl, fun j hj hlt => absurd hj hlt.not_ge⟩
  | cons s rest ih =>
      rw [List.forall_mem_cons] at hs
      rw [synthFrom, Except.bind_eq_ok] at h
      obtain ⟨var, hvar, h⟩ := h
      obtain ⟨st₁, h₁, h⟩ := Except.bind_eq_ok.mp h
      obtain ⟨hops, hl⟩ := synthStmt_accepts hs.1 h₁
      obtain ⟨hd, hl', hids⟩ := ih hs.2 h
      rw [hl] at hd hl'
      rw [List.length_cons]
      refine ⟨⟨hops, hd⟩, by omega, fun j hj hlt => ?_⟩
      rcases hj.eq_or_lt with rfl | hj
      · exact le_of_resultVar hvar
      · exact hids j hj (by omega)

theorem outputGates_accepts {gate : ℕ → ℕ → RGate} {map : List ℕ} {yBase k : ℕ} {outs : List ℕ}
    {gs : List RGate} (h : outputGates gate map yBase k outs = .ok gs) :
    ∀ v ∈ outs, v < map.length := by
  induction outs generalizing k gs with
  | nil => simp
  | cons v outs ih =>
      simp only [outputGates, Except.bind_eq_ok] at h
      obtain ⟨w, hw, rest, hrest, -⟩ := h
      exact List.forall_mem_cons.mpr
        ⟨(List.getElem?_eq_some_iff.mp (expect_eq_ok.mp hw)).1, ih hrest⟩

theorem wellFormed_of_accepted {P : Type} {f : BCircuit P} {share : Bool}
    {r : RCircuit × VarWireMap} (hf : ∀ s ∈ f.kinds, s.isGate)
    (h : synthesizeNaive f share = .ok r) : f.WellFormed ∧ FitsU32 f := by
  simp only [synthesizeNaive, Except.bind_eq_ok] at h
  obtain ⟨uses, huses, st, hst, outs, houts, -⟩ := h
  obtain ⟨hd, hl, hids⟩ := synthFrom_accepts hf hst
  have hlen : st.map.length = f.varSpace := by
    simpa [Synth.init, BCircuit.varSpace, BCircuit.kinds] using hl
  refine ⟨⟨by simpa [Synth.init] using hd, fun v hv => ?_⟩, ?_,
    fun j hj => hids j (Nat.zero_le j) (by rwa [Nat.zero_add])⟩
  case refine_2 =>
    by_contra hmany
    rw [countUses_panics hmany] at huses
    cases huses
  have := outputGates_accepts houts v hv
  rwa [List.length_map, hlen] at this

def fixAbove (params numWires : ℕ) : List (ℕ × Bool) :=
  (List.range' params (numWires - params)).map fun w => (w, false)

theorem fixAbove_fixings (params numWires : ℕ) : Fixings numWires (fixAbove params numWires) where
  nodup := by
    simpa [fixAbove, Function.comp_def] using List.nodup_range'
  inRange := fun p hp => by
    obtain ⟨w, hw, rfl⟩ := List.mem_map.mp hp
    have := List.mem_range'_1.mp hw
    dsimp only
    omega

theorem lookup_fixAbove (a k i : ℕ) :
    ((List.range' a k).map fun w => (w, false)).lookup i =
      if a ≤ i ∧ i < a + k then some false else none := by
  induction k generalizing a with
  | zero =>
      rw [if_neg (by omega)]
      rfl
  | succ k ih =>
      rw [List.range'_succ, List.map_cons, List.lookup_cons, ih]
      by_cases hi : i = a
      · simp [hi]
      · rw [beq_false_of_ne hi]
        exact if_congr (by omega) rfl rfl

theorem slots_fixAbove {params numWires : ℕ} (h : params ≤ numWires) :
    slots numWires (fixAbove params numWires) =
      List.replicate params none ++ List.replicate (numWires - params) (some false) := by
  apply List.ext_getElem
  · simp
    omega
  · intro i h₁ h₂
    have hi : i < numWires := by simpa using h₁
    simp only [slots, fixAbove, List.getElem_map, List.getElem_range, lookup_fixAbove,
      List.getElem_append, List.length_replicate, List.getElem_replicate]
    by_cases hip : i < params
    · rw [dif_pos hip, if_neg (by omega)]
    · rw [dif_neg hip, if_pos (by omega)]

theorem mergeInputs_prefix (x : List Bool) (k : ℕ) :
    mergeInputs (List.replicate x.length none ++ List.replicate k (some false)) x =
      x ++ List.replicate k false := by
  induction x with
  | nil =>
      induction k with
      | zero => rfl
      | succ k ih => exact congrArg (false :: ·) ih
  | cons b x ih => exact congrArg (b :: ·) ih

theorem initial_zero (map : VarWireMap) {x : List Bool} {k : ℕ} (hx : x.length ≤ map.numWires) :
    map.initial x (List.replicate k false) =
      x ++ List.replicate (map.numWires - x.length) false := by
  have hzero : ∀ n j, (List.replicate n false).getD j false = false := fun n j => by
    rw [List.getD_eq_getElem?_getD, List.getElem?_replicate]
    split_ifs <;> rfl
  apply eq_of_readWire
  · simp
    omega
  · intro i hi
    rw [VarWireMap.initial_length] at hi
    rw [readWire_initial hi, hzero, ite_self, readWire]
    split_ifs with hix
    · rw [getD_append_lt hix]
    · rw [List.getD_eq_getElem?_getD, List.getElem?_append_right (by omega),
        ← List.getD_eq_getElem?_getD, hzero]

theorem bitFits_of_no_externals {rc : RCircuit} (h : rc.usesExternals = false) :
    ∀ g ∈ rc.gates, g.BitFits := by
  intro g hg
  have := List.any_eq_false.mp h g hg
  cases g <;> simp_all [RGate.BitFits, RGate.usesExternals]

/-- From clean ancillas and a zero y register, that register ends as the outputs of `f`. -/
theorem NaiveResult.y_register {P : Type} {f : BCircuit P} {share : Bool} {rc : RCircuit}
    {map : VarWireMap} {v : ℕ → ℕ} {compute : List RGate}
    (h : NaiveResult f share rc map v compute) (hc : f.WellFormed)
    (hf : ∀ s ∈ f.kinds, s.isGate) (reg : Registry) (world : Externals) {x : List Bool}
    (m : StorageMap) (hx : x.length = f.params) :
    ∃ s, rc.applyWithExternals reg (x ++ List.replicate (rc.numWires - f.params) false) m =
        some s ∧
      (s.1.drop map.yBase).take f.outputs.length = f.eval world x (.init m) := by
  have hp := h.phase.params_le
  have hye := h.phase.yEnd_le
  obtain ⟨ws, m', happ, -, -, hout, -⟩ := h.simulates hc
    (fun s hs => BIrStmt.isLocal_of_isGate (hf s hs)) reg world m hx
    (List.length_replicate (n := f.outputs.length) (a := false))
  rw [initial_zero map (by rw [h.numWires, hx]; omega), hx, h.numWires] at happ
  refine ⟨_, happ, hout.trans ?_⟩
  have hlen : (f.eval world x (.init m)).length = f.outputs.length := by simp [BCircuit.eval]
  rw [← hlen]
  generalize f.eval world x (.init m) = l
  induction l with
  | nil => rfl
  | cons b l ih => exact congrArg₂ List.cons (Bool.false_xor b) ih

/-- Lowering, raising, fixing everything above the parameters and keeping the y register is
the identity. -/
theorem projected_eval {P : Type} {f : BCircuit P} (hf : ∀ s ∈ f.kinds, s.isGate) {share : Bool}
    {rc : RCircuit} {map : VarWireMap}
    (haccept : toReversibleWithOptions f ⟨.naive, share⟩ = .ok (rc, map))
    (hn : rc.numWires ≤ u32Max) (hx : toBoolarCircuit rc ≠ .error (.error .varSpaceExhausted)) :
    ∃ normal specialized projected, toBoolarCircuit rc = .ok normal ∧
      hardcodeCircuitInputs normal (fixAbove f.params rc.numWires) () = .ok specialized ∧
      removeCircuitOutputs specialized (outside rc.numWires map.yBase f.outputs.length) =
        .ok projected ∧
      projected.params = f.params ∧
      ∀ (reg : Registry), reg.IgnoresOccurrence → ∀ (world : Externals) (x : List Bool)
        (m : StorageMap), x.length = f.params →
        projected.eval reg.externals x (.init m) = f.eval world x (.init m) := by
  rw [toReversibleWithOptions_naive] at haccept
  obtain ⟨hc, hfits⟩ := wellFormed_of_accepted hf haccept
  obtain ⟨rc', map', v, compute, hrun, -, h⟩ := synthesizeNaive_spec hc
    (fun s hs => lowerable_of_isLocal (BIrStmt.isLocal_of_isGate (hf s hs))) hfits share
  obtain ⟨rfl, rfl⟩ := Prod.mk.inj (Except.ok.inj (hrun.symm.trans haccept))
  have hp := h.phase.params_le
  have hye := h.phase.yEnd_le
  have hext := h.no_externals fun s hs => BIrStmt.isLocal_of_isGate (hf s hs)
  obtain ⟨normal, hnormal, ssa⟩ := toBoolarCircuit_spec h.valid (bitFits_of_no_externals hext) hn hx
  have hfix : Fixings normal.params (fixAbove f.params rc'.numWires) :=
    ssa.params ▸ fixAbove_fixings ..
  obtain ⟨specialized, hspec⟩ := hardcode_ok hfix ssa.wellFormed ssa.fits ()
  obtain ⟨hparams, houts, heval⟩ := hardcode_eval hfix hspec
  rw [ssa.params, slots_fixAbove (by omega)] at hparams heval
  have houts : specialized.outputs.length = rc'.numWires := houts.trans ssa.outputs
  have hparams : specialized.params = f.params := by
    rw [hparams, List.countP_append, List.countP_replicate, List.countP_replicate]
    simp
  have hproj := remove_outside (c := specialized) (a := map'.yBase) (k := f.outputs.length)
    (by omega)
  rw [houts] at hproj
  refine ⟨normal, specialized, _, hnormal, hspec, hproj, hparams,
    fun reg hreg world x m hl => ?_⟩
  -- the projected outputs are the y register of the specialised evaluation
  obtain ⟨s, happ, hy⟩ := h.y_register hc hf reg world m hl
  obtain ⟨s', happ', hs', -⟩ := ssa.eval reg hreg
    (x ++ List.replicate (rc'.numWires - f.params) false) m (by simp; omega)
  obtain rfl := Option.some.inj (happ.symm.trans happ')
  have hmerge := (heval reg.externals x (.init m) (hl.trans hparams.symm)).1
  rw [← hl, mergeInputs_prefix, hl, hs'] at hmerge
  rw [← hy, ← hmerge]
  simp only [BCircuit.eval, List.map_take, List.map_drop]
  rfl

/-- The round trip is the identity on functions; and, for any circuit, fixing inputs is
evaluation on the merged ones. -/
theorem round_trip {P : Type} {f : BCircuit P} (hf : ∀ s ∈ f.kinds, s.isGate) {share : Bool}
    {rc : RCircuit} {map : VarWireMap}
    (haccept : toReversibleWithOptions f ⟨.naive, share⟩ = .ok (rc, map))
    (hn : rc.numWires ≤ u32Max) (hx : toBoolarCircuit rc ≠ .error (.error .varSpaceExhausted)) :
    (∃ normal specialized projected, toBoolarCircuit rc = .ok normal ∧
      hardcodeCircuitInputs normal (fixAbove f.params rc.numWires) () = .ok specialized ∧
      removeCircuitOutputs specialized (outside rc.numWires map.yBase f.outputs.length) =
        .ok projected ∧
      projected.params = f.params ∧
      ∀ (reg : Registry), reg.IgnoresOccurrence → ∀ (world : Externals) (x : List Bool)
        (m : StorageMap), x.length = f.params →
        projected.eval reg.externals x (.init m) = f.eval world x (.init m)) ∧
    ∀ (Q : Type) (c : BCircuit Q) (hardcoded : List (ℕ × Bool)) (prov : Q),
      Fixings c.params hardcoded →
      (c.WellFormed → c.varSpace ≤ u32Max →
        ∃ r, hardcodeCircuitInputs c hardcoded prov = .ok r) ∧
      ∀ r, hardcodeCircuitInputs c hardcoded prov = .ok r →
        ∀ (world : Externals) (bits : List Bool) (σ : EvalState), bits.length = r.params →
          let inputs := mergeInputs (slots c.params hardcoded) bits
          r.eval world bits σ = c.eval world inputs σ ∧
            (r.evalFrame world bits σ).st = (c.evalFrame world inputs σ).st :=
  ⟨projected_eval hf haccept hn hx, fun _ _ _ prov hfix =>
    ⟨fun hc hfit => hardcode_ok hfix hc hfit prov, fun _ hr => (hardcode_eval hfix hr).2.2⟩⟩

/-- The AND of two inputs, through the wires and back. -/
theorem round_trip_and :
    let f : BCircuit Unit := ⟨2, [.new (.and 0 1) ()], [], [2]⟩
    ∃ rc map normal specialized projected, toReversible f = .ok (rc, map) ∧
      toBoolarCircuit rc = .ok normal ∧
      hardcodeCircuitInputs normal (fixAbove 2 rc.numWires) () = .ok specialized ∧
      removeCircuitOutputs specialized (outside rc.numWires map.yBase 1) = .ok projected ∧
      ∀ x : List Bool, x.length = 2 →
        projected.eval Registry.unused.externals x (.init .empty) =
          f.eval Registry.unused.externals x (.init .empty) := by
  intro f
  have hrun : ∃ rc map, toReversible f = .ok (rc, map) ∧
      rc = ⟨4, [.ccnot 0 1 2, .cnot 2 3]⟩ := ⟨_, _, rfl, rfl⟩
  obtain ⟨rc, map, hrun, rfl⟩ := hrun
  obtain ⟨⟨normal, specialized, projected, h₁, h₂, h₃, -, heval⟩, -⟩ :=
    round_trip (by decide)
      (show toReversibleWithOptions f ⟨.naive, false⟩ = .ok (_, map) from hrun)
      (by decide) (by intro h; cases h)
  exact ⟨_, _, normal, specialized, projected, hrun, h₁, h₂, h₃, fun x hx =>
    heval .unused ⟨fun _ _ _ _ _ => rfl, fun _ _ _ _ => rfl, fun _ _ _ _ _ => rfl⟩ _ x _ hx⟩

/-- A circuit of `u32::MAX` parameters is lowered to more wires than there are vars. -/
theorem round_trip_too_wide :
    let f : BCircuit Unit := ⟨u32Max, [], [], [0]⟩
    ∃ rc map, toReversible f = .ok (rc, map) ∧
      toBoolarCircuit rc = .error (.error (.wireCountOutOfRange rc.numWires)) := by
  intro f
  have hf : f.WellFormed := ⟨trivial, by simp [f, BCircuit.varSpace, u32Max]⟩
  have hfits : FitsU32 f := ⟨fun v => List.count_le_length.trans (by decide), by
    simp [f, BCircuit.kinds]⟩
  obtain ⟨rc, map, v, compute, hrun, -, h⟩ := synthesizeNaive_spec hf
    (by simp [f, BCircuit.kinds]) hfits false
  have hp : u32Max ≤ map.yBase := h.phase.params_le
  have hye : map.yBase + 1 ≤ rc.numWires := h.phase.yEnd_le
  refine ⟨rc, map, (toReversibleWithOptions_naive f false).trans hrun, ?_⟩
  simp only [toBoolarCircuit, RCircuit.validate_ok.mpr h.valid]
  rw [if_pos (by omega)]

end VolarIR.Rev
