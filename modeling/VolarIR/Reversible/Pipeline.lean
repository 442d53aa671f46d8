import VolarIR.Circuit.Tidy
import VolarIR.Movfuscate.Tidy
import VolarIR.Reversible.Naive

/-!
# From a control-flow graph to a reversible circuit

The pipeline of the reversible back end: movfuscation folds the blocks into one, lowering
unrolls it, fusion checks its shape, and the synthesis embeds the circuit. Each pass is right
on its own, and what one leaves is what the next one asks for, but for the counters of var ids:
each pass may run out of them.
-/
namespace VolarIR

namespace Boolar
variable {P : Type}

inductive CircuitFusionError where
  | notSingleBlock (found : ℕ)
  | notReturnTerminator
  | outputVarOutOfRange (var varSpace : ℕ)
  deriving DecidableEq, Repr

/-- `BCircuit::try_from_ir`. -/
def BCircuit.tryFromIr (blocks : BIrBlocks P) : Outcome CircuitFusionError (BCircuit P) :=
  match blocks.blocks with
  | [block] =>
      match block.terminator with
      | .jmp ⟨.ret, outputs⟩ =>
          let varSpace := block.params + block.stmts.length
          match outputs.find? fun v => decide (v ≥ varSpace) with
          | some v => .error (.error (.outputVarOutOfRange v varSpace))
          | none => .ok ⟨block.params, block.stmts, blocks.preInit, outputs⟩
      | _ => .error (.error .notReturnTerminator)
  | blocks => .error (.error (.notSingleBlock blocks.length))

/-- `BCircuit::to_bir_blocks`. -/
def BCircuit.toBirBlocks (c : BCircuit P) : BIrBlocks P :=
  ⟨[⟨c.params, c.stmts, .jmp ⟨.ret, c.outputs⟩⟩], c.preInit⟩

theorem BCircuit.tryFromIr_eq_ok {blocks : BIrBlocks P} {c : BCircuit P} :
    BCircuit.tryFromIr blocks = .ok c ↔
      blocks = c.toBirBlocks ∧ ∀ v ∈ c.outputs, v < c.varSpace := by
  constructor
  · intro h
    obtain ⟨blocks, preInit⟩ := blocks
    unfold tryFromIr at h
    split at h
    · next block hblocks =>
        obtain rfl : blocks = [block] := hblocks
        split at h
        · next outputs hterm =>
            dsimp only at h
            split at h
            · cases h
            · next hnone =>
                cases h
                obtain ⟨params, stmts, terminator⟩ := block
                obtain rfl : terminator = _ := hterm
                exact ⟨rfl, by simpa [varSpace] using hnone⟩
        · cases h
    · cases h
  · rintro ⟨rfl, hrange⟩
    have hnone : c.outputs.find? (fun v => decide (v ≥ c.params + c.stmts.length)) = none := by
      rw [List.find?_eq_none]
      intro v hv
      simpa [varSpace] using hrange v hv
    simp only [tryFromIr, toBirBlocks, hnone]

end Boolar

namespace Circuit
open Boolar

/-- `lower_to_circuit_fused`; `control` is `P::default()`. -/
def lowerToCircuitFused {P : Type} (blocks : BIrBlocks P) (limit : ℕ) (mode : LoweringMode)
    (control : P) : Outcome CircuitFusionError (BCircuit P) :=
  match lowerToCircuitWithControlProvenance blocks limit mode control with
  | .error _ => .error .panic
  | .ok circuit => BCircuit.tryFromIr circuit

end Circuit

namespace Movfuscate
open Boolar Stateful Circuit
variable {P : Type} {blocks : BIrBlocks P}

/-- `movfuscated_inputs`. -/
def movfuscatedInputs (cfg : BIrBlocks P) (entryInputs : List Bool) : List Bool :=
  let nEntry := (cfg.blocks.head?.map BIrBlock.params).getD 0
  List.replicate (pcBitsNeeded cfg.blocks.length) false ++
    (entryInputs ++ List.replicate (cfg.stateWidth - nEntry) false)

theorem readsOnly_of_isRead {V S : Type} {s : BIrStmt V S} (h : s.isRead) : readsOnly s = true := by
  cases s <;> first | rfl | cases h

theorem Accepted.length_loop (h : Accepted blocks) {ctrlProv : P} {out : TermResult}
    {ctx : BIrCtx P}
    (hrun : (emitBoolarStep blocks).run (stepStart blocks ctrlProv) = some (out, ctx)) :
    (out.nextPcBits ++ out.nextState).length =
      pcBitsNeeded blocks.blocks.length + blocks.stateWidth := by
  have hmulti := h.multi
  have hpos : 0 < blocks.blocks.length := by omega
  have hb : blocks.blocks[0]? = some (blocks.blocks.get ⟨0, hpos⟩) :=
    List.getElem?_eq_getElem hpos
  obtain ⟨r, hr⟩ := evalTerminator_static fun t ht => h.static (List.mem_of_getElem? hb) ht
    (evalStmts ⟨fun _ _ _ => false, fun _ _ _ _ => false, fun _ _ _ => false⟩
      ⟨paramValues ((List.replicate blocks.stateWidth false).take
        (blocks.blocks.get ⟨0, hpos⟩).params), .init .empty⟩
        (blocks.blocks.get ⟨0, hpos⟩).kinds).vals
  have hdelivers := ((h.emitStep hb List.length_replicate rfl hr ctrlProv).of_run hrun).2
  rw [List.length_append, hdelivers.nextPc.length_eq, hdelivers.width,
    List.Forall₂.length_eq hdelivers.state.1, hdelivers.state.2]

theorem Accepted.stepProgram (h : Accepted blocks)
    (hread : ∀ b ∈ blocks.blocks, ∀ s ∈ b.kinds, s.isRead) {ctrlProv : P} {out : TermResult}
    {ctx : BIrCtx P}
    (hrun : (emitBoolarStep blocks).run (stepStart blocks ctrlProv) = some (out, ctx)) :
    StepProgram (combined blocks out ctx) ∧ ∀ s ∈ (combined blocks out ctx).kinds, s.isRead := by
  have hneat : (stepStart blocks ctrlProv).Neat
      (pcBitsNeeded blocks.blocks.length + blocks.stateWidth) :=
    ⟨rfl, trivial, by simp [BIrCtx.kinds, stepStart, BIrCtx.new]⟩
  have htidy := BIrCtx.tidies_step h.wellFormed hread
    (List.range_subset.mpr (Nat.le_add_right _ blocks.stateWidth))
    (by intro v hv; simp at hv ⊢; omega) (stepStart blocks ctrlProv) hneat
    (fun v hv => List.mem_range.mp hv) out ctx hrun
  have hreads : ∀ s ∈ (combined blocks out ctx).kinds, s.isRead := htidy.1.tidy.isRead
  have hlen : ctx.nextId =
      (combined blocks out ctx).params + (combined blocks out ctx).stmts.length := by
    rw [htidy.1.nextId, BIrCtx.kinds, List.length_map]
    rfl
  constructor
  · constructor
    case wellFormed =>
      refine ⟨htidy.1.tidy.defined, fun v hv => hlen ▸ htidy.2.2 v ?_⟩
      simp only [combined, BIrTerminator.operands, TermResult.vars] at hv ⊢
      grind
    case accepts => exact .retLoop _ _ _ (h.length_loop hrun)
    case projects =>
      intro s hs v hv
      rw [BIrStmt.handles_of_isRead (hreads s hs)] at hv
      cases hv
  · exact hreads

/-- The step program returns what the source returns, after as many iterations as blocks. -/
theorem Accepted.returns_step (h : Accepted blocks) {ctrlProv : P} {out : TermResult}
    {ctx : BIrCtx P}
    (hrun : (emitBoolarStep blocks).run (stepStart blocks ctrlProv) = some (out, ctx))
    {entry : BIrBlock P} (hentry : blocks.blocks.head? = some entry) {inputs : List Bool}
    (hinputs : inputs.length = entry.params) (world : Externals) (σ : EvalState) (k : ℕ) :
    (movfuscatedInputs blocks inputs).length = (combined blocks out ctx).params ∧
      ∀ bits, Returns world ⟨[combined blocks out ctx], blocks.preInit⟩ k
          (movfuscatedInputs blocks inputs) σ bits ↔ Returns world blocks k inputs σ bits := by
  have hpc : pcBits blocks 0 = List.replicate (pcBitsNeeded blocks.blocks.length) false := by
    rw [pcBits, List.map_congr_left (g := fun _ => false) fun j _ => Nat.zero_testBit j,
      List.map_const', List.length_range]
  have hget : blocks.blocks[0]? = some entry := List.head?_eq_getElem? ▸ hentry
  have hle := params_le_stateWidth (List.mem_of_getElem? hget)
  have hinit : movfuscatedInputs blocks inputs = pcBits blocks 0 ++
      (inputs ++ List.replicate (blocks.stateWidth - entry.params) false) := by
    rw [movfuscatedInputs, hentry, hpc]
    rfl
  have hstate : (inputs ++ List.replicate (blocks.stateWidth - entry.params) false).length =
      blocks.stateWidth := by
    rw [List.length_append, List.length_replicate]
    omega
  rw [hinit]
  constructor
  · rw [List.length_append, length_pcBits, hstate]
    rfl
  · intro bits
    exact (h.inStep_run world hrun blocks.preInit (.running hget hinputs hstate rfl)
      k).returned_iff bits

end Movfuscate

namespace Circuit
open Boolar Cascade

def LoweringMode.outputs (mode : LoweringMode) (flag : Bool) (outs : List Bool) : List Bool :=
  match mode with
  | .withTerminationFlag => flag :: outs
  | .unconditional => outs

/-- A step program of gates and reads is lowered and fused to a well-formed circuit of gates
and reads, which returns what the loop returns within the limit. -/
theorem lowerToCircuitFused_ok {P : Type} {blocks : BIrBlocks P} {b : BIrBlock P}
    (hb : blocks.blocks = [b]) (h : StepProgram b) (hnc : blocks.isCircuit = false)
    (hread : ∀ s ∈ b.kinds, s.isRead) {limit : ℕ} (mode : LoweringMode) {control : P}
    (hfits : LoweringFits b limit (some control)) :
    ∃ c, lowerToCircuitFused blocks limit mode control = .ok c ∧ c.params = b.params ∧
      c.preInit = blocks.preInit ∧ c.WellFormed ∧ c.varSpace ≤ u32Max ∧
      (∀ s ∈ c.kinds, s.isRead) ∧
      ∀ (world : Externals) (x : List Bool) (σ : EvalState), x.length = b.params →
        ∃ flag outs, c.eval world x σ = mode.outputs flag outs ∧
          (flag = true ↔ ∃ bits, Returns world blocks limit x σ bits) ∧
          ∀ bits, Returns world blocks limit x σ bits → outs = bits := by
  have hprov : (ctrlProvOf b (some control)).isSome := by
    unfold ctrlProvOf
    cases b.stmts.head? <;> rfl
  obtain ⟨stmts, done, gated, hok, heval⟩ := lower_ok hb h hnc hprov hfits
  obtain ⟨stmts', outs', heq, htidy, hspace, hrange⟩ :=
    lowerToCircuitImpl_tidy hb h hnc hread (hok mode)
  cases heq
  have hfused : BCircuit.tryFromIr ⟨[⟨b.params, stmts, .jmp ⟨.ret, retArgs mode done gated⟩⟩],
      blocks.preInit⟩ = .ok ⟨b.params, stmts, blocks.preInit, retArgs mode done gated⟩ :=
    BCircuit.tryFromIr_eq_ok.mpr ⟨rfl, hrange⟩
  apply Exists.intro (BCircuit.mk b.params stmts blocks.preInit (retArgs mode done gated))
  refine ⟨?_, rfl, rfl, ⟨htidy.defined, hrange⟩, hspace, htidy.isRead, fun world x σ hx => ?_⟩
  · rw [lowerToCircuitFused, lowerToCircuitWithControlProvenance, hok mode]
    exact hfused
  · obtain ⟨hdone, fallback, hgated⟩ := heval world x σ hx
    have hreturns : ∀ r, Returns world blocks limit x σ r ↔
        runFor (loopStep world b) limit (x, σ) = some r :=
      returns_iff hb h.accepts limit (s := (x, σ)) hx
    have hbits := Movfuscate.map_look_of_carries hgated
    refine ⟨(trace (loopStep world b) limit (x, σ)).any Prod.fst,
      firstExit fallback (trace (loopStep world b) limit (x, σ)), ?_, ?_,
      fun r hr => firstExit_trace fallback ((hreturns r).mp hr)⟩
    · cases mode
      · exact hbits
      · exact congrArg₂ List.cons hdone.2 hbits
    · rw [any_trace, Option.isSome_iff_exists]
      exact exists_congr fun r => (hreturns r).symm

end Circuit

namespace Rev
open Boolar Circuit Movfuscate

/-- The reversible circuit of a graph: from `(x, 0, y)` it ends in `(x, y ⊕ f x)` with the
storage as it was, where `f` is what the graph returns within the limit, and the flag whether
it does. -/
def Embeds {P : Type} (blocks : BIrBlocks P) (limit : ℕ) (mode : LoweringMode) (c : BCircuit P)
    (rc : RCircuit) (map : VarWireMap) : Prop :=
  ∀ (entry : BIrBlock P) (inputs y : List Bool) (m : StorageMap) (world : Externals),
    blocks.blocks.head? = some entry → inputs.length = entry.params →
    y.length = c.outputs.length →
    ∃ ws m' flag outs,
      rc.apply (map.initial (movfuscatedInputs blocks inputs) y) m = some (ws, m') ∧
      ws.take c.params = movfuscatedInputs blocks inputs ∧
      (ws.drop map.yBase).take c.outputs.length = List.zipWith xor y (mode.outputs flag outs) ∧
      (mode.outputs flag outs).length = c.outputs.length ∧
      (flag = true ↔ ∃ bits, Returns world blocks limit inputs (.init m) bits) ∧
      (∀ bits, Returns world blocks limit inputs (.init m) bits → outs = bits) ∧
      ∀ cell, m'.read cell = m.read cell

/-- From a well-formed control-flow graph of gates and reads to a reversible circuit: a pass
fails only when its `u32` counters overflow, and what the three give embeds the graph. -/
theorem pipeline_embeds {P : Type} {blocks : BIrBlocks P} (h : Accepted blocks)
    (hread : ∀ b ∈ blocks.blocks, ∀ s ∈ b.kinds, s.isRead) (control : P) (limit : ℕ)
    (mode : LoweringMode) (share : Bool) (hfits : StepFits blocks (some control)) :
    ∃ step block, movfuscateBiirWithControlProvenance blocks control = some step ∧
      step.blocks = [block] ∧
      (LoweringFits block limit (some control) →
        ∃ c, lowerToCircuitFused step limit mode control = .ok c ∧ c.preInit = blocks.preInit ∧
          (UsesFit c → ∃ rc map, toReversibleWithOptions c ⟨.naive, share⟩ = .ok (rc, map) ∧
            Embeds blocks limit mode c rc map)) := by
  have hprov : HasControlProvenance blocks (some control) := .inr rfl
  obtain ⟨ctrlProv, out, ctx, hctrl, hrun, hmov⟩ := h.movfuscated hprov
  rw [if_pos (hfits ctrlProv out ctx hctrl hrun)] at hmov
  obtain ⟨hstep, hreads⟩ := h.stepProgram hread hrun
  refine ⟨_, combined blocks out ctx, hmov, rfl, fun hlowered => ?_⟩
  have hsingle : (⟨[combined blocks out ctx], blocks.preInit⟩ : BIrBlocks P).blocks =
      [combined blocks out ctx] := rfl
  obtain ⟨c, hfused, hparams, hpre, hwf, hspace, hcread, heval⟩ :=
    lowerToCircuitFused_ok hsingle hstep rfl hreads mode hlowered
  refine ⟨c, hfused, hpre, fun huses => ?_⟩
  have hcounts : FitsU32 c := by
    refine ⟨huses, fun i hi => ?_⟩
    rw [BCircuit.kinds, List.length_map] at hi
    rw [BCircuit.varSpace] at hspace
    omega
  have hlocal : ∀ s ∈ c.kinds, s.isLocal := fun s hs => BIrStmt.isLocal_of_isRead (hcread s hs)
  obtain ⟨rc, map, v, compute, hrev, -, hnaive⟩ :=
    synthesizeNaive_spec hwf (fun s hs => lowerable_of_isLocal (hlocal s hs)) hcounts share
  refine ⟨rc, map, (toReversibleWithOptions_naive c share).trans hrev, ?_⟩
  intro entry inputs y m world hentry hinputs hy
  obtain ⟨hlen, hreturns⟩ := h.returns_step hrun hentry hinputs world (.init m) limit
  obtain ⟨flag, outs, hout, hflag, houts⟩ := heval world _ (.init m) hlen
  obtain ⟨ws, m', happ, -, hx, hreg, hcells, -⟩ :=
    hnaive.simulates hwf hlocal .unused world m (hlen.trans hparams.symm) hy
  refine ⟨ws, m', flag, outs, ?_, hx, hout ▸ hreg, ?_, ?_, ?_, ?_⟩
  · rw [RCircuit.apply, if_neg (by simp [hnaive.no_externals hlocal])]
    exact happ
  · rw [← hout, BCircuit.eval, List.length_map]
  · rw [hflag]
    exact exists_congr hreturns
  · exact fun bits hbits => houts bits ((hreturns bits).mpr hbits)
  · intro cell
    have hkept := (evalStmts_of_readsOnly world (paramValues (movfuscatedInputs blocks inputs))
      (fun s hs => readsOnly_of_isRead (hcread s hs)) (rfl : EvalState.storage (.init m) = _)).2
    rw [hcells cell]
    exact congrArg (fun storage => StorageMap.read storage cell) hkept

def pollOnce : BIrBlocks Unit where
  blocks := [
    ⟨2, [.new (.xor 0 1) (), .new (.storageRead ⟨0⟩ ⟨0⟩ [2]) ()],
      .condJmp 0 ⟨.block 1, [3]⟩ ⟨.ret, [3, 1]⟩⟩,
    ⟨1, [.new .zero (), .new (.not 0) ()], .jmp ⟨.block 0, [1, 2]⟩⟩]
  preInit := []

theorem accepted_pollOnce : Accepted pollOnce where
  multi := by decide
  wellFormed := by decide
  edges := by simp [pollOnce, BIrTerminator.targets, EdgeFits]
  returns := ⟨2, by decide⟩
  readsOnly := by decide

/-- Every counter of the pipeline stays small on it. -/
theorem small_pollOnce :
    ((emitBoolarStep pollOnce).run (stepStart pollOnce ())).all (fun r =>
      decide (pcBitsNeeded 2 + 2 + r.2.stmts.length ≤ u32Max)) = true ∧
    (movfuscateBiirWithControlProvenance pollOnce ()).all (fun step =>
      step.blocks.all (fun b => ((emitCircuit b () 3).map fun r =>
        decide (r.2.2.nextId ≤ u32Max)).toOption.getD true) &&
      ((lowerToCircuitFused step 3 .withTerminationFlag ()).map fun c =>
        decide ((c.kinds.flatMap usedVars ++ c.outputs).length ≤ u32Max)).toOption.getD true) =
      true := by
  decide +kernel

theorem pipeline_embeds_pollOnce :
    ∃ step c rc map ws m', movfuscateBiirWithControlProvenance pollOnce () = some step ∧
      lowerToCircuitFused step 3 .withTerminationFlag () = .ok c ∧
      toReversibleWithOptions c ⟨.naive, true⟩ = .ok (rc, map) ∧
      rc.apply (map.initial [false, true, false] [false, true, true]) .empty = some (ws, m') ∧
      (ws.drop map.yBase).take 3 = [true, true, false] := by
  obtain ⟨hmov, hsmall⟩ := small_pollOnce
  have hfits : StepFits pollOnce (some ()) := by
    intro ctrlProv out ctx _ hrun
    rw [hrun] at hmov
    exact of_decide_eq_true hmov
  obtain ⟨step, block, hstep, hblock, hlow⟩ :=
    pipeline_embeds accepted_pollOnce (by decide) () 3 .withTerminationFlag true hfits
  rw [hstep, Option.all_some, Bool.and_eq_true, hblock] at hsmall
  have hlowered : LoweringFits block 3 (some ()) := by
    intro prov gated done e _ hrun
    have hone := hsmall.1
    rw [List.all_cons, hrun, Bool.and_eq_true] at hone
    exact of_decide_eq_true hone.1
  obtain ⟨c, hc, -, hsynth⟩ := hlow hlowered
  have huses : UsesFit c := by
    have hcount := hsmall.2
    rw [hc] at hcount
    exact fun v => List.count_le_length.trans (of_decide_eq_true hcount)
  obtain ⟨rc, map, hrc, hruns⟩ := hsynth huses
  have hreturns : Returns ⟨fun _ _ _ => false, fun _ _ _ _ => false, fun _ _ _ => false⟩
      pollOnce 3 [true, false] (.init .empty) [false, true] := ⟨_, rfl⟩
  have hrun := fun y => hruns _ [true, false] y .empty
    ⟨fun _ _ _ => false, fun _ _ _ _ => false, fun _ _ _ => false⟩ rfl rfl
  obtain ⟨_, _, flag, outs, -, -, -, hlen, hflag, houts, -⟩ := 
    hrun (List.replicate _ false) List.length_replicate
  obtain rfl : flag = true := hflag.mpr ⟨_, hreturns⟩
  obtain rfl : outs = [false, true] := houts _ hreturns
  have hthree : c.outputs.length = 3 := hlen.symm
  obtain ⟨ws, m', flag, outs, happ, -, hreg, -, hflag, houts, -⟩ :=
    hrun [false, true, true] hthree.symm
  obtain rfl : flag = true := hflag.mpr ⟨_, hreturns⟩
  obtain rfl : outs = [false, true] := houts _ hreturns
  exact ⟨step, c, rc, map, ws, m', hstep, hc, hrc, happ, hthree ▸ hreg⟩

end Rev
end VolarIR
