import VolarIR.Movfuscate.TypedTargets

/-!
# One step of the combined block

With the PC at a block, the combined block does to the storage what that block does, and its
exit flag, next PC, slots and return slots are that block's.
-/
namespace VolarIR.Movfuscate
open Ir Stateful

section
variable {types : TypeTable} {world : Externals} {bound : ℕ}

theorem mem_valueTypes {s : IRStmt} {ty : TypeId} (h : s.varKind = .data ty) :
    ty ∈ valueTypes s := by
  cases s <;> simp_all [IRStmt.varKind, valueTypes, IRStmt.outputType]

theorem dataFits_of_stmtsFit {kinds : List VarKind} {stmts : List IRStmt}
    (hs : StmtsFit types bound kinds stmts)
    (hkinds : ∀ v ty, HasType kinds v ty → DataFits types ty) {v : ℕ} {ty : TypeId}
    (hv : HasType (kinds ++ stmts.map IRStmt.varKind) v ty) : DataFits types ty := by
  induction stmts generalizing kinds with
  | nil =>
      rw [List.map_nil, List.append_nil] at hv
      exact hkinds v ty hv
  | cons s stmts ih =>
      rw [List.map_cons, List.append_cons] at hv
      apply ih hs.2 _ hv
      intro u uty hu
      rcases kindAt_snoc_cases (lt_of_kindAt_data hu) with ⟨-, heq⟩ | ⟨-, heq⟩
      · exact hkinds u uty (heq.symm.trans hu)
      · have hkind : s.varKind = .data uty := heq.symm.trans hu
        rcases hs.1.values uty (mem_valueTypes hkind) with hty | ⟨-, hty⟩
        · exact .inl hty
        · exact .inr hty

theorem hasType_params {tys : List TypeId} {v : ℕ} {ty : TypeId}
    (h : HasType (tys.map .data) v ty) : ty ∈ tys := by
  have hlt := lt_of_kindAt_data h
  rw [List.length_map] at hlt
  have hkind : kindAt (tys.map .data) v = .data tys[v] := by simp [kindAt, hlt]
  obtain rfl := VarKind.data.inj (hkind.symm.trans h)
  exact List.getElem_mem hlt

theorem run_inactive (f : Ssa.Frame Value LaneState) (stmts : List IRStmt) :
    ((laneLanguage types world false).run f stmts).st = f.st := by
  induction stmts generalizing f with
  | nil => rfl
  | cons s stmts ih =>
      rw [Ssa.Language.run_cons, ih]
      rfl

theorem silent_of_no_action {stmts : List IRStmt} (f : Ssa.Frame Value LaneState)
    (h : ∀ s ∈ stmts, ∀ (ρ : LaneState) (look : ℕ → Value),
      (evalLane types world ρ look s).2.st.actions = ρ.st.actions) :
    Silent types world f stmts := by
  induction stmts generalizing f with
  | nil => trivial
  | cons s stmts ih =>
      exact ⟨h s List.mem_cons_self f.st _, ih _ fun t ht => h t (List.mem_cons_of_mem s ht)⟩

end

structure BlockFits {P : Type} (g : IrConfig P) (retTys : List TypeId) (q : IRBlocks P)
    (b : IRBlock P) : Prop where
  body : BodyFits g.irTypes (2 ^ g.pcWidth) b
  terminator : TerminatorFits g retTys q b.varKinds b.terminator

def argsAt {P : Type} (g : IrConfig P) (state : List (List Bool)) (i : ℕ) (b : IRBlock P) :
    List (List Bool) :=
  loadArgs g.irTypes state ((g.slotOf[i]?).getD []) b.params

namespace IrCtx
variable {P : Type} {world : Externals} {x : List (List Bool)} {σ : EvalState} {g : IrConfig P}
  {c d : IrCtx P} {slotTys retTys : List TypeId} {state : List (List Bool)} {q : IRBlocks P}
  {cur : ℕ} {b : IRBlock P} {ρ ρ' : LaneState}

def Phase (world : Externals) (x : List (List Bool)) (σ : EvalState) (g : IrConfig P)
    (ρ ρ' : LaneState) (after : Bool) (c : IrCtx P) : Prop :=
  LaneRel g (frame world x σ g c).st (if after then ρ' else ρ)

theorem keepsPhase : (reading world x σ g).KeepsPhase (Phase world x σ g ρ ρ') := by
  intro after c d hq h
  have hst : (frame world x σ g d).st = (frame world x σ g c).st := hq.st
  rwa [Phase, hst]

/-- Block `i` copied in a step at block `cur`. -/
theorem block_ensures (hg : Setup g x) (hw : Wired g slotTys q)
    (hq : ∀ b ∈ q.blocks, BlockFits g retTys q b)
    (hret : ∀ ty ∈ retTys, BinaryType g.irTypes ty) {i : ℕ} {b' : IRBlock P}
    (hb' : q.blocks[i]? = some b') (hc : c.Ok g)
    (hstate : (reading world x σ g).slots c slotTys (stateVars g slotTys) state)
    (hfit : ArgsFit g.irTypes slotTys state) {isActive : ℕ} {y : Bool}
    (hactive : HasBit world x σ g c isActive y)
    (hrel : LaneRel g (frame world x σ g c).st ρ) (hρ : StorageFits g.irTypes ρ.st)
    (hcells : ∀ storage addr, ρ.refs storage addr < 2 ^ g.pcWidth)
    (hsilent : y = false → Silent g.irTypes world
      ⟨paramValues b'.params (argsAt g state i b'), ρ⟩ b'.kinds) :
    Ensures (do
      let blockVals ← MovfuscCtx.emitBlockStmts q i (stateVars g slotTys) isActive
      MovfuscCtx.emitBlockTerminator q i blockVals g.pcWidth slotTys retTys) c fun t d =>
        Grows c d ∧ d.Ok g ∧ LaneRel g (frame world x σ g d).st
          (laneFrame g.irTypes world y b' (argsAt g state i b') ρ).st ∧
        (reading world x σ g).Holds d g.pcWidth slotTys retTys t
          (terminatorStep g slotTys retTys q b'.varKinds
            (Ssa.look (laneFrame g.irTypes world y b' (argsAt g state i b') ρ).vals) state
            b'.terminator) := by
  have hlaw := reading_lawful world σ hg
  have hmem := List.mem_of_getElem? hb'
  have hfits := hq b' hmem
  have hbound : 2 ^ g.pcWidth ≤ 2 ^ 32 := Nat.pow_le_pow_right (by decide) hg.small
  obtain ⟨found, hslotOf, hfound, -⟩ := hw.classes i b' hb'
  have hargs : argsAt g state i b' = loadArgs g.irTypes state found b'.params := by
    rw [argsAt, hslotOf, Option.getD_some]
  rw [hargs] at hsilent ⊢
  have hframe := laneFits_frame world hbound hfits.body.stmts (hfound.isArg_loadArgs hg.bit hfit)
    hρ hcells y
  apply (emitBlockStmts_ensures hg hw.pc hc hw.params hb' hslotOf hfound hstate hfit hfits.body
    hactive hrel hρ hcells hsilent).bind
  intro varMap d hd
  change Ensures (do
    let block ← orPanic q.blocks[i]?
    emitTerminator block.terminator varMap g.pcWidth slotTys retTys q) d _
  rw [hb', orPanic_some, pure_bind]
  have hkinds : ∀ v ty, HasType b'.varKinds v ty → DataFits g.irTypes ty := by
    intro v ty hv
    apply dataFits_of_stmtsFit hfits.body.stmts _ hv
    intro u uty hu
    exact hw.data b' hmem uty (hasType_params hu)
  apply (emitTerminator_ensures hg hw hd.ok hd.copied hframe.frame hkinds hfits.terminator
    (hlaw.slots_mono hd.grows hstate) hret).mono
  intro t e ⟨hqe, ht⟩
  refine ⟨hd.grows.trans hqe.grows, hqe.ok, ?_, ht⟩
  rw [hqe.st]
  exact hd.rel

/-- With the PC at block `cur`, the combined block does what block `cur` does. -/
theorem emitStep_ensures (hg : Setup g x) (hw : Wired g slotTys q)
    (hq : ∀ b ∈ q.blocks, BlockFits g retTys q b) (hn : q.blocks.length ≤ 2 ^ g.pcWidth)
    (hret : ∀ ty ∈ retTys, BinaryType g.irTypes ty) (hb : q.blocks[cur]? = some b)
    (hc : c.Ok g) (hpc : HasRef world x σ g c (List.range g.pcWidth) cur)
    (hstate : (reading world x σ g).slots c slotTys (stateVars g slotTys) state)
    (hfit : ArgsFit g.irTypes slotTys state)
    (hrel : LaneRel g (frame world x σ g c).st ρ) (hρ : StorageFits g.irTypes ρ.st)
    (hcells : ∀ storage addr, ρ.refs storage addr < 2 ^ g.pcWidth)
    (hρ' : ρ' = (laneFrame g.irTypes world true b (argsAt g state cur b) ρ).st)
    (hsilent : ∀ i b', q.blocks[i]? = some b' → i ≠ cur → Silent g.irTypes world
      ⟨paramValues b'.params (argsAt g state i b'), if cur < i then ρ' else ρ⟩ b'.kinds) :
    Ensures (emitStep q g.pcWidth slotTys retTys) c fun out d =>
      Grows c d ∧ d.Ok g ∧ LaneRel g (frame world x σ g d).st ρ' ∧
        (reading world x σ g).Holds d g.pcWidth slotTys retTys out
          (terminatorStep g slotTys retTys q b.varKinds
            (Ssa.look (laneFrame g.irTypes world true b (argsAt g state cur b) ρ).vals) state
            b.terminator) := by
  have hlaw := reading_lawful world σ hg
  have hbound : 2 ^ g.pcWidth ≤ 2 ^ 32 := Nat.pow_le_pow_right (by decide) hg.small
  have hcur : cur < q.blocks.length := (List.getElem?_eq_some_iff.mp hb).1
  obtain ⟨found, hslotOf, hfound, -⟩ := hw.classes cur b hb
  have hargs : argsAt g state cur b = loadArgs g.irTypes state found b.params := by
    rw [argsAt, hslotOf, Option.getD_some]
  have hafter : StorageFits g.irTypes ρ'.st ∧
      ∀ storage addr, ρ'.refs storage addr < 2 ^ g.pcWidth := by
    have hframe := laneFits_frame world hbound (hq b (List.mem_of_getElem? hb)).body.stmts
      (hfound.isArg_loadArgs hg.bit hfit) hρ hcells true
    rw [hρ', hargs]
    exact ⟨hframe.frame.storage, hframe.cells⟩
  have hbits : List.Forall₂ (HasBit world x σ g c) (List.range g.pcWidth)
      ((List.range g.pcWidth).map cur.testBit) := hpc.imp fun _ _ hv => HasSlot.hasBit hg hv
  have hphase : (reading world x σ g).KeepsPhase (Phase world x σ g ρ ρ') := keepsPhase
  apply hlaw.step hphase hcur hn hc hrel hbits hstate hret
  intro i hi d isActive hgd hd hbefore hactive
  have hb' : q.blocks[i]? = some q.blocks[i] := List.getElem?_eq_getElem hi
  have hstate' := hlaw.slots_mono hgd hstate
  have hd : d.Ok g := hd
  by_cases hsame : i = cur
  · -- the block itself, from the state before to the state after
    subst hsame
    obtain rfl : q.blocks[i] = b := Option.some.inj (hb'.symm.trans hb)
    rw [decide_eq_true rfl] at hactive
    have hbefore : LaneRel g (frame world x σ g d).st ρ := by simpa [Phase] using hbefore
    apply (block_ensures hg hw hq hret hb' hd hstate' hfit hactive hbefore hρ hcells nofun).mono
    intro t e ⟨hgrows, he, hrel', hholds⟩
    refine ⟨hgrows, he, ?_, _, fun _ => rfl, hholds⟩
    rw [Phase, hρ']
    simpa using hrel'
  · -- any other block changes nothing
    rw [decide_eq_false hsame] at hactive
    have hlater : (if decide (cur < i) then ρ' else ρ) = if cur < i then ρ' else ρ := by
      simp
    rw [Phase, hlater] at hbefore
    have hcells' : StorageFits g.irTypes (if cur < i then ρ' else ρ).st ∧
        ∀ storage addr, (if cur < i then ρ' else ρ).refs storage addr < 2 ^ g.pcWidth := by
      split_ifs
      · exact hafter
      · exact ⟨hρ, hcells⟩
    apply (block_ensures hg hw hq hret hb' hd hstate' hfit hactive hbefore hcells'.1 hcells'.2
      fun _ => hsilent i _ hb' hsame).mono
    intro t e ⟨hgrows, he, hrel', hholds⟩
    refine ⟨hgrows, he, ?_, _, fun h => absurd h hsame, hholds⟩
    rw [laneFrame, run_inactive] at hrel'
    have hnext : decide (cur < i + 1) = decide (cur < i) := by
      rw [decide_eq_decide]
      omega
    rw [Phase, hnext, hlater]
    exact hrel'

def inputsAt (pcWidth cur : ℕ) (state : List (List Bool)) : List (List Bool) :=
  (pcBitsOf pcWidth cur).map (fun b => [b]) ++ state

theorem combined_binary (hg : Setup g x) (hw : Wired g slotTys q) :
    ∀ ty ∈ g.combinedParamTypes, BinaryType g.irTypes ty := by
  intro ty hty
  rw [hw.params] at hty
  rcases List.mem_append.mp hty with hty | hty
  · rw [List.eq_of_mem_replicate hty]
    exact .of_isBit hg.bit
  · exact hw.slots ty hty

theorem argsFit_inputsAt (hg : Setup g x) (hw : Wired g slotTys q)
    (hfit : ArgsFit g.irTypes slotTys state) (cur : ℕ) :
    ArgsFit g.irTypes g.combinedParamTypes (inputsAt g.pcWidth cur state) := by
  rw [ArgsFit, inputsAt, hw.params, List.map_append, List.map_append, hfit.symm, List.map_map,
    List.map_replicate, bitWidth_of_isBit hg.bit]
  simp [Function.comp_def]

theorem ok_new (g : IrConfig P) : (IrCtx.new g.combinedParamTypes.length g).Ok g := ⟨rfl, rfl, rfl⟩

variable (world σ) in
theorem slots_new (hg : Setup g x) (hbinary : ∀ ty ∈ g.combinedParamTypes, BinaryType g.irTypes ty)
    (hfit : ArgsFit g.irTypes g.combinedParamTypes x) :
    (reading world x σ g).slots (IrCtx.new g.combinedParamTypes.length g) g.combinedParamTypes
      (List.range g.combinedParamTypes.length) x := by
  rw [Reading.slots_iff]
  refine ⟨List.length_range, hg.length, ?_⟩
  intro i ty v bits hty hv hbits
  have hlt := (List.getElem?_eq_some_iff.mp hty).1
  obtain rfl : i = v := by
    rw [List.getElem?_range hlt] at hv
    exact Option.some.inj hv
  have hlook : Ssa.look (frame world x σ g (IrCtx.new g.combinedParamTypes.length g)).vals i =
      ⟨bits, some ty, []⟩ := look_paramValues hty hbits
  have hwidth := argsFit_iff.mp hfit i
  rw [hty, hbits] at hwidth
  refine ⟨hbinary ty (List.mem_of_getElem? hty), ?_, ?_, hty⟩
  · rw [frame_length world σ hg (ok_new g)]
    exact hlt
  · rw [hlook]
    exact ⟨rfl, rfl, Option.some.inj hwidth⟩

def StepResult.config (r : StepResult (List Bool)) (τ : EvalState) : Config :=
  if r.done then .returned r.ret τ
  else .running 0 (r.nextPc.map (fun b => [b]) ++ r.nextState) τ

theorem bits_of_slots {vs : List ℕ} {xs : List (List Bool)} {tys : List TypeId}
    (h : (reading world x σ g).slots c tys vs xs) :
    (vs.map fun v => (Ssa.look (frame world x σ g c).vals v).bits) = xs := by
  induction tys generalizing vs xs with
  | nil =>
      match vs, xs, h with
      | [], [], _ => rfl
  | cons ty tys ih =>
      match vs, xs, h with
      | v :: vs, bits :: xs, h =>
          have hhead : HasSlot world x σ g c ty v bits := h.1
          rw [List.map_cons, ih h.2, hhead.value.bits]

theorem bits_of_hasBits {vs : List ℕ} {bs : List Bool}
    (h : List.Forall₂ (HasBit world x σ g c) vs bs) :
    (vs.map fun v => (Ssa.look (frame world x σ g c).vals v).bits) = bs.map fun b => [b] := by
  induction h with
  | nil => rfl
  | cons hv _ ih => rw [List.map_cons, ih, List.map_cons, hv.value.bits]

variable (world σ) in
/-- At the start the PC holds the block's index and the slots hold the state. -/
theorem start_new (hg : Setup g (inputsAt g.pcWidth cur state)) (hw : Wired g slotTys q)
    (hfit : ArgsFit g.irTypes slotTys state) :
    HasRef world (inputsAt g.pcWidth cur state) σ g (IrCtx.new g.combinedParamTypes.length g)
        (List.range g.pcWidth) cur ∧
      (reading world (inputsAt g.pcWidth cur state) σ g).slots
        (IrCtx.new g.combinedParamTypes.length g) slotTys (stateVars g slotTys) state := by
  have hparams := slots_new world σ hg (combined_binary hg hw)
    (argsFit_inputsAt hg hw hfit cur)
  have hlen : g.combinedParamTypes.length = g.pcWidth + slotTys.length := by
    rw [hw.params, List.length_append, List.length_replicate]
  have hpc : HasRef world (inputsAt g.pcWidth cur state) σ g
      (IrCtx.new g.combinedParamTypes.length g) (List.range g.pcWidth) cur := by
    have hslots := slots_take hparams g.pcWidth
    have htys : g.combinedParamTypes.take g.pcWidth = List.replicate g.pcWidth g.bitTypeId := by
      rw [hw.params, List.take_left' List.length_replicate]
    have hvars : (List.range g.combinedParamTypes.length).take g.pcWidth =
        List.range g.pcWidth := by
      rw [List.take_range, hlen, Nat.min_eq_left (Nat.le_add_right _ _)]
    have hbits : ((inputsAt g.pcWidth cur state).take g.pcWidth).flatten =
        pcBitsOf g.pcWidth cur := by
      rw [inputsAt, List.take_left' (by simp), ← List.flatMap_def, List.flatMap_singleton']
    rw [htys, hvars] at hslots
    have href := hasBits_of_slots hg hslots
    rwa [hbits] at href
  have hstate : (reading world (inputsAt g.pcWidth cur state) σ g).slots
      (IrCtx.new g.combinedParamTypes.length g) slotTys (stateVars g slotTys) state := by
    have hslots := slots_drop hparams g.pcWidth
    have htys : g.combinedParamTypes.drop g.pcWidth = slotTys := by
      rw [hw.params, List.drop_left' List.length_replicate]
    have hvars : (List.range g.combinedParamTypes.length).drop g.pcWidth = stateVars g slotTys := by
      rw [hlen, List.range_eq_range', List.drop_range']
      simp
    have hcells' : (inputsAt g.pcWidth cur state).drop g.pcWidth = state := by
      rw [inputsAt, List.drop_left' (by simp)]
    rwa [htys, hvars, hcells'] at hslots
  exact ⟨hpc, hstate⟩

/-- One iteration of the combined block at block `cur`. -/
theorem combined_step (hg : Setup g (inputsAt g.pcWidth cur state)) (hw : Wired g slotTys q)
    (hq : ∀ b ∈ q.blocks, BlockFits g retTys q b) (hn : q.blocks.length ≤ 2 ^ g.pcWidth)
    (hret : ∀ ty ∈ retTys, BinaryType g.irTypes ty) (hb : q.blocks[cur]? = some b)
    {out : TermResult}
    (hrun : (emitStep q g.pcWidth slotTys retTys).run (IrCtx.new g.combinedParamTypes.length g) =
      some (out, d))
    (hfit : ArgsFit g.irTypes slotTys state) {τ : EvalState} (hrel : LaneRel g τ ρ)
    (hρ : StorageFits g.irTypes ρ.st)
    (hcells : ∀ storage addr, ρ.refs storage addr < 2 ^ g.pcWidth)
    (hρ' : ρ' = (laneFrame g.irTypes world true b (argsAt g state cur b) ρ).st)
    (hsilent : ∀ i b', q.blocks[i]? = some b' → i ≠ cur → Silent g.irTypes world
      ⟨paramValues b'.params (argsAt g state i b'), if cur < i then ρ' else ρ⟩ b'.kinds) :
    ∃ τ', LaneRel g τ' ρ' ∧ stepBlock g.irTypes world
        (MovfuscCtx.buildOutput d (g.pcWidth + slotTys.length) out.done
          (out.nextPcBits ++ out.nextState) out.retVals)
        (.running 0 (inputsAt g.pcWidth cur state) τ) =
      StepResult.config (terminatorStep g slotTys retTys q b.varKinds
        (Ssa.look (laneFrame g.irTypes world true b (argsAt g state cur b) ρ).vals) state
        b.terminator) τ' := by
  obtain ⟨hpc, hstate⟩ := start_new world (τ.enter 0) hg hw hfit
  have hstep := (emitStep_ensures hg hw hq hn hret hb (ok_new g) hpc hstate hfit
    (show LaneRel g (τ.enter 0) ρ from hrel.congr ⟨rfl, rfl⟩ ⟨rfl, rfl, rfl⟩) hρ hcells
    hρ' hsilent).of_run hrun
  obtain ⟨-, hd, hrel', hout⟩ := hstep
  generalize hr : terminatorStep g slotTys retTys q b.varKinds
    (Ssa.look (laneFrame g.irTypes world true b (argsAt g state cur b) ρ).vals) state
    b.terminator = r at hout ⊢
  let F := frame world (inputsAt g.pcWidth cur state) (τ.enter 0) g d
  refine ⟨F.st.leave, hrel'.congr ⟨rfl, rfl⟩ ⟨rfl, rfl, rfl⟩, ?_⟩
  have hblock : blockFrame g.irTypes world ⟨d.config.combinedParamTypes, d.stmts,
      .jumpCond out.done ⟨.ret, out.retVals⟩ ⟨.block 0, out.nextPcBits ++ out.nextState⟩⟩
      (inputsAt g.pcWidth cur state) (τ.enter 0) = F := by
    rw [hd.config]
    rfl
  have hdone : (Ssa.look F.vals out.done).truth = r.done := by
    rw [Value.truth, hout.done.value.bits]
    rfl
  have hret' : (out.retVals.map fun v => (Ssa.look F.vals v).bits) = r.ret := bits_of_slots hout.ret
  have hnext : ((out.nextPcBits ++ out.nextState).map fun v => (Ssa.look F.vals v).bits) =
      r.nextPc.map (fun b => [b]) ++ r.nextState := by
    rw [List.map_append, bits_of_hasBits hout.nextPc, bits_of_slots hout.nextState]
  have hargs : (inputsAt g.pcWidth cur state).length = d.config.combinedParamTypes.length := by
    rw [hd.config]
    exact hg.length
  rw [stepBlock_running _ rfl, evalBlock, if_pos hargs, hblock]
  simp only [evalTerminator, resolveTarget, hdone, hret', hnext]
  unfold StepResult.config
  cases r.done <;> rfl

end IrCtx
end VolarIR.Movfuscate
