import VolarIR.Movfuscate.TypedPlan

/-!
# Typed movfuscation is a step-for-step simulation

Between two iterations the PC bits hold the new number of the block the source is about to
run, that block's slots hold its arguments, and the storage is the source's with every id
renamed; the other slots hold anything. Each block the source runs is one iteration.
-/
namespace VolarIR.Movfuscate
open Ir Stateful
open IrCtx (inputsAt StepResult.config)

def renamedStorage (storage : StorageMap) : StorageMap := fun cell =>
  if cell.1.id % 2 = 1 then storage (⟨cell.1.id / 2⟩, cell.2) else none

@[simp] theorem renamedStorage_plainLane (storage : StorageMap) (s : StorageId)
    (cell : TypeId × ℕ) : renamedStorage storage (plainLane s, cell) = storage (s, cell) := by
  have hodd : (s.id * 2 + 1) % 2 = 1 := by omega
  have hhalf : (s.id * 2 + 1) / 2 = s.id := by omega
  simp only [renamedStorage, plainLane, hodd, hhalf, if_true]

theorem renamedStorage_refLane (storage : StorageMap) (s : StorageId) (cell : TypeId × ℕ) :
    renamedStorage storage (refLane s, cell) = none := by
  have heven : ¬ (s.id * 2) % 2 = 1 := by omega
  exact if_neg heven

theorem lane_cases (s : StorageId) : (∃ t, s = plainLane t) ∨ ∃ t, s = refLane t := by
  obtain ⟨id⟩ := s
  rcases Nat.even_or_odd' id with ⟨k, rfl | rfl⟩
  · exact .inr ⟨⟨k⟩, by rw [refLane, Nat.mul_comm]⟩
  · exact .inl ⟨⟨k⟩, by rw [plainLane, Nat.mul_comm]⟩

theorem renamedStorage_update (storage : StorageMap) (s : StorageId) (cell : TypeId × ℕ)
    (bits : Option (List Bool)) : renamedStorage (Function.update storage (s, cell) bits) =
      Function.update (renamedStorage storage) (plainLane s, cell) bits := by
  funext ⟨lane, rest⟩
  rcases lane_cases lane with ⟨t, rfl⟩ | ⟨t, rfl⟩
  · rw [renamedStorage_plainLane]
    by_cases hsame : (t, rest) = (s, cell)
    · cases hsame
      rw [Function.update_self, Function.update_self]
    · have hne : (plainLane t, rest) ≠ (plainLane s, cell) := by
        intro h
        rw [Prod.mk.injEq] at h
        exact hsame (by rw [plainLane_injective h.1, h.2])
      rw [Function.update_of_ne hsame, Function.update_of_ne hne, renamedStorage_plainLane]
  · have hne : (refLane t, rest) ≠ (plainLane s, cell) := by
      intro h
      exact plainLane_ne_refLane s t (congrArg Prod.fst h).symm
    rw [Function.update_of_ne hne, renamedStorage_refLane, renamedStorage_refLane]

def SameCells (types : TypeTable) (m m' : StorageMap) : Prop :=
  ∀ cell : Cell, (m cell).getD (List.replicate (types.bitWidth cell.2.1) false) =
    (m' cell).getD (List.replicate (types.bitWidth cell.2.1) false)

section
variable {P : Type} {types : TypeTable} {g : IrConfig P} {σ τ : EvalState}

def noRefs : StorageId → ℕ → ℕ := fun _ _ => 0

theorem pcBitsOf_zero (pcWidth : ℕ) : pcBitsOf pcWidth 0 = List.replicate pcWidth false := by
  rw [pcBitsOf, List.map_congr_left (g := fun _ => false) fun j _ => Nat.zero_testBit j,
    List.map_const', List.length_range]

theorem laneRel_renamed (hgrows : types.Grows g.irTypes)
    (hwidth : g.irTypes.bitWidth g.vecPcTypeId = g.pcWidth) (hcells : PlainCells types σ.storage)
    (hτ : τ.storage = renamedStorage σ.storage) (hactions : τ.actions = σ.actions) :
    LaneRel g τ ⟨σ, noRefs⟩ where
  typed := by
    intro s ty addr bits hbits
    rw [hτ] at hbits
    rcases lane_cases s with ⟨t, rfl⟩ | ⟨t, rfl⟩
    · rw [renamedStorage_plainLane] at hbits
      exact hcells.storageFits hgrows t ty addr bits hbits
    · rw [renamedStorage_refLane] at hbits
      cases hbits
  plain s ty addr _ := by
    simp only [cellBits, hτ, renamedStorage_plainLane]
  refs s addr := by
    simp only [cellBits, hτ, renamedStorage_refLane, noRefs, pcBitsOf_zero, Option.getD_none,
      hwidth]
  others cell hcell := by
    obtain ⟨s, ty, addr⟩ := cell
    rw [hτ]
    rcases lane_cases s with ⟨t, rfl⟩ | ⟨t, rfl⟩
    · rw [renamedStorage_plainLane]
      cases hbits : σ.storage (t, ty, addr) with
      | none => rfl
      | some bits =>
          have hplain := not_isBlockType_grows hgrows (hcells _ bits hbits).1
          exact absurd (.inl ⟨t, rfl, hplain⟩) hcell
    · rw [renamedStorage_refLane]
  actions := hactions

theorem LaneRel.sameCells (h : LaneRel g τ ⟨σ, noRefs⟩) (hgrows : types.Grows g.irTypes)
    (hwidth : g.irTypes.bitWidth g.vecPcTypeId = g.pcWidth)
    (hcells : PlainCells types σ.storage) :
    SameCells g.irTypes τ.storage (renamedStorage σ.storage) := by
  rintro ⟨s, ty, addr⟩
  rcases lane_cases s with ⟨t, rfl⟩ | ⟨t, rfl⟩
  · rw [renamedStorage_plainLane]
    cases hblock : isBlockType g.irTypes ty with
    | false => exact h.plain t ty addr hblock
    | true =>
        have hlane : ¬ IsLane g (plainLane t, ty, addr) := by
          rintro (⟨s, -, hty⟩ | ⟨s, hs, -⟩)
          · rw [hblock] at hty
            cases hty
          · exact plainLane_ne_refLane t s hs
        have hnone : σ.storage (t, ty, addr) = none := by
          cases hbits : σ.storage (t, ty, addr) with
          | none => rfl
          | some bits =>
              rw [not_isBlockType_grows hgrows (hcells _ bits hbits).1] at hblock
              cases hblock
        rw [h.others _ hlane, hnone]
  · rw [renamedStorage_refLane]
    by_cases hty : ty = g.vecPcTypeId
    · subst hty
      have href := h.refs t addr
      simp only [cellBits, noRefs, pcBitsOf_zero] at href
      rw [href, Option.getD_none, hwidth]
    · have hlane : ¬ IsLane g (refLane t, ty, addr) := by
        rintro (⟨s, hs, -⟩ | ⟨s, -, h⟩)
        · exact plainLane_ne_refLane s t hs.symm
        · exact hty h
      rw [h.others _ hlane]

/-- The segments under their new ids set up the renamed storage. -/
theorem applyPreInit_renamed {preInit : List PreInitSegment}
    (htys : ∀ seg ∈ preInit, isBlockType types seg.ty = false)
    (hids : ∀ seg ∈ preInit, seg.storage.id * 2 ≤ u32Max) :
    ∃ renamed, preInit.mapM (remapPreInit types) = some renamed ∧ ∀ storage : StorageMap,
      applyPreInit types renamed (renamedStorage storage) =
        renamedStorage (applyPreInit types preInit storage) := by
  have hone : ∀ seg ∈ preInit, remapPreInit types seg =
      some { seg with storage := plainLane seg.storage } := by
    intro seg hseg
    rw [remapPreInit, IrCtx.storageLane, if_pos (hids seg hseg), htys seg hseg]
    rfl
  refine ⟨_, mapM_eq_some hone, ?_⟩
  clear hone htys hids
  induction preInit with
  | nil => exact fun _ => rfl
  | cons seg rest ih =>
      intro storage
      have hseg : ∀ (data : List Constant) (i : ℕ) (storage : StorageMap),
          PreInitSegment.apply types { seg with storage := plainLane seg.storage } i data
            (renamedStorage storage) = renamedStorage (seg.apply types i data storage) := by
        intro data
        induction data with
        | nil => exact fun _ _ => rfl
        | cons c data ihdata =>
            intro i storage
            rw [PreInitSegment.apply, PreInitSegment.apply, ← renamedStorage_update, ihdata]
      have hrest := ih (seg.apply types 0 seg.data storage)
      unfold applyPreInit at hrest ⊢
      rw [List.map_cons, List.foldl_cons, List.foldl_cons, hseg]
      exact hrest

end

section
variable {P : Type} {types : TypeTable} {retTys slotTys returnTys : List TypeId} {p q : IRBlocks P}
  {g : IrConfig P} {world : Externals}

variable (world) in
/-- Without block references the lanes play no part in a block. -/
theorem PlainStmts.run_lanes {kinds : List VarKind} {stmts : List IRStmt}
    (h : PlainStmts types kinds stmts) (hgrows : types.Grows g.irTypes)
    (f : Ssa.Frame Value EvalState) (refs : StorageId → ℕ → ℕ) :
    (laneLanguage g.irTypes world true).run ⟨f.vals, ⟨f.st, refs⟩⟩ stmts =
      ⟨((language g.irTypes world).run f stmts).vals,
        ⟨((language g.irTypes world).run f stmts).st, refs⟩⟩ := by
  induction stmts generalizing kinds f with
  | nil => rfl
  | cons s stmts ih =>
      have heval : evalLane g.irTypes world ⟨f.st, refs⟩ (Ssa.look f.vals) s = _ :=
        evalLane_eq (fun ty hty => binaryType_grows hgrows (h.1.values ty hty)) _ _
      have hstep : (laneLanguage g.irTypes world true).step ⟨f.vals, ⟨f.st, refs⟩⟩ s =
          ⟨((language g.irTypes world).step f s).vals,
            ⟨((language g.irTypes world).step f s).st, refs⟩⟩ := by
        simp only [Ssa.Language.step, laneLanguage, language, heval, if_true]
      rw [Ssa.Language.run_cons, Ssa.Language.run_cons, hstep]
      exact ih h.2 _

/-- The combined block is about to do what the source is about to do. -/
inductive LockStep (types : TypeTable) (p : IRBlocks P) (g : IrConfig P) (slotTys : List TypeId) :
    Config → Config → Prop
  | running {j cur : ℕ} {b : IRBlock P} {state : List (List Bool)} {σ τ : EvalState}
      (order : (layoutOrder p)[j]? = some cur) (block : p.blocks[cur]? = some b)
      (slots : ArgsFit g.irTypes slotTys state) (cells : PlainCells types σ.storage)
      (lanes : LaneRel g τ ⟨σ, noRefs⟩) :
      LockStep types p g slotTys (.running cur (argsAt g state j b) σ)
        (.running 0 (inputsAt g.pcWidth j state) τ)
  | returned {vals : List (List Bool)} {σ τ : EvalState} (cells : PlainCells types σ.storage)
      (lanes : LaneRel g τ ⟨σ, noRefs⟩) :
      LockStep types p g slotTys (.returned vals σ) (.returned vals τ)

variable {kinds : List VarKind} {f : Ssa.Frame Value EvalState}

theorem isArg_of_hasType (hf : FrameFits g.irTypes kinds f) {args : List ℕ}
    {tys : List TypeId} (h : List.Forall₂ (HasType kinds) args tys)
    (htys : ∀ ty ∈ tys, isBlockType g.irTypes ty = false) :
    List.Forall₂ (IsArg g.irTypes (2 ^ g.pcWidth)) tys
      (args.map fun v => (Ssa.look f.vals v).bits) := by
  induction h with
  | nil => exact .nil
  | @cons v ty _ _ hv _ ih =>
      have hvar := hf.var v (lt_of_kindAt_data hv)
      rw [show kindAt kinds v = .data ty from hv] at hvar
      refine .cons ⟨hvar.2, fun hblock => ?_⟩ (ih fun t ht => htys t (List.mem_cons_of_mem ty ht))
      rw [htys ty List.mem_cons_self] at hblock
      cases hblock

theorem returnCells_eq {args : List ℕ} {tys : List TypeId} (look : ℕ → Value)
    (h : List.Forall₂ (HasType kinds) args tys)
    (htys : ∀ ty ∈ tys, isBlockType g.irTypes ty = false) :
    args.flatMap (returnCells g kinds look) = args.map fun v => (look v).bits := by
  induction h with
  | nil => rfl
  | @cons v ty _ _ hv _ ih =>
      rw [List.flatMap_cons, List.map_cons, ih fun t ht => htys t (List.mem_cons_of_mem ty ht),
        returnCells, show kindAt kinds v = .data ty from hv]
      simp only [cellsOf, htys ty List.mem_cons_self]
      rfl

/-- A target leads both to the same block with the same arguments. -/
theorem Planned.target_lockStep (h : Planned types retTys p g slotTys returnTys q)
    (hf : FrameFits g.irTypes kinds f) (hkinds : ∀ v ty, HasType kinds v ty → BinaryType types ty)
    {t : IRBranchTarget} (ht : PlainTarget p retTys kinds t) (hkeep : Retains (layoutOrder p) t)
    {state : List (List Bool)} (hstate : ArgsFit g.irTypes slotTys state) {σ τ : EvalState}
    (hcells : PlainCells types σ.storage) (hrel : LaneRel g τ ⟨σ, noRefs⟩) :
    LockStep types p g slotTys (.next (some (resolveTarget (Ssa.look f.vals) t, σ)))
      (StepResult.config (targetStep g slotTys returnTys q kinds (Ssa.look f.vals) state
        (renumberTarget (layoutOrder p) t)) τ) := by
  obtain ⟨dest, args⟩ := t
  cases dest with
  | dyn v => exact ht.elim
  | ret =>
      have hargs : List.Forall₂ (HasType kinds) args retTys := ht
      have htys : ∀ ty ∈ retTys, isBlockType g.irTypes ty = false :=
        forall_of_hasTypes hargs fun _ _ hv => not_isBlockType_grows h.grows (hkinds _ _ hv)
      have hvals := returnCells_eq (Ssa.look f.vals) hargs htys
      simp only [renumberTarget, targetStep, resolveTarget, Config.next, StepResult.config,
        hvals, if_true]
      exact .returned hcells hrel
  | block d =>
      obtain ⟨b, hb, hargs⟩ := ht
      have hmem := hkeep d rfl
      have horder := getElem?_idxOf hmem
      obtain ⟨b', hb', hq⟩ := h.laidOut.block _ d horder
      obtain rfl := Option.some.inj (hb.symm.trans hb')
      have htys : ∀ ty ∈ b.params, isBlockType g.irTypes ty = false :=
        forall_of_hasTypes hargs fun _ _ hv => not_isBlockType_grows h.grows (hkinds _ _ hv)
      obtain ⟨found, hslotOf, hfound, -⟩ := h.wired.classes _ _ hq
      have hisArg := isArg_of_hasType hf hargs htys
      have hfits := hfound.argsFit_scatterCells h.bit hstate (argsFit_of_isArg hisArg)
      have hlen : state.length = slotTys.length := by
        have hlens := congrArg List.length hstate
        simpa using hlens
      have hload := hfound.loadArgs_scatterCells h.wired.pc h.small hlen hisArg
      have hargsAt : argsAt g (scatterCells g.irTypes g.pcWidth state found b.params
          (args.map fun v => (Ssa.look f.vals v).bits)) ((layoutOrder p).idxOf d) b =
          args.map fun v => (Ssa.look f.vals v).bits := by
        rw [argsAt, hslotOf, Option.getD_some]
        exact hload
      simp only [renumberTarget, targetStep, resolveTarget, Config.next, jumpStep,
        StepResult.config, hq, targetSlots, hslotOf, Option.map_some, Option.getD_some,
        Bool.false_eq_true, if_false]
      have hnext := LockStep.running (b := b) horder hb hfits hcells hrel
      dsimp only at hnext
      rw [hargsAt] at hnext
      exact hnext

def hasEffects : IRStmt → Bool
  | .actionCall .. | .actionStore .. | .rng .. => true
  | _ => false

theorem actions_of_no_effects {s : IRStmt} (h : hasEffects s = false) (ρ : LaneState)
    (look : ℕ → Value) : (evalLane g.irTypes world ρ look s).2.st.actions = ρ.st.actions := by
  cases s with
  | actionCall | actionStore | rng => cases h
  | storageRead storage ty addr =>
      rw [evalLane]
      split_ifs <;> rfl
  | storageWrite storage src ty addr =>
      rw [evalLane]
      split_ifs <;> rfl
  | _ => rfl

def OthersSilent (g : IrConfig P) (world : Externals) (q : IRBlocks P) (j : ℕ)
    (state : List (List Bool)) (ρ ρ' : LaneState) : Prop :=
  ∀ i b', q.blocks[i]? = some b' → i ≠ j → Silent g.irTypes world
    ⟨paramValues b'.params (argsAt g state i b'), if j < i then ρ' else ρ⟩ b'.kinds

/-- One block of the source is one iteration. -/
theorem Planned.lockStep_step (h : Planned types retTys p g slotTys returnTys q)
    (hp : ∀ b ∈ p.blocks, PlainBlock types p retTys b)
    (hcopy : ∀ b ∈ q.blocks, ∀ s ∈ b.stmts, Copyable s.kind) {out : TermResult} {d : IrCtx P}
    (hrun : (emitStep q g.pcWidth slotTys returnTys).run
      (IrCtx.new g.combinedParamTypes.length g) = some (out, d))
    (preInit : List PreInitSegment) {c e : Config} (hce : LockStep types p g slotTys c e)
    (hsilent : ∀ {j cur : ℕ} {b : IRBlock P} {state : List (List Bool)} {σ : EvalState},
      (layoutOrder p)[j]? = some cur → p.blocks[cur]? = some b →
      c = .running cur (argsAt g state j b) σ → ArgsFit g.irTypes slotTys state →
      OthersSilent g world q j state ⟨σ.enter cur, noRefs⟩
        ⟨(blockFrame types world b (argsAt g state j b) (σ.enter cur)).st, noRefs⟩) :
    LockStep types p g slotTys (stepBlock types world p c)
      (stepBlock g.irTypes world (combinedProgram g slotTys preInit out d).toIRBlocks e) := by
  cases hce with
  | returned hcells hrel => exact .returned hcells hrel
  | @running j cur b state σ τ horder hb hstate hcells hrel =>
      have hplain := hp b (List.mem_of_getElem? hb)
      obtain ⟨b', hb', hq⟩ := h.laidOut.block j cur horder
      obtain rfl := Option.some.inj (hb.symm.trans hb')
      obtain ⟨found, hslotOf, hfound, -⟩ := h.wired.classes j _ hq
      have hkeep := h.laidOut.closed cur (List.mem_of_getElem? horder) b hb
      have hcells' : PlainCells types (σ.enter cur).storage := hcells
      have hargs : ArgsFit g.irTypes b.params (argsAt g state j b) := by
        rw [argsAt, hslotOf]
        exact argsFit_of_isArg (hfound.isArg_loadArgs h.bit hstate)
      have hlenArgs : (argsAt g state j b).length = b.params.length := by
        have hlens := congrArg List.length hargs
        simpa using hlens
      -- The block's frame is the same in both type tables.
      have hstart := frameFits_params (b := b) hargs (hcells'.storageFits h.grows)
      have htyped : StmtsTyped g.irTypes (b.params.map .data) b.kinds :=
        hplain.stmts.typed h.grows
      have hframe : FrameFits g.irTypes b.varKinds
          (blockFrame types world b (argsAt g state j b) (σ.enter cur)) := by
        have hrun := hstart.run world htyped
        rwa [hplain.stmts.run_grows world h.grows hstart] at hrun
      have hafter : PlainCells types
          (blockFrame types world b (argsAt g state j b) (σ.enter cur)).st.storage :=
        hplain.stmts.cells world hcells'
      have hlane : laneFrame g.irTypes world true
          { b with terminator := renumberTerminator (layoutOrder p) b.terminator }
          (argsAt g state j
            { b with terminator := renumberTerminator (layoutOrder p) b.terminator })
          ⟨σ.enter cur, noRefs⟩ =
          ⟨(blockFrame types world b (argsAt g state j b) (σ.enter cur)).vals,
            ⟨(blockFrame types world b (argsAt g state j b) (σ.enter cur)).st, noRefs⟩⟩ := by
        have hlanes := hplain.stmts.run_lanes world h.grows
          ⟨paramValues b.params (argsAt g state j b), σ.enter cur⟩ noRefs
        rw [hplain.stmts.run_grows world h.grows hstart] at hlanes
        exact hlanes
      have hlenState : state.length = slotTys.length := by
        have hlens := congrArg List.length hstate
        simpa using hlens
      have hinputs : (inputsAt g.pcWidth j state).length = g.combinedParamTypes.length := by
        rw [inputsAt, h.wired.params]
        simp [hlenState]
      have hρ : LaneRel g τ ⟨σ.enter cur, noRefs⟩ := hrel.congr ⟨rfl, rfl⟩ ⟨rfl, rfl, rfl⟩
      have hcombined := IrCtx.combined_step (h.setup hinputs) h.wired
        (h.fits hcopy) h.length_le h.binary hq hrun hstate hρ (hcells'.storageFits h.grows)
        (fun _ _ => Nat.two_pow_pos _) (congrArg Ssa.Frame.st hlane).symm
        (hsilent horder hb rfl hstate)
      obtain ⟨τ', hrel', hstep⟩ := hcombined
      rw [hlane] at hstep
      have hleave : LaneRel g τ'
          ⟨(blockFrame types world b (argsAt g state j b) (σ.enter cur)).st.leave, noRefs⟩ :=
        hrel'.congr ⟨rfl, rfl⟩ ⟨rfl, rfl, rfl⟩
      have htarget : ∀ t ∈ b.terminator.targets, LockStep types p g slotTys
          (.next (some (resolveTarget (Ssa.look (blockFrame types world b (argsAt g state j b)
              (σ.enter cur)).vals) t,
            (blockFrame types world b (argsAt g state j b) (σ.enter cur)).st.leave)))
          (StepResult.config (targetStep g slotTys returnTys q b.varKinds
            (Ssa.look (blockFrame types world b (argsAt g state j b) (σ.enter cur)).vals) state
            (renumberTarget (layoutOrder p) t)) τ') := fun t ht =>
        h.target_lockStep hframe (fun _ _ hv => hplain.dataType hv) (hplain.terminator.target ht)
          (hkeep t ht) hstate hafter hleave
      have hgoal : LockStep types p g slotTys
          (.next (handedOn (evalBlock types world b (argsAt g state j b) (σ.enter cur))))
          (StepResult.config (terminatorStep g slotTys returnTys q b.varKinds
            (Ssa.look (blockFrame types world b (argsAt g state j b) (σ.enter cur)).vals) state
            (renumberTerminator (layoutOrder p) b.terminator)) τ') := by
        have hterm := hplain.terminator
        rw [evalBlock, if_pos hlenArgs]
        cases hcase : b.terminator with
        | jmp t =>
            rw [hcase] at htarget
            exact htarget t (by simp [IRTerminator.targets])
        | jumpCond condition t e =>
            rw [hcase] at htarget
            simp only [evalTerminator, renumberTerminator, terminatorStep]
            split_ifs
            · exact htarget t (by simp [IRTerminator.targets])
            · exact htarget e (by simp [IRTerminator.targets])
        | jumpTable index cases =>
            rw [hcase] at hterm
            exact hterm.elim
      rw [stepBlock_running p hb]
      exact hstep ▸ hgoal

theorem othersSilent_of_no_effects {j : ℕ} (h : ∀ b ∈ q.blocks, ∀ s ∈ b.kinds, hasEffects s = false)
    (state : List (List Bool)) (ρ ρ' : LaneState) : OthersSilent g world q j state ρ ρ' := by
  intro i b hb _
  apply silent_of_no_action
  intro s hs
  exact actions_of_no_effects (h b (List.mem_of_getElem? hb) s hs)

theorem Planned.lockStep_run (h : Planned types retTys p g slotTys returnTys q)
    (hp : ∀ b ∈ p.blocks, PlainBlock types p retTys b)
    (hcopy : ∀ b ∈ q.blocks, ∀ s ∈ b.stmts, Copyable s.kind)
    (hquiet : ∀ b ∈ q.blocks, ∀ s ∈ b.kinds, hasEffects s = false) {out : TermResult} {d : IrCtx P}
    (hrun : (emitStep q g.pcWidth slotTys returnTys).run
      (IrCtx.new g.combinedParamTypes.length g) = some (out, d))
    (preInit : List PreInitSegment) {c e : Config} (hce : LockStep types p g slotTys c e) (k : ℕ) :
    LockStep types p g slotTys (runBlocks types world p k c)
      (runBlocks g.irTypes world (combinedProgram g slotTys preInit out d).toIRBlocks k e) := by
  induction k generalizing c e with
  | zero => exact hce
  | succ k ih =>
      exact ih (h.lockStep_step hp hcopy hrun preInit hce
        fun _ _ _ _ => othersSilent_of_no_effects hquiet _ _ _)

/-- The blocks can be emitted, whatever they are run on later. -/
theorem Planned.exists_run (h : Planned types retTys p g slotTys returnTys q)
    (hcopy : ∀ b ∈ q.blocks, ∀ s ∈ b.stmts, Copyable s.kind)
    (hquiet : ∀ b ∈ q.blocks, ∀ s ∈ b.kinds, hasEffects s = false) :
    ∃ out d, (emitStep q g.pcWidth slotTys returnTys).run
      (IrCtx.new g.combinedParamTypes.length g) = some (out, d) ∧ d.config = g := by
  let silent : Externals := ⟨fun _ _ _ _ => [], fun _ _ _ => [], fun _ _ _ => []⟩
  let state := slotTys.map fun ty => List.replicate (g.irTypes.bitWidth ty) false
  have hstate : ArgsFit g.irTypes slotTys state := by
    simp [ArgsFit, state, Function.comp_def]
  have hinputs : (inputsAt g.pcWidth 0 state).length = g.combinedParamTypes.length := by
    rw [inputsAt, h.wired.params]
    simp [state]
  have hg := h.setup hinputs
  obtain ⟨b, -, hb⟩ := h.laidOut.block 0 0 h.laidOut.zero
  obtain ⟨hpc, hslots⟩ := IrCtx.start_new silent EvalState.start hg h.wired hstate
  have hcells : PlainCells types EvalState.start.storage := plainCells_start
  have hrel : LaneRel g EvalState.start ⟨EvalState.start, noRefs⟩ :=
    laneRel_renamed h.grows h.refWidth hcells
        (by funext cell; simp [renamedStorage, EvalState.start])
      rfl
  obtain ⟨out, d, hrun, -, hd, -⟩ := IrCtx.emitStep_ensures hg h.wired (h.fits hcopy) h.length_le
    h.binary hb (IrCtx.ok_new g) hpc hslots hstate hrel (hcells.storageFits h.grows)
    (fun _ _ => Nat.two_pow_pos _) rfl (othersSilent_of_no_effects hquiet state _ _)
  exact ⟨out, d, hrun, hd.config⟩

end

/-- The PC bits are zero and the entry block's slots hold its arguments; the other slots hold
anything. -/
def EntryInputs (pcWidth : ℕ) (slots : List (ℕ × ℕ)) (args inputs : List (List Bool)) : Prop :=
  inputs.take pcWidth = List.replicate pcWidth [false] ∧
    List.Forall₂ (fun slot arg => inputs[pcWidth + slot.1]? = some arg) slots args

/-- Both are between blocks, or both have returned the same values, with the same storage up
to the renaming. -/
def SameOutcome (types : TypeTable) : Config → Config → Prop
  | .running _ _ σ, .running _ _ τ => SameCells types τ.storage (renamedStorage σ.storage)
  | .returned vals σ, .returned vals' τ =>
      vals = vals' ∧ SameCells types τ.storage (renamedStorage σ.storage)
  | _, _ => False

section
variable {P : Type} {types : TypeTable} {retTys slotTys returnTys : List TypeId} {p : IRProgram P}
  {q : IRBlocks P} {g : IrConfig P} {world : Externals}

theorem Planned.sameOutcome (h : Planned types retTys p.toIRBlocks g slotTys returnTys q)
    {c e : Config} (hce : LockStep types p.toIRBlocks g slotTys c e) :
    SameOutcome g.irTypes c e := by
  cases hce with
  | running _ _ _ hcells hrel => exact hrel.sameCells h.grows h.refWidth hcells
  | returned hcells hrel => exact ⟨rfl, hrel.sameCells h.grows h.refWidth hcells⟩

theorem SlotsFor.length {bitTypeId : TypeId} {pcWidth start : ℕ} {slots tys : List TypeId}
    {found : List (ℕ × ℕ)} (h : SlotsFor types bitTypeId pcWidth slots start tys found) :
    found.length = tys.length := by
  induction h with
  | nil => rfl
  | cons _ _ _ ih => rw [List.length_cons, List.length_cons, ih]

theorem loadArgs_eq {state : List (List Bool)} {slots : List (ℕ × ℕ)} {tys : List TypeId}
    {args : List (List Bool)} (htys : ∀ ty ∈ tys, isBlockType types ty = false)
    (hlen : slots.length = tys.length)
    (h : List.Forall₂ (fun slot arg => state[slot.1]? = some arg) slots args) :
    loadArgs types state slots tys = args := by
  induction h generalizing tys with
  | nil =>
      cases tys with
      | nil => rfl
      | cons => simp at hlen
  | @cons slot arg _ _ hslot _ ih =>
      cases tys with
      | nil => simp at hlen
      | cons ty tys =>
          rw [loadArgs, ih (fun t ht => htys t (List.mem_cons_of_mem ty ht)) (by simpa using hlen),
            loadArg, if_neg (by rw [htys ty List.mem_cons_self]; decide),
            List.getD_eq_getElem?_getD, hslot]
          rfl

/-- The combined program starts where the source starts. -/
theorem PlainProgram.lockStep_initial (hp : PlainProgram types retTys p) (hids : IdsFit p)
    (h : Planned types retTys p.toIRBlocks g slotTys returnTys q) {entry : IRBlock P}
    (hentry : p.blocks[0]? = some entry) {args inputs : List (List Bool)}
    (hinputs : ArgsFit g.irTypes g.combinedParamTypes inputs)
    (hat : EntryInputs g.pcWidth ((g.slotOf[0]?).getD []) args inputs)
    {renamed : List PreInitSegment} (hpre : p.preInit.mapM (remapPreInit g.irTypes) = some renamed)
    {out : TermResult} {d : IrCtx P} :
    LockStep types p.toIRBlocks g slotTys (p.initial types args)
      ((combinedProgram g slotTys renamed out d).initial g.irTypes inputs) := by
  obtain ⟨b, hb, hq⟩ := h.laidOut.block 0 0 h.laidOut.zero
  obtain rfl := Option.some.inj (hentry.symm.trans hb)
  obtain ⟨found, hslotOf, hfound, -⟩ := h.wired.classes 0 _ hq
  have hparams := (hp.blocks entry (List.mem_of_getElem? hentry)).params
  obtain ⟨hzero, hargs⟩ := hat
  rw [hslotOf, Option.getD_some] at hargs
  have hsplit : inputs = inputsAt g.pcWidth 0 (inputs.drop g.pcWidth) := by
    conv_lhs => rw [← List.take_append_drop g.pcWidth inputs]
    rw [hzero, inputsAt, pcBitsOf_zero, List.map_replicate]
  have hslots : List.Forall₂ (fun slot arg => (inputs.drop g.pcWidth)[slot.1]? = some arg) found
      args := by
    apply hargs.imp
    intro slot arg hslot
    rw [List.getElem?_drop]
    exact hslot
  have hload : argsAt g (inputs.drop g.pcWidth) 0 entry = args := by
    rw [argsAt, hslotOf, Option.getD_some]
    apply loadArgs_eq _ _ hslots
    · exact fun ty hty => not_isBlockType_grows h.grows (hparams ty hty)
    · exact hfound.length
  have hstate : ArgsFit g.irTypes slotTys (inputs.drop g.pcWidth) := by
    rw [ArgsFit, List.map_drop, show inputs.map List.length = _ from hinputs, ← List.map_drop,
      h.wired.params, List.drop_left' List.length_replicate]
  have hsegs : ∀ seg ∈ p.preInit, isBlockType g.irTypes seg.ty = false :=
    fun seg hseg => not_isBlockType_grows h.grows (hp.preInit seg hseg)
  obtain ⟨segs, hsegsMap, hstorage⟩ := applyPreInit_renamed hsegs hids.segments
  obtain rfl := Option.some.inj (hpre.symm.trans hsegsMap)
  have hcells := plainCells_start.applyPreInit hp.preInit
  have hstart : applyPreInit g.irTypes renamed EvalState.start.storage =
      renamedStorage (applyPreInit types p.preInit EvalState.start.storage) := by
    have hnone : renamedStorage EvalState.start.storage = EvalState.start.storage := by
      funext cell
      simp [renamedStorage, EvalState.start]
    have hthis := hstorage EvalState.start.storage
    rwa [hnone, applyPreInit_grows h.grows hp.preInit] at hthis
  unfold IRProgram.initial
  rw [hsplit, ← hload]
  exact .running h.laidOut.zero hentry hstate hcells
    (laneRel_renamed h.grows h.refWidth hcells hstart rfl)

theorem Planned.copyable (h : Planned types retTys p.toIRBlocks g slotTys returnTys q)
    (hids : IdsFit p) (hquiet : ∀ b ∈ p.blocks, ∀ s ∈ b.kinds, hasEffects s = false) :
    (∀ b ∈ q.blocks, ∀ s ∈ b.stmts, Copyable s.kind) ∧
      ∀ b ∈ q.blocks, ∀ s ∈ b.kinds, hasEffects s = false := by
  have hsource : ∀ b' ∈ q.blocks, ∃ b ∈ p.blocks, b'.stmts = b.stmts := by
    intro b' hb'
    obtain ⟨j, hj⟩ := List.mem_iff_getElem?.mp hb'
    have hlt : j < (layoutOrder p.toIRBlocks).length :=
      h.laidOut.length ▸ (List.getElem?_eq_some_iff.mp hj).1
    obtain ⟨b, hb, hq⟩ := h.laidOut.block j _ (List.getElem?_eq_getElem hlt)
    obtain rfl := Option.some.inj (hj.symm.trans hq)
    exact ⟨b, List.mem_of_getElem? hb, rfl⟩
  constructor
  · intro b' hb' s hs
    obtain ⟨b, hb, hstmts⟩ := hsource b' hb'
    rw [hstmts] at hs
    have hmem : s.kind ∈ b.kinds := List.mem_map_of_mem hs
    have hnone := hquiet b hb s.kind hmem
    refine ⟨?_, ?_, hids.storages b hb s.kind hmem⟩
    · intro name guard args fallbacks outputTys targets heq
      rw [heq] at hnone
      cases hnone
    · intro name ty heq
      rw [heq] at hnone
      cases hnone
  · intro b' hb' s hs
    obtain ⟨b, hb, hstmts⟩ := hsource b' hb'
    rw [IRBlock.kinds, hstmts] at hs
    exact hquiet b hb s hs

/-- Typed movfuscation is a step-for-step simulation: from PC bits zero, the entry arguments
in their slots and anything in the others, the step program stands after every number of
iterations where the source stands after as many blocks, so it exits with the same values
after exactly as many, or never, and leaves the same storage under renamed ids. -/
theorem movfuscateIr_simulates {controlProv : Option P} (hp : PlainProgram types retTys p)
    (hseveral : 2 ≤ (layoutOrder p.toIRBlocks).length) (hids : IdsFit p)
    (hquiet : ∀ b ∈ p.blocks, ∀ s ∈ b.kinds, hasEffects s = false)
    (hprov : HasProvenance p.toIRBlocks controlProv) :
    ∃ out types' slots block, movfuscateIrImpl p types controlProv = some (out, types') ∧
      movfuscateEntryParamSlots p types = some slots ∧ out.blocks = [block] ∧
      (∃ done ret loop, block.terminator = .jumpCond done ⟨.ret, ret⟩ ⟨.block 0, loop⟩) ∧
      ∀ (world : Externals) (args inputs : List (List Bool)),
        ArgsFit types' block.params inputs →
        EntryInputs (pcBitsNeeded (layoutOrder p.toIRBlocks).length) slots args inputs →
        ∀ k, SameOutcome types' (runBlocks types world p.toIRBlocks k (p.initial types args))
            (runBlocks types' world out.toIRBlocks k (out.initial types' inputs)) ∧
          ∀ vals, (∃ τ, runBlocks types' world out.toIRBlocks k (out.initial types' inputs) =
              .returned vals τ) ↔
            ∃ σ, runBlocks types world p.toIRBlocks k (p.initial types args) =
              .returned vals σ := by
  obtain ⟨g, slotTys, returnTys, q, h, hslots, himpl⟩ := hp.exists_plan hseveral hprov
  obtain ⟨hcopy, hquiet'⟩ := h.copyable hids hquiet
  obtain ⟨out, d, hrun, hd⟩ := h.exists_run hcopy hquiet'
  have hsegs : ∀ seg ∈ p.preInit, isBlockType g.irTypes seg.ty = false :=
    fun seg hseg => not_isBlockType_grows h.grows (hp.preInit seg hseg)
  obtain ⟨renamed, hpre, -⟩ := applyPreInit_renamed hsegs hids.segments
  have hcount : 0 < p.blocks.length := by
    have hmulti := hp.multi
    omega
  have hentry : p.blocks[0]? = some (p.blocks.get ⟨0, hcount⟩) := List.getElem?_eq_getElem hcount
  refine ⟨combinedProgram g slotTys renamed out d, g.irTypes, (g.slotOf[0]?).getD [], _, ?_,
    hslots, rfl, ⟨_, _, _, rfl⟩, ?_⟩
  · rw [himpl, hrun, Option.bind_some, hpre]
    rfl
  · intro world args inputs hinputs hat k
    have hwidth : pcBitsNeeded (layoutOrder p.toIRBlocks).length = g.pcWidth := by
      rw [h.width, h.laidOut.length]
    rw [hwidth] at hat
    dsimp only at hinputs
    rw [hd] at hinputs
    have hstart : LockStep types p.toIRBlocks g slotTys (p.initial types args)
        ((combinedProgram g slotTys renamed out d).initial g.irTypes inputs) :=
      hp.lockStep_initial hids h hentry hinputs hat hpre
    have hend : LockStep types p.toIRBlocks g slotTys
        (runBlocks types world p.toIRBlocks k _)
        (runBlocks g.irTypes world (combinedProgram g slotTys renamed out d).toIRBlocks k _) :=
      h.lockStep_run hp.blocks hcopy hquiet' hrun renamed hstart k
    refine ⟨h.sameOutcome hend, fun vals => ?_⟩
    generalize runBlocks types world p.toIRBlocks k (p.initial types args) = c at hend
    generalize runBlocks g.irTypes world (combinedProgram g slotTys renamed out d).toIRBlocks k
      ((combinedProgram g slotTys renamed out d).initial g.irTypes inputs) = e at hend
    cases hend with
    | running => simp
    | returned => simp

end

def tallyTypes : TypeTable := ⟨[.primitive .bit, .vec 4 ⟨0⟩]⟩

/-- A loop that stores what it is given until its flag is off; one block is never reached. -/
def tally : IRProgram Unit where
  blocks := [
    ⟨[⟨0⟩, ⟨1⟩], [Node.new (.const .zero ⟨0⟩) (), Node.new (.storageWrite ⟨0⟩ 1 ⟨1⟩ 2) (),
        Node.new (.poly ⟨0⟩ (.ofList [([0], 1)]) ⟨0, 1⟩) ()],
      .jumpCond 0 ⟨.block 0, [4, 1]⟩ ⟨.block 2, [1]⟩⟩,
    ⟨[], [], .jmp ⟨.block 1, []⟩⟩,
    ⟨[⟨1⟩], [Node.new (.const .zero ⟨0⟩) (), Node.new (.storageRead ⟨0⟩ ⟨1⟩ 1) ()],
      .jmp ⟨.ret, [2]⟩⟩]
  preInit := [⟨⟨0⟩, ⟨1⟩, 0, [⟨0, 5⟩]⟩]

theorem isBit_tally : tallyTypes.isBit ⟨0⟩ = true := rfl

theorem binaryType_tally {ty : TypeId} (h : ty = ⟨0⟩ ∨ ty = ⟨1⟩) : BinaryType tallyTypes ty := by
  rcases h with rfl | rfl
  · exact .of_isBit isBit_tally
  · exact (binaryType_bits (n := 4) isBit_tally rfl).1

section
variable {types : TypeTable} {kinds : List VarKind} {ty : TypeId}

theorem plainStmt_const {c : Constant} (h : BinaryType types ty) :
    PlainStmt types kinds (.const c ty) :=
  ⟨trivial, nofun, by simpa [valueTypes, IRStmt.outputType], nofun, nofun⟩

theorem plainStmt_read {storage : StorageId} {addr : ℕ} (h : BinaryType types ty)
    (haddr : PlainVar types kinds addr) : PlainStmt types kinds (.storageRead storage ty addr) :=
  ⟨trivial, by simpa [plainOperands, IRStmt.operands], by simpa [valueTypes, IRStmt.outputType],
    nofun, nofun⟩

theorem plainStmt_write {storage : StorageId} {src addr : ℕ} (h : BinaryType types ty)
    (hsrc : HasType kinds src ty) (haddr : PlainVar types kinds addr) :
    PlainStmt types kinds (.storageWrite storage src ty addr) where
  typed := trivial
  operands := by simpa [plainOperands]
  values := by simpa [valueTypes]
  stored s u t a heq := by
    cases heq
    exact hsrc
  sorted := nofun

end

theorem plainProgram_tally : PlainProgram tallyTypes [⟨1⟩] tally where
  multi := by decide
  small := by decide
  preInit := by
    intro seg hseg
    rw [List.mem_singleton.mp hseg]
    exact binaryType_tally (.inr rfl)
  blocks := by
    have hbit := binaryType_tally (.inl rfl)
    have hvec := binaryType_tally (.inr rfl)
    intro b hb
    simp only [tally, List.mem_cons, List.not_mem_nil, or_false] at hb
    rcases hb with rfl | rfl | rfl
    · refine ⟨by simp [hbit, hvec], ⟨plainStmt_const hbit, ?_, ?_, trivial⟩, ?_⟩
      · exact plainStmt_write hvec rfl ⟨⟨0⟩, rfl, hbit⟩
      · refine ⟨⟨hbit.polyType, ?_⟩, ?_, ?_, nofun, ?_⟩
        · intro e he v hv
          obtain rfl := List.mem_singleton.mp he
          obtain rfl := List.mem_singleton.mp hv
          exact ⟨⟨0⟩, rfl, .gate isBit_tally⟩
        · intro v hv
          obtain rfl : v = 0 := List.mem_singleton.mp hv
          exact ⟨⟨0⟩, rfl, hbit⟩
        · intro ty hty
          obtain rfl := List.mem_singleton.mp hty
          exact hbit
        · intro ty coeffs c heq e he
          cases heq
          obtain rfl := List.mem_singleton.mp he
          simp
      · exact ⟨⟨⟨0⟩, rfl, isBit_tally⟩, ⟨_, rfl, .cons rfl (.cons rfl .nil)⟩,
          ⟨_, rfl, .cons rfl .nil⟩⟩
    · exact ⟨by simp, trivial, ⟨_, rfl, .nil⟩⟩
    · refine ⟨by simp [hvec], ⟨plainStmt_const hbit, ?_, trivial⟩, .cons rfl .nil⟩
      exact plainStmt_read hvec ⟨⟨0⟩, rfl, hbit⟩

/-- Two iterations, for the two blocks that the loop runs when its flag is off at once. -/
theorem movfuscateIr_simulates_tally :
    ∃ out types', movfuscateIr tally tallyTypes = some (out, types') ∧ ∀ world vals,
      (∃ τ, runBlocks types' world out.toIRBlocks 2 (out.initial types'
          [[false], [false], [true, false, true, true], [true, true, true, true]]) =
        .returned vals τ) ↔
      ∃ σ, runBlocks tallyTypes world tally.toIRBlocks 2 (tally.initial tallyTypes
          [[false], [true, true, true, true]]) = .returned vals σ := by
  obtain ⟨out, types', slots, block, himpl, hslots, hout, -, hruns⟩ :=
    movfuscateIr_simulates plainProgram_tally (by decide) ⟨by decide, by decide⟩ (by decide)
      (show HasProvenance tally.toIRBlocks none from .inl ⟨0, by decide, _, rfl, by decide⟩)
  have hfound : movfuscateEntryParamSlots tally tallyTypes = some [(0, 1), (2, 1)] := by
    decide +kernel
  obtain rfl := Option.some.inj (hfound.symm.trans hslots)
  have htypes : (movfuscateIr tally tallyTypes).map (fun r =>
      (r.1.blocks.map fun b => b.params.map r.2.bitWidth)) = some [[1, 1, 4, 4]] := by
    decide +kernel
  have hwidths : block.params.map types'.bitWidth = [1, 1, 4, 4] := by
    rw [movfuscateIr, himpl, Option.map_some, hout] at htypes
    simpa using htypes
  refine ⟨out, types', himpl, fun world vals => ?_⟩
  apply (hruns world [[false], [true, true, true, true]] _ _ _ 2).2 vals
  · rw [ArgsFit, hwidths]
    rfl
  · exact ⟨rfl, .cons rfl (.cons rfl .nil)⟩

def emptyHop : IRProgram Unit where
  blocks := [⟨[], [], .jmp ⟨.block 1, []⟩⟩, ⟨[], [], .jmp ⟨.ret, []⟩⟩]
  preInit := []

def farStorage : IRProgram Unit where
  blocks := [
    ⟨[⟨0⟩], [Node.new (.storageRead ⟨2147483648⟩ ⟨0⟩ 0) ()], .jmp ⟨.block 1, []⟩⟩,
    ⟨[], [], .jmp ⟨.ret, []⟩⟩]
  preInit := []

/-- A block that is never reached beside one that stores its argument. -/
def loneStore : IRProgram Unit where
  blocks := [
    ⟨[⟨0⟩], [Node.new (.storageWrite ⟨0⟩ 0 ⟨0⟩ 0) ()], .jmp ⟨.ret, []⟩⟩,
    ⟨[], [], .jmp ⟨.ret, []⟩⟩]
  preInit := []

theorem plainProgram_emptyHop : PlainProgram tallyTypes [] emptyHop where
  multi := by decide
  small := by decide
  preInit := nofun
  blocks := by
    intro b hb
    simp only [emptyHop, List.mem_cons, List.not_mem_nil, or_false] at hb
    rcases hb with rfl | rfl
    · exact ⟨nofun, trivial, ⟨_, rfl, .nil⟩⟩
    · exact ⟨nofun, trivial, .nil⟩

theorem plainProgram_farStorage : PlainProgram tallyTypes [] farStorage where
  multi := by decide
  small := by decide
  preInit := nofun
  blocks := by
    have hbit := binaryType_tally (.inl rfl)
    intro b hb
    simp only [farStorage, List.mem_cons, List.not_mem_nil, or_false] at hb
    rcases hb with rfl | rfl
    · exact ⟨by simpa, ⟨plainStmt_read hbit ⟨⟨0⟩, rfl, hbit⟩, trivial⟩, ⟨_, rfl, .nil⟩⟩
    · exact ⟨nofun, trivial, .nil⟩

theorem plainProgram_loneStore : PlainProgram tallyTypes [] loneStore where
  multi := by decide
  small := by decide
  preInit := nofun
  blocks := by
    have hbit := binaryType_tally (.inl rfl)
    intro b hb
    simp only [loneStore, List.mem_cons, List.not_mem_nil, or_false] at hb
    rcases hb with rfl | rfl
    · exact ⟨by simpa, ⟨plainStmt_write hbit rfl ⟨⟨0⟩, rfl, hbit⟩, trivial⟩, .nil⟩
    · exact ⟨nofun, trivial, .nil⟩

/-- Without a statement to take a provenance from the plain entry point panics; so it does on
a storage id from `2 ^ 31` on; and a program of which one block is left is returned as it is,
its storage under the old ids. -/
theorem not_movfuscateIr_edges :
    (¬ ∀ p : IRProgram Unit, PlainProgram tallyTypes [] p → 2 ≤ (layoutOrder p.toIRBlocks).length →
      IdsFit p → ∃ out, movfuscateIr p tallyTypes = some out) ∧
    (¬ ∀ p : IRProgram Unit, PlainProgram tallyTypes [] p → 2 ≤ (layoutOrder p.toIRBlocks).length →
      HasProvenance p.toIRBlocks none → ∃ out, movfuscateIr p tallyTypes = some out) ∧
    ¬ ∀ (p : IRProgram Unit) (out : IRProgram Unit) (types' : TypeTable),
      PlainProgram tallyTypes [] p → IdsFit p → HasProvenance p.toIRBlocks none →
      movfuscateIr p tallyTypes = some (out, types') → ∀ world,
        SameOutcome types' (runBlocks tallyTypes world p.toIRBlocks 1
            (p.initial tallyTypes [[true]]))
          (runBlocks types' world out.toIRBlocks 1 (out.initial types' [[true]])) := by
  refine ⟨?_, ?_, ?_⟩
  · intro h
    obtain ⟨out, hout⟩ := h emptyHop plainProgram_emptyHop (by decide)
      ⟨by decide, by simp [emptyHop]⟩
    cases hout
  · intro h
    obtain ⟨out, hout⟩ := h farStorage plainProgram_farStorage (by decide)
      (.inl ⟨0, by decide, _, rfl, by decide⟩)
    have hnone : movfuscateIr farStorage tallyTypes = none := by decide +kernel
    rw [hnone] at hout
    cases hout
  · intro h
    have hout : movfuscateIr loneStore tallyTypes =
        some (⟨⟨loneStore.blocks.take 1⟩, []⟩, tallyTypes) := by decide +kernel
    have hsame := h loneStore _ tallyTypes plainProgram_loneStore
      ⟨by decide, by simp [loneStore]⟩ (.inl ⟨0, by decide, _, rfl, by decide⟩) hout
      ⟨fun _ _ _ _ => [], fun _ _ _ => [], fun _ _ _ => []⟩
    -- The argument is in storage 0, and not in storage 1.
    have hcell := hsame.2 (⟨0⟩, ⟨0⟩, 1)
    revert hcell
    decide

end VolarIR.Movfuscate
