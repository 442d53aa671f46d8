import VolarIR.Movfuscate.TypedBlocks

/-!
# What a copied terminator computes

The exit flag, the bits of the next PC, the slots with the arguments in their places, and
the returned values, as functions of the block's vars and of the slots' values before.
-/
namespace VolarIR.Movfuscate
open Ir Stateful DispatchBitPrimitives DispatchSlotPrimitives

def DataFits (types : TypeTable) (ty : TypeId) : Prop :=
  BinaryType types ty ∨ isBlockType types ty

def HasType (kinds : List VarKind) (v : ℕ) (ty : TypeId) : Prop := kindAt kinds v = .data ty

section
variable {P : Type} (g : IrConfig P) (slotTys retTys : List TypeId) (q : IRBlocks P)
  (kinds : List VarKind)

def targetSlots (block : Option ℕ) (params : List TypeId) : List (ℕ × ℕ) :=
  match block with
  | some b => (g.slotOf[b]?).getD []
  | none => (g.sigFallback.get (params.map TypeId.id)).getD []

def returnCells (look : ℕ → Value) (v : ℕ) : List (List Bool) :=
  match kindAt kinds v with
  | .data ty => cellsOf g.irTypes g.pcWidth ty (look v).bits
  | _ => []

/-- A jump to block `k` with arguments for `params`. -/
def jumpStep (k : ℕ) (found : List (ℕ × ℕ)) (params : List TypeId) (state args : List (List Bool)) :
    StepResult (List Bool) where
  done := false
  nextPc := pcBitsOf g.pcWidth k
  nextState := scatterCells g.irTypes g.pcWidth state found params args
  ret := retTys.map (IrCtx.zeroBits g.irTypes)

def targetStep (look : ℕ → Value) (state : List (List Bool)) (t : IRBranchTarget) :
    StepResult (List Bool) :=
  let args := t.args.map fun v => (look v).bits
  match t.dest with
  | .ret => ⟨true, pcBitsOf g.pcWidth 0, slotTys.map (IrCtx.zeroBits g.irTypes),
      t.args.flatMap (returnCells g kinds look)⟩
  | .block j =>
      let params := ((q.blocks[j]?).map IRBlock.params).getD []
      jumpStep g retTys j (targetSlots g (some j) params) params state args
  | .dyn v =>
      let params := (refParams g.irTypes (kindAt kinds v)).getD []
      jumpStep g retTys (bitsToU64 (look v).bits) (targetSlots g none params) params state args

/-- A jump table without the case selects nothing. -/
def terminatorStep (look : ℕ → Value) (state : List (List Bool)) :
    IRTerminator → StepResult (List Bool)
  | .jmp t => targetStep g slotTys retTys q kinds look state t
  | .jumpCond condition t e =>
      if (look condition).truth then targetStep g slotTys retTys q kinds look state t
      else targetStep g slotTys retTys q kinds look state e
  | .jumpTable index cases =>
      match cases.get (caseKey (look index).bits) with
      | some t => targetStep g slotTys retTys q kinds look state t
      | none => ⟨false, pcBitsOf g.pcWidth 0, slotTys.map (IrCtx.zeroBits g.irTypes),
          retTys.map (IrCtx.zeroBits g.irTypes)⟩

/-- A target that passes what it is to pass. -/
def TargetFits (t : IRBranchTarget) : Prop :=
  match t.dest with
  | .ret => ∃ tys, List.Forall₂ (HasType kinds) t.args tys ∧
      tys.flatMap (expandType g.irTypes g.bitTypeId g.pcWidth) = retTys
  | .block j => ∃ b, q.blocks[j]? = some b ∧ List.Forall₂ (HasType kinds) t.args b.params
  | .dyn v => ∃ params, refParams g.irTypes (kindAt kinds v) = some params ∧
      List.Forall₂ (HasType kinds) t.args params ∧ ∃ b ∈ q.blocks, b.params = params

def TerminatorFits : IRTerminator → Prop
  | .jmp t => TargetFits g retTys q kinds t
  | .jumpCond condition t e =>
      (∃ ty, kindAt kinds condition = .data ty ∧ g.irTypes.isBit ty = true) ∧
      TargetFits g retTys q kinds t ∧ TargetFits g retTys q kinds e
  | .jumpTable _ _ => False

end

/-- The config is that of the program, and its slots those of the program's parameters. -/
structure Wired {P : Type} (g : IrConfig P) (slotTys : List TypeId) (q : IRBlocks P) : Prop where
  params : g.combinedParamTypes = List.replicate g.pcWidth g.bitTypeId ++ slotTys
  classes : ∀ (i : ℕ) (b : IRBlock P), q.blocks[i]? = some b → ∃ found,
    g.slotOf[i]? = some found ∧
    SlotsFor g.irTypes g.bitTypeId g.pcWidth slotTys 0 b.params found ∧
    g.sigFallback.get (b.params.map TypeId.id) = some found
  data : ∀ b ∈ q.blocks, ∀ ty ∈ b.params, DataFits g.irTypes ty
  pc : 0 < g.pcWidth
  slots : ∀ ty ∈ slotTys, BinaryType g.irTypes ty

namespace IrCtx
variable {P : Type} {world : Externals} {x : List (List Bool)} {σ : EvalState} {g : IrConfig P}
  {c c₀ d : IrCtx P} {kinds : List VarKind} {varMap : List ℕ} {f : Ssa.Frame Value LaneState}
  {tys slotTys retTys : List TypeId} {state : List (List Bool)}

def fillSlots (pcWidth : ℕ) (st : List (Option ℕ)) : List ℕ :=
  st.mapIdx fun k v => v.getD (pcWidth + k)

theorem fillSlots_set (pcWidth : ℕ) (st : List (Option ℕ)) (k v : ℕ) :
    fillSlots pcWidth (st.set k (some v)) = (fillSlots pcWidth st).set k v := by
  apply List.ext_getElem?
  intro i
  simp only [fillSlots, List.getElem?_mapIdx, List.getElem?_set, List.length_mapIdx]
  split_ifs with hk hlt
  · subst hk
    rfl
  · rfl
  · rfl

theorem fillSlots_setFrom (pcWidth : ℕ) (st : List (Option ℕ)) (start : ℕ) (vs : List ℕ) :
    fillSlots pcWidth (setFrom st start vs) = storeFrom (fillSlots pcWidth st) start vs := by
  induction vs generalizing st start with
  | nil => rfl
  | cons v vs ih => rw [setFrom, ih, fillSlots_set, storeFrom]

theorem slots_storeFrom {vars vs : List ℕ} {cells xs : List (List Bool)} {here : List TypeId}
    {offset : ℕ} (h : (reading world x σ g).slots c slotTys vars cells)
    (hvs : (reading world x σ g).slots c here vs xs) (hhere : here <+: slotTys.drop offset) :
    (reading world x σ g).slots c slotTys (storeFrom vars offset vs)
      (storeFrom cells offset xs) := by
  rw [Reading.slots_iff] at h hvs ⊢
  obtain ⟨hvars, hcells, hall⟩ := h
  obtain ⟨hlenVs, hlenXs, hnew⟩ := hvs
  refine ⟨by rw [length_storeFrom, hvars], by rw [length_storeFrom, hcells], ?_⟩
  intro i ty v bits hty hv hbits
  rw [getElem?_storeFrom, hvars, hlenVs] at hv
  rw [getElem?_storeFrom, hcells, hlenXs] at hbits
  split_ifs at hv hbits with hi
  · have hown := getElem?_of_prefix_drop hhere (show i - offset < here.length by omega)
    rw [Nat.add_sub_cancel' hi.1, hty] at hown
    exact hnew (i - offset) ty v bits hown.symm hv hbits
  · exact hall i ty v bits hty hv hbits

/-- The vars that stand for a var of the block when it is passed on. -/
theorem Copied.returnSlots (hg : Setup g x) (h : Copied world x σ g c kinds varMap f)
    (hf : FrameFits g.irTypes kinds ⟨f.vals, f.st.st⟩) {v : ℕ} {ty : TypeId}
    (hv : HasType kinds v ty) (hty : DataFits g.irTypes ty) :
    ∃ vs, (reading world x σ g).slots c (expandType g.irTypes g.bitTypeId g.pcWidth ty) vs
        (cellsOf g.irTypes g.pcWidth ty (Ssa.look f.vals v).bits) ∧
      ((∃ sig, c.blockVarToBits.get v = some (vs, sig)) ∨
        c.blockVarToBits.get v = none ∧ varMap[v]? = some (varMap.getD v 0) ∧
          vs = [varMap.getD v 0] ∧ isBlockType g.irTypes ty = false) := by
  have hlt : v < kinds.length := lt_of_kindAt_data hv
  rcases hty with hty | hty
  · have hblock := isBlockType_of_binary hty
    have hnone : c.blockVarToBits.get v = none := by
      apply h.untracked
      rw [hv]
      exact blockParams_eq_none hblock
    refine ⟨[varMap.getD v 0], ?_, .inr ⟨hnone, ?_, rfl, hblock⟩⟩
    · rw [expandType, cellsOf, if_neg (by rw [hblock]; decide), if_neg (by rw [hblock]; decide)]
      exact ⟨h.hasSlot hf hv hty, trivial⟩
    · have hlen : v < varMap.length := h.length.symm ▸ hlt
      simp [hlen]
  · obtain ⟨sig, hsig⟩ := Option.isSome_iff_exists.mp hty
    have hrefs : refParams g.irTypes (kindAt kinds v) = some sig := by
      rw [hv]
      exact hsig
    obtain ⟨bits, k, hbits, hval, hk, href⟩ := h.refs v hlt sig hrefs
    have hk32 : k < 2 ^ 32 := hk.trans_le (Nat.pow_le_pow_right (by decide) hg.small)
    refine ⟨bits, ?_, .inl ⟨sig, hbits⟩⟩
    rw [expandType, cellsOf, if_pos hty, if_pos hty, hval, bitsToU64_refBits hk32]
    have hslots := slots_of_hasBits href
    rwa [length_pcBitsOf] at hslots

/-- Every argument goes to its slots. -/
theorem scatterFrom_ensures (hg : Setup g x) (hpc : 0 < g.pcWidth)
    (h : Copied world x σ g c kinds varMap f)
    (hf : FrameFits g.irTypes kinds ⟨f.vals, f.st.st⟩) {found : List (ℕ × ℕ)} {start : ℕ}
    {args : List ℕ} (hargs : List.Forall₂ (HasType kinds) args tys)
    (htys : ∀ ty ∈ tys, DataFits g.irTypes ty)
    (hfound : SlotsFor g.irTypes g.bitTypeId g.pcWidth slotTys start tys found)
    {st : List (Option ℕ)}
    (hstate : (reading world x σ g).slots c slotTys (fillSlots g.pcWidth st) state) :
    Ensures (scatterFrom varMap args found st) c fun st' d => d = c ∧
      (reading world x σ g).slots c slotTys (fillSlots g.pcWidth st')
        (scatterCells g.irTypes g.pcWidth state found tys
          (args.map fun v => (Ssa.look f.vals v).bits)) := by
  induction hfound generalizing args st state with
  | nil =>
      cases hargs
      rw [scatterFrom, ensures_pure, List.map_nil, scatterCells]
      · exact ⟨rfl, hstate⟩
      all_goals simp
  | @cons start offset ty tys rest after here next ih =>
      cases hargs with
      | @cons arg _ args _ harg hargs =>
          obtain ⟨vs, hvs, htracked⟩ := h.returnSlots hg hf harg (htys ty List.mem_cons_self)
          have hpos := length_expandType_pos g.irTypes g.bitTypeId hpc ty
          have hle := add_length_le here hpos
          have hlen : st.length = slotTys.length := by
            have hfill := (Reading.slots_iff.mp hstate).1
            rwa [fillSlots, List.length_mapIdx] at hfill
          have hone : Ensures (scatterArg varMap st arg
              (offset, (expandType g.irTypes g.bitTypeId g.pcWidth ty).length)) c
              fun st' d => d = c ∧ st' = setFrom st offset vs := by
            unfold scatterArg
            apply get_bind
            rcases htracked with ⟨sig, hsig⟩ | ⟨hnone, hvar, rfl, -⟩
            · rw [hsig]
              exact (ensures_pure _).mpr ⟨rfl, rfl⟩
            · rw [hnone]
              dsimp only
              rw [if_pos (by omega), hvar, orPanic_some, pure_bind]
              exact (ensures_pure _).mpr ⟨rfl, rfl⟩
          rw [scatterFrom]
          apply hone.bind
          rintro st' d ⟨rfl, rfl⟩
          rw [List.map_cons, scatterCells]
          apply ih hargs fun t ht => htys t (List.mem_cons_of_mem ty ht)
          rw [fillSlots_setFrom]
          exact slots_storeFrom hstate hvs here

theorem scatterArgsToState_ensures (hg : Setup g x) (hpc : 0 < g.pcWidth) (hc : c.Ok g)
    (h : Copied world x σ g c kinds varMap f)
    (hf : FrameFits g.irTypes kinds ⟨f.vals, f.st.st⟩) {found : List (ℕ × ℕ)}
    {args : List ℕ} (hargs : List.Forall₂ (HasType kinds) args tys)
    (htys : ∀ ty ∈ tys, DataFits g.irTypes ty)
    (hfound : SlotsFor g.irTypes g.bitTypeId g.pcWidth slotTys 0 tys found)
    (hstate : (reading world x σ g).slots c slotTys (stateVars g slotTys) state) :
    Ensures (scatterArgsToState args varMap found slotTys) c fun vs d => d = c ∧
      (reading world x σ g).slots c slotTys vs (scatterCells g.irTypes g.pcWidth state found tys
        (args.map fun v => (Ssa.look f.vals v).bits)) := by
  have hfill : fillSlots g.pcWidth (List.replicate slotTys.length none) = stateVars g slotTys := by
    apply List.ext_getElem?
    intro i
    rw [fillSlots, List.getElem?_mapIdx, List.getElem?_replicate]
    split_ifs with hi
    · rw [getElem?_stateVars slotTys hi]
      rfl
    · rw [List.getElem?_eq_none (by simpa using Nat.le_of_not_lt hi)]
      rfl
  unfold scatterArgsToState
  rw [← hfill] at hstate
  apply (scatterFrom_ensures hg hpc h hf hargs htys hfound hstate).bind
  rintro st d ⟨rfl, hst⟩
  apply getConfig_bind hc
  exact (ensures_pure _).mpr ⟨rfl, hst⟩

variable {q : IRBlocks P}

/-- The vars a block returns. -/
theorem returnSlots_ensures (hg : Setup g x) (h : Copied world x σ g c kinds varMap f)
    (hf : FrameFits g.irTypes kinds ⟨f.vals, f.st.st⟩) {args : List ℕ}
    (hargs : List.Forall₂ (HasType kinds) args tys) (htys : ∀ ty ∈ tys, DataFits g.irTypes ty) :
    Ensures (args.mapM (IrCtx.returnSlots varMap)) c fun vss d => d = c ∧
      (reading world x σ g).slots c (tys.flatMap (expandType g.irTypes g.bitTypeId g.pcWidth))
        vss.flatten (args.flatMap (returnCells g kinds (Ssa.look f.vals))) := by
  induction hargs with
  | nil =>
      rw [List.mapM_nil, ensures_pure]
      exact ⟨rfl, trivial⟩
  | @cons arg ty args tys harg hargs ih =>
      obtain ⟨vs, hvs, htracked⟩ := h.returnSlots hg hf harg (htys ty List.mem_cons_self)
      have hone : Ensures (IrCtx.returnSlots varMap arg) c fun vs' d => d = c ∧ vs' = vs := by
        unfold IrCtx.returnSlots
        apply get_bind
        rcases htracked with ⟨sig, hsig⟩ | ⟨hnone, hvar, rfl, -⟩
        · rw [hsig]
          exact (ensures_pure _).mpr ⟨rfl, rfl⟩
        · rw [hnone]
          dsimp only
          rw [hvar, orPanic_some, pure_bind]
          exact (ensures_pure _).mpr ⟨rfl, rfl⟩
      rw [List.mapM_cons]
      apply hone.bind
      rintro vs' d ⟨rfl, rfl⟩
      apply (ih fun t ht => htys t (List.mem_cons_of_mem ty ht)).bind
      rintro vss d ⟨rfl, hvss⟩
      rw [ensures_pure]
      refine ⟨rfl, ?_⟩
      have hcells : returnCells g kinds (Ssa.look f.vals) arg =
          cellsOf g.irTypes g.pcWidth ty (Ssa.look f.vals arg).bits := by
        rw [returnCells, show kindAt kinds arg = .data ty from harg]
      rw [List.flatMap_cons, List.flatten_cons, List.flatMap_cons, hcells]
      exact slots_append hvs hvss

/-- A jump with its arguments in the slots of its target. -/
theorem jump_ensures (hg : Setup g x) (hw : Wired g slotTys q) (hc : c.Ok g)
    (h : Copied world x σ g c kinds varMap f)
    (hf : FrameFits g.irTypes kinds ⟨f.vals, f.st.st⟩) {found : List (ℕ × ℕ)} {k done : ℕ}
    {args nextPc : List ℕ} (hargs : List.Forall₂ (HasType kinds) args tys)
    (htys : ∀ ty ∈ tys, DataFits g.irTypes ty)
    (hfound : SlotsFor g.irTypes g.bitTypeId g.pcWidth slotTys 0 tys found)
    (hstate : (reading world x σ g).slots c slotTys (stateVars g slotTys) state)
    (hret : ∀ ty ∈ retTys, BinaryType g.irTypes ty)
    (hdone : HasBit world x σ g c done false) (hnext : HasRef world x σ g c nextPc k) :
    Ensures (do
      let nextState ← scatterArgsToState args varMap found slotTys
      let ret ← retTys.mapM DispatchSlotPrimitives.emitZeroSlot
      pure (⟨done, nextPc, nextState, ret⟩ : TermResult)) c fun r d => Quiet world x σ g c d ∧
        (reading world x σ g).Holds d g.pcWidth slotTys retTys r
          (jumpStep g retTys k found tys state (args.map fun v => (Ssa.look f.vals v).bits)) := by
  have hlaw := reading_lawful world σ hg
  apply (scatterArgsToState_ensures hg hw.pc hc h hf hargs htys hfound hstate).bind
  rintro nextState d ⟨rfl, hnextState⟩
  apply (hlaw.zeroSlots hc hret).bind
  intro ret e ⟨hq, hretSlots⟩
  rw [ensures_pure]
  have hgrows : Grows d e := Quiet.grows hq
  refine ⟨hq, length_pcBitsOf _ _, hdone.mono hgrows, ?_, hlaw.slots_mono hgrows hnextState,
    hretSlots⟩
  exact (hnext.mono hgrows).imp fun _ _ hv => HasSlot.hasBit hg hv

/-- What a target computes does not depend on which slots came in beyond their values. -/
theorem processIrTarget_ensures (hg : Setup g x) (hw : Wired g slotTys q) (hc : c.Ok g)
    (h : Copied world x σ g c kinds varMap f)
    (hf : FrameFits g.irTypes kinds ⟨f.vals, f.st.st⟩)
    (hkinds : ∀ v ty, HasType kinds v ty → DataFits g.irTypes ty) {t : IRBranchTarget}
    (ht : TargetFits g retTys q kinds t)
    (hstate : (reading world x σ g).slots c slotTys (stateVars g slotTys) state)
    (hret : ∀ ty ∈ retTys, BinaryType g.irTypes ty) :
    Ensures (processIrTarget t varMap g.pcWidth slotTys retTys q) c fun r d =>
      Quiet world x σ g c d ∧ (reading world x σ g).Holds d g.pcWidth slotTys retTys r
        (targetStep g slotTys retTys q kinds (Ssa.look f.vals) state t) := by
  have hlaw := reading_lawful world σ hg
  obtain ⟨dest, args⟩ := t
  cases dest with
  | ret =>
      obtain ⟨tys, hargs, rfl⟩ := ht
      have htys : ∀ ty ∈ tys, DataFits g.irTypes ty := by
        intro ty hty
        obtain ⟨i, hi, rfl⟩ := List.mem_iff_getElem.mp hty
        exact hkinds _ _ ((List.forall₂_iff_get.mp hargs).2 i (hargs.length_eq ▸ hi) hi)
      unfold processIrTarget
      apply (constBitSlot_ensures world σ hg hc 1).bind
      intro done d ⟨hqd, hdone⟩
      apply (encodeRef_ensures world σ hg hqd.ok 0 g.pcWidth).bind
      intro nextPc e ⟨hqe, hnext⟩
      apply (hlaw.zeroSlots hqe.ok hw.slots).bind
      intro nextState i ⟨hqi, hnextState⟩
      have hqi : Quiet world x σ g e i := hqi
      have hq := (hqd.trans hqe).trans hqi
      apply (returnSlots_ensures hg (h.mono hq.grows hq.tracked) hf hargs htys).bind
      rintro ret j ⟨rfl, hretSlots⟩
      rw [if_pos (Reading.slots_iff.mp hretSlots).1, ensures_pure]
      refine ⟨hq, length_pcBitsOf _ _, ?_, ?_, hnextState, hretSlots⟩
      · exact (hdone.mono (hqe.trans hqi).grows).hasBit hg
      · exact (hnext.mono hqi.grows).imp fun _ _ hv => HasSlot.hasBit hg hv
  | block k =>
      obtain ⟨b, hb, hargs⟩ := ht
      obtain ⟨found, hslotOf, hfound, -⟩ := hw.classes k b hb
      have htys := hw.data b (List.mem_of_getElem? hb)
      unfold processIrTarget
      apply (constBitSlot_ensures world σ hg hc 0).bind
      intro done d ⟨hqd, hdone⟩
      apply (encodeRef_ensures world σ hg hqd.ok k g.pcWidth).bind
      intro nextPc e ⟨hqe, hnext⟩
      have hq := hqd.trans hqe
      rw [hb, orPanic_some, pure_bind]
      unfold slotMapFor
      rw [bind_assoc]
      apply getConfig_bind hqe.ok
      dsimp only
      rw [hslotOf, orPanic_some, pure_bind]
      apply (jump_ensures hg hw hqe.ok (h.mono hq.grows hq.tracked) hf hargs htys hfound
        (hlaw.slots_mono hq.grows hstate) hret ((hdone.mono hqe.grows).hasBit hg) hnext).mono
      intro r i ⟨hqi, hr⟩
      refine ⟨hq.trans hqi, ?_⟩
      simpa only [targetStep, targetSlots, hb, hslotOf, Option.map_some, Option.getD_some] using hr
  | dyn v =>
      obtain ⟨params, hparams, hargs, b, hb, rfl⟩ := ht
      obtain ⟨i, hi⟩ := List.getElem?_of_mem hb
      obtain ⟨found, -, hfound, hsig⟩ := hw.classes i b hi
      have htys := hw.data b hb
      have hlt : v < kinds.length := by
        by_contra hv
        rw [kindAt_of_le (Nat.le_of_not_lt hv)] at hparams
        cases hparams
      obtain ⟨bits, k, hbits, hval, hk, href⟩ := h.refs v hlt b.params hparams
      have hk32 : k < 2 ^ 32 := hk.trans_le (Nat.pow_le_pow_right (by decide) hg.small)
      unfold processIrTarget
      apply get_bind
      rw [hbits, orPanic_some, pure_bind]
      apply (constBitSlot_ensures world σ hg hc 0).bind
      intro done d ⟨hq, hdone⟩
      have hslotMap : Ensures (slotMapFor none b.params) d fun found' e =>
          found' = found ∧ e = d := by
        unfold slotMapFor
        apply getConfig_bind hq.ok
        dsimp only
        split_ifs with hnil
        · rw [hnil] at hfound
          cases hfound
          exact (ensures_pure _).mpr ⟨rfl, rfl⟩
        · rw [hsig]
          exact (ensures_pure _).mpr ⟨rfl, rfl⟩
      apply hslotMap.bind
      rintro found' e ⟨rfl, rfl⟩
      apply (jump_ensures hg hw hq.ok (h.mono hq.grows hq.tracked) hf hargs htys hfound
        (hlaw.slots_mono hq.grows hstate) hret (hdone.hasBit hg) (href.mono hq.grows)).mono
      intro r i ⟨hqi, hr⟩
      refine ⟨hq.trans hqi, ?_⟩
      simpa only [targetStep, targetSlots, hparams, hsig, hval, bitsToU64_refBits hk32,
        Option.getD_some] using hr

theorem emitSelectBits_ensures (hg : Setup g x) (hc : c.Ok g) {cond : ℕ} {y : Bool}
    {ts es : List ℕ} {as bs : List Bool} (hcond : HasBit world x σ g c cond y)
    (ht : List.Forall₂ (HasBit world x σ g c) ts as)
    (he : List.Forall₂ (HasBit world x σ g c) es bs) (hlen : as.length = bs.length) :
    Ensures (emitSelectBits cond as.length ts es) c fun vs d => Quiet world x σ g c d ∧
      List.Forall₂ (HasBit world x σ g d) vs (if y then as else bs) := by
  have hlaw := reading_lawful world σ hg
  induction as generalizing c ts es bs with
  | nil =>
      obtain rfl := List.length_eq_zero_iff.mp hlen.symm
      rw [List.length_nil, emitSelectBits, ensures_pure, ite_self]
      exact ⟨Quiet.refl hc, .nil⟩
  | cons a as ih =>
      cases ht with
      | @cons t _ ts _ hta hts =>
          cases he with
          | nil => cases hlen
          | @cons e b es bs heb hes =>
              rw [List.length_cons, emitSelectBits]
              apply (hlaw.selectBit hc hcond hta heb).bind
              intro v d ⟨hq, hv⟩
              have hq : Quiet world x σ g c d := hq
              have hrest := ih hq.ok (hcond.mono hq.grows)
                (hts.imp fun _ _ hw => HasBit.mono hw hq.grows)
                (hes.imp fun _ _ hw => HasBit.mono hw hq.grows) (Nat.succ.inj hlen)
              apply hrest.bind
              intro vs e ⟨hqe, hvs⟩
              rw [ensures_pure]
              refine ⟨hq.trans hqe, ?_⟩
              have hhead := HasBit.mono hv hqe.grows
              cases y with
              | true => exact .cons hhead hvs
              | false => exact .cons hhead hvs

theorem emitSelectSlots_ensures (hg : Setup g x) (hc : c.Ok g) {cond : ℕ} {y : Bool}
    {ts es : List ℕ} {as bs : List (List Bool)} (hcond : HasBit world x σ g c cond y)
    (ht : (reading world x σ g).slots c tys ts as)
    (he : (reading world x σ g).slots c tys es bs) :
    Ensures (emitSelectSlots cond tys ts es) c fun vs d => Quiet world x σ g c d ∧
      (reading world x σ g).slots d tys vs (if y then as else bs) := by
  have hlaw := reading_lawful world σ hg
  induction tys generalizing c ts es as bs with
  | nil =>
      match ts, as, es, bs, ht, he with
      | [], [], [], [], _, _ =>
          rw [emitSelectSlots, ensures_pure, ite_self]
          exact ⟨Quiet.refl hc, trivial⟩
  | cons ty tys ih =>
      match ts, as, es, bs, ht, he with
      | t :: ts, a :: as, e :: es, b :: bs, ht, he =>
        rw [emitSelectSlots]
        apply (hlaw.selectSlot hc hcond ht.1 he.1).bind
        intro v d ⟨hq, hv⟩
        have hq : Quiet world x σ g c d := hq
        apply (ih hq.ok (hcond.mono hq.grows) (hlaw.slots_mono hq.grows ht.2)
          (hlaw.slots_mono hq.grows he.2)).bind
        intro vs e ⟨hqe, hvs⟩
        rw [ensures_pure]
        refine ⟨hq.trans hqe, ?_⟩
        have hhead := HasSlot.mono hv hqe.grows
        cases y with
        | true => exact ⟨hhead, hvs⟩
        | false => exact ⟨hhead, hvs⟩

/-- A terminator computes what it does over the block's vars. -/
theorem emitTerminator_ensures (hg : Setup g x) (hw : Wired g slotTys q) (hc : c.Ok g)
    (h : Copied world x σ g c kinds varMap f)
    (hf : FrameFits g.irTypes kinds ⟨f.vals, f.st.st⟩)
    (hkinds : ∀ v ty, HasType kinds v ty → DataFits g.irTypes ty) {t : IRTerminator}
    (ht : TerminatorFits g retTys q kinds t)
    (hstate : (reading world x σ g).slots c slotTys (stateVars g slotTys) state)
    (hret : ∀ ty ∈ retTys, BinaryType g.irTypes ty) :
    Ensures (emitTerminator t varMap g.pcWidth slotTys retTys q) c fun r d =>
      Quiet world x σ g c d ∧ (reading world x σ g).Holds d g.pcWidth slotTys retTys r
        (terminatorStep g slotTys retTys q kinds (Ssa.look f.vals) state t) := by
  have hlaw := reading_lawful world σ hg
  cases t with
  | jmp t => exact processIrTarget_ensures hg hw hc h hf hkinds ht hstate hret
  | jumpTable index cases => exact absurd ht id
  | jumpCond condition t e =>
      obtain ⟨⟨cty, hcty, hbit⟩, ht, he⟩ := ht
      have hslot := h.hasSlot hf hcty (.of_isBit hbit)
      obtain ⟨b, hb⟩ := List.length_eq_one_iff.mp
        (hslot.value.length.trans (bitWidth_of_isBit hbit))
      have hcond : HasBit world x σ g c (varMap.getD condition 0) b :=
        ⟨hslot.lt, ⟨⟨cty, hslot.value.type, hbit⟩, hslot.value.bits.trans hb⟩, cty,
            hslot.type, hbit⟩
      have htruth : (Ssa.look f.vals condition).truth = b := by rw [Value.truth, hb]; rfl
      have hlt : condition < varMap.length := h.length.symm ▸ lt_of_kindAt_data hcty
      have hvar : varMap[condition]? = some (varMap.getD condition 0) := by simp [hlt]
      rw [emitTerminator, hvar, orPanic_some, pure_bind]
      apply (processIrTarget_ensures hg hw hc h hf hkinds ht hstate hret).bind
      intro r d ⟨hqd, hr⟩
      apply (processIrTarget_ensures hg hw hqd.ok (h.mono hqd.grows hqd.tracked) hf hkinds he
        (hlaw.slots_mono hqd.grows hstate) hret).bind
      intro s i ⟨hqi, hs⟩
      have hr := hlaw.holds_mono hqi.grows hr
      have hcond := hcond.mono (hqd.trans hqi).grows
      apply (hlaw.selectBit hqi.ok hcond hr.done hs.done).bind
      intro done j ⟨hqj, hdone⟩
      have hqj : Quiet world x σ g i j := hqj
      have hr := hlaw.holds_mono hqj.grows hr
      have hs := hlaw.holds_mono hqj.grows hs
      have hcond := hcond.mono hqj.grows
      have hpc := emitSelectBits_ensures hg hqj.ok hcond hr.nextPc hs.nextPc
        (hr.width.trans hs.width.symm)
      rw [hr.width] at hpc
      apply hpc.bind
      intro nextPc k ⟨hqk, hnextPc⟩
      apply (emitSelectSlots_ensures hg hqk.ok (hcond.mono hqk.grows)
        (hlaw.slots_mono hqk.grows hr.nextState) (hlaw.slots_mono hqk.grows hs.nextState)).bind
      intro nextState l ⟨hql, hnextState⟩
      have hqkl := hqk.trans hql
      apply (emitSelectSlots_ensures hg hql.ok (hcond.mono hqkl.grows)
        (hlaw.slots_mono hqkl.grows hr.ret) (hlaw.slots_mono hqkl.grows hs.ret)).bind
      intro ret m ⟨hqm, hretSlots⟩
      rw [ensures_pure, terminatorStep, htruth]
      refine ⟨(((hqd.trans hqi).trans hqj).trans hqkl).trans hqm, ?_⟩
      have hdone := HasBit.mono hdone (hqkl.trans hqm).grows
      have hnextPc := hnextPc.imp fun _ _ hv => HasBit.mono hv (hql.trans hqm).grows
      have hnextState := hlaw.slots_mono hqm.grows hnextState
      cases b with
      | true => exact ⟨hr.width, hdone, hnextPc, hnextState, hretSlots⟩
      | false => exact ⟨hs.width, hdone, hnextPc, hnextState, hretSlots⟩

end IrCtx
end VolarIR.Movfuscate
