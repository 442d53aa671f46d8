import VolarIR.Movfuscate.SlotLayout
import VolarIR.Movfuscate.TypedStmts

/-!
# What a copied block computes

A block reads its parameters in its slots, runs over them, and puts the arguments of its
jump into the slots of the target. Everything holds of all blocks, whatever their slots
hold: only the storage tells an active block from the others.
-/
namespace VolarIR.Movfuscate
open Ir Stateful DispatchBitPrimitives DispatchSlotPrimitives

/-- No statement from here on carries out an action in a block that is not active. -/
def Silent (types : TypeTable) (world : Externals) (f : Ssa.Frame Value LaneState) :
    List IRStmt → Prop
  | [] => True
  | s :: rest =>
      (evalLane types world f.st (Ssa.look f.vals) s).2.st.actions = f.st.st.actions ∧
        Silent types world ((laneLanguage types world false).step f s) rest

structure BodyFits {P : Type} (types : TypeTable) (bound : ℕ) (b : IRBlock P) : Prop where
  stmts : StmtsFit types bound (b.params.map .data) b.kinds
  copyable : ∀ s ∈ b.stmts, Copyable s.kind

namespace IrCtx
variable {P : Type} {world : Externals} {x : List (List Bool)} {σ : EvalState} {g : IrConfig P}
  {c c₀ d : IrCtx P} {kinds : List VarKind} {varMap : List ℕ} {f : Ssa.Frame Value LaneState}
  {y : Bool} {isActive : ℕ} {tys slotTys : List TypeId} {state : List (List Bool)}

theorem slots_drop {vs : List ℕ} (h : (reading world x σ g).slots c tys vs state) (n : ℕ) :
    (reading world x σ g).slots c (tys.drop n) (vs.drop n) (state.drop n) := by
  rw [Reading.slots_iff] at h ⊢
  obtain ⟨hvs, hxs, hall⟩ := h
  refine ⟨by simp [hvs], by simp [hxs], ?_⟩
  intro i ty v bits hty hv hbits
  rw [List.getElem?_drop] at hty hv hbits
  exact hall _ ty v bits hty hv hbits

theorem slots_take {vs : List ℕ} (h : (reading world x σ g).slots c tys vs state) (n : ℕ) :
    (reading world x σ g).slots c (tys.take n) (vs.take n) (state.take n) := by
  rw [Reading.slots_iff] at h ⊢
  obtain ⟨hvs, hxs, hall⟩ := h
  refine ⟨by simp [hvs], by simp [hxs], ?_⟩
  intro i ty v bits hty hv hbits
  rw [List.getElem?_take] at hty hv hbits
  split_ifs at hty hv hbits
  exact hall i ty v bits hty hv hbits

theorem slots_append {tys' : List TypeId} {vs vs' : List ℕ} {state' : List (List Bool)}
    (h : (reading world x σ g).slots c tys vs state)
    (h' : (reading world x σ g).slots c tys' vs' state') :
    (reading world x σ g).slots c (tys ++ tys') (vs ++ vs') (state ++ state') := by
  induction tys generalizing vs state with
  | nil =>
      match vs, state, h with
      | [], [], _ => exact h'
  | cons ty tys ih =>
      match vs, state, h with
      | _ :: _, _ :: _, h => exact ⟨h.1, ih h.2⟩

theorem slots_slice {vs : List ℕ} (h : (reading world x σ g).slots c tys vs state)
    {here : List TypeId} {offset : ℕ} (hhere : here <+: tys.drop offset) :
    (reading world x σ g).slots c here ((vs.drop offset).take here.length)
      ((state.drop offset).take here.length) := by
  have hslice := slots_take (slots_drop h offset) here.length
  rwa [← List.prefix_iff_eq_take.mp hhere] at hslice

theorem hasBits_of_slots {n : ℕ} {vs : List ℕ} (hg : Setup g x)
    (h : (reading world x σ g).slots c (List.replicate n g.bitTypeId) vs state) :
    HasBits world x σ g c vs state.flatten := by
  induction n generalizing vs state with
  | zero =>
      match vs, state, h with
      | [], [], _ => exact .nil
  | succ n ih =>
      match vs, state, h with
      | v :: vs, bits :: state, h =>
          have hhead : HasSlot world x σ g c g.bitTypeId v bits := h.1
          have hlen : bits.length = 1 := hhead.value.length.trans (bitWidth_of_isBit hg.bit)
          obtain ⟨b, rfl⟩ := List.length_eq_one_iff.mp hlen
          exact .cons hhead (ih h.2)

theorem slots_of_hasBits {vs : List ℕ} {bits : List Bool} (h : HasBits world x σ g c vs bits) :
    (reading world x σ g).slots c (List.replicate bits.length g.bitTypeId) vs
      (bits.map fun b => [b]) := by
  unfold HasBits at h
  induction h with
  | nil => trivial
  | cons hv _ ih => exact ⟨hv, ih⟩

variable (world σ) in
theorem outputs_param (hg : Setup g x) (c : IrCtx P) {v : ℕ}
    (hv : v < g.combinedParamTypes.length) :
    (Ssa.look (frame world x σ g c).vals v).outputs = [] := by
  have hlen := length_paramValues hg.length
  rw [frame, Ssa.Language.run_look _ (by rw [hlen]; exact hv)]
  simp only [Ssa.look, paramValues, List.getD_eq_getElem?_getD, List.getElem?_zipWith]
  cases g.combinedParamTypes[v]? <;> cases x[v]? <;> rfl

section
variable {found : List (ℕ × ℕ)} {start : ℕ}

/-- What the source numbers its state slots by. -/
abbrev stateVars (g : IrConfig P) (slotTys : List TypeId) : List ℕ :=
  List.range' g.pcWidth slotTys.length

variable (slotTys) in
theorem getElem?_stateVars {k : ℕ} (hk : k < slotTys.length) :
    (stateVars g slotTys)[k]? = some (g.pcWidth + k) := by
  rw [List.getElem?_range' hk, Nat.one_mul]

def Below (types : TypeTable) (kinds : List VarKind) (varMap : List ℕ) (bound : ℕ) : Prop :=
  ∀ u < kinds.length, refParams types (kindAt kinds u) = none → varMap.getD u 0 < bound

theorem Below.snoc {types : TypeTable} {bound bound' v : ℕ} {kind : VarKind}
    (h : Below types kinds varMap bound) (hlen : varMap.length = kinds.length)
    (hle : bound ≤ bound') (hv : refParams types kind = none → v < bound') :
    Below types (kinds ++ [kind]) (varMap ++ [v]) bound' := by
  intro u hu hnone
  rcases kindAt_snoc_cases hu with ⟨hlt, heq⟩ | ⟨rfl, heq⟩
  · rw [getD_append_lt hlen hlt]
    exact (h u hlt (heq ▸ hnone)).trans_le hle
  · rw [getD_append_length hlen]
    exact hv (heq ▸ hnone)

/-- What a parameter list has read up to slot `bound`. -/
structure Loading (world : Externals) (x : List (List Bool)) (σ : EvalState) (g : IrConfig P)
    (c₀ : IrCtx P) (bound : ℕ) (kinds : List VarKind) (f : Ssa.Frame Value LaneState)
    (varMap : List ℕ) (c : IrCtx P) : Prop where
  copying : Copying world x σ g c₀ kinds f varMap c
  length : f.vals.length = kinds.length
  below : Below g.irTypes kinds varMap (g.pcWidth + bound)

/-- A parameter reads what is in its slots. -/
theorem mapParam_ensures (hg : Setup g x) (hpc : 0 < g.pcWidth)
    (hparams : g.combinedParamTypes = List.replicate g.pcWidth g.bitTypeId ++ slotTys)
    (h : Loading world x σ g c₀ start kinds f varMap c) {offset : ℕ} {ty : TypeId}
    (after : start ≤ offset)
    (here : expandType g.irTypes g.bitTypeId g.pcWidth ty <+: slotTys.drop offset)
    (hstate : (reading world x σ g).slots c slotTys (stateVars g slotTys) state) :
    Ensures (mapParam (stateVars g slotTys) varMap
        (offset, (expandType g.irTypes g.bitTypeId g.pcWidth ty).length) ty) c
      (Loading world x σ g c₀ (offset + (expandType g.irTypes g.bitTypeId g.pcWidth ty).length)
        (kinds ++ [.data ty]) ⟨f.vals ++ [⟨loadArg g.irTypes state
          (offset, (expandType g.irTypes g.bitTypeId g.pcWidth ty).length) ty, some ty, []⟩],
          f.st⟩) := by
  have hcopied := h.copying.copied
  have hpos := length_expandType_pos g.irTypes g.bitTypeId hpc ty
  have hle := add_length_le here hpos
  have hslice := slots_slice hstate here
  have hlength : ∀ val : Value, (f.vals ++ [val]).length = (kinds ++ [VarKind.data ty]).length := by
    intro val
    simp [h.length]
  unfold mapParam
  apply getConfig_bind h.copying.ok
  cases hty : g.irTypes.blockParams ty with
  | some sig =>
      have hblock : isBlockType g.irTypes ty := by rw [isBlockType, hty]; rfl
      have hexpand : expandType g.irTypes g.bitTypeId g.pcWidth ty =
          List.replicate g.pcWidth g.bitTypeId := by rw [expandType, if_pos hblock]
      have hslots : (stateVars g slotTys).length = slotTys.length := List.length_range' ..
      rw [hexpand] at here hslice hpos hle ⊢
      rw [List.length_replicate] at hslice hpos hle ⊢
      have href := hasBits_of_slots hg hslice
      have hvars : ((stateVars g slotTys).drop offset |>.take g.pcWidth).length = g.pcWidth := by
        rw [List.length_take, List.length_drop, hslots]
        omega
      have hwidth := href.length_eq.symm.trans hvars
      have hslice' : sliceVars (stateVars g slotTys) offset g.pcWidth =
          some (((stateVars g slotTys).drop offset).take g.pcWidth) := by
        rw [sliceVars, hslots, if_pos hle]
      dsimp only
      rw [hslice', orPanic_some, pure_bind]
      apply modify_bind
      obtain ⟨rep, hrep⟩ : ∃ rep,
          (((stateVars g slotTys).drop offset).take g.pcWidth).head? = some rep := by
        apply Option.isSome_iff_exists.mp
        rw [List.isSome_head?]
        exact List.ne_nil_of_length_pos (by rw [hvars]; exact hpos)
      rw [hrep, orPanic_some, pure_bind, ensures_pure, hcopied.length]
      have hload : loadArg g.irTypes state (offset, g.pcWidth) ty =
          refBits (Bits.value ((state.drop offset).take g.pcWidth).flatten) := by
        rw [loadArg, if_pos hblock]
      have hk := Bits.value_lt ((state.drop offset).take g.pcWidth).flatten
      rw [hwidth] at hk
      rw [hload]
      have hok := h.copying.ok
      refine ⟨⟨⟨hok.config, hok.nextId, hok.varTypes⟩,
        h.copying.grows.trans ⟨List.prefix_refl _, List.prefix_refl _⟩, ?_, h.copying.rel⟩,
        hlength _, ?_⟩
      · apply hcopied.pushRef h.length hty rfl hk
        rw [HasRef, pcBitsOf_value hwidth]
        exact href
      · apply h.below.snoc hcopied.length (by omega)
        intro hnone
        rw [refParams, hty] at hnone
        cases hnone
  | none =>
      have hblock : isBlockType g.irTypes ty = false := by rw [isBlockType, hty]; rfl
      have hexpand : expandType g.irTypes g.bitTypeId g.pcWidth ty = [ty] := by
        rw [expandType, if_neg (by rw [hblock]; decide)]
      rw [hexpand] at here hle ⊢
      rw [List.length_singleton] at hle ⊢
      have hlt : offset < slotTys.length := by omega
      dsimp only
      rw [getElem?_stateVars slotTys hlt, orPanic_some, pure_bind, ensures_pure]
      have hslotTy : slotTys[offset]? = some ty := getElem?_of_prefix_drop here Nat.one_pos
      obtain ⟨-, hlenState, hall⟩ := Reading.slots_iff.mp hstate
      have hcell : state[offset]? = some (state.getD offset []) := by
        simp [hlenState, hlt]
      have hslot : HasSlot world x σ g c ty (g.pcWidth + offset) (state.getD offset []) :=
        hall offset ty _ _ hslotTy (getElem?_stateVars slotTys hlt) hcell
      have hload : loadArg g.irTypes state (offset, 1) ty = state.getD offset [] := by
        rw [loadArg, if_neg (by rw [hblock]; decide)]
      rw [hload]
      have hparam : g.pcWidth + offset < g.combinedParamTypes.length := by
        rw [hparams, List.length_append, List.length_replicate]
        omega
      have hholds : Holds world x σ g c (g.pcWidth + offset)
          ⟨state.getD offset [], some ty, []⟩ := by
        refine ⟨hslot.lt, ?_⟩
        have hout := outputs_param world σ hg c hparam
        rw [← hslot.value.bits, ← hslot.value.type, ← hout]
      refine ⟨⟨h.copying.ok, h.copying.grows, ?_, h.copying.rel⟩, hlength _, ?_⟩
      · have hkind : refParams g.irTypes (.data ty) = none := hty
        apply hcopied.push h.length hkind hholds
        · intro ty' hty'
          rw [← VarKind.data.inj hty']
          exact hslot.type
        · intro u hu hnone
          exact (h.below u hu hnone).trans_le (by omega)
      · exact h.below.snoc hcopied.length (by omega) fun _ => by omega

/-- The parameters read what is in their slots. -/
theorem mapParams_ensures (hg : Setup g x) (hpc : 0 < g.pcWidth)
    (hparams : g.combinedParamTypes = List.replicate g.pcWidth g.bitTypeId ++ slotTys)
    (h : Loading world x σ g c₀ start kinds f varMap c)
    (hfound : SlotsFor g.irTypes g.bitTypeId g.pcWidth slotTys start tys found)
    (hstate : (reading world x σ g).slots c₀ slotTys (stateVars g slotTys) state) :
    Ensures (mapParams (stateVars g slotTys) found tys varMap) c
      (Copying world x σ g c₀ (kinds ++ tys.map .data)
        ⟨f.vals ++ paramValues tys (loadArgs g.irTypes state found tys), f.st⟩) := by
  have hlaw := reading_lawful world σ hg
  induction hfound generalizing c kinds f varMap with
  | nil =>
      rw [mapParams, ensures_pure]
      simpa [paramValues, loadArgs] using h.copying
  | @cons start offset ty tys rest after here next ih =>
      rw [mapParams]
      apply (mapParam_ensures hg hpc hparams h after here
        (hlaw.slots_mono h.copying.grows hstate)).bind
      intro varMap' d hd
      have hrest := ih hd
      simpa [paramValues, loadArgs] using hrest

end

/-- The copied statements compute what the block's statements do. -/
theorem emitStmts_ensures (hg : Setup g x) (h : Copying world x σ g c₀ kinds f varMap c)
    (hfits : LaneFits g.irTypes (2 ^ g.pcWidth) kinds f)
    (hactive : HasBit world x σ g c₀ isActive y) {stmts : List (Node IRStmt P)}
    (hs : StmtsFit g.irTypes (2 ^ g.pcWidth) kinds (stmts.map Node.kind))
    (hcopy : ∀ s ∈ stmts, Copyable s.kind)
    (hsilent : y = false → Silent g.irTypes world f (stmts.map Node.kind)) :
    Ensures (stmts.foldlM (emitStmt isActive) varMap) c
      (Copying world x σ g c₀ (kinds ++ (stmts.map Node.kind).map IRStmt.varKind)
        ((laneLanguage g.irTypes world y).run f (stmts.map Node.kind))) := by
  have hbound : 2 ^ g.pcWidth ≤ 2 ^ 32 := Nat.pow_le_pow_right (by decide) hg.small
  induction stmts generalizing c kinds f varMap with
  | nil =>
      rw [List.foldlM_nil, ensures_pure]
      simpa using h
  | cons s stmts ih =>
      rw [List.foldlM_cons]
      have hone := emitStmt_ensures hg h hfits (hactive.mono h.grows) hs.1
        (hcopy s List.mem_cons_self) fun hy => (hsilent hy).1
      apply hone.bind
      intro varMap' d hd
      rw [List.map_cons, List.map_cons, List.append_cons, Ssa.Language.run_cons]
      apply ih hd (hfits.step world hbound hs.1 y) hs.2
      · intro s' hs'
        exact hcopy s' (List.mem_cons_of_mem s hs')
      · intro hy
        have hrest := (hsilent hy).2
        rw [hy]
        exact hrest

/-- The body of block `i`, copied over slots that hold `state`. -/
theorem emitBlockStmts_ensures (hg : Setup g x) (hpc : 0 < g.pcWidth) (hc : c.Ok g)
    (hparams : g.combinedParamTypes = List.replicate g.pcWidth g.bitTypeId ++ slotTys)
    {blocks : IRBlocks P} {i : ℕ} {b : IRBlock P} {found : List (ℕ × ℕ)} {ρ : LaneState}
    (hb : blocks.blocks[i]? = some b) (hslotOf : g.slotOf[i]? = some found)
    (hfound : SlotsFor g.irTypes g.bitTypeId g.pcWidth slotTys 0 b.params found)
    (hstate : (reading world x σ g).slots c slotTys (stateVars g slotTys) state)
    (hfit : ArgsFit g.irTypes slotTys state) (hbody : BodyFits g.irTypes (2 ^ g.pcWidth) b)
    (hactive : HasBit world x σ g c isActive y) (hrel : LaneRel g (frame world x σ g c).st ρ)
    (hρ : StorageFits g.irTypes ρ.st) (hcells : ∀ storage addr, ρ.refs storage addr < 2 ^ g.pcWidth)
    (hsilent : y = false → Silent g.irTypes world
      ⟨paramValues b.params (loadArgs g.irTypes state found b.params), ρ⟩ b.kinds) :
    Ensures (MovfuscCtx.emitBlockStmts blocks i (stateVars g slotTys) isActive) c
      (Copying world x σ g c b.varKinds (laneFrame g.irTypes world y b
        (loadArgs g.irTypes state found b.params) ρ)) := by
  have hargs := hfound.isArg_loadArgs hg.bit hfit
  change Ensures (do
    let block ← orPanic blocks.blocks[i]?
    modify fun c => { c with blockVarToBits := .empty }
    let slots ← slotMapFor (some i) block.params
    let params ← mapParams (stateVars g slotTys) slots block.params []
    block.stmts.foldlM (emitStmt isActive) params) c _
  rw [hb, orPanic_some, pure_bind]
  apply modify_bind
  have hok : ({ c with blockVarToBits := .empty } : IrCtx P).Ok g :=
    ⟨hc.config, hc.nextId, hc.varTypes⟩
  have hstart : Loading world x σ g c 0 [] ⟨[], ρ⟩ [] { c with blockVarToBits := .empty } :=
    { copying :=
        { ok := hok
          grows := ⟨List.prefix_refl _, List.prefix_refl _⟩
          copied :=
            { length := rfl
              tracks := ⟨nofun, nofun⟩
              types := fun v ty hkind => nomatch hkind
              increasing := nofun
              untracked := fun _ _ => rfl
              refs := nofun }
          rel := hrel }
      length := rfl
      below := nofun }
  unfold slotMapFor
  rw [bind_assoc]
  apply getConfig_bind hok
  dsimp only
  rw [hslotOf, orPanic_some, pure_bind]
  apply (mapParams_ensures hg hpc hparams hstart hfound hstate).bind
  intro varMap d hd
  have hcopy := emitStmts_ensures hg hd (laneFits_params hargs hρ hcells) hactive hbody.stmts
    hbody.copyable hsilent
  exact hcopy

end IrCtx
end VolarIR.Movfuscate
