import VolarIR.Movfuscate.Layout
import VolarIR.Movfuscate.PlainProgram
import VolarIR.Movfuscate.TypedStep

/-!
# Assembling the step circuit

For a well-typed program without block references, what the pass hands to the generic
algorithm: the program laid out, its slots, the types of its returned values and a type
table with the pass's own types.
-/
namespace VolarIR.Movfuscate
open Ir Stateful

section
variable {types : TypeTable} {bitTypeId vecTy : TypeId} {n : ℕ}

theorem rank_bits (hbit : types.isBit bitTypeId = true)
    (hvec : types.get vecTy = some (.vec n bitTypeId)) : Rank types 1 vecTy :=
  .vec hvec (.bit (TypeTable.isBit_iff.mp hbit))

/-- A vector of bits adds by exclusive or, whatever its length. -/
theorem binaryType_bits (hbit : types.isBit bitTypeId = true)
    (hvec : types.get vecTy = some (.vec n bitTypeId)) :
    BinaryType types vecTy ∧ types.bitWidth vecTy = n := by
  have hrank := rank_bits hbit hvec
  have hlt := hrank.lt_length
  obtain ⟨fuel, hfuel⟩ : ∃ m, types.types.length = m + 2 := ⟨types.types.length - 2, by omega⟩
  have hget := TypeTable.isBit_iff.mp hbit
  constructor
  · apply BinaryType.bits
    · exact (rank_grows (.refl types) hrank hlt hlt).2
    · rw [TypeTable.mulIsIdempotent, hfuel]
      simp only [mulIsIdempotentFrom, hvec, hget]
  · rw [TypeTable.bitWidth, hfuel]
    simp only [bitWidthFrom, hvec, hget, Nat.mul_one]

end

section
variable {P : Type} {types types' : TypeTable} {bitTypeId : TypeId} {pcWidth : ℕ}

theorem slotSig_congr {ty : TypeId} (h : isBlockType types' ty = isBlockType types ty) :
    SlotSig.of ty types' pcWidth bitTypeId = SlotSig.of ty types pcWidth bitTypeId := by
  rw [SlotSig.of, SlotSig.of, h]

theorem positionGroups_congr {blocks : List (IRBlock P)}
    (h : ∀ b ∈ blocks, ∀ ty ∈ b.params, isBlockType types' ty = isBlockType types ty) (n : ℕ) :
    positionGroups types' bitTypeId pcWidth blocks n =
      positionGroups types bitTypeId pcWidth blocks n := by
  induction n with
  | zero => rfl
  | succ n ih =>
      have hhere : ∀ slots, groupsAt types' bitTypeId pcWidth blocks n slots =
          groupsAt types bitTypeId pcWidth blocks n slots := by
        intro slots
        unfold groupsAt
        apply List.foldl_ext
        intro acc b hb
        cases hty : b.params[n]? with
        | none => rfl
        | some ty =>
            simp only [addGroup, slotSig_congr (h b hb ty (List.mem_of_getElem? hty))]
      simp only [positionGroups, ih, hhere]

theorem resolveSlots_congr (positions : List (List SlotGroup)) {tys : List TypeId}
    (h : ∀ ty ∈ tys, isBlockType types' ty = isBlockType types ty) (k : ℕ) :
    resolveSlots types' bitTypeId pcWidth positions k tys =
      resolveSlots types bitTypeId pcWidth positions k tys := by
  induction tys generalizing k with
  | nil => rfl
  | cons ty tys ih =>
      simp only [resolveSlots, slotSig_congr (h ty List.mem_cons_self),
        ih fun t ht => h t (List.mem_cons_of_mem ty ht)]

theorem computeStaticSlotClasses_congr {p : IRBlocks P}
    (h : ∀ b ∈ p.blocks, ∀ ty ∈ b.params, isBlockType types' ty = isBlockType types ty) :
    computeStaticSlotClasses types' bitTypeId pcWidth p =
      computeStaticSlotClasses types bitTypeId pcWidth p := by
  have hresolve : ∀ positions, (p.blocks.mapM fun b =>
      resolveSlots types' bitTypeId pcWidth positions 0 b.params) =
      p.blocks.mapM fun b => resolveSlots types bitTypeId pcWidth positions 0 b.params := by
    intro positions
    apply mapM_congr_of_mem
    intro b hb
    exact resolveSlots_congr positions (h b hb) 0
  simp only [computeStaticSlotClasses, positionGroups_congr h, hresolve]

end

section
variable {P : Type} {types types' : TypeTable} {p q : IRBlocks P} {retTys : List TypeId}
  {order : List ℕ} {b : IRBlock P}

theorem not_isBlockType_grows {ty : TypeId} (hgrows : types.Grows types')
    (hty : BinaryType types ty) : isBlockType types' ty = false :=
  isBlockType_of_binary (binaryType_grows hgrows hty)

theorem PlainStmts.remapConst_eq {kinds : List VarKind} {stmts : List (Node IRStmt P)}
    (h : PlainStmts types kinds (stmts.map Node.kind)) (hgrows : types.Grows types') :
    (stmts.map fun s => { s with kind := remapConst types' order s.kind }) = stmts := by
  conv_rhs => rw [← List.map_id stmts]
  apply List.map_congr_left
  intro s hs
  obtain ⟨more, hplain⟩ := h.mem (List.mem_map_of_mem hs)
  have hkind : remapConst types' order s.kind = s.kind := by
    cases hk : s.kind with
    | const c ty =>
        have hty := hplain.values ty (by rw [hk]; simp [valueTypes, IRStmt.outputType])
        rw [remapConst, blockParams_eq_none (not_isBlockType_grows hgrows hty)]
    | _ => rfl
  rw [hkind]
  rfl

theorem PlainBlock.renumber (h : PlainBlock types p retTys b) (hgrows : types.Grows types') :
    renumberBlock types' order b =
        { b with terminator := renumberTerminator order b.terminator } := by
  rw [renumberBlock, h.stmts.remapConst_eq hgrows]

theorem PlainBlock.dataType (h : PlainBlock types p retTys b) {v : ℕ} {ty : TypeId}
    (hv : HasType b.varKinds v ty) : BinaryType types ty := by
  have hstmts : ∀ {kinds : List VarKind} {stmts : List IRStmt}, PlainStmts types kinds stmts →
      (∀ u uty, HasType kinds u uty → BinaryType types uty) →
      HasType (kinds ++ stmts.map IRStmt.varKind) v ty → BinaryType types ty := by
    intro kinds stmts hplain hkinds hv
    induction stmts generalizing kinds with
    | nil =>
        rw [List.map_nil, List.append_nil] at hv
        exact hkinds v ty hv
    | cons s stmts ih =>
        rw [List.map_cons, List.append_cons] at hv
        apply ih hplain.2 _ hv
        intro u uty hu
        rcases kindAt_snoc_cases (lt_of_kindAt_data hu) with ⟨-, heq⟩ | ⟨-, heq⟩
        · exact hkinds u uty (heq.symm.trans hu)
        · exact hplain.1.dataType (heq.symm.trans hu)
  apply hstmts h.stmts _ hv
  intro u uty hu
  exact h.params uty (hasType_params hu)

theorem inferBlockVarTypes_getElem {v : ℕ} {ty : TypeId} (bitTypeId : TypeId)
    (hv : HasType b.varKinds v ty) : (inferBlockVarTypes bitTypeId b)[v]? = some ty := by
  have hlt := lt_of_kindAt_data hv
  have hget : b.varKinds[v]? = some (.data ty) := by
    have hkind : kindAt b.varKinds v = b.varKinds[v] := by simp [kindAt, hlt]
    rw [List.getElem?_eq_getElem hlt, ← hkind]
    exact congrArg some hv
  unfold IRBlock.varKinds at hget
  unfold inferBlockVarTypes
  by_cases hparam : v < b.params.length
  · rw [List.getElem?_append_left (by simpa using hparam), List.getElem?_map] at hget
    rw [List.getElem?_append_left hparam]
    obtain ⟨pty, hpty, hdata⟩ := Option.map_eq_some_iff.mp hget
    rw [hpty, VarKind.data.inj hdata]
  · rw [List.getElem?_append_right (by simpa using hparam), List.length_map,
      List.getElem?_map] at hget
    rw [List.getElem?_append_right (Nat.le_of_not_lt hparam), List.getElem?_map]
    obtain ⟨s, hs, hdata⟩ := Option.map_eq_some_iff.mp hget
    rw [hs]
    cases s <;> simp_all [IRStmt.varKind, inferStmtResultType, IRStmt.outputType]

theorem inferBlockVarTypes_mapM (bitTypeId : TypeId) {args : List ℕ}
    (h : List.Forall₂ (HasType b.varKinds) args retTys) :
    (args.mapM fun v => (inferBlockVarTypes bitTypeId b)[v]?) = some retTys := by
  induction h with
  | nil => rfl
  | cons hv _ ih =>
      rw [List.mapM_cons, inferBlockVarTypes_getElem bitTypeId hv, ih]
      rfl

theorem expandType_of_binary {pcWidth : ℕ} {bitTypeId : TypeId} {tys : List TypeId}
    (h : ∀ ty ∈ tys, isBlockType types ty = false) :
    tys.flatMap (expandType types bitTypeId pcWidth) = tys := by
  induction tys with
  | nil => rfl
  | cons ty tys ih =>
      rw [List.flatMap_cons, ih fun t ht => h t (List.mem_cons_of_mem ty ht), expandType,
        h ty List.mem_cons_self]
      rfl

/-- The blocks of `p` that `order` retains, with their targets renumbered. -/
structure LaidOut (p q : IRBlocks P) (order : List ℕ) : Prop where
  length : q.blocks.length = order.length
  block : ∀ (j old : ℕ), order[j]? = some old → ∃ b, p.blocks[old]? = some b ∧
    q.blocks[j]? = some { b with terminator := renumberTerminator order b.terminator }
  closed : ∀ old ∈ order, ∀ b, p.blocks[old]? = some b → ∀ t ∈ b.terminator.targets,
    Retains order t
  zero : order[0]? = some 0

theorem LaidOut.target (h : LaidOut p q order) {kinds : List VarKind} {t : IRBranchTarget}
    (ht : PlainTarget p retTys kinds t) (hkeep : Retains order t) :
    PlainTarget q retTys kinds (renumberTarget order t) := by
  obtain ⟨dest, args⟩ := t
  cases dest with
  | ret => exact ht
  | dyn v => exact ht
  | block d =>
      obtain ⟨b, hb, hargs⟩ := ht
      obtain ⟨b', hb', hq⟩ := h.block _ d (getElem?_idxOf (hkeep d rfl))
      obtain rfl := Option.some.inj (hb.symm.trans hb')
      exact ⟨_, hq, hargs⟩

theorem LaidOut.plain (h : LaidOut p q order) (hp : ∀ b ∈ p.blocks, PlainBlock types p retTys b) :
    ∀ b ∈ q.blocks, PlainBlock types q retTys b := by
  intro b' hb'
  obtain ⟨j, hj⟩ := List.mem_iff_getElem?.mp hb'
  have hlt : j < order.length := h.length ▸ (List.getElem?_eq_some_iff.mp hj).1
  have hold : order[j]? = some order[j] := List.getElem?_eq_getElem hlt
  obtain ⟨b, hb, hq⟩ := h.block j _ hold
  obtain rfl := Option.some.inj (hj.symm.trans hq)
  have hplain := hp b (List.mem_of_getElem? hb)
  have hkeep := h.closed _ (List.getElem_mem hlt) b hb
  refine ⟨hplain.params, hplain.stmts, ?_⟩
  have hterm := hplain.terminator
  show PlainTerminator types q retTys b.varKinds (renumberTerminator order b.terminator)
  cases hcase : b.terminator with
  | jmp t =>
      rw [hcase] at hterm hkeep
      exact h.target hterm (hkeep t (by simp [IRTerminator.targets]))
  | jumpCond condition t e =>
      rw [hcase] at hterm hkeep
      exact ⟨hterm.1, h.target hterm.2.1 (hkeep t (by simp [IRTerminator.targets])),
        h.target hterm.2.2 (hkeep e (by simp [IRTerminator.targets]))⟩
  | jumpTable index cases =>
      rw [hcase] at hterm
      exact hterm.elim

theorem PlainTerminator.target {kinds : List VarKind} {t : IRTerminator}
    (h : PlainTerminator types p retTys kinds t) {target : IRBranchTarget}
    (ht : target ∈ t.targets) : PlainTarget p retTys kinds target := by
  cases t with
  | jmp t =>
      rw [IRTerminator.targets, List.mem_singleton] at ht
      subst ht
      exact h
  | jumpCond condition t e =>
      rw [IRTerminator.targets, List.mem_pair] at ht
      rcases ht with rfl | rfl
      · exact h.2.1
      · exact h.2.2
  | jumpTable index cases => exact h.elim

/-- The vars looked at are those of a `Return` edge. -/
theorem exists_target_of_returnArgs {t : IRTerminator} {args : List ℕ}
    (h : returnArgs t = some args) : ⟨.ret, args⟩ ∈ t.targets := by
  unfold returnArgs at h
  split at h
  all_goals simp_all [IRTerminator.targets]

theorem returnArgs_ne_none {kinds : List VarKind} {t : IRTerminator}
    (h : PlainTerminator types p retTys kinds t) {target : IRBranchTarget}
    (ht : target ∈ t.targets) (hret : target.dest = .ret) : returnArgs t ≠ none := by
  obtain ⟨dest, args⟩ := target
  cases hret
  cases t with
  | jmp t =>
      rw [IRTerminator.targets, List.mem_singleton] at ht
      subst ht
      simp [returnArgs]
  | jumpCond condition t e =>
      rw [IRTerminator.targets, List.mem_pair] at ht
      obtain ⟨tdest, targs⟩ := t
      rcases ht with ht | ht
      · cases ht
        simp [returnArgs]
      · subst ht
        cases tdest <;> simp [returnArgs]
  | jumpTable index cases => exact h.elim

theorem forall_of_hasTypes {kinds : List VarKind} {args : List ℕ} {tys : List TypeId}
    {Q : TypeId → Prop} (h : List.Forall₂ (HasType kinds) args tys)
    (hQ : ∀ v ty, HasType kinds v ty → Q ty) : ∀ ty ∈ tys, Q ty := by
  induction h with
  | nil => simp
  | cons hv _ ih => exact List.forall_mem_cons.mpr ⟨hQ _ _ hv, ih⟩

/-- The slots of the returned values: of the types every `Return` edge has, or none when
there is no such edge. -/
theorem computeReturnSlotTypes_eq (hgrows : types.Grows types') (bitTypeId : TypeId) (pcWidth : ℕ)
    (hq : ∀ b ∈ q.blocks, PlainBlock types q retTys b) :
    ∃ slots, computeReturnSlotTypes types' bitTypeId pcWidth q = some slots ∧
      (∀ ty ∈ slots, BinaryType types ty) ∧
      ∀ b ∈ q.blocks, ∀ t ∈ b.terminator.targets, t.dest = .ret → slots = retTys := by
  unfold computeReturnSlotTypes
  cases hfind : q.blocks.findSome? fun b =>
      (returnArgs b.terminator).map fun args => (b, args) with
  | none =>
      refine ⟨[], rfl, by simp, ?_⟩
      intro b hb t ht hret
      rw [List.findSome?_eq_none_iff] at hfind
      have hnone := hfind b hb
      rw [Option.map_eq_none_iff] at hnone
      exact absurd hnone (returnArgs_ne_none (hq b hb).terminator ht hret)
  | some found =>
      obtain ⟨b, hb, hargs⟩ := List.exists_of_findSome?_eq_some hfind
      obtain ⟨args, hreturn, rfl⟩ := Option.map_eq_some_iff.mp hargs
      have hplain := hq b hb
      have hret : List.Forall₂ (HasType b.varKinds) args retTys :=
        hplain.terminator.target (exists_target_of_returnArgs hreturn)
      have htys : ∀ ty ∈ retTys, BinaryType types ty :=
        forall_of_hasTypes hret fun _ _ hv => hplain.dataType hv
      refine ⟨retTys, ?_, htys, fun _ _ _ _ _ => rfl⟩
      simp only [Option.bind_eq_bind, inferBlockVarTypes_mapM bitTypeId hret, Option.bind_some]
      rw [expandType_of_binary fun ty hty => not_isBlockType_grows hgrows (htys ty hty)]

/-- What the pass hands to the generic algorithm. -/
structure Planned (types : TypeTable) (retTys : List TypeId) (p : IRBlocks P) (g : IrConfig P)
    (slotTys returnTys : List TypeId) (q : IRBlocks P) : Prop where
  grows : types.Grows g.irTypes
  bit : g.irTypes.isBit g.bitTypeId = true
  ref : BinaryType g.irTypes g.vecPcTypeId
  refWidth : g.irTypes.bitWidth g.vecPcTypeId = g.pcWidth
  small : g.pcWidth ≤ 32
  laidOut : LaidOut p q (layoutOrder p)
  plain : ∀ b ∈ q.blocks, PlainBlock types q retTys b
  wired : Wired g slotTys q
  binary : ∀ ty ∈ returnTys, BinaryType g.irTypes ty
  returns : ∀ b ∈ q.blocks, ∀ t ∈ b.terminator.targets, t.dest = .ret → returnTys = retTys
  width : g.pcWidth = pcBitsNeeded q.blocks.length

theorem Planned.setup {g : IrConfig P} {slotTys returnTys : List TypeId}
    (h : Planned types retTys p g slotTys returnTys q) {x : List (List Bool)}
    (hx : x.length = g.combinedParamTypes.length) : IrCtx.Setup g x :=
  ⟨h.bit, h.ref, h.refWidth, h.small, hx⟩

theorem Planned.length_le {g : IrConfig P} {slotTys returnTys : List TypeId}
    (h : Planned types retTys p g slotTys returnTys q) : q.blocks.length ≤ 2 ^ g.pcWidth := by
  rw [h.width]
  exact le_two_pow_pcBitsNeeded _

theorem Planned.targetFits {g : IrConfig P} {slotTys returnTys : List TypeId}
    (h : Planned types retTys p g slotTys returnTys q) (hb : b ∈ q.blocks)
    {t : IRBranchTarget} (ht : t ∈ b.terminator.targets) :
    TargetFits g returnTys q b.varKinds t := by
  have hplain := (h.plain b hb).terminator.target ht
  have hreturns := h.returns b hb t ht
  unfold PlainTarget at hplain
  unfold TargetFits
  cases hdest : t.dest with
  | ret =>
      rw [hdest] at hplain
      refine ⟨retTys, hplain, ?_⟩
      rw [hreturns hdest]
      apply expandType_of_binary
      intro ty hty
      exact not_isBlockType_grows h.grows
        (forall_of_hasTypes hplain (fun _ _ hv => (h.plain b hb).dataType hv) ty hty)
  | block j =>
      rw [hdest] at hplain
      exact hplain
  | dyn v =>
      rw [hdest] at hplain
      exact hplain.elim

theorem Planned.fits {g : IrConfig P} {slotTys returnTys : List TypeId}
    (h : Planned types retTys p g slotTys returnTys q)
    (hcopy : ∀ b ∈ q.blocks, ∀ s ∈ b.stmts, Copyable s.kind) :
    ∀ b ∈ q.blocks, BlockFits g returnTys q b := by
  intro b hb
  have hplain := h.plain b hb
  refine ⟨⟨hplain.stmts.fits h.grows _, hcopy b hb⟩, ?_⟩
  have hterm := hplain.terminator
  have htargets := fun t => h.targetFits hb (t := t)
  cases hcase : b.terminator with
  | jmp t =>
      rw [hcase] at htargets
      exact htargets t (by simp [IRTerminator.targets])
  | jumpCond condition t e =>
      rw [hcase] at htargets hterm
      obtain ⟨ty, hkind, hty⟩ := hterm.1
      exact ⟨⟨ty, hkind, isBit_grows h.grows hty⟩, htargets t (by simp [IRTerminator.targets]),
        htargets e (by simp [IRTerminator.targets])⟩
  | jumpTable index cases =>
      rw [hcase] at hterm
      exact hterm.elim

structure PlainProgram (types : TypeTable) (retTys : List TypeId) (p : IRProgram P) : Prop where
  blocks : ∀ b ∈ p.blocks, PlainBlock types p.toIRBlocks retTys b
  preInit : ∀ seg ∈ p.preInit, BinaryType types seg.ty
  multi : 2 ≤ p.blocks.length
  small : p.blocks.length ≤ 2 ^ 32

structure IdsFit (p : IRProgram P) : Prop where
  storages : ∀ b ∈ p.blocks, ∀ s ∈ b.kinds, ∀ storage ∈ storageIds s, storage.id * 2 ≤ u32Max
  segments : ∀ seg ∈ p.preInit, seg.storage.id * 2 ≤ u32Max

def HasProvenance (p : IRBlocks P) (controlProv : Option P) : Prop :=
  (∃ old ∈ layoutOrder p, ∃ b, p.blocks[old]? = some b ∧ b.stmts ≠ []) ∨ controlProv.isSome

theorem PlainBlock.targetsInRange (hp : ∀ b ∈ p.blocks, PlainBlock types p retTys b) :
    TargetsInRange p := by
  intro b hb t ht d hd
  have hplain := (hp b hb).terminator.target ht
  unfold PlainTarget at hplain
  rw [hd] at hplain
  obtain ⟨b', hb', -⟩ := hplain
  exact (List.getElem?_eq_some_iff.mp hb').1

theorem layout_plain (hgrows : types.Grows types')
    (hp : ∀ b ∈ p.blocks, PlainBlock types p retTys b) (hseveral : 2 ≤ (layoutOrder p).length) :
    ∃ q, layoutCfgForMovfuscationTyped p types' = some q ∧ LaidOut p q (layoutOrder p) := by
  have hrange := PlainBlock.targetsInRange hp
  have hlen := (layoutOrder_met p).length_le
  obtain ⟨q, hq, hqlen, hblock⟩ := layout_eq types' hrange (hseveral.trans hlen)
  refine ⟨q, hq, hqlen, ?_, fun old hold b hb t ht => layoutOrder_closed hrange hold hb ht,
    layoutOrder_zero (by omega)⟩
  intro j old hj
  obtain ⟨b, hb, hqb⟩ := hblock j old hj
  rw [(hp b (List.mem_of_getElem? hb)).renumber hgrows] at hqb
  exact ⟨b, hb, hqb⟩

theorem exists_provenance (h : LaidOut p q (layoutOrder p)) {controlProv : Option P}
    (hprov : HasProvenance p controlProv) :
    ∃ prov, ((q.blocks.flatMap IRBlock.stmts).head?.map Node.prov).or controlProv = some prov := by
  cases hhead : (q.blocks.flatMap IRBlock.stmts).head? with
  | some stmt => exact ⟨stmt.prov, rfl⟩
  | none =>
      rw [List.head?_eq_none_iff, List.flatMap_eq_nil_iff] at hhead
      rcases hprov with ⟨old, hold, b, hb, hstmts⟩ | hgiven
      · obtain ⟨b', hb', hqb⟩ := h.block _ old (getElem?_idxOf hold)
        obtain rfl := Option.some.inj (hb.symm.trans hb')
        exact absurd (hhead _ (List.mem_of_getElem? hqb)) hstmts
      · exact Option.isSome_iff_exists.mp hgiven

theorem pcBitsNeeded_le {n : ℕ} (h : n ≤ 2 ^ 32) : pcBitsNeeded n ≤ 32 := by
  unfold pcBitsNeeded
  split
  · omega
  · have hlt : Nat.log2 (n - 1) < 32 := (Nat.log2_lt (by omega)).mpr (by omega)
    omega

theorem pcBitsNeeded_pos {n : ℕ} (h : 2 ≤ n) : 0 < pcBitsNeeded n := by
  unfold pcBitsNeeded
  rw [if_neg (by omega)]
  exact Nat.succ_pos _

def combinedProgram (g : IrConfig P) (slotTys : List TypeId) (preInit : List PreInitSegment)
    (out : TermResult) (d : IrCtx P) : IRProgram P :=
  ⟨MovfuscCtx.buildOutput d (g.pcWidth + slotTys.length) out.done
    (out.nextPcBits ++ out.nextState) out.retVals, preInit⟩

/-- The pass emits the step circuit of its plan. -/
theorem PlainProgram.exists_plan {p : IRProgram P} (h : PlainProgram types retTys p)
    (hseveral : 2 ≤ (layoutOrder p.toIRBlocks).length) {controlProv : Option P}
        (hprov : HasProvenance p.toIRBlocks controlProv) :
    ∃ g slotTys returnTys q, Planned types retTys p.toIRBlocks g slotTys returnTys q ∧
      movfuscateEntryParamSlots p types = some ((g.slotOf[0]?).getD []) ∧
      movfuscateIrImpl p types controlProv =
        ((emitStep q g.pcWidth slotTys returnTys).run
          (IrCtx.new g.combinedParamTypes.length g)).bind fun r =>
            (p.preInit.mapM (remapPreInit g.irTypes)).map fun preInit =>
              (combinedProgram g slotTys preInit r.1 r.2, g.irTypes) := by
  obtain ⟨bitTypeId, types₁, hintern⟩ : ∃ a b, types.intern (.primitive .bit) = (a, b) :=
    ⟨_, _, rfl⟩
  have hgrows₁ : types.Grows types₁ := by
    have hgrow := TypeTable.grows_intern types (.primitive .bit)
    rwa [hintern] at hgrow
  have hbit₁ : types₁.isBit bitTypeId = true := by
    have hget := TypeTable.get_intern types (.primitive .bit)
    rw [hintern] at hget
    exact TypeTable.isBit_iff.mpr hget
  obtain ⟨q, hlayout, hlaid⟩ := layout_plain hgrows₁ h.blocks hseveral
  have hplain := hlaid.plain h.blocks
  have hn : 2 ≤ q.blocks.length := by
    rw [hlaid.length]
    exact hseveral
  generalize hwidth : pcBitsNeeded q.blocks.length = pcWidth
  have hpc : 0 < pcWidth := hwidth ▸ pcBitsNeeded_pos hn
  have hsmall : pcWidth ≤ 32 := by
    rw [← hwidth]
    apply pcBitsNeeded_le
    rw [hlaid.length]
    exact (layoutOrder_met _).length_le.trans h.small
  obtain ⟨vecTy, types₂, hvec⟩ : ∃ a b, internPcType types₁ pcWidth bitTypeId = (a, b) :=
    ⟨_, _, rfl⟩
  have hpcType := hvec
  rw [internPcType, if_pos hpc] at hvec
  have hgrows₂ : types₁.Grows types₂ := by
    have hgrow := TypeTable.grows_intern types₁ (.vec pcWidth bitTypeId)
    rwa [hvec] at hgrow
  have hget : types₂.get vecTy = some (.vec pcWidth bitTypeId) := by
    have hget := TypeTable.get_intern types₁ (.vec pcWidth bitTypeId)
    rwa [hvec] at hget
  have hgrows := hgrows₁.trans hgrows₂
  have hbit := isBit_grows hgrows₂ hbit₁
  obtain ⟨href, hrefWidth⟩ := binaryType_bits hbit hget
  obtain ⟨classes, hclasses, hfit⟩ := computeStaticSlotClasses_fit types₂ bitTypeId pcWidth q
  obtain ⟨returnTys, hreturn, hbinary, hreturns⟩ :=
    computeReturnSlotTypes_eq hgrows bitTypeId pcWidth hplain
  obtain ⟨prov, hprov⟩ := exists_provenance hlaid hprov
  have hdata : ∀ b ∈ q.blocks, ∀ ty ∈ b.params, BinaryType types ty :=
    fun b hb => (hplain b hb).params
  let g : IrConfig P :=
    { bitTypeId, vecPcTypeId := vecTy, irTypes := types₂, pcWidth, ctrlProv := prov
      combinedParamTypes := List.replicate pcWidth bitTypeId ++ classes.stateSlotTypes
      slotOf := classes.slotOf
      sigFallback := classes.sigFallback }
  refine ⟨g, classes.stateSlotTypes, returnTys, q, ?_, ?_, ?_⟩
  · refine ⟨hgrows, hbit, href, hrefWidth, hsmall, hlaid, hplain, ?_, ?_, hreturns, hwidth.symm⟩
    · refine ⟨rfl, hfit.slotOf, ?_, hpc, ?_⟩
      · exact fun b hb ty hty => .inl (binaryType_grows hgrows (hdata b hb ty hty))
      · intro t ht
        obtain ⟨b, hb, ty, hty, hmem⟩ := hfit.expands t ht
        rcases mem_expandType hmem with rfl | ⟨rfl, -⟩
        · exact .of_isBit hbit
        · exact binaryType_grows hgrows (hdata b hb t hty)
    · exact fun ty hty => binaryType_grows hgrows (hbinary ty hty)
  · have hsame : computeStaticSlotClasses types₁ bitTypeId pcWidth q = some classes := by
      rw [← hclasses]
      apply computeStaticSlotClasses_congr
      intro b hb ty hty
      rw [not_isBlockType_grows hgrows₁ (hdata b hb ty hty),
        not_isBlockType_grows hgrows (hdata b hb ty hty)]
    have hne : q.blocks.length ≠ 0 := by omega
    simp only [movfuscateEntryParamSlots, hintern, hlayout, Option.bind_eq_bind,
      Option.bind_some, if_neg hne, hwidth, hsame, List.head?_eq_getElem?, g]
  · have hone : q.blocks.length ≠ 1 := by omega
    have hzero : q.blocks.length ≠ 0 := by omega
    have hlen : g.combinedParamTypes.length = pcWidth + classes.stateSlotTypes.length := by
      simp [g]
    have hnum : MovfuscCtx.numBlocks (IrCtx P) q = q.blocks.length := rfl
    simp only [movfuscateIrImpl, hintern, hlayout, Option.bind_eq_bind, Option.bind_some,
      if_neg hone, hwidth, hpcType, hclasses, hreturn, hprov, movfuscate, hnum, if_neg hzero,
      hlen]
    rw [Option.bind_assoc]
    apply congrArg (Option.bind _)
    funext r
    cases p.preInit.mapM (remapPreInit types₂) with
    | none => simp [g]
    | some preInit => simp [g, combinedProgram]

end
end VolarIR.Movfuscate
