import VolarIR.Ir.HoistOrder
import VolarIR.Ir.TableGrowth
import VolarIR.Library.Reorder

/-!
# Hoisting after batching

The hoisted block is the batched block in another order. Operands stay defined before their
use exactly if no group of several regions takes a hole that one of them computes; then
statements that see the state keep their order, and the block computes what it computed.
-/
namespace VolarIR.Ir

section
variable {P : Type} (block : IRBlock P) (sets : List (List ℕ))

/-- `remap` of the pass. -/
def hoistRemap : List ℕ :=
  List.range block.params.length ++ (List.range block.stmts.length).map fun i =>
    block.params.length + hoistPlace sets block.stmts.length i

def hoistedStmts : List (Node IRStmt P) :=
  (hoistOrder sets block.stmts.length).filterMap fun i => block.stmts[i]?.map fun node =>
    { node with kind := remapStmtOperands (hoistRemap block sets) node.kind }

variable {block sets}

theorem hoistSharedStatementsOnce_of_eq
    (h : hoistOrder sets block.stmts.length = List.range block.stmts.length) :
    (hoistSharedStatementsOnce block sets).block = block ∧
      (hoistSharedStatementsOnce block sets).remap =
        List.range (block.params.length + block.stmts.length) := by
  rw [hoistSharedStatementsOnce]
  dsimp only
  rw [if_pos h]
  exact ⟨rfl, rfl⟩

theorem hoistSharedStatementsOnce_of_ne
    (h : hoistOrder sets block.stmts.length ≠ List.range block.stmts.length) :
    (hoistSharedStatementsOnce block sets).block = ⟨block.params, hoistedStmts block sets,
        block.terminator.mapVars (remapped (hoistRemap block sets))⟩ ∧
      (hoistSharedStatementsOnce block sets).remap = hoistRemap block sets := by
  rw [hoistSharedStatementsOnce]
  dsimp only
  rw [if_neg h]
  exact ⟨rfl, rfl⟩

theorem remapped_hoistRemap_of_lt {v : ℕ} (hv : v < block.params.length) :
    remapped (hoistRemap block sets) v = v := by
  rw [remapped, hoistRemap, List.getD_eq_getElem?_getD,
    List.getElem?_append_left (by rwa [List.length_range]), List.getElem?_range hv]
  rfl

theorem remapped_hoistRemap_add {i : ℕ} (hi : i < block.stmts.length) :
    remapped (hoistRemap block sets) (block.params.length + i) =
      block.params.length + hoistPlace sets block.stmts.length i := by
  rw [remapped, hoistRemap, List.getD_eq_getElem?_getD,
    List.getElem?_append_right (by rw [List.length_range]; omega), List.length_range,
    Nat.add_sub_cancel_left, List.getElem?_map, List.getElem?_range hi]
  rfl

theorem hoistedStmts_eq : hoistedStmts block sets =
    (hoistOrder sets block.stmts.length).attach.map fun i =>
      let node := block.stmts.get ⟨i.1, mem_hoistOrder.mp i.2⟩
      { node with kind := remapStmtOperands (hoistRemap block sets) node.kind } := by
  have hall : ∀ (order : List ℕ) (h : ∀ i ∈ order, i < block.stmts.length),
      (order.filterMap fun i => block.stmts[i]?.map fun node =>
        { node with kind := remapStmtOperands (hoistRemap block sets) node.kind }) =
      order.pmap (fun i hi =>
        { block.stmts.get ⟨i, hi⟩ with
          kind := remapStmtOperands (hoistRemap block sets)
              (block.stmts.get ⟨i, hi⟩).kind }) h := by
    intro order
    induction order with
    | nil => exact fun _ => rfl
    | cons i rest ih =>
        intro h
        rw [List.filterMap_cons, List.getElem?_eq_getElem (h i List.mem_cons_self), List.pmap_cons,
          ih fun j hj => h j (List.mem_cons_of_mem i hj)]
        rfl
  rw [hoistedStmts, hall _ fun i hi => mem_hoistOrder.mp hi, List.pmap_eq_map_attach]

theorem reordered_hoist (block : IRBlock P) (sets : List (List ℕ)) :
    Ssa.Reordered block.params.length block.kinds
    ((hoistedStmts block sets).map Node.kind) (hoistOrder sets block.stmts.length)
    (remapStmtOperands (hoistRemap block sets)) (remapped (hoistRemap block sets)) where
  perm := by
    rw [IRBlock.length_kinds]
    exact perm_hoistOrder
  length := by rw [List.length_map, hoistedStmts_eq, List.length_map, List.length_attach]
  stmt := by
    intro k i hk
    have hi : i < block.stmts.length := mem_hoistOrder.mp (List.mem_of_getElem? hk)
    rw [List.getElem?_map, hoistedStmts_eq, List.getElem?_map, IRBlock.kinds, List.getElem?_map,
      List.getElem?_eq_getElem hi]
    obtain ⟨hlt, rfl⟩ := List.getElem?_eq_some_iff.mp hk
    rw [List.getElem?_eq_getElem (by rwa [List.length_attach])]
    simp
  param := fun v hv => remapped_hoistRemap_of_lt hv
  moved := by
    intro k i hk
    have hi : i < block.stmts.length := mem_hoistOrder.mp (List.mem_of_getElem? hk)
    have hlt := (List.getElem?_eq_some_iff.mp hk).1
    have hplace : hoistPlace sets block.stmts.length i = k :=
      (List.getElem?_inj hlt nodup_hoistOrder).mp
          (hk.trans (getElem?_hoistPlace sets hi).symm) |>.symm
    rw [remapped_hoistRemap_add hi, hplace]

end

section
variable {P : Type} {table : TypeTable} {b : IRBlock P} {accepted : List PolyBatch}
  {batched : Batched P} {labels : List ℕ}

theorem BatchLaid.origin (h : BatchLaid table b accepted batched) {q : ℕ} {s : IRStmt}
    (hs : batched.block.kinds[q]? = some s) :
    ∃ o, (origins accepted b.kinds.length)[q]? = some o ∧
      Made b.kinds accepted b.params.length batched.types o s := by
  obtain ⟨hlt, rfl⟩ := List.getElem?_eq_some_iff.mp hs
  have hlt' : q < (origins accepted b.kinds.length).length := by rwa [h.made.length_eq]
  exact ⟨_, List.getElem?_eq_getElem hlt', h.made.get hlt' hlt⟩

/-- An operand of a statement of the batched block is a parameter or the result of an earlier
statement that feeds it. -/
theorem BatchLaid.operand (h : BatchLaid table b accepted batched)
    (hdefined : Ssa.Defined IRStmt.operands b.params.length b.kinds) {q : ℕ} {s : IRStmt}
    (hs : batched.block.kinds[q]? = some s) {v : ℕ} (hv : v ∈ s.operands) :
    v < b.params.length ∨ ∃ p o o', v = b.params.length + p ∧ p < q ∧
      (origins accepted b.kinds.length)[p]? = some o ∧
      (origins accepted b.kinds.length)[q]? = some o' ∧
      Feeds b.kinds accepted b.params.length o o' := by
  obtain ⟨o', ho', hmade⟩ := h.origin hs
  rcases hmade.feeds v hv with hp | ⟨o, hfeeds, rfl⟩
  · exact Or.inl hp
  · have hmem' := List.mem_of_getElem? ho'
    have hmem := hfeeds.mem_origins h.ready hdefined hmem'
    have hlt := (place_lt_iff hmem hmem').mpr (hfeeds.time_lt h.ready hdefined)
    rw [place_of_getElem? ho'] at hlt
    exact Or.inr ⟨_, o, o', rfl, hlt, getElem?_place hmem, ho', hfeeds⟩

theorem BatchLaid.defined (h : BatchLaid table b accepted batched)
    (hdefined : Ssa.Defined IRStmt.operands b.params.length b.kinds) :
    Ssa.Defined IRStmt.operands b.params.length batched.block.kinds := by
  apply Ssa.defined_of_getElem
  intro q s hs v hv
  rcases h.operand hdefined hs hv with hp | ⟨p, o, o', rfl, hpq, -⟩
  · omega
  · omega

theorem BatchLaid.wellFormed (h : BatchLaid table b accepted batched) (hwf : b.WellFormed) :
    batched.block.WellFormed := by
  constructor
  · rw [h.params]
    exact h.defined hwf.1
  · intro v hv
    rw [h.terminator, IRTerminator.operands_mapVars] at hv
    obtain ⟨u, hu, rfl⟩ := List.mem_map.mp hv
    have hlt := hwf.2 u hu
    rw [IRBlock.varSpace, h.params, h.length]
    rcases movedVar_cases accepted b.kinds.length b.params.length u
      with ⟨hp, heq⟩ | ⟨i, rfl, heq⟩
    · rw [heq]
      omega
    · rw [heq, originVar]
      have hi : i < b.kinds.length := by
        rw [IRBlock.varSpace, ← IRBlock.length_kinds] at hlt
        omega
      have hmem : Origin.kept i ∈ origins accepted b.kinds.length := mem_origins_kept.mpr hi
      have hplace := place_lt_length hmem
      omega

/-- Without split holes every operand stays before its use. -/
theorem BatchLaid.before (h : BatchLaid table b accepted batched)
    (hdefined : Ssa.Defined IRStmt.operands b.params.length b.kinds)
    (hlabelled : Labelled b labels) (hholes : NoSplitHoles labels b.params.length accepted)
    {q : ℕ} {s : IRStmt} (hs : batched.block.kinds[q]? = some s) {p : ℕ}
    (hv : b.params.length + p ∈ s.operands) :
    hoistPlace (regionSets labels b.params.length batched) batched.block.stmts.length p <
      hoistPlace (regionSets labels b.params.length batched) batched.block.stmts.length q := by
  have hq : q < batched.block.stmts.length := by
    rw [← IRBlock.length_kinds]
    exact (List.getElem?_eq_some_iff.mp hs).1
  rcases h.operand hdefined hs hv with hp | ⟨p', o, o', heq, hpq, ho, ho', hfeeds⟩
  · omega
  · obtain rfl : p = p' := by omega
    apply hoistPlace_lt_of_key hpq hq
    rw [h.groupKey hlabelled.length ho, h.groupKey hlabelled.length ho']
    exact hfeeds.key h.ready hlabelled hholes

/-- A split hole ends up behind the statement that merges it. -/
theorem BatchLaid.split_behind (h : BatchLaid table b accepted batched)
    (hdefined : Ssa.Defined IRStmt.operands b.params.length b.kinds)
    (hlabels : labels.length = b.stmts.length)
    (hholes : ¬ NoSplitHoles labels b.params.length accepted) :
    ∃ p q parts ty, p < q ∧ q < batched.block.stmts.length ∧
      batched.block.kinds[q]? = some (.merge parts ty) ∧ b.params.length + p ∈ parts ∧
      hoistPlace (regionSets labels b.params.length batched) batched.block.stmts.length q <
        hoistPlace (regionSets labels b.params.length batched) batched.block.stmts.length p := by
  unfold NoSplitHoles at hholes
  push Not at hholes
  obtain ⟨batch, hbatch, ⟨m₁, hm₁, m₂, hm₂, hne⟩, m, hm, hlabel⟩ := hholes
  obtain ⟨u, hu⟩ : ∃ u, m.2 = b.params.length + u := by
    refine ⟨m.2 - b.params.length, ?_⟩
    by_contra hlt
    exact hlabel (if_pos (by omega))
  have hmem := mem_origins_made h.ready hbatch (o := .merge batch.minIdx) (Or.inl rfl)
  have hq := getElem?_place hmem
  have hqlt := (List.getElem?_eq_some_iff.mp hq).1
  have hkinds : place accepted b.kinds.length (.merge batch.minIdx) <
      batched.block.kinds.length := by rwa [← h.made.length_eq]
  have hs := List.getElem?_eq_getElem hkinds
  obtain ⟨o, ho, hmade⟩ := h.origin hs
  rw [hq] at ho
  cases ho
  generalize hkind : batched.block.kinds[place accepted b.kinds.length (.merge batch.minIdx)] = s
    at hs hmade
  have hfeeds : Feeds b.kinds accepted b.params.length (.kept u) (.merge batch.minIdx) :=
    .hole hbatch hm hu
  have hmemu := hfeeds.mem_origins h.ready hdefined hmem
  have hlt := (place_lt_iff hmemu hmem).mpr (hfeeds.time_lt h.ready hdefined)
  have hn : place accepted b.kinds.length (.merge batch.minIdx) <
      batched.block.stmts.length := by rwa [← IRBlock.length_kinds]
  have hsame : ∀ {o : Origin}, o = .merge batch.minIdx →
      Made b.kinds accepted b.params.length batched.types o s → ∃ ty, s = .merge
        (batch.members.map fun m => movedVar accepted b.kinds.length b.params.length m.2) ty := by
    intro o ho hmade
    cases hmade with
    | @merge other ty mem =>
        have hother := h.ready.eq_of_minIdx mem hbatch (Origin.merge.inj ho)
        exact ⟨ty, by rw [hother]⟩
    | _ => cases ho
  obtain ⟨ty, rfl⟩ := hsame rfl hmade
  refine ⟨_, _, _, ty, hlt, hn, hs, ?_, ?_⟩
  · apply List.mem_map.mpr
    refine ⟨m, hm, ?_⟩
    rw [hu, movedVar_add]
    rfl
  · apply hoistPlace_lt_of_lead (hlt.trans hn) hn
    · rw [h.groupKey hlabels hq, originKey_made h.ready hbatch (Or.inl rfl),
        groupLabel_of_split hm₁ hm₂ hne]
    · rw [h.groupKey hlabels (getElem?_place hmemu)]
      rw [hu, varLabel_add] at hlabel
      exact hlabel

theorem BatchLaid.hoisted_wellFormed_iff (h : BatchLaid table b accepted batched)
    (hwf : b.WellFormed) (hlabelled : Labelled b labels) :
    (hoistSharedStatementsOnce batched.block
        (regionSets labels b.params.length batched)).block.WellFormed ↔
      NoSplitHoles labels b.params.length accepted := by
  have hparams := h.params
  constructor
  · intro hhoisted
    by_contra hholes
    obtain ⟨p, q, parts, ty, hpq, hq, hs, hpart, hbehind⟩ :=
      h.split_behind hwf.1 hlabelled.length hholes
    have hne : hoistOrder (regionSets labels b.params.length batched)
        batched.block.stmts.length ≠ List.range batched.block.stmts.length := by
      intro heq
      have hplace : ∀ i < batched.block.stmts.length, hoistPlace
          (regionSets labels b.params.length batched) batched.block.stmts.length i = i := by
        intro i hi
        have hget := getElem?_hoistPlace (regionSets labels b.params.length batched) hi
        rw [heq] at hget
        obtain ⟨hlt, hval⟩ := List.getElem?_eq_some_iff.mp hget
        rwa [List.getElem_range] at hval
      rw [hplace q hq, hplace p (hpq.trans hq)] at hbehind
      omega
    rw [(hoistSharedStatementsOnce_of_ne hne).1] at hhoisted
    have hre := reordered_hoist batched.block (regionSets labels b.params.length batched)
    have hget := hre.stmt _ q (getElem?_hoistPlace _ hq)
    rw [hs] at hget
    have hdefined := Ssa.operands_lt_of_getElem hhoisted.1 hget
      (remapped (hoistRemap batched.block (regionSets labels b.params.length batched))
        (b.params.length + p)) (List.mem_map_of_mem hpart)
    rw [← hparams, remapped_hoistRemap_add (hpq.trans hq)] at hdefined
    rw [← hparams] at hbehind
    dsimp only at hdefined
    omega
  · intro hholes
    have hold := h.wellFormed hwf
    by_cases heq : hoistOrder (regionSets labels b.params.length batched)
        batched.block.stmts.length = List.range batched.block.stmts.length
    · rw [(hoistSharedStatementsOnce_of_eq heq).1]
      exact hold
    · rw [(hoistSharedStatementsOnce_of_ne heq).1]
      have hre := reordered_hoist batched.block (regionSets labels b.params.length batched)
      have hlen : (hoistedStmts batched.block
          (regionSets labels b.params.length batched)).length = batched.block.stmts.length := by
        have hlength := hre.length
        rwa [List.length_map, length_hoistOrder] at hlength
      constructor
      · apply hre.defined
        · intro s _ u hu
          exact operands_remapStmtOperands hu
        · intro q s hs v hv hbase
          obtain ⟨p, rfl⟩ : ∃ p, v = batched.block.params.length + p :=
            ⟨v - batched.block.params.length, by omega⟩
          have hq : q < batched.block.stmts.length := by
            rw [← IRBlock.length_kinds]
            exact (List.getElem?_eq_some_iff.mp hs).1
          have hlt := Ssa.operands_lt_of_getElem hold.1 hs _ hv
          rw [remapped_hoistRemap_add hq, remapped_hoistRemap_add (by omega)]
          rw [hparams] at hv
          exact Nat.add_lt_add_left (h.before hwf.1 hlabelled hholes hs hv) _
      · intro v hv
        rw [IRTerminator.operands_mapVars] at hv
        obtain ⟨u, hu, rfl⟩ := List.mem_map.mp hv
        have hlt := hold.2 u hu
        rw [IRBlock.varSpace] at hlt
        rw [IRBlock.varSpace]
        dsimp only
        rw [hlen]
        by_cases hp : u < batched.block.params.length
        · rw [remapped_hoistRemap_of_lt hp]
          omega
        · obtain ⟨i, rfl⟩ : ∃ i, u = batched.block.params.length + i :=
            ⟨u - batched.block.params.length, by omega⟩
          have hi : i < batched.block.stmts.length := by omega
          have hplace := (List.getElem?_eq_some_iff.mp (getElem?_hoistPlace
            (regionSets labels b.params.length batched) hi)).1
          rw [length_hoistOrder] at hplace
          rw [remapped_hoistRemap_add hi]
          omega

end
end VolarIR.Ir
