import VolarIR.Ir.BatchSweep
import VolarIR.Ir.Hoist

/-!
# Batching: the regions of the batched block

The batched block, its table of new numbers and its report of members, changed or not, and
from them the group that each of its statements belongs to.
-/
namespace VolarIR.Ir

section
variable {P : Type} {table : TypeTable}

theorem grows_rewriteState (accepted : List PolyBatch) (b : IRBlock P) {n : ℕ}
    (hn : n ≤ b.stmts.length) : table.Grows (rewriteState table accepted b n).types := by
  induction n with
  | zero => exact table.grows_intern _
  | succ n ih =>
      have hnode : b.stmts[n]? = some b.stmts[n] := List.getElem?_eq_getElem (by omega)
      rw [rewriteState_succ hnode, rewriteStmt_eq]
      cases accepted.find? fun batch => batch.minIdx = n with
      | none => exact ih (by omega)
      | some batch => exact (ih (by omega)).trans (TypeTable.grows_intern _ _)

theorem origins_nil (n : ℕ) : origins [] n = (List.range n).map Origin.kept := by
  induction n with
  | zero => rfl
  | succ n ih =>
      rw [origins_succ_of_not_mem (by simp), ih, List.range_succ, List.map_append]
      rfl

theorem movedVar_nil {n nParams v : ℕ} (hv : v < nParams + n) : movedVar [] n nParams v = v := by
  rw [movedVar]
  split_ifs with hp
  · rfl
  · have hplace : (origins [] n)[v - nParams]? = some (.kept (v - nParams)) := by
      rw [origins_nil, List.getElem?_map, List.getElem?_range (by omega)]
      rfl
    rw [originVar, place_of_getElem? hplace]
    omega

/-- The batched block, statement by statement, and what is reported with it. -/
structure BatchLaid (table : TypeTable) (b : IRBlock P) (accepted : List PolyBatch)
    (batched : Batched P) : Prop where
  ready : GroupsReady table b.params.length b.kinds accepted
  params : batched.block.params = b.params
  made : List.Forall₂ (Made b.kinds accepted b.params.length batched.types)
    (origins accepted b.kinds.length) batched.block.kinds
  remap : ∀ v < b.varSpace,
    remapped batched.remap v = movedVar accepted b.kinds.length b.params.length v
  terminator : batched.block.terminator =
    b.terminator.mapVars (movedVar accepted b.kinds.length b.params.length)
  kept : ∀ i < b.kinds.length, batched.newVarMembers.lookup
    (originVar accepted b.kinds.length b.params.length (.kept i)) = none
  members : ∀ batch ∈ accepted, ∀ o, o = .merge batch.minIdx ∨ o = .wide batch.minIdx →
    batched.newVarMembers.lookup (originVar accepted b.kinds.length b.params.length o) =
      some (batch.members.map fun m => b.params.length + m.1)
  grows : table.Grows batched.types

theorem IRTerminator.mapVars_congr {g g' : ℕ → ℕ} {t : IRTerminator}
    (h : ∀ v ∈ t.operands, g v = g' v) : t.mapVars g = t.mapVars g' := by
  have htarget : ∀ {t : IRBranchTarget}, (∀ v ∈ t.operands, g v = g' v) →
      t.mapVars g = t.mapVars g' := by
    intro t h
    obtain ⟨dest, args⟩ := t
    cases dest with
    | dyn v =>
        simp only [IRBranchTarget.operands, List.forall_mem_cons] at h
        simp only [IRBranchTarget.mapVars, h.1, List.map_congr_left h.2]
    | block target => exact congrArg (IRBranchTarget.mk (.block target)) (List.map_congr_left h)
    | ret => exact congrArg (IRBranchTarget.mk .ret) (List.map_congr_left h)
  cases t with
  | jmp t => exact congrArg jmp (htarget h)
  | jumpCond condition t e =>
      simp only [operands, List.cons_append, List.forall_mem_cons, List.forall_mem_append] at h
      simp only [mapVars, h.1, htarget h.2.1, htarget h.2.2]
  | jumpTable index cases =>
      simp only [operands, List.forall_mem_cons] at h
      have hcases : cases.mapValues (IRBranchTarget.mapVars g) =
          cases.mapValues (IRBranchTarget.mapVars g') := by
        apply SortedMap.ext
        rw [SortedMap.entries_mapValues, SortedMap.entries_mapValues]
        apply List.map_congr_left
        intro e he
        rw [htarget fun v hv => h.2 v (List.mem_flatMap.mpr ⟨e, he, hv⟩)]
      simp only [mapVars, h.1, hcases]

theorem batchLaid_rewriteGroups {b : IRBlock P} {accepted : List PolyBatch}
    (hwf : b.WellFormed) (hsorted : ∀ s ∈ b.kinds, MonomialsSorted s)
        (hspace : b.varSpace ≤ polyBatchSentinel)
    (hready : GroupsReady table b.params.length b.kinds accepted) :
    BatchLaid table b accepted (rewriteGroups table b accepted) := by
  have hlen : b.kinds.length = b.stmts.length := b.length_kinds
  rw [rewriteGroups]
  dsimp only
  split_ifs with hnone
  · rw [hnone] at hready ⊢
    have hsame : ∀ v < b.varSpace, movedVar [] b.kinds.length b.params.length v = v := by
      intro v hv
      apply movedVar_nil
      rw [hlen]
      exact hv
    constructor
    · exact hready
    · rfl
    · rw [origins_nil, List.forall₂_iff_get]
      refine ⟨by simp, ?_⟩
      intro i hi hi'
      change i < b.kinds.length at hi'
      have hs : b.kinds[i]? = some b.kinds[i] := List.getElem?_eq_getElem hi'
      have hself : b.kinds[i].mapVars (movedVar [] b.kinds.length b.params.length) =
          b.kinds[i] := by
        apply IRStmt.mapVars_eq_self
        intro v hv
        have hlt := Ssa.operands_lt_of_getElem hwf.1 hs v hv
        exact hsame v (by rw [IRBlock.varSpace]; omega)
      have hmade : Made b.kinds [] b.params.length table (.kept i) _ := .kept hs nofun
      rw [hself] at hmade
      simpa using hmade
    · intro v hv
      rw [hsame v hv]
      exact remapped_range
    · rw [IRTerminator.mapVars_eq_self fun v hv => hsame v (hwf.2 v hv)]
    · exact fun i _ => rfl
    · exact nofun
    · exact TypeTable.Grows.refl table
  · have hlaid : Laid b.kinds accepted b.params.length _ _
        (rewriteState table accepted b b.stmts.length) :=
      laid_rewriteState hready hwf.1 hsorted hspace le_rfl
    have hremap : ∀ v < b.varSpace, remapped (rewriteState table
        accepted b b.stmts.length).remap v = movedVar
          accepted b.kinds.length b.params.length v :=
      fun v hv => hlaid.remapped hv
    constructor
    · exact hready
    · rfl
    · rw [hlen]
      have hmade := hlaid.made
      exact hmade
    · exact hremap
    · exact IRTerminator.mapVars_congr fun v hv => hremap v (hwf.2 v hv)
    · intro i hi
      apply hlaid.kept
      rw [mem_origins_kept]
      omega
    · intro batch hbatch o ho
      apply hlaid.members batch hbatch o _ ho
      have hgroup := hready.group batch hbatch
      have hlead : batch.minIdx < b.stmts.length := by
        obtain ⟨m, hm, heq⟩ := List.mem_map.mp hgroup.minIdx_mem
        rw [← heq, ← hlen]
        exact hgroup.lt m hm
      have hmem := List.mem_map_of_mem (f := PolyBatch.minIdx) hbatch
      rcases ho with rfl | rfl
      · exact mem_origins.mpr ⟨hlead, Or.inr hmem⟩
      · exact mem_origins.mpr ⟨hlead, Or.inr hmem⟩
    · exact grows_rewriteState _ b le_rfl

theorem batchLaid_batchBlock (regionOf : Option (List ℕ)) {b : IRBlock P} (hwf : b.WellFormed)
    (hsorted : ∀ s ∈ b.kinds, MonomialsSorted s) (hspace : b.varSpace ≤ polyBatchSentinel) :
    BatchLaid table b (acceptedBatches regionOf table b.params.length b.kinds)
      (batchBlock regionOf table b) :=
  batchLaid_rewriteGroups hwf hsorted hspace (groupsReady_acceptedBatches hwf.1).1

end

def labelAt (labels : List ℕ) (i : ℕ) : ℕ := labels.getD i 0

def varLabel (labels : List ℕ) (nParams v : ℕ) : ℕ :=
  if v < nParams then 0 else labelAt labels (v - nParams)

def regionKey : List ℕ → ℕ
  | [region] => region
  | _ => 0

def groupLabel (labels : List ℕ) (batch : PolyBatch) : ℕ :=
  regionKey (regionSet (batch.members.map fun m => labelAt labels m.1))

theorem mem_regionSet {regions : List ℕ} {r : ℕ} : r ∈ regionSet regions ↔ r ∈ regions := by
  rw [regionSet, List.mem_insertionSort, List.mem_dedup]

theorem nodup_regionSet (regions : List ℕ) : (regionSet regions).Nodup := by
  rw [regionSet, List.Perm.nodup_iff (List.perm_insertionSort _ _)]
  exact List.nodup_dedup regions

theorem groupLabel_of_same {labels : List ℕ} {batch : PolyBatch} {r : ℕ}
    (hne : batch.members ≠ []) (h : ∀ m ∈ batch.members, labelAt labels m.1 = r) :
    groupLabel labels batch = r := by
  have hmem : ∀ x, x ∈ regionSet (batch.members.map fun m => labelAt labels m.1) ↔ x = r := by
    intro x
    rw [mem_regionSet, List.mem_map]
    constructor
    · intro hx
      obtain ⟨m, hm, rfl⟩ := hx
      exact h m hm
    · intro hx
      obtain ⟨m, hm⟩ := List.exists_mem_of_ne_nil _ hne
      exact ⟨m, hm, (h m hm).trans hx.symm⟩
  have hperm : (regionSet (batch.members.map fun m => labelAt labels m.1)).Perm [r] := by
    rw [List.perm_ext_iff_of_nodup (nodup_regionSet _) (List.nodup_singleton r)]
    intro x
    rw [hmem, List.mem_singleton]
  rw [groupLabel, List.perm_singleton.mp hperm]
  rfl

theorem groupLabel_of_split {labels : List ℕ} {batch : PolyBatch} {m m' : ℕ × ℕ}
    (hm : m ∈ batch.members) (hm' : m' ∈ batch.members)
    (hne : labelAt labels m.1 ≠ labelAt labels m'.1) : groupLabel labels batch = 0 := by
  have hin : ∀ {n}, n ∈ batch.members → labelAt labels n.1 ∈
      regionSet (batch.members.map fun m => labelAt labels m.1) := by
    intro n hn
    rw [mem_regionSet]
    exact List.mem_map.mpr ⟨n, hn, rfl⟩
  have h := hin hm
  have h' := hin hm'
  rw [groupLabel]
  unfold regionKey
  split
  case h_1 region heq =>
    rw [heq, List.mem_singleton] at h h'
    exact absurd (h.trans h'.symm) hne
  case h_2 => rfl

section
variable {P : Type} {table : TypeTable} {b : IRBlock P} {accepted : List PolyBatch}
  {batched : Batched P} {labels : List ℕ}

theorem BatchLaid.length (h : BatchLaid table b accepted batched) :
    batched.block.stmts.length = (origins accepted b.kinds.length).length := by
  rw [h.made.length_eq, IRBlock.length_kinds]

theorem groupKey_eq_regionKey (sets : List (List ℕ)) (j : ℕ) :
    groupKey sets j = regionKey (sets.getD j []) := rfl

theorem getD_regionSets {nParams j : ℕ} (hj : j < batched.block.stmts.length) :
    (regionSets labels nParams batched).getD j [] =
      match batched.newVarMembers.lookup (nParams + j) with
      | some members => regionSet (members.map fun v => labels.getD (v - nParams) 0)
      | none => regionSet (((List.range labels.length).filter fun i =>
          remapped batched.remap (nParams + i) = nParams + j).map fun i => labels.getD i 0) := by
  rw [regionSets, List.getD_eq_getElem?_getD, List.getElem?_map, List.getElem?_range hj]
  rfl

theorem BatchLaid.groupKey_kept (h : BatchLaid table b accepted batched)
    (hlabels : labels.length = b.stmts.length) {i j : ℕ}
    (hj : (origins accepted b.kinds.length)[j]? = some (.kept i)) :
    groupKey (regionSets labels b.params.length batched) j = labelAt labels i := by
  have hlt := (List.getElem?_eq_some_iff.mp hj).1
  have hi : i < b.kinds.length := mem_origins_kept.mp (List.mem_of_getElem? hj)
  have hvar : originVar accepted b.kinds.length b.params.length (.kept i) =
      b.params.length + j := by
    rw [originVar, place_of_getElem? hj]
  have hfilter : ((List.range labels.length).filter fun k =>
      remapped batched.remap (b.params.length + k) = b.params.length + j) = [i] := by
    have hsame : ∀ k ∈ List.range labels.length,
        decide (remapped batched.remap (b.params.length + k) = b.params.length + j) =
          decide (k = i) := by
      intro k hk
      rw [List.mem_range, hlabels] at hk
      have hkv : k < b.kinds.length := by rwa [IRBlock.length_kinds]
      rw [h.remap _ (Nat.add_lt_add_left hk _), movedVar_add, decide_eq_decide, ← hvar]
      constructor
      · intro heq
        rw [originVar, originVar, Nat.add_left_cancel_iff] at heq
        have horigin := place_inj (mem_origins_kept.mpr hkv) (mem_origins_kept.mpr hi) heq
        exact Origin.kept.inj horigin
      · intro heq
        rw [heq]
    rw [List.filter_congr hsame]
    have hrange : i < labels.length := by rwa [hlabels, ← IRBlock.length_kinds]
    apply List.perm_singleton.mp
    rw [List.perm_ext_iff_of_nodup (List.nodup_range.filter _) (List.nodup_singleton i)]
    intro k
    rw [List.mem_filter, List.mem_range, decide_eq_true_iff, List.mem_singleton]
    constructor
    · exact fun hk => hk.2
    · exact fun hk => ⟨hk ▸ hrange, hk⟩
  rw [groupKey_eq_regionKey, getD_regionSets (by rw [h.length]; exact hlt), ← hvar, h.kept i hi,
    hvar]
  dsimp only
  rw [hfilter]
  rfl

theorem BatchLaid.groupKey_made (h : BatchLaid table b accepted batched) {batch : PolyBatch}
    (hbatch : batch ∈ accepted) {o : Origin} (ho : o = .merge batch.minIdx ∨ o = .wide batch.minIdx)
    {j : ℕ} (hj : (origins accepted b.kinds.length)[j]? = some o) :
    groupKey (regionSets labels b.params.length batched) j = groupLabel labels batch := by
  have hlt := (List.getElem?_eq_some_iff.mp hj).1
  have hvar : originVar accepted b.kinds.length b.params.length o = b.params.length + j := by
    rw [originVar, place_of_getElem? hj]
  rw [groupKey_eq_regionKey, getD_regionSets (by rw [h.length]; exact hlt), ← hvar,
    h.members batch hbatch o ho]
  simp only [List.map_map, Function.comp_def, Nat.add_sub_cancel_left]
  rfl

end
end VolarIR.Ir
