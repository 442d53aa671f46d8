import VolarIR.Ir.Batch

/-!
# Hoisting shared statements

`hoist_shared_statements` of `volar-ir-opt/src/ir.rs`: the statements that serve no single
region move to the leading group, and each region keeps the rest in its order. Before it, the
caller gives every statement of a batched block its regions.
-/
namespace VolarIR.Ir

def regionSet (regions : List ℕ) : List ℕ := regions.dedup.insertionSort (· ≤ ·)

/-- A statement that was made up serves the regions of its members, one that was there serves
the region it had. -/
def regionSets {P : Type} (labels : List ℕ) (nParams : ℕ) (batched : Batched P) :
    List (List ℕ) :=
  (List.range batched.block.stmts.length).map fun j =>
    match batched.newVarMembers.lookup (nParams + j) with
    | some members => regionSet (members.map fun v => labels.getD (v - nParams) 0)
    | none => regionSet (((List.range labels.length).filter fun i =>
        remapped batched.remap (nParams + i) = nParams + j).map fun i => labels.getD i 0)

section
variable (regionSets : List (List ℕ))

/-- The group of a statement: its region if it has only one. -/
def groupKey (i : ℕ) : ℕ :=
  match regionSets.getD i [] with
  | [region] => region
  | _ => 0

def rankGroup (ranks : List (ℕ × ℕ)) (i : ℕ) : List (ℕ × ℕ) :=
  match ranks.lookup (groupKey regionSets i) with
  | some _ => ranks
  | none => (groupKey regionSets i, ranks.length) :: ranks

def groupRanks (n : ℕ) : List (ℕ × ℕ) := (List.range n).foldl (rankGroup regionSets) [(0, 0)]

def groupRank (n i : ℕ) : ℕ := ((groupRanks regionSets n).lookup (groupKey regionSets i)).getD 0

/-- `new_order`. -/
def hoistOrder (n : ℕ) : List ℕ :=
  SortByKey.sortByKey (fun i => toLex (groupRank regionSets n i, i)) (List.range n)

/-- The range of new vars of each group: its start and its end. -/
def regionRanges (nParams : ℕ) (order : List ℕ) : SortedMap ℕ (ℕ × ℕ) :=
  order.zipIdx.foldl (fun (ranges : SortedMap ℕ (ℕ × ℕ)) e =>
      ranges.upsert (groupKey regionSets e.1) fun old =>
        match old with
        | some range => (range.1, nParams + e.2 + 1)
        | none => (nParams + e.2, nParams + e.2 + 1))
    .empty

end

structure Hoisted (P : Type) where
  block : IRBlock P
  changed : Bool
  remap : List ℕ
  regionRanges : SortedMap ℕ (ℕ × ℕ)

/-- `hoist_shared_statements_once`. -/
def hoistSharedStatementsOnce {P : Type} (block : IRBlock P) (regionSets : List (List ℕ)) :
    Hoisted P :=
  let nParams := block.params.length
  let n := block.stmts.length
  let order := hoistOrder regionSets n
  let ranges := regionRanges regionSets nParams order
  if order = List.range n then ⟨block, false, List.range (nParams + n), ranges⟩
  else
    let remap := List.range nParams ++ (List.range n).map fun i => nParams + order.idxOf i
    let stmts := order.filterMap fun i => block.stmts[i]?.map fun node =>
      { node with kind := remapStmtOperands remap node.kind }
    ⟨⟨block.params, stmts, block.terminator.mapVars (remapped remap)⟩, true, remap, ranges⟩

section
variable {regionSets : List (List ℕ)} {n : ℕ}

theorem perm_hoistOrder : (hoistOrder regionSets n).Perm (List.range n) :=
  SortByKey.perm_sortByKey _

theorem length_hoistOrder : (hoistOrder regionSets n).length = n := by
  rw [perm_hoistOrder.length_eq, List.length_range]

theorem nodup_hoistOrder : (hoistOrder regionSets n).Nodup :=
  perm_hoistOrder.nodup_iff.mpr List.nodup_range

theorem mem_hoistOrder {i : ℕ} : i ∈ hoistOrder regionSets n ↔ i < n := by
  rw [perm_hoistOrder.mem_iff, List.mem_range]

theorem place_hoistOrder_lt {k l i j : ℕ} (hk : (hoistOrder regionSets n)[k]? = some i)
    (hl : (hoistOrder regionSets n)[l]? = some j) :
    k < l ↔ toLex (groupRank regionSets n i, i) < toLex (groupRank regionSets n j, j) := by
  have hkeys : ((List.range n).map fun i => toLex (groupRank regionSets n i, i)).Nodup := by
    apply List.Nodup.map _ List.nodup_range
    intro a b hab
    exact (Prod.mk.inj (toLex.injective hab)).2
  have hsorted := List.pairwise_iff_getElem.mp (SortByKey.pairwise_lt_sortByKey hkeys)
  obtain ⟨hklt, rfl⟩ := List.getElem?_eq_some_iff.mp hk
  obtain ⟨hllt, rfl⟩ := List.getElem?_eq_some_iff.mp hl
  constructor
  · exact hsorted k l hklt hllt
  · intro h
    by_contra hle
    rcases Nat.lt_or_eq_of_le (Nat.le_of_not_lt hle) with hlt | rfl
    · exact absurd h (hsorted l k hllt hklt hlt).not_gt
    · exact lt_irrefl _ h

theorem groupRanks_succ : groupRanks regionSets (n + 1) =
    rankGroup regionSets (groupRanks regionSets n) n := by
  rw [groupRanks, List.range_succ, List.foldl_append]
  rfl

structure Ranked (ranks : List (ℕ × ℕ)) : Prop where
  lead : ranks.lookup 0 = some 0
  lt : ∀ g r, ranks.lookup g = some r → r < ranks.length
  inj : ∀ g g' r, ranks.lookup g = some r → ranks.lookup g' = some r → g = g'

theorem Ranked.rankGroup {ranks : List (ℕ × ℕ)} (h : Ranked ranks) (i : ℕ) :
    Ranked (rankGroup regionSets ranks i) := by
  unfold Ir.rankGroup
  split
  case h_1 => exact h
  case h_2 hnone =>
    have hne : 0 ≠ groupKey regionSets i := by
      intro heq
      rw [← heq, h.lead] at hnone
      cases hnone
    constructor
    · rw [List.lookup_cons, beq_eq_false_iff_ne.mpr hne]
      exact h.lead
    · intro g r hr
      rw [List.lookup_cons] at hr
      rw [List.length_cons]
      split at hr
      case h_1 => rw [← Option.some.inj hr]; exact Nat.lt_succ_self _
      case h_2 => exact Nat.lt_succ_of_lt (h.lt g r hr)
    · intro g g' r hr hr'
      rw [List.lookup_cons] at hr hr'
      split at hr
      case h_1 heq =>
        split at hr'
        case h_1 heq' => rw [eq_of_beq heq, eq_of_beq heq']
        case h_2 =>
          have hlt := h.lt g' r hr'
          rw [← Option.some.inj hr] at hlt
          exact absurd hlt (lt_irrefl _)
      case h_2 =>
        split at hr'
        case h_1 =>
          have hlt := h.lt g r hr
          rw [← Option.some.inj hr'] at hlt
          exact absurd hlt (lt_irrefl _)
        case h_2 => exact h.inj g g' r hr hr'

theorem ranked_groupRanks (n : ℕ) : Ranked (groupRanks regionSets n) := by
  induction n with
  | zero =>
      constructor
      · rfl
      · intro g r hr
        rw [groupRanks, List.range_zero, List.foldl_nil, List.lookup_cons] at hr
        split at hr
        · rw [← Option.some.inj hr]
          exact Nat.one_pos
        · cases hr
      · intro g g' r hr hr'
        rw [groupRanks, List.range_zero, List.foldl_nil, List.lookup_cons] at hr hr'
        split at hr
        case h_1 heq =>
          split at hr'
          case h_1 heq' => rw [eq_of_beq heq, eq_of_beq heq']
          case h_2 => cases hr'
        case h_2 => cases hr
  | succ n ih => rw [groupRanks_succ]; exact ih.rankGroup n

theorem lookup_groupRanks_mono {m : ℕ} (hmn : m ≤ n) {g r : ℕ}
    (h : (groupRanks regionSets m).lookup g = some r) :
    (groupRanks regionSets n).lookup g = some r := by
  induction hmn with
  | refl => exact h
  | @step n _ ih =>
      rw [groupRanks_succ, rankGroup]
      split
      case h_1 => exact ih
      case h_2 hnone =>
        have hne : g ≠ groupKey regionSets n := by
          intro heq
          rw [← heq, ih] at hnone
          cases hnone
        rw [List.lookup_cons, beq_eq_false_iff_ne.mpr hne]
        exact ih

theorem length_groupRanks_mono {m : ℕ} (hmn : m ≤ n) :
    (groupRanks regionSets m).length ≤ (groupRanks regionSets n).length := by
  induction hmn with
  | refl => exact le_rfl
  | @step n _ ih =>
      rw [groupRanks_succ, rankGroup]
      split
      · exact ih
      · exact ih.trans (Nat.le_succ _)

theorem lookup_groupRanks_eq_none {g : ℕ} (hg : g ≠ 0)
    (h : ∀ i < n, groupKey regionSets i ≠ g) : (groupRanks regionSets n).lookup g = none := by
  induction n with
  | zero =>
      rw [groupRanks, List.range_zero, List.foldl_nil, List.lookup_cons,
        beq_eq_false_iff_ne.mpr hg]
      rfl
  | succ n ih =>
      have hbefore := ih fun i hi => h i (Nat.lt_succ_of_lt hi)
      rw [groupRanks_succ, rankGroup]
      split
      · exact hbefore
      · rw [List.lookup_cons, beq_eq_false_iff_ne.mpr (h n (Nat.lt_succ_self n)).symm]
        exact hbefore

theorem exists_lookup_groupRanks (regionSets : List (List ℕ)) (i : ℕ) :
    ∃ r, (groupRanks regionSets (i + 1)).lookup (groupKey regionSets i) = some r := by
  rw [groupRanks_succ, rankGroup]
  split
  case h_1 r hr => exact ⟨r, hr⟩
  case h_2 =>
    refine ⟨(groupRanks regionSets i).length, ?_⟩
    rw [List.lookup_cons, beq_self_eq_true]

theorem groupRank_of_lead {i : ℕ} (h : groupKey regionSets i = 0) :
    groupRank regionSets n i = 0 := by
  rw [groupRank, h, (ranked_groupRanks n).lead]
  rfl

theorem groupRank_inj {i j : ℕ} (hi : i < n) (hj : j < n) :
    groupRank regionSets n i = groupRank regionSets n j ↔
      groupKey regionSets i = groupKey regionSets j := by
  obtain ⟨r, hr⟩ := exists_lookup_groupRanks regionSets i
  obtain ⟨r', hr'⟩ := exists_lookup_groupRanks regionSets j
  have hri := lookup_groupRanks_mono (n := n) hi hr
  have hrj := lookup_groupRanks_mono (n := n) hj hr'
  constructor
  · intro h
    rw [groupRank, groupRank, hri, hrj, Option.getD_some, Option.getD_some] at h
    rw [← h] at hrj
    exact (ranked_groupRanks n).inj _ _ r hri hrj
  · intro h
    rw [groupRank, groupRank, h]

theorem groupRank_lt {i j : ℕ} (hij : i < j) (hj : j < n) (hlead : groupKey regionSets j ≠ 0)
    (hnew : ∀ k ≤ i, groupKey regionSets k ≠ groupKey regionSets j) :
    groupRank regionSets n i < groupRank regionSets n j := by
  obtain ⟨r, hr⟩ := exists_lookup_groupRanks regionSets i
  obtain ⟨r', hr'⟩ := exists_lookup_groupRanks regionSets j
  have hlt := (ranked_groupRanks (i + 1)).lt _ r hr
  have hri := lookup_groupRanks_mono (n := n) (hij.trans hj) hr
  have hrj := lookup_groupRanks_mono (n := n) hj hr'
  have hnone := lookup_groupRanks_eq_none (n := i + 1) hlead fun k hk =>
    hnew k (Nat.le_of_lt_succ hk)
  -- what is ranked after the first `i + 1` statements is ranked behind all that came before
  have hlate : ∀ m, (groupRanks regionSets (i + 1 + m)).lookup (groupKey regionSets j) = none ∨
      ∃ s, (groupRanks regionSets (i + 1 + m)).lookup (groupKey regionSets j) = some s ∧
        (groupRanks regionSets (i + 1)).length ≤ s := by
    intro m
    induction m with
    | zero => exact Or.inl hnone
    | succ m ih =>
        rw [← Nat.add_assoc, groupRanks_succ, rankGroup]
        split
        case h_1 => exact ih
        case h_2 =>
          rw [List.lookup_cons]
          split
          case h_1 =>
            exact Or.inr ⟨_, rfl, length_groupRanks_mono (Nat.le_add_right _ _)⟩
          case h_2 => exact ih
  obtain ⟨m, rfl⟩ : ∃ m, n = i + 1 + m := ⟨n - (i + 1), by omega⟩
  rw [groupRank, groupRank, hri, hrj, Option.getD_some, Option.getD_some]
  cases hlate m with
  | inl hmissing =>
      rw [hrj] at hmissing
      cases hmissing
  | inr hthere =>
      obtain ⟨s, hs, hle⟩ := hthere
      rw [hrj] at hs
      cases hs
      exact hlt.trans_le hle

end
end VolarIR.Ir
