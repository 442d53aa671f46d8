import VolarIR.Ir.Batch

/-!
# Batching: the groups

What the search keeps of each group: its members ascend from the template, are one-bit
polynomials of one type and one region, and have one canonical form, so that they share every
var but their holes. The groups taken are disjoint, and every hole is there before the first
member.
-/
namespace VolarIR.Ir

theorem mem_polyVars {coeffs : PolyCoeffs} {v : ℕ} :
    v ∈ polyVars coeffs ↔ ∃ e ∈ coeffs.entries, v ∈ e.1 := by
  rw [polyVars, List.mem_insertionSort, List.mem_dedup, List.mem_flatMap]

def canonOf (kinds : List IRStmt) (batch : PolyBatch) : PolyCoeffs :=
  substituteVar ((templateCoeffs kinds batch.templateIdx).getD .empty) batch.holeVarInTemplate
    polyBatchSentinel

section
variable (regionOf : Option (List ℕ)) (table : TypeTable) (kinds : List IRStmt)

structure FitsForm (ty : TypeId) (form : PolyCoeffs) (m : ℕ × ℕ) (coeffs : PolyCoeffs) :
    Prop where
  stmt : ∃ c, kinds[m.1]? = some (.poly ty coeffs c)
  width : table.valueBitWidth ty = some 1
  hole : m.2 ∈ polyVars coeffs
  form : substituteVar coeffs m.2 polyBatchSentinel = form

/-- A group among the first `k` statements. -/
structure GroupFits (k : ℕ) (batch : PolyBatch) : Prop where
  template : ∃ rest, batch.members = (batch.templateIdx, batch.holeVarInTemplate) :: rest
  ascending : (batch.members.map Prod.fst).Pairwise (· < ·)
  lt : ∀ m ∈ batch.members, m.1 < k
  member : ∀ m ∈ batch.members, ∃ coeffs,
    FitsForm table kinds batch.ty (canonOf kinds batch) m coeffs

def OneRegion (batch : PolyBatch) : Prop :=
  ∀ m ∈ batch.members, regionAt regionOf m.1 = regionAt regionOf batch.templateIdx

/-- The state of the search after `k` statements. -/
structure Discovered (k : ℕ) (found : Discovery) : Prop where
  group : ∀ batch ∈ found.batches, GroupFits table kinds k batch
  region : ∀ batch ∈ found.batches, OneRegion regionOf batch
  canon : ∀ e ∈ found.canonMap, ∃ batch, found.batches[e.2]? = some batch ∧
    regionAt regionOf batch.templateIdx = e.1.1 ∧ e.1.2 = (batch.ty, canonOf kinds batch)

end

section
variable {regionOf : Option (List ℕ)} {table : TypeTable} {kinds : List IRStmt}

theorem GroupFits.mono {k l : ℕ} (hkl : k ≤ l) {batch : PolyBatch}
    (h : GroupFits table kinds k batch) : GroupFits table kinds l batch :=
  { h with lt := fun m hm => (h.lt m hm).trans_le hkl }

theorem Discovered.mono {k l : ℕ} (hkl : k ≤ l) {found : Discovery}
    (h : Discovered regionOf table kinds k found) :
    Discovered regionOf table kinds l found :=
  { h with group := fun batch hbatch => (h.group batch hbatch).mono hkl }

theorem GroupFits.join {i hole : ℕ} {batch : PolyBatch} {coeffs : PolyCoeffs}
    (h : GroupFits table kinds i batch)
    (hfits : FitsForm table kinds batch.ty (canonOf kinds batch) (i, hole) coeffs) :
    GroupFits table kinds (i + 1) { batch with members := batch.members ++ [(i, hole)] } where
  template := by
    obtain ⟨rest, hrest⟩ := h.template
    exact ⟨rest ++ [(i, hole)], by rw [hrest, List.cons_append]⟩
  ascending := by
    rw [List.map_append, List.pairwise_append]
    refine ⟨h.ascending, List.pairwise_singleton _ _, ?_⟩
    intro a ha b hb
    obtain ⟨m, hm, rfl⟩ := List.mem_map.mp ha
    rw [List.map_singleton, List.mem_singleton] at hb
    rw [hb]
    exact h.lt m hm
  lt := by
    intro m hm
    rcases List.mem_append.mp hm with hold | hnew
    · exact Nat.lt_succ_of_lt (h.lt m hold)
    · rw [List.mem_singleton.mp hnew]
      exact Nat.lt_succ_self i
  member := by
    intro m hm
    rcases List.mem_append.mp hm with hold | hnew
    · exact h.member m hold
    · rw [List.mem_singleton.mp hnew]
      exact ⟨coeffs, hfits⟩

theorem Discovered.join {i bi hole region : ℕ} {ty : TypeId} {coeffs : PolyCoeffs}
    {c : Constant} {found : Discovery} (h : Discovered regionOf table kinds i found)
    (hstmt : kinds[i]? = some (.poly ty coeffs c)) (hwidth : table.valueBitWidth ty = some 1)
    (hregion : regionAt regionOf i = region) (hhole : hole ∈ polyVars coeffs)
    (hbi : found.canonMap.lookup (region, ty, substituteVar coeffs hole polyBatchSentinel) =
      some bi) :
    Discovered regionOf table kinds (i + 1)
      { found with batches := found.batches.modify bi fun batch =>
        { batch with members := batch.members ++ [(i, hole)] } } := by
  obtain ⟨before, after, heq, -⟩ := List.lookup_eq_some_iff.mp hbi
  have hentry : ((region, ty, substituteVar coeffs hole polyBatchSentinel), bi) ∈
      found.canonMap := by
    rw [heq]
    exact List.mem_append_right _ List.mem_cons_self
  obtain ⟨batch, hbatch, hlead, hkey⟩ := h.canon _ hentry
  obtain ⟨hty, hform⟩ := Prod.mk.inj hkey
  have hfits : FitsForm table kinds batch.ty (canonOf kinds batch) (i, hole) coeffs :=
    ⟨⟨c, hty ▸ hstmt⟩, hty ▸ hwidth, hhole, hform⟩
  have hmem := List.mem_of_getElem? hbatch
  have hjoined := (h.group batch hmem).join hfits
  have hsame : OneRegion regionOf { batch with members := batch.members ++ [(i, hole)] } := by
    intro m hm
    rcases List.mem_append.mp hm with hold | hnew
    · exact h.region batch hmem m hold
    · rw [List.mem_singleton.mp hnew]
      exact hregion.trans hlead.symm
  have hcases : ∀ b ∈ found.batches.modify bi fun batch =>
      { batch with members := batch.members ++ [(i, hole)] },
      b ∈ found.batches ∨ b = { batch with members := batch.members ++ [(i, hole)] } := by
    intro b hb
    obtain ⟨j, hj⟩ := List.mem_iff_getElem?.mp hb
    rw [List.getElem?_modify] at hj
    obtain ⟨old, hold, hnew⟩ := Option.map_eq_some_iff.mp hj
    by_cases hplace : bi = j
    · subst hplace
      rw [hbatch] at hold
      cases hold
      rw [if_pos rfl] at hnew
      exact Or.inr hnew.symm
    · rw [if_neg hplace] at hnew
      exact Or.inl (hnew ▸ List.mem_of_getElem? hold)
  constructor
  · intro b hb
    rcases hcases b hb with hold | rfl
    · exact (h.group b hold).mono (Nat.le_succ i)
    · exact hjoined
  · intro b hb
    rcases hcases b hb with hold | rfl
    · exact h.region b hold
    · exact hsame
  · intro e he
    obtain ⟨old, hold, hkey'⟩ := h.canon e he
    rw [List.getElem?_modify, hold]
    by_cases hplace : bi = e.2
    · refine ⟨_, rfl, ?_⟩
      dsimp only
      rw [if_pos hplace]
      exact hkey'
    · refine ⟨_, rfl, ?_⟩
      dsimp only
      rw [if_neg hplace]
      exact hkey'

/-- A polynomial that no group takes opens one for a choice of its hole. -/
theorem Discovered.openHole {i hole region : ℕ} {ty : TypeId} {coeffs : PolyCoeffs}
    {c : Constant} {found : Discovery}
    (h : Discovered regionOf table kinds (i + 1) found)
    (hstmt : kinds[i]? = some (.poly ty coeffs c)) (hwidth : table.valueBitWidth ty = some 1)
    (hregion : regionAt regionOf i = region) (hhole : hole ∈ polyVars coeffs) :
    Discovered regionOf table kinds (i + 1)
      (openBatch region ty coeffs i found hole) := by
  unfold openBatch
  dsimp only
  split
  case h_1 => exact h
  case h_2 =>
    have hcanon : canonOf kinds ⟨ty, i, hole, [(i, hole)]⟩ =
        substituteVar coeffs hole polyBatchSentinel := by
      rw [canonOf, templateCoeffs, hstmt]
      rfl
    constructor
    · intro batch hbatch
      rcases List.mem_append.mp hbatch with hold | hnew
      · exact h.group batch hold
      · rw [List.mem_singleton.mp hnew]
        refine ⟨⟨[], rfl⟩, List.pairwise_singleton _ _, ?_, ?_⟩
        · intro m hm
          rw [List.mem_singleton.mp hm]
          exact Nat.lt_succ_self i
        · intro m hm
          rw [List.mem_singleton.mp hm, hcanon]
          exact ⟨coeffs, ⟨c, hstmt⟩, hwidth, hhole, rfl⟩
    · intro batch hbatch
      rcases List.mem_append.mp hbatch with hold | hnew
      · exact h.region batch hold
      · rw [List.mem_singleton.mp hnew]
        intro m hm
        rw [List.mem_singleton.mp hm]
    · intro e he
      rcases List.mem_cons.mp he with rfl | hold
      · exact ⟨_, List.getElem?_concat_length, hregion, by rw [hcanon]⟩
      · obtain ⟨old, hget, hkey⟩ := h.canon e hold
        refine ⟨old, ?_, hkey⟩
        rw [List.getElem?_append_left (List.getElem?_eq_some_iff.mp hget).1]
        exact hget

theorem Discovered.step {i : ℕ} {s : IRStmt} {found : Discovery}
    (h : Discovered regionOf table kinds i found) (hs : kinds[i]? = some s) :
    Discovered regionOf table kinds (i + 1) (discoverStmt regionOf table kinds found i s) := by
  have hlater := h.mono (Nat.le_succ i)
  cases s with
  | poly ty coeffs c =>
      rw [discoverStmt]
      split
      case isTrue hbit =>
        simp only [batchable, Bool.and_eq_true, decide_eq_true_iff] at hbit
        split
        case h_1 bi hole hjoin =>
          obtain ⟨v, hv, hmatch⟩ := List.exists_of_findSome?_eq_some hjoin
          obtain ⟨bi', hbi, hmatch⟩ := Option.bind_eq_some_iff.mp hmatch
          obtain ⟨batch, _, hmatch⟩ := Option.bind_eq_some_iff.mp hmatch
          obtain ⟨template, _, hmatch⟩ := Option.bind_eq_some_iff.mp hmatch
          split at hmatch
          case isTrue =>
            cases hmatch
            exact h.join hs hbit.1 rfl hv hbi
          case isFalse => cases hmatch
        case h_2 =>
          have hall : ∀ (vars : List ℕ) (st : Discovery), (∀ v ∈ vars, v ∈ polyVars coeffs) →
              Discovered regionOf table kinds (i + 1) st →
              Discovered regionOf table kinds (i + 1)
                (vars.foldl (openBatch (regionAt regionOf i) ty coeffs i) st) := by
            intro vars
            induction vars with
            | nil => exact fun st _ hst => hst
            | cons v rest ih =>
                intro st hvars hst
                exact ih _ (fun w hw => hvars w (List.mem_cons_of_mem v hw))
                  (hst.openHole hs hbit.1 rfl (hvars v List.mem_cons_self))
          exact hall _ found (fun v hv => hv) hlater
      case isFalse => exact hlater
  | _ => exact hlater

theorem groupFits_discoverBatches : ∀ batch ∈ discoverBatches regionOf table kinds,
    GroupFits table kinds kinds.length batch ∧ OneRegion regionOf batch := by
  have hall : ∀ (rest pre : List IRStmt) (st : Discovery), pre ++ rest = kinds →
      Discovered regionOf table kinds pre.length st →
      Discovered regionOf table kinds kinds.length ((rest.zipIdx pre.length).foldl
        (fun found e => discoverStmt regionOf table kinds found e.2 e.1) st) := by
    intro rest
    induction rest with
    | nil =>
        intro pre st hsplit hst
        rw [← hsplit, List.append_nil] at hst ⊢
        exact hst
    | cons s rest ih =>
        intro pre st hsplit hst
        have hs : kinds[pre.length]? = some s := by
          rw [← hsplit, List.getElem?_append_right le_rfl, Nat.sub_self]
          rfl
        have hlen : (pre ++ [s]).length = pre.length + 1 := List.length_append
        have hrest := ih (pre ++ [s]) (discoverStmt regionOf table kinds st pre.length s)
          (by rw [← hsplit, List.append_assoc]; rfl) (hlen ▸ hst.step hs)
        rw [hlen] at hrest
        exact hrest
  have hend := hall kinds [] ⟨[], []⟩ rfl ⟨by simp, by simp, by simp⟩
  exact fun batch hbatch => ⟨hend.group batch hbatch, hend.region batch hbatch⟩

variable {nParams : ℕ}

structure GroupReady (table : TypeTable) (nParams : ℕ) (kinds : List IRStmt)
    (batch : PolyBatch) : Prop extends GroupFits table kinds kinds.length batch where
  inTime : ∀ m ∈ batch.members, m.2 < nParams ∨ m.2 - nParams < batch.templateIdx

theorem GroupFits.min_members {k : ℕ} {batch : PolyBatch} (h : GroupFits table kinds k batch) :
    (batch.members.map Prod.fst).min? = some batch.templateIdx := by
  obtain ⟨rest, hrest⟩ := h.template
  have hascending := h.ascending
  rw [hrest, List.map_cons, List.pairwise_cons] at hascending
  rw [List.min?_eq_some_iff, hrest, List.map_cons]
  refine ⟨List.mem_cons_self, ?_⟩
  intro idx hidx
  rcases List.mem_cons.mp hidx with rfl | hmem
  · exact le_rfl
  · exact (hascending.1 idx hmem).le

theorem GroupFits.enforceOrder (hdefined : Ssa.Defined IRStmt.operands nParams kinds)
    {batch : PolyBatch} (h : GroupFits table kinds kinds.length batch) :
    GroupReady table nParams kinds (enforceOrder nParams batch) := by
  obtain ⟨rest, hrest⟩ := h.template
  have hmembers : ∀ m, m ∈ (Ir.enforceOrder nParams batch).members ↔ m ∈ batch.members ∧
      (m.2 < nParams ∨ m.2 - nParams < batch.templateIdx) := by
    intro m
    rw [Ir.enforceOrder, h.min_members]
    simp
  have hhead : batch.holeVarInTemplate < nParams ∨
      batch.holeVarInTemplate - nParams < batch.templateIdx := by
    obtain ⟨coeffs, hfits⟩ := h.member (batch.templateIdx, batch.holeVarInTemplate)
      (by rw [hrest]; exact List.mem_cons_self)
    obtain ⟨c, hstmt⟩ := hfits.stmt
    obtain ⟨e, he, hv⟩ := mem_polyVars.mp hfits.hole
    have hlt := Ssa.operands_lt_of_getElem hdefined hstmt batch.holeVarInTemplate
      (List.mem_flatMap.mpr ⟨e, he, hv⟩)
    dsimp only at hlt
    omega
  constructor
  · constructor
    · refine ⟨rest.filter fun m => decide (m.2 < nParams) ||
        decide (m.2 - nParams < batch.templateIdx), ?_⟩
      rw [Ir.enforceOrder, h.min_members]
      simp only [Option.getD_some, hrest]
      rw [List.filter_cons_of_pos (by simpa using hhead)]
    · exact h.ascending.sublist (List.filter_sublist.map _)
    · exact fun m hm => h.lt m ((hmembers m).mp hm).1
    · exact fun m hm => h.member m ((hmembers m).mp hm).1
  · exact fun m hm => ((hmembers m).mp hm).2

def MembersApart (accepted : List PolyBatch) : Prop :=
  accepted.Pairwise fun a b => ∀ m ∈ a.members, ∀ m' ∈ b.members, m.1 ≠ m'.1

structure GroupsReady (table : TypeTable) (nParams : ℕ) (kinds : List IRStmt)
    (accepted : List PolyBatch) : Prop where
  group : ∀ batch ∈ accepted, GroupReady table nParams kinds batch
  several : ∀ batch ∈ accepted, 2 ≤ batch.members.length ∧ batch.members.length ≤ 64
  disjoint : MembersApart accepted

theorem GroupsReady.accept {candidates : List PolyBatch}
    (hready : ∀ batch ∈ candidates, GroupReady table nParams kinds batch) {st : Acceptance}
    (h : GroupsReady table nParams kinds st.accepted)
    (hclaimed : ∀ batch ∈ st.accepted, ∀ m ∈ batch.members, m.1 ∈ st.claimed) :
    GroupsReady table nParams kinds (candidates.foldl acceptBatch st).accepted := by
  induction candidates generalizing st with
  | nil => exact h
  | cons batch rest ih =>
      have hrest := fun b hb => hready b (List.mem_cons_of_mem batch hb)
      rw [List.foldl_cons, acceptBatch]
      split
      case isTrue => exact ih hrest h hclaimed
      case isFalse hlen =>
        split
        case isTrue => exact ih hrest h hclaimed
        case isFalse hfree =>
          have hnew : ∀ m ∈ batch.members, m.1 ∉ st.claimed := by
            intro m hm hin
            exact hfree (List.any_eq_true.mpr ⟨m, hm, decide_eq_true hin⟩)
          apply ih hrest
          · constructor
            · intro b hb
              rcases List.mem_append.mp hb with hold | hnew'
              · exact h.group b hold
              · rw [List.mem_singleton.mp hnew']
                exact hready batch List.mem_cons_self
            · intro b hb
              rcases List.mem_append.mp hb with hold | hnew'
              · exact h.several b hold
              · rw [List.mem_singleton.mp hnew']
                omega
            · rw [MembersApart, List.pairwise_append]
              refine ⟨h.disjoint, List.pairwise_singleton _ _, ?_⟩
              intro a ha b hb m hm m' hm' heq
              rw [List.mem_singleton.mp hb] at hm'
              exact hnew m' hm' (heq ▸ hclaimed a ha m hm)
          · intro b hb m hm
            rcases List.mem_append.mp hb with hold | hnew'
            · exact List.mem_append_left _ (hclaimed b hold m hm)
            · rw [List.mem_singleton.mp hnew'] at hm
              exact List.mem_append_right _ (List.mem_map_of_mem hm)

theorem sortByKey_of_ascending {members : List (ℕ × ℕ)}
    (h : (members.map Prod.fst).Pairwise (· < ·)) :
    SortByKey.sortByKey Prod.fst members = members := by
  apply List.Pairwise.insertionSort_eq
  exact (List.pairwise_map.mp h).imp fun hab => hab.le

theorem mem_accepted {candidates : List PolyBatch} {st : Acceptance} {batch : PolyBatch}
    (h : batch ∈ (candidates.foldl acceptBatch st).accepted) :
    batch ∈ st.accepted ∨ batch ∈ candidates := by
  induction candidates generalizing st with
  | nil => exact Or.inl h
  | cons c rest ih =>
      rw [List.foldl_cons] at h
      rcases ih h with hacc | hrest
      · rw [acceptBatch] at hacc
        split_ifs at hacc
        · exact Or.inl hacc
        · exact Or.inl hacc
        · rcases List.mem_append.mp hacc with hold | hnew
          · exact Or.inl hold
          · rw [List.mem_singleton.mp hnew]
            exact Or.inr List.mem_cons_self
      · exact Or.inr (List.mem_cons_of_mem c hrest)

theorem groupsReady_acceptedBatches (hdefined : Ssa.Defined IRStmt.operands nParams kinds) :
    GroupsReady table nParams kinds (acceptedBatches regionOf table nParams kinds) ∧
      ∀ batch ∈ acceptedBatches regionOf table nParams kinds, OneRegion regionOf batch := by
  let candidates := SortByKey.sortByKey (fun batch : PolyBatch =>
    OrderDual.toDual batch.members.length) ((discoverBatches regionOf table kinds).map
      (enforceOrder nParams))
  have hcandidates : ∀ batch ∈ candidates,
      GroupReady table nParams kinds batch ∧ OneRegion regionOf batch := by
    intro batch hbatch
    rw [(SortByKey.perm_sortByKey _).mem_iff] at hbatch
    obtain ⟨old, hold, rfl⟩ := List.mem_map.mp hbatch
    obtain ⟨hfits, hregion⟩ := groupFits_discoverBatches old hold
    exact ⟨hfits.enforceOrder hdefined, fun m hm => hregion m (List.mem_of_mem_filter hm)⟩
  have haccepted : GroupsReady table nParams kinds
      (candidates.foldl acceptBatch ⟨[], []⟩).accepted :=
    GroupsReady.accept (fun batch hbatch => (hcandidates batch hbatch).1)
      ⟨by simp, by simp, List.Pairwise.nil⟩ (by simp)
  have hsame : acceptedBatches regionOf table nParams kinds =
      (candidates.foldl acceptBatch ⟨[], []⟩).accepted := by
    rw [acceptedBatches, acceptGroups]
    refine (List.map_congr_left ?_).trans (List.map_id _)
    intro batch hbatch
    rw [sortByKey_of_ascending (haccepted.group batch hbatch).ascending]
    rfl
  rw [hsame]
  refine ⟨haccepted, ?_⟩
  intro batch hbatch
  rcases mem_accepted hbatch with hnone | hin
  · simp at hnone
  · exact (hcandidates batch hin).2

end
end VolarIR.Ir
