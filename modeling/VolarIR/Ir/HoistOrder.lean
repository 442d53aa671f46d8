import VolarIR.Ir.BatchRegions

/-!
# Hoisting: the order

Which statement of a batched block feeds which, and what the hoisted order does with the two:
all stay in order but the holes that a group of several regions takes from one of them.
-/
namespace VolarIR.Ir

section
variable {regionSets : List (List ℕ)} {n p q : ℕ}

def hoistPlace (regionSets : List (List ℕ)) (n p : ℕ) : ℕ := (hoistOrder regionSets n).idxOf p

theorem getElem?_hoistPlace (regionSets : List (List ℕ)) (hp : p < n) :
    (hoistOrder regionSets n)[hoistPlace regionSets n p]? = some p := by
  have hmem : p ∈ hoistOrder regionSets n := mem_hoistOrder.mpr hp
  have hlt := List.idxOf_lt_length_of_mem hmem
  rw [hoistPlace, List.getElem?_eq_getElem hlt, List.getElem_idxOf hlt]

theorem hoistPlace_lt_iff (hp : p < n) (hq : q < n) :
    hoistPlace regionSets n p < hoistPlace regionSets n q ↔
      groupRank regionSets n p < groupRank regionSets n q ∨
        groupRank regionSets n p = groupRank regionSets n q ∧ p < q := by
  rw [place_hoistOrder_lt (getElem?_hoistPlace regionSets hp)
    (getElem?_hoistPlace regionSets hq),
    Prod.Lex.toLex_lt_toLex]

theorem hoistPlace_lt_of_key (hpq : p < q) (hq : q < n)
    (hkey : groupKey regionSets p = 0 ∨ groupKey regionSets p = groupKey regionSets q) :
    hoistPlace regionSets n p < hoistPlace regionSets n q := by
  have hp := hpq.trans hq
  rw [hoistPlace_lt_iff hp hq]
  rcases hkey with hlead | hsame
  · rw [groupRank_of_lead hlead]
    rcases Nat.eq_zero_or_pos (groupRank regionSets n q) with hzero | hpos
    · exact Or.inr ⟨hzero.symm, hpq⟩
    · exact Or.inl hpos
  · exact Or.inr ⟨(groupRank_inj hp hq).mpr hsame, hpq⟩

theorem hoistPlace_lt_of_lead (hp : p < n) (hq : q < n) (hlead : groupKey regionSets q = 0)
    (hregion : groupKey regionSets p ≠ 0) :
    hoistPlace regionSets n q < hoistPlace regionSets n p := by
  rw [hoistPlace_lt_iff hq hp]
  apply Or.inl
  have hne : groupRank regionSets n p ≠ groupRank regionSets n q := by
    intro heq
    rw [groupRank_inj hp hq, hlead] at heq
    exact hregion heq
  rw [groupRank_of_lead hlead] at hne ⊢
  exact Nat.pos_of_ne_zero hne

theorem hoistPlace_lt_of_new (hpq : p < q) (hq : q < n) (hlead : groupKey regionSets q ≠ 0)
    (hnew : ∀ k ≤ p, groupKey regionSets k ≠ groupKey regionSets q) :
    hoistPlace regionSets n p < hoistPlace regionSets n q := by
  rw [hoistPlace_lt_iff (hpq.trans hq) hq]
  exact Or.inl (groupRank_lt hpq hq hlead hnew)

end

/-- Region labels as a caller lays them out: each region in one piece, and every statement reads
only parameters, the leading region and its own. -/
structure Labelled {P : Type} (b : IRBlock P) (labels : List ℕ) : Prop where
  length : labels.length = b.stmts.length
  visible : ∀ e ∈ b.kinds.zipIdx, ∀ v ∈ e.1.operands,
    varLabel labels b.params.length v = 0 ∨
      varLabel labels b.params.length v = labelAt labels e.2
  contiguous : ∀ k < labels.length, ∀ j < k, ∀ i < j, labelAt labels i = labelAt labels k →
    labelAt labels j = labelAt labels k

def EffectsLead {P : Type} (b : IRBlock P) (labels : List ℕ) : Prop :=
  ∀ e ∈ b.kinds.zipIdx, ∀ e' ∈ b.kinds.zipIdx, e.1.isPure = false → e'.1.isPure = false →
    e.2 < e'.2 → labelAt labels e'.2 = 0 → labelAt labels e.2 = 0

def NoSplitHoles (labels : List ℕ) (nParams : ℕ) (accepted : List PolyBatch) : Prop :=
  ∀ batch ∈ accepted,
    (∃ m ∈ batch.members, ∃ m' ∈ batch.members, labelAt labels m.1 ≠ labelAt labels m'.1) →
    ∀ m ∈ batch.members, varLabel labels nParams m.2 = 0

instance (labels : List ℕ) (nParams : ℕ) (accepted : List PolyBatch) :
    Decidable (NoSplitHoles labels nParams accepted) :=
  inferInstanceAs (Decidable (∀ batch ∈ accepted,
    (∃ m ∈ batch.members, ∃ m' ∈ batch.members, labelAt labels m.1 ≠ labelAt labels m'.1) →
    ∀ m ∈ batch.members, varLabel labels nParams m.2 = 0))

section
variable {P : Type} {b : IRBlock P} {labels : List ℕ}

theorem Labelled.visible_of_getElem (h : Labelled b labels) {i : ℕ} {s : IRStmt}
    (hs : b.kinds[i]? = some s) {v : ℕ} (hv : v ∈ s.operands) :
    varLabel labels b.params.length v = 0 ∨
      varLabel labels b.params.length v = labelAt labels i := by
  have hmem : (s, i) ∈ b.kinds.zipIdx := by
    rw [List.mem_zipIdx_iff_getElem?]
    exact hs
  exact h.visible _ hmem v hv

theorem varLabel_add (labels : List ℕ) (nParams u : ℕ) :
    varLabel labels nParams (nParams + u) = labelAt labels u := by
  rw [varLabel, if_neg (Nat.not_lt.mpr (Nat.le_add_right _ _)), Nat.add_sub_cancel_left]

end

/-- Where an operand of a statement of the batched block comes from. -/
inductive Feeds (kinds : List IRStmt) (accepted : List PolyBatch) (nParams : ℕ) :
    Origin → Origin → Prop
  | stmt {u i : ℕ} {s : IRStmt} (stmt : kinds[i]? = some s) (operand : nParams + u ∈ s.operands) :
      Feeds kinds accepted nParams (.kept u) (.kept i)
  | lane {batch : PolyBatch} {i : ℕ} (mem : batch ∈ accepted)
      (member : i ∈ batch.members.map Prod.fst) :
      Feeds kinds accepted nParams (.wide batch.minIdx) (.kept i)
  | hole {batch : PolyBatch} {u : ℕ} {m : ℕ × ℕ} (mem : batch ∈ accepted)
      (member : m ∈ batch.members) (hole : m.2 = nParams + u) :
      Feeds kinds accepted nParams (.kept u) (.merge batch.minIdx)
  | holes {batch : PolyBatch} (mem : batch ∈ accepted) :
      Feeds kinds accepted nParams (.merge batch.minIdx) (.wide batch.minIdx)
  | shared {batch : PolyBatch} {u : ℕ} (mem : batch ∈ accepted)
      (operand : ∀ m ∈ batch.members, ∃ s, kinds[m.1]? = some s ∧ nParams + u ∈ s.operands) :
      Feeds kinds accepted nParams (.kept u) (.wide batch.minIdx)

section
variable {kinds : List IRStmt} {accepted : List PolyBatch} {nParams : ℕ} {types : TypeTable}

theorem movedVar_cases (accepted : List PolyBatch) (n nParams v : ℕ) :
    v < nParams ∧ movedVar accepted n nParams v = v ∨
      ∃ u, v = nParams + u ∧ movedVar accepted n nParams v =
        originVar accepted n nParams (.kept u) := by
  by_cases hp : v < nParams
  · exact Or.inl ⟨hp, movedVar_of_lt hp⟩
  · refine Or.inr ⟨v - nParams, by omega, ?_⟩
    rw [movedVar, if_neg hp]

theorem Made.feeds {o : Origin} {s : IRStmt} (h : Made kinds accepted nParams types o s) :
    ∀ v ∈ s.operands, v < nParams ∨ ∃ o', Feeds kinds accepted nParams o' o ∧
      v = originVar accepted kinds.length nParams o' := by
  intro v hv
  cases h with
  | @kept i s stmt free =>
      obtain ⟨w, hw, rfl⟩ := List.mem_map.mp (IRStmt.operands_mapVars_subset _ _ hv)
      rcases movedVar_cases accepted kinds.length nParams w with
        ⟨hp, heq⟩ | ⟨u, rfl, heq⟩
      · rw [heq]
        exact Or.inl hp
      · exact Or.inr ⟨_, .stmt stmt hw, heq⟩
  | lane mem member bit =>
      rw [IRStmt.operands, List.map_singleton, List.mem_singleton] at hv
      exact Or.inr ⟨_, .lane mem member, hv⟩
  | merge mem =>
      obtain ⟨m, hm, rfl⟩ := List.mem_map.mp hv
      rcases movedVar_cases accepted kinds.length nParams m.2 with
        ⟨hp, heq⟩ | ⟨u, hu, heq⟩
      · rw [heq]
        exact Or.inl hp
      · exact Or.inr ⟨_, .hole mem hm hu, heq⟩
  | wide mem get bit vars =>
      obtain ⟨e, he, hve⟩ := List.mem_flatMap.mp hv
      rcases vars e he v hve with rfl | ⟨w, rfl, hw⟩
      · exact Or.inr ⟨_, .holes mem, rfl⟩
      · rcases movedVar_cases accepted kinds.length nParams w with
          ⟨hp, heq⟩ | ⟨u, rfl, heq⟩
        · rw [heq]
          exact Or.inl hp
        · exact Or.inr ⟨_, .shared mem hw, heq⟩

variable {table : TypeTable}

theorem Feeds.time_lt (hready : GroupsReady table nParams kinds accepted)
    (hdefined : Ssa.Defined IRStmt.operands nParams kinds) {o o' : Origin}
    (h : Feeds kinds accepted nParams o o') : o.time < o'.time := by
  cases h with
  | @stmt u i s stmt operand =>
      have hlt := Ssa.operands_lt_of_getElem hdefined stmt _ operand
      simp only [Origin.time_kept]
      omega
  | lane mem member =>
      have hle := (hready.group _ mem).le_of_member member
      simp only [Origin.time_wide, Origin.time_kept]
      omega
  | hole mem member hole =>
      have hgroup := hready.group _ mem
      have htime := hgroup.inTime _ member
      have hlead := hgroup.minIdx_eq
      simp only [Origin.time_merge, Origin.time_kept]
      omega
  | holes mem =>
      simp only [Origin.time_merge, Origin.time_wide]
      omega
  | shared mem operand =>
      obtain ⟨m, hm, hlead⟩ := (hready.group _ mem).exists_lead
      obtain ⟨s, hs, hop⟩ := operand m hm
      have hlt := Ssa.operands_lt_of_getElem hdefined hs _ hop
      simp only [Origin.time_kept, Origin.time_wide]
      omega

theorem GroupsReady.minIdx_lt (h : GroupsReady table nParams kinds accepted) {batch : PolyBatch}
    (hbatch : batch ∈ accepted) : batch.minIdx < kinds.length := by
  obtain ⟨m, hm, hlead⟩ := (h.group batch hbatch).exists_lead
  rw [← hlead]
  exact (h.group batch hbatch).lt m hm

theorem mem_origins_made (hready : GroupsReady table nParams kinds accepted) {batch : PolyBatch}
    (hbatch : batch ∈ accepted) {o : Origin}
    (ho : o = .merge batch.minIdx ∨ o = .wide batch.minIdx) :
    o ∈ origins accepted kinds.length := by
  rw [mem_origins]
  have hlt := hready.minIdx_lt hbatch
  have hmem := List.mem_map_of_mem (f := PolyBatch.minIdx) hbatch
  rcases ho with rfl | rfl
  · exact ⟨hlt, Or.inr hmem⟩
  · exact ⟨hlt, Or.inr hmem⟩

theorem Feeds.mem_origins (hready : GroupsReady table nParams kinds accepted)
    (hdefined : Ssa.Defined IRStmt.operands nParams kinds) {o o' : Origin}
    (h : Feeds kinds accepted nParams o o') (ho' : o' ∈ origins accepted kinds.length) :
    o ∈ origins accepted kinds.length := by
  have htime := h.time_lt hready hdefined
  have hsite := Origin.site_le_of_time htime.le
  have hlt := (Ir.mem_origins.mp ho').1
  cases h with
  | stmt | hole | shared => exact mem_origins_kept.mpr (hsite.trans_lt hlt)
  | lane mem => exact mem_origins_made hready mem (Or.inr rfl)
  | holes mem => exact mem_origins_made hready mem (Or.inl rfl)

def originKey (labels : List ℕ) (accepted : List PolyBatch) : Origin → ℕ
  | .kept i => labelAt labels i
  | .merge lead | .wide lead =>
      ((accepted.find? fun batch => batch.minIdx = lead).map (groupLabel labels)).getD 0

theorem originKey_made (hready : GroupsReady table nParams kinds accepted) {batch : PolyBatch}
    (hbatch : batch ∈ accepted) {o : Origin}
    (ho : o = .merge batch.minIdx ∨ o = .wide batch.minIdx) (labels : List ℕ) :
    originKey labels accepted o = groupLabel labels batch := by
  have hfind : accepted.find? (fun other => other.minIdx = batch.minIdx) = some batch := by
    cases hfind : accepted.find? fun other => other.minIdx = batch.minIdx with
    | none => exact absurd (decide_eq_true rfl) (List.find?_eq_none.mp hfind batch hbatch)
    | some other =>
        have hsame : other.minIdx = batch.minIdx := by simpa using List.find?_some hfind
        rw [hready.eq_of_minIdx (List.mem_of_find?_eq_some hfind) hbatch hsame]
  rcases ho with rfl | rfl
  · rw [originKey, hfind]
    rfl
  · rw [originKey, hfind]
    rfl

theorem groupLabel_cases (labels : List ℕ) (batch : PolyBatch) :
    (∀ m ∈ batch.members, labelAt labels m.1 = groupLabel labels batch) ∨
      groupLabel labels batch = 0 ∧
        ∃ m ∈ batch.members, ∃ m' ∈ batch.members, labelAt labels m.1 ≠ labelAt labels m'.1 := by
  by_cases hsplit : ∃ m ∈ batch.members, ∃ m' ∈ batch.members,
      labelAt labels m.1 ≠ labelAt labels m'.1
  · obtain ⟨m, hm, m', hm', hne⟩ := hsplit
    exact Or.inr ⟨groupLabel_of_split hm hm' hne, m, hm, m', hm', hne⟩
  · push Not at hsplit
    apply Or.inl
    intro m hm
    exact (groupLabel_of_same (List.ne_nil_of_mem hm) fun m' hm' => hsplit m' hm' m hm).symm

variable {P : Type} {b : IRBlock P} {batched : Batched P} {labels : List ℕ}

theorem BatchLaid.groupKey (h : BatchLaid table b accepted batched)
    (hlabels : labels.length = b.stmts.length) {o : Origin} {j : ℕ}
    (hj : (origins accepted b.kinds.length)[j]? = some o) :
    groupKey (regionSets labels b.params.length batched) j = originKey labels accepted o := by
  have hmem := Ir.mem_origins.mp (List.mem_of_getElem? hj)
  cases o with
  | kept i => exact h.groupKey_kept hlabels hj
  | merge lead =>
      obtain ⟨batch, hbatch, rfl⟩ : ∃ batch ∈ accepted, batch.minIdx = lead := by
        rcases hmem.2 with ⟨i, hi⟩ | hin
        · cases hi
        · exact List.mem_map.mp hin
      rw [h.groupKey_made hbatch (Or.inl rfl) hj,
        originKey_made h.ready hbatch (Or.inl rfl) labels]
  | wide lead =>
      obtain ⟨batch, hbatch, rfl⟩ : ∃ batch ∈ accepted, batch.minIdx = lead := by
        rcases hmem.2 with ⟨i, hi⟩ | hin
        · cases hi
        · exact List.mem_map.mp hin
      rw [h.groupKey_made hbatch (Or.inr rfl) hj,
        originKey_made h.ready hbatch (Or.inr rfl) labels]

/-- What feeds a statement serves its group, or all, unless it is a hole of several regions. -/
theorem Feeds.key (hready : GroupsReady table b.params.length b.kinds accepted)
    (hlabelled : Labelled b labels) (hholes : NoSplitHoles labels b.params.length accepted)
    {o o' : Origin} (h : Feeds b.kinds accepted b.params.length o o') :
    originKey labels accepted o = 0 ∨
      originKey labels accepted o = originKey labels accepted o' := by
  cases h with
  | @stmt u i s stmt operand =>
      have hvisible := hlabelled.visible_of_getElem stmt operand
      rw [varLabel_add] at hvisible
      exact hvisible
  | @lane batch i mem member =>
      rw [originKey_made hready mem (Or.inr rfl)]
      rcases groupLabel_cases labels batch with hsame | hsplit
      · obtain ⟨m, hm, rfl⟩ := List.mem_map.mp member
        exact Or.inr (hsame m hm).symm
      · exact Or.inl hsplit.1
  | @hole batch u m mem member hole =>
      rw [originKey_made hready mem (Or.inl rfl)]
      rcases groupLabel_cases labels batch with hsame | hsplit
      · obtain ⟨coeffs, hfits⟩ := (hready.group batch mem).member m member
        obtain ⟨c, hstmt⟩ := hfits.stmt
        obtain ⟨e, he, hve⟩ := mem_polyVars.mp hfits.hole
        have hvisible := hlabelled.visible_of_getElem hstmt (v := m.2)
          (List.mem_flatMap.mpr ⟨e, he, hve⟩)
        rw [hole, varLabel_add, hsame m member] at hvisible
        exact hvisible
      · have hzero := hholes batch mem hsplit.2 m member
        rw [hole, varLabel_add] at hzero
        exact Or.inl hzero
  | @holes batch mem =>
      rw [originKey_made hready mem (Or.inl rfl), originKey_made hready mem (Or.inr rfl)]
      exact Or.inr rfl
  | @shared batch u mem operand =>
      rw [originKey_made hready mem (Or.inr rfl)]
      have hvisible : ∀ m ∈ batch.members, labelAt labels u = 0 ∨
          labelAt labels u = labelAt labels m.1 := by
        intro m hm
        obtain ⟨s, hs, hop⟩ := operand m hm
        have hv := hlabelled.visible_of_getElem hs hop
        rwa [varLabel_add] at hv
      rcases groupLabel_cases labels batch with hsame | hsplit
      · obtain ⟨m, hm, -⟩ := (hready.group batch mem).exists_lead
        have hv := hvisible m hm
        rw [hsame m hm] at hv
        exact hv
      · obtain ⟨m, hm, m', hm', hne⟩ := hsplit.2
        rcases hvisible m hm with hzero | heq
        · exact Or.inl hzero
        · rcases hvisible m' hm' with hzero | heq'
          · exact Or.inl hzero
          · exact absurd (heq.symm.trans heq') hne

end
end VolarIR.Ir
