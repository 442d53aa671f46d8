import VolarIR.Ir.BatchLayout
import VolarIR.Ir.CseRuns

/-!
# Batching: the sweep

The sweep makes, origin by origin, the statement that its origin stands for, and reports for
each of them the members it was made from.
-/
namespace VolarIR.Ir

/-- What a statement of the batched block is. -/
inductive Made (kinds : List IRStmt) (accepted : List PolyBatch) (nParams : ℕ)
    (types : TypeTable) : Origin → IRStmt → Prop
  | kept {i : ℕ} {s : IRStmt} (stmt : kinds[i]? = some s)
      (free : ∀ batch ∈ accepted, i ∉ batch.members.map Prod.fst) :
      Made kinds accepted nParams types (.kept i)
        (s.mapVars (movedVar accepted kinds.length nParams))
  | lane {batch : PolyBatch} {i : ℕ} {ty : TypeId} {lane : U8} (mem : batch ∈ accepted)
      (member : i ∈ batch.members.map Prod.fst) (bit : types.isBit ty = true) :
      Made kinds accepted nParams types (.kept i)
        (.shuffle [(lane, originVar accepted kinds.length nParams (.wide batch.minIdx))] ty)
  | merge {batch : PolyBatch} {ty : TypeId} (mem : batch ∈ accepted) :
      Made kinds accepted nParams types (.merge batch.minIdx)
        (.merge (batch.members.map fun m => movedVar accepted kinds.length nParams m.2) ty)
  | wide {batch : PolyBatch} {ty elem : TypeId} {coeffs : PolyCoeffs} {c : Constant}
      (mem : batch ∈ accepted) (get : types.get ty = some (.vec batch.members.length elem))
      (bit : types.isBit elem = true)
      (vars : ∀ e ∈ coeffs.entries, ∀ u ∈ e.1,
        u = originVar accepted kinds.length nParams (.merge batch.minIdx) ∨
        ∃ v, movedVar accepted kinds.length nParams v = u ∧
          ∀ m ∈ batch.members, ∃ s, kinds[m.1]? = some s ∧ v ∈ s.operands) :
      Made kinds accepted nParams types (.wide batch.minIdx) (.poly ty coeffs c)

section
variable {kinds : List IRStmt} {accepted : List PolyBatch} {nParams : ℕ}

theorem Made.mono {types types' : TypeTable} (h : types.Grows types') {o : Origin} {s : IRStmt}
    (hs : Made kinds accepted nParams types o s) : Made kinds accepted nParams types' o s := by
  cases hs with
  | kept stmt free => exact .kept stmt free
  | lane mem member bit => exact .lane mem member (isBit_grows h bit)
  | merge mem => exact .merge mem
  | wide mem get bit vars => exact .wide mem (h.get get) (isBit_grows h bit) vars

theorem intern_of_get {table : TypeTable} {id : TypeId} {t : IrType}
    (h : table.get id = some t) : (table.intern t).2 = table := by
  unfold TypeTable.intern
  cases hfind : table.types.findIdx? (· == t) with
  | some pos => rfl
  | none =>
      have hmem : t ∈ table.types := List.mem_of_getElem? h
      have hnot := List.findIdx?_eq_none_iff.mp hfind t hmem
      rw [beq_self_eq_true] at hnot
      cases hnot

def HasBit (types : TypeTable) : Prop := ∃ id, types.get id = some (.primitive .bit)

theorem HasBit.isBit_intern {types : TypeTable} (h : HasBit types) :
    types.isBit (types.intern (.primitive .bit)).1 = true := by
  obtain ⟨id, hid⟩ := h
  have hget := types.get_intern (.primitive .bit)
  rw [intern_of_get hid] at hget
  exact TypeTable.isBit_iff.mpr hget

theorem HasBit.grows {types types' : TypeTable} (h : HasBit types) (hgrows : types.Grows types') :
    HasBit types' := by
  obtain ⟨id, hid⟩ := h
  exact ⟨id, hgrows.get hid⟩

variable {table : TypeTable}

theorem GroupFits.minIdx_eq {k : ℕ} {batch : PolyBatch} (h : GroupFits table kinds k batch) :
    batch.minIdx = batch.templateIdx := by
  obtain ⟨rest, hrest⟩ := h.template
  rw [PolyBatch.minIdx, hrest]
  rfl

theorem GroupFits.minIdx_mem {k : ℕ} {batch : PolyBatch} (h : GroupFits table kinds k batch) :
    batch.minIdx ∈ batch.members.map Prod.fst := by
  obtain ⟨rest, hrest⟩ := h.template
  rw [h.minIdx_eq, hrest]
  exact List.mem_cons_self

theorem GroupFits.le_of_member {k : ℕ} {batch : PolyBatch} (h : GroupFits table kinds k batch)
    {i : ℕ} (hi : i ∈ batch.members.map Prod.fst) : batch.minIdx ≤ i := by
  obtain ⟨rest, hrest⟩ := h.template
  have hascending := h.ascending
  rw [hrest, List.map_cons, List.pairwise_cons] at hascending
  rw [h.minIdx_eq]
  rw [hrest, List.map_cons] at hi
  rcases List.mem_cons.mp hi with heq | hin
  · exact heq.ge
  · exact (hascending.1 i hin).le

theorem GroupFits.exists_lead {k : ℕ} {batch : PolyBatch} (h : GroupFits table kinds k batch) :
    ∃ m ∈ batch.members, m.1 = batch.minIdx :=
  List.mem_map.mp h.minIdx_mem

theorem GroupsReady.eq_of_member (h : GroupsReady table nParams kinds accepted)
    {a b : PolyBatch} (ha : a ∈ accepted) (hb : b ∈ accepted) {i : ℕ}
    (hia : i ∈ a.members.map Prod.fst) (hib : i ∈ b.members.map Prod.fst) : a = b := by
  obtain ⟨m, hm, rfl⟩ := List.mem_map.mp hia
  obtain ⟨m', hm', heq⟩ := List.mem_map.mp hib
  obtain ⟨p, hp, rfl⟩ := List.mem_iff_getElem.mp ha
  obtain ⟨q, hq, rfl⟩ := List.mem_iff_getElem.mp hb
  have hdisjoint := List.pairwise_iff_getElem.mp h.disjoint
  rcases Nat.lt_trichotomy p q with hlt | rfl | hgt
  · exact absurd heq.symm (hdisjoint p q hp hq hlt m hm m' hm')
  · rfl
  · exact absurd heq (hdisjoint q p hq hp hgt m' hm' m hm)

theorem GroupsReady.eq_of_minIdx (h : GroupsReady table nParams kinds accepted)
    {a b : PolyBatch} (ha : a ∈ accepted) (hb : b ∈ accepted) (heq : a.minIdx = b.minIdx) :
    a = b := by
  apply h.eq_of_member ha hb (h.group a ha).minIdx_mem
  rw [heq]
  exact (h.group b hb).minIdx_mem

theorem lt_of_mem_polyVars (hdefined : Ssa.Defined IRStmt.operands nParams kinds) {i v : ℕ}
    {ty : TypeId} {coeffs : PolyCoeffs} {c : Constant}
    (hstmt : kinds[i]? = some (.poly ty coeffs c)) (hv : v ∈ polyVars coeffs) :
    v < nParams + i := by
  obtain ⟨e, he, hve⟩ := mem_polyVars.mp hv
  exact Ssa.operands_lt_of_getElem hdefined hstmt v (List.mem_flatMap.mpr ⟨e, he, hve⟩)

/-- The wide polynomial reads the merged holes, and vars that every member reads. -/
theorem vars_wideCoeffs (hdefined : Ssa.Defined IRStmt.operands nParams kinds)
    (hsorted : ∀ s ∈ kinds, MonomialsSorted s) (hspace : nParams + kinds.length ≤ polyBatchSentinel)
    {batch : PolyBatch} (hbatch : GroupReady table nParams kinds batch) {remap : List ℕ}
    {mergeVar : ℕ} {g : ℕ → ℕ}
    (hremap : ∀ v < nParams + batch.templateIdx, remapped remap v = g v)
    (hmono : ∀ u v, u < v → v < nParams + batch.templateIdx → g u < g v)
    (hfresh : ∀ v < nParams + batch.templateIdx, g v < mergeVar) :
    ∀ e ∈ (wideCoeffs kinds remap mergeVar batch).entries, ∀ u ∈ e.1, u = mergeVar ∨
      ∃ v, g v = u ∧ ∀ m ∈ batch.members, ∃ s, kinds[m.1]? = some s ∧ v ∈ s.operands := by
  have hform : ∀ {i : ℕ} {ty : TypeId} {coeffs : PolyCoeffs} {c : Constant},
      kinds[i]? = some (.poly ty coeffs c) → (∀ e ∈ coeffs.entries, e.1.Pairwise (· ≤ ·)) ∧
        ∀ v ∈ polyVars coeffs, v < polyBatchSentinel := by
    intro i ty coeffs c hstmt
    refine ⟨hsorted _ (List.mem_of_getElem? hstmt), ?_⟩
    intro v hv
    have hlt := lt_of_mem_polyVars hdefined hstmt hv
    have hi := (List.getElem?_eq_some_iff.mp hstmt).1
    omega
  obtain ⟨rest, hrest⟩ := hbatch.template
  obtain ⟨coeffs, hfits⟩ := hbatch.member (batch.templateIdx, batch.holeVarInTemplate) (by
    rw [hrest]
    exact List.mem_cons_self)
  obtain ⟨c, hstmt⟩ := hfits.stmt
  obtain ⟨hcoeffs, hbelow⟩ := hform hstmt
  have hvars : ∀ v ∈ polyVars coeffs, v < nParams + batch.templateIdx :=
    fun v hv => lt_of_mem_polyVars hdefined hstmt hv
  have hstrict : StrictOn g (coeffs.entries.flatMap Prod.fst) := by
    intro u _ v hv huv
    obtain ⟨e, he, hve⟩ := List.mem_flatMap.mp hv
    exact hmono u v huv (hvars v (mem_polyVars.mpr ⟨e, he, hve⟩))
  have hhole := hvars _ hfits.hole
  have htemplate : templateCoeffs kinds batch.templateIdx = some coeffs := by
    rw [templateCoeffs, hstmt]
  have hentries := entries_remappedTemplate hcoeffs (fun v hv => hremap v (hvars v hv)) hstrict
  intro e he u hu
  rw [wideCoeffs, htemplate, Option.getD_some, hremap _ hhole, mem_substituteVar] at he
  · obtain ⟨d, hd, hodd, rfl⟩ := he
    rw [hentries] at hd
    obtain ⟨t, ht, rfl⟩ := List.mem_map.mp hd
    obtain ⟨w, hw, rfl⟩ := mem_renamedMono.mp hu
    obtain ⟨v, hv, rfl⟩ := List.mem_map.mp hw
    unfold substituted
    split_ifs with hsource
    · exact Or.inl rfl
    · refine Or.inr ⟨v, rfl, ?_⟩
      have hne : v ≠ batch.holeVarInTemplate := fun heq => hsource (congrArg g heq)
      intro m hm
      obtain ⟨member, hmember⟩ := hbatch.member m hm
      obtain ⟨c', hstmt'⟩ := hmember.stmt
      obtain ⟨hmemberSorted, hmemberBelow⟩ := hform hstmt'
      -- the monomial has its image in the canonical form, hence one in every member
      have hcanon : (renamedMono (substituted batch.holeVarInTemplate polyBatchSentinel) t.1, t.2) ∈
          (canonOf kinds batch).entries := by
        rw [canonOf, htemplate, Option.getD_some,
          mem_substituteVar hcoeffs fun hin => lt_irrefl _ (hbelow _ hin)]
        exact ⟨t, ht, hodd, rfl⟩
      rw [← hmember.form,
        mem_substituteVar hmemberSorted fun hin => lt_irrefl _ (hmemberBelow _ hin)] at hcanon
      obtain ⟨t', ht', -, heq⟩ := hcanon
      have hin : v ∈ renamedMono (substituted batch.holeVarInTemplate polyBatchSentinel) t.1 :=
        mem_renamedMono.mpr ⟨v, hv, if_neg hne⟩
      rw [← (Prod.mk.inj heq).1] at hin
      obtain ⟨w, hw, hwv⟩ := mem_renamedMono.mp hin
      refine ⟨_, hstmt', List.mem_flatMap.mpr ⟨t', ht', ?_⟩⟩
      unfold substituted at hwv
      split_ifs at hwv with hhole'
      · have hlt := hbelow v (mem_polyVars.mpr ⟨t, ht, hv⟩)
        omega
      · rw [← hwv]
        exact hw
  · intro d hd
    rw [hentries] at hd
    obtain ⟨t, ht, rfl⟩ := List.mem_map.mp hd
    rw [List.pairwise_map]
    apply (hcoeffs t ht).imp_of_mem
    intro a b ha hb hab
    rcases Nat.lt_or_eq_of_le hab with hlt | rfl
    · exact (hmono a b hlt (hvars b (mem_polyVars.mpr ⟨t, ht, hb⟩))).le
    · exact le_rfl
  · intro hin
    obtain ⟨d, hd, hv⟩ := mem_polyVars.mp hin
    rw [hentries] at hd
    obtain ⟨t, ht, rfl⟩ := List.mem_map.mp hd
    obtain ⟨v, hvt, hvm⟩ := List.mem_map.mp hv
    have hlt := hfresh v (hvars v (mem_polyVars.mpr ⟨t, ht, hvt⟩))
    omega

/-- What holds of the sweep when it has made the statements of the origins `os`, the first `n`
statements of the block among them. -/
structure Laid {P : Type} (kinds : List IRStmt) (accepted : List PolyBatch) (nParams : ℕ)
    (os : List Origin) (n : ℕ) (st : Rewrite P) : Prop where
  bit : HasBit st.types
  made : List.Forall₂ (Made kinds accepted nParams st.types) os (st.newStmts.map Node.kind)
  remap : st.remap = List.range nParams ++
    (List.range n).map fun i => originVar accepted kinds.length nParams (.kept i)
  wide : ∀ batch ∈ accepted, Origin.wide batch.minIdx ∈ os → st.wideVar.lookup batch.minIdx =
    some (originVar accepted kinds.length nParams (.wide batch.minIdx))
  fresh : ∀ e ∈ st.newVarMembers, e.1 < nParams + os.length
  kept : ∀ i, Origin.kept i ∈ os →
    st.newVarMembers.lookup (originVar accepted kinds.length nParams (.kept i)) = none
  members : ∀ batch ∈ accepted, ∀ o ∈ os, o = .merge batch.minIdx ∨ o = .wide batch.minIdx →
    st.newVarMembers.lookup (originVar accepted kinds.length nParams o) =
      some (batch.members.map fun m => nParams + m.1)

section
variable {P : Type} {os : List Origin} {n : ℕ} {st : Rewrite P}

theorem Laid.length (h : Laid kinds accepted nParams os n st) :
    st.newStmts.length = os.length := by
  have hlen := h.made.length_eq
  rw [List.length_map] at hlen
  exact hlen.symm

theorem Laid.remapped (h : Laid kinds accepted nParams os n st) {v : ℕ} (hv : v < nParams + n) :
    remapped st.remap v = movedVar accepted kinds.length nParams v := by
  rw [Ir.remapped, h.remap, List.getD_eq_getElem?_getD]
  by_cases hp : v < nParams
  · rw [List.getElem?_append_left (by rwa [List.length_range]), List.getElem?_range hp,
      movedVar_of_lt hp]
    rfl
  · rw [List.getElem?_append_right (by rw [List.length_range]; omega), List.length_range,
      List.getElem?_map, List.getElem?_range (by omega), movedVar, if_neg hp]
    rfl

theorem originVar_next {o : Origin} {more : List Origin}
    (h : os ++ o :: more <+: origins accepted kinds.length) :
    originVar accepted kinds.length nParams o = nParams + os.length := by
  obtain ⟨rest, hrest⟩ := h
  have hplace : (origins accepted kinds.length)[os.length]? = some o := by
    rw [← hrest, List.append_assoc, List.getElem?_append_right le_rfl, Nat.sub_self]
    rfl
  rw [originVar, place_of_getElem? hplace]

theorem originVar_lt {more : List Origin} (h : os ++ more <+: origins accepted kinds.length)
    {o : Origin} (ho : o ∈ os) :
    originVar accepted kinds.length nParams o < nParams + os.length := by
  obtain ⟨j, hj⟩ := List.mem_iff_getElem?.mp ho
  have hlt := (List.getElem?_eq_some_iff.mp hj).1
  obtain ⟨rest, hrest⟩ := h
  have hplace : (origins accepted kinds.length)[j]? = some o := by
    rw [← hrest, List.append_assoc, List.getElem?_append_left hlt, hj]
  rw [originVar, place_of_getElem? hplace]
  omega

theorem lookup_cons_of_lt {α : Type} {key k : ℕ} {v : α} {l : List (ℕ × α)} (h : key < k) :
    ((k, v) :: l).lookup key = l.lookup key := by
  rw [List.lookup_cons, beq_eq_false_iff_ne.mpr (ne_of_lt h)]

theorem Made.mono_all {types types' : TypeTable} (hgrows : types.Grows types')
    {stmts : List IRStmt} (h : List.Forall₂ (Made kinds accepted nParams types) os stmts) :
    List.Forall₂ (Made kinds accepted nParams types') os stmts :=
  h.imp fun _ _ hs => hs.mono hgrows

/-- The two statements that are made up for a group. -/
theorem Laid.emit (h : Laid kinds accepted nParams os n st)
    (hready : GroupsReady table nParams kinds accepted)
    (hdefined : Ssa.Defined IRStmt.operands nParams kinds)
    (hsorted : ∀ s ∈ kinds, MonomialsSorted s) (hspace : nParams + kinds.length ≤ polyBatchSentinel)
    (hkept : ∀ i < n, Origin.kept i ∈ os) (node : Node IRStmt P) {batch : PolyBatch}
    (hbatch : batch ∈ accepted) (hlead : batch.minIdx = n)
    (hinit : os ++ [.merge n, .wide n] <+: origins accepted kinds.length) :
    Laid kinds accepted nParams (os ++ [.merge n, .wide n]) n
      (emitBatch nParams kinds st node batch) := by
  have hgroup := hready.group batch hbatch
  have htemplate : batch.templateIdx = n := hgroup.minIdx_eq.symm.trans hlead
  have hbit := h.bit.isBit_intern
  have hgrows := st.types.grows_intern
    (.vec batch.members.length (st.types.intern (.primitive .bit)).1)
  have hget := st.types.get_intern
    (.vec batch.members.length (st.types.intern (.primitive .bit)).1)
  have hmerge : originVar accepted kinds.length nParams (.merge n) = nParams + os.length :=
    originVar_next hinit
  have hwide : originVar accepted kinds.length nParams (.wide n) = nParams + os.length + 1 := by
    have hnext : (os ++ [Origin.merge n]) ++ Origin.wide n :: [] <+:
        origins accepted kinds.length := by
      rw [List.append_assoc]
      exact hinit
    rw [originVar_next hnext, List.length_append, List.length_singleton, Nat.add_assoc]
  have hlen : (os ++ [Origin.merge n, .wide n]).length = os.length + 2 := by
    rw [List.length_append]
    rfl
  have hbelow : ∀ o ∈ os, originVar accepted kinds.length nParams o < nParams + os.length :=
    fun o ho => originVar_lt hinit ho
  have hholes : (batch.members.map fun m => Ir.remapped st.remap m.2) =
      batch.members.map fun m => movedVar accepted kinds.length nParams m.2 := by
    apply List.map_congr_left
    intro m hm
    apply h.remapped
    have htime := hgroup.inTime m hm
    omega
  have hfreshMoved : ∀ v < nParams + n,
      movedVar accepted kinds.length nParams v < nParams + os.length := by
    intro v hv
    by_cases hp : v < nParams
    · rw [movedVar_of_lt hp]
      omega
    · rw [movedVar, if_neg hp]
      exact hbelow _ (hkept _ (by omega))
  constructor
  · exact h.bit.grows hgrows
  · rw [emitBatch]
    dsimp only
    rw [List.map_append]
    apply List.rel_append (Made.mono_all hgrows h.made)
    rw [h.length, hholes, List.map_cons, List.map_singleton]
    refine List.Forall₂.cons ?_ (List.Forall₂.cons ?_ List.Forall₂.nil)
    · rw [← hlead]
      exact .merge hbatch
    · rw [← hlead]
      apply Made.wide hbatch hget (isBit_grows hgrows hbit)
      rw [hlead, hmerge]
      apply vars_wideCoeffs hdefined hsorted hspace hgroup
      · rw [htemplate]
        exact fun v hv => h.remapped hv
      · rw [htemplate]
        intro u v huv hv
        apply movedVar_lt huv
        have hn : n < kinds.length := by
          rw [← htemplate]
          exact hgroup.lt _ (by
            obtain ⟨rest, hrest⟩ := hgroup.template
            rw [hrest]
            exact List.mem_cons_self)
        omega
      · rw [htemplate]
        exact hfreshMoved
  · exact h.remap
  · intro b hb hin
    rw [emitBatch]
    dsimp only
    rw [h.length, List.lookup_cons]
    by_cases hsame : b.minIdx = n
    · rw [hsame, hlead, beq_self_eq_true, hwide]
    · rw [hlead, beq_eq_false_iff_ne.mpr hsame]
      apply h.wide b hb
      rcases List.mem_append.mp hin with hold | hlast
      · exact hold
      · simp only [List.mem_cons, reduceCtorEq, Origin.wide.injEq, false_or, List.not_mem_nil,
          or_false] at hlast
        exact absurd hlast hsame
  · intro e he
    rw [emitBatch] at he
    dsimp only at he
    rw [h.length] at he
    rw [hlen]
    rcases List.mem_cons.mp he with rfl | he
    · dsimp only
      omega
    · rcases List.mem_cons.mp he with rfl | he
      · dsimp only
        omega
      · have hlt := h.fresh e he
        omega
  · intro i hi
    have hold : Origin.kept i ∈ os := by
      rcases List.mem_append.mp hi with hold | hlast
      · exact hold
      · simp at hlast
    rw [emitBatch]
    dsimp only
    have hlt := hbelow _ hold
    rw [h.length, lookup_cons_of_lt (by omega), lookup_cons_of_lt (by omega)]
    exact h.kept i hold
  · intro b hb o ho hmade
    rw [emitBatch]
    dsimp only
    rw [h.length]
    rcases List.mem_append.mp ho with hold | hlast
    · have hlt := hbelow o hold
      rw [lookup_cons_of_lt (by omega), lookup_cons_of_lt (by omega)]
      exact h.members b hb o hold hmade
    · have hsame : b = batch := by
        apply hready.eq_of_minIdx hb hbatch
        rw [hlead]
        simp only [List.mem_cons, List.not_mem_nil, or_false] at hlast
        rcases hlast with rfl | rfl <;> rcases hmade with heq | heq <;> cases heq <;> rfl
      rw [hsame]
      simp only [List.mem_cons, List.not_mem_nil, or_false] at hlast
      rcases hlast with rfl | rfl
      · rw [hmerge, lookup_cons_of_lt (by omega), List.lookup_cons, beq_self_eq_true]
      · rw [hwide, List.lookup_cons, beq_self_eq_true]

/-- The statement that stands in the place of statement `n`. -/
def placedKind (accepted : List PolyBatch) (st : Rewrite P) (s : IRStmt) (n : ℕ) : IRStmt :=
  match accepted.find? fun batch => n ∈ batch.members.map Prod.fst with
  | some batch =>
      let lane := (batch.members.map Prod.fst).idxOf n
      .shuffle [(BitVec.ofNat 8 lane, (st.wideVar.lookup batch.minIdx).getD 0)]
        (st.types.intern (.primitive .bit)).1
  | none => s.mapVars (Ir.remapped st.remap)

theorem Laid.made_placedKind (h : Laid kinds accepted nParams os n st)
    (hdefined : Ssa.Defined IRStmt.operands nParams kinds) {s : IRStmt} (hs : kinds[n]? = some s)
    (hwide : ∀ batch ∈ accepted, n ∈ batch.members.map Prod.fst → Origin.wide batch.minIdx ∈ os) :
    Made kinds accepted nParams st.types (.kept n) (placedKind accepted st s n) := by
  unfold placedKind
  split
  case h_1 batch hfind =>
    have hbatch := List.mem_of_find?_eq_some hfind
    have hmember : n ∈ batch.members.map Prod.fst := by simpa using List.find?_some hfind
    rw [h.wide batch hbatch (hwide batch hbatch hmember), Option.getD_some]
    exact .lane hbatch hmember h.bit.isBit_intern
  case h_2 hfind =>
    have hfree : ∀ batch ∈ accepted, n ∉ batch.members.map Prod.fst := by
      intro batch hbatch hin
      exact absurd (decide_eq_true hin) (List.find?_eq_none.mp hfind batch hbatch)
    have hsame : s.mapVars (Ir.remapped st.remap) =
        s.mapVars (movedVar accepted kinds.length nParams) := by
      apply IRStmt.mapVars_congr
      intro v hv
      exact h.remapped (Ssa.operands_lt_of_getElem hdefined hs v hv)
    rw [hsame]
    exact .kept hs hfree

/-- The statement in the place of the next one. -/
theorem Laid.push (h : Laid kinds accepted nParams os n st)
    (hdefined : Ssa.Defined IRStmt.operands nParams kinds) {node : Node IRStmt P}
    (hs : kinds[n]? = some node.kind)
    (hwide : ∀ batch ∈ accepted, n ∈ batch.members.map Prod.fst → Origin.wide batch.minIdx ∈ os)
    (hinit : os ++ [.kept n] <+: origins accepted kinds.length) :
    Laid kinds accepted nParams (os ++ [.kept n]) (n + 1)
      { st with
        newStmts := st.newStmts ++ [{ node with kind := placedKind accepted st node.kind n }]
        remap := st.remap ++ [nParams + st.newStmts.length] } := by
  have hnext : originVar accepted kinds.length nParams (.kept n) = nParams + os.length :=
    originVar_next hinit
  have hbelow : ∀ e ∈ st.newVarMembers, e.1 ≠ nParams + os.length :=
    fun e he => ne_of_lt (h.fresh e he)
  constructor
  · exact h.bit
  · dsimp only
    rw [List.map_append]
    exact List.rel_append h.made (List.Forall₂.cons (h.made_placedKind hdefined hs hwide)
      List.Forall₂.nil)
  · dsimp only
    rw [h.remap, h.length, List.range_succ, List.map_append, List.append_assoc, List.map_singleton,
      hnext]
  · intro batch hbatch hin
    apply h.wide batch hbatch
    rcases List.mem_append.mp hin with hold | hlast
    · exact hold
    · simp at hlast
  · intro e he
    have hlt := h.fresh e he
    rw [List.length_append]
    omega
  · intro i hi
    rcases List.mem_append.mp hi with hold | hlast
    · exact h.kept i hold
    · rw [List.mem_singleton] at hlast
      rw [hlast, hnext, List.lookup_eq_none_iff]
      intro e he
      exact bne_iff_ne.mpr (hbelow e he).symm
  · intro batch hbatch o ho hmade
    rcases List.mem_append.mp ho with hold | hlast
    · exact h.members batch hbatch o hold hmade
    · rw [List.mem_singleton] at hlast
      rw [hlast] at hmade
      rcases hmade with heq | heq <;> cases heq

theorem rewriteState_succ {b : IRBlock P} {node : Node IRStmt P}
    (hnode : b.stmts[n]? = some node) : rewriteState table accepted b (n + 1) =
      rewriteStmt b.params.length b.kinds accepted (rewriteState table accepted b n) node n := by
  have hzip : b.stmts.zipIdx[n]? = some (node, n) := by
    rw [List.getElem?_zipIdx, hnode]
    simp
  rw [rewriteState, List.take_add_one, hzip, List.foldl_append]
  rfl

theorem rewriteStmt_eq (nParams : ℕ) (kinds : List IRStmt) (st : Rewrite P)
    (node : Node IRStmt P) (n : ℕ) :
    rewriteStmt nParams kinds accepted st node n =
      let st' := match accepted.find? fun batch => batch.minIdx = n with
        | some batch => emitBatch nParams kinds st node batch
        | none => st
      { st' with
        newStmts := st'.newStmts ++ [{ node with kind := placedKind accepted st' node.kind n }]
        remap := st'.remap ++ [nParams + st'.newStmts.length] } := rfl

variable {base : TypeTable} {b : IRBlock P}

variable (base) in
/-- What holds of the start and is kept by each group begun and each statement placed holds of
the whole sweep. -/
theorem rewriteState_induct (hready : GroupsReady table b.params.length b.kinds accepted)
    {motive : List Origin → ℕ → Rewrite P → Prop}
    (start : motive [] 0
      ⟨(base.intern (.primitive .bit)).2, [], List.range b.params.length, [], []⟩)
    (emit : ∀ {os n st} {node : Node IRStmt P} {batch}, batch ∈ accepted → batch.minIdx = n →
      (∀ i < n, Origin.kept i ∈ os) →
      os ++ [.merge n, .wide n] <+: origins accepted b.kinds.length → motive os n st →
      motive (os ++ [.merge n, .wide n]) n (emitBatch b.params.length b.kinds st node batch))
    (push : ∀ {os n st} {node : Node IRStmt P}, b.kinds[n]? = some node.kind →
      (∀ i < n, Origin.kept i ∈ os) →
      (∀ batch ∈ accepted, n ∈ batch.members.map Prod.fst → Origin.wide batch.minIdx ∈ os) →
      os ++ [.kept n] <+: origins accepted b.kinds.length → motive os n st →
      motive (os ++ [.kept n]) (n + 1)
        { st with
          newStmts := st.newStmts ++ [{ node with kind := placedKind accepted st node.kind n }]
          remap := st.remap ++ [b.params.length + st.newStmts.length] })
    (hn : n ≤ b.stmts.length) :
    motive (origins accepted n) n (rewriteState base accepted b n) := by
  induction n with
  | zero => exact start
  | succ n ih =>
      have hnode : b.stmts[n]? = some b.stmts[n] := List.getElem?_eq_getElem (by omega)
      generalize b.stmts[n] = node at hnode
      have hs : b.kinds[n]? = some node.kind := by
        rw [IRBlock.kinds, List.getElem?_map, hnode, Option.map_some]
      have hinit : origins accepted (n + 1) <+: origins accepted b.kinds.length :=
        origins_prefix (List.getElem?_eq_some_iff.mp hs).1
      have hkept : ∀ i < n, Origin.kept i ∈ origins accepted n :=
        fun i hi => mem_origins_kept.mpr hi
      have hmade : ∀ batch ∈ accepted, batch.minIdx < n →
          Origin.wide batch.minIdx ∈ origins accepted n := fun batch hbatch hlt =>
        mem_origins.mpr ⟨hlt, Or.inr (List.mem_map_of_mem hbatch)⟩
      rw [rewriteState_succ hnode, rewriteStmt_eq]
      cases hfind : accepted.find? fun batch => batch.minIdx = n with
      | none =>
          have hnone : n ∉ accepted.map PolyBatch.minIdx := by
            intro hin
            obtain ⟨batch, hbatch, heq⟩ := List.mem_map.mp hin
            exact absurd (decide_eq_true heq) (List.find?_eq_none.mp hfind batch hbatch)
          rw [origins_succ_of_not_mem hnone] at hinit ⊢
          apply push hs hkept _ hinit (ih (by omega))
          intro batch hbatch hmember
          have hle := (hready.group batch hbatch).le_of_member hmember
          have hne : batch.minIdx ≠ n := fun heq => hnone (heq ▸ List.mem_map_of_mem hbatch)
          exact hmade batch hbatch (by omega)
      | some batch =>
          have hbatch := List.mem_of_find?_eq_some hfind
          have hlead : batch.minIdx = n := by simpa using List.find?_some hfind
          have hmem : n ∈ accepted.map PolyBatch.minIdx := hlead ▸ List.mem_map_of_mem hbatch
          have hsplit : origins accepted (n + 1) =
              (origins accepted n ++ [.merge n, .wide n]) ++ [.kept n] := by
            rw [origins_succ_of_mem hmem, List.append_assoc]
            rfl
          rw [hsplit] at hinit ⊢
          apply push hs (fun i hi => List.mem_append_left _ (hkept i hi)) _ hinit
            (emit hbatch hlead hkept ((List.prefix_append _ _).trans hinit) (ih (by omega)))
          intro other hother hmember
          rcases Nat.lt_or_eq_of_le
              ((hready.group other hother).le_of_member hmember) with hlt | heq
          · exact List.mem_append_left _ (hmade other hother hlt)
          · rw [heq]
            exact List.mem_append_right _ (by simp)

theorem laid_rewriteState (hready : GroupsReady table b.params.length b.kinds accepted)
    (hdefined : Ssa.Defined IRStmt.operands b.params.length b.kinds)
    (hsorted : ∀ s ∈ b.kinds, MonomialsSorted s) (hspace : b.varSpace ≤ polyBatchSentinel)
    (hn : n ≤ b.stmts.length) :
    Laid b.kinds accepted b.params.length (origins accepted n) n
      (rewriteState base accepted b n) := by
  have hspace' : b.params.length + b.kinds.length ≤ polyBatchSentinel := by
    rw [IRBlock.length_kinds]
    exact hspace
  apply rewriteState_induct base hready (motive := Laid b.kinds accepted b.params.length) _ _ _ hn
  · refine ⟨⟨_, base.get_intern (.primitive .bit)⟩, List.Forall₂.nil, ?_, by simp, by simp,
      by simp, by simp⟩
    exact (List.append_nil _).symm
  · intro os n st node batch hbatch hlead hkept hinit h
    exact h.emit hready hdefined hsorted hspace' hkept node hbatch hlead hinit
  · intro os n st node hs _ hwide hinit h
    exact h.push hdefined hs hwide hinit

end
end
end VolarIR.Ir
