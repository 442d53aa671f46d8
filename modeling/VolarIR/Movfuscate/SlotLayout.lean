import VolarIR.Movfuscate.Lanes

/-!
# Where parameters live

The slots of a block's parameters are of their types and follow each other, whichever blocks
share them, so that what is scattered into the slots of a block is what the block reads there.
-/
namespace VolarIR.Movfuscate
open Ir

section
variable (types : TypeTable) (bitTypeId : TypeId) (pcWidth : ℕ)

/-- The slots of a list of parameters, from slot `start` on. -/
inductive SlotsFor (slots : List TypeId) : (start : ℕ) → List TypeId → List (ℕ × ℕ) → Prop
  | nil (start : ℕ) : SlotsFor slots start [] []
  | cons {start offset : ℕ} {ty : TypeId} {tys : List TypeId} {rest : List (ℕ × ℕ)}
      (after : start ≤ offset)
      (here : (expandType types bitTypeId pcWidth ty) <+: slots.drop offset)
      (next : SlotsFor slots (offset + (expandType types bitTypeId pcWidth ty).length) tys rest) :
      SlotsFor slots start (ty :: tys)
        ((offset, (expandType types bitTypeId pcWidth ty).length) :: rest)

/-- The groups of one position, among the slots from `first` on. -/
structure GroupsFit (first : ℕ) (groups : List SlotGroup) (slots : List TypeId) : Prop where
  inRange : first ≤ slots.length
  after : ∀ g ∈ groups, first ≤ g.offset
  count : ∀ g ∈ groups, g.count = (g.sig.slotTypes pcWidth bitTypeId).length
  before : ∀ g ∈ groups, g.offset + g.count ≤ slots.length
  here : ∀ g ∈ groups, g.sig.slotTypes pcWidth bitTypeId <+: slots.drop g.offset

end

section
variable {types : TypeTable} {bitTypeId : TypeId} {pcWidth : ℕ} {slots slots' : List TypeId}
  {groups : List SlotGroup} {ty : TypeId} {first : ℕ}

theorem slotTypes_of (ty : TypeId) :
    (SlotSig.of ty types pcWidth bitTypeId).slotTypes pcWidth bitTypeId =
      expandType types bitTypeId pcWidth ty := by
  unfold SlotSig.of expandType
  split_ifs with hblock hone
  · rw [hone]
    rfl
  · rfl
  · rfl

theorem length_slotTypes (sig : SlotSig) :
    (sig.slotTypes pcWidth bitTypeId).length = sig.slotCount pcWidth := by
  cases sig with
  | block => exact List.length_replicate
  | scalar tid => rfl

theorem prefix_drop_of_prefix {xs : List TypeId} {n : ℕ} (h : xs <+: slots.drop n)
    (hslots : slots <+: slots') : xs <+: slots'.drop n := by
  obtain ⟨more, rfl⟩ := hslots
  apply h.trans
  rw [List.drop_append]
  exact List.prefix_append _ _

theorem GroupsFit.mono (h : GroupsFit bitTypeId pcWidth first groups slots)
    (hslots : slots <+: slots') : GroupsFit bitTypeId pcWidth first groups slots' where
  inRange := h.inRange.trans hslots.length_le
  after := h.after
  count := h.count
  before g hg := (h.before g hg).trans hslots.length_le
  here g hg := prefix_drop_of_prefix (h.here g hg) hslots

variable (types) in
/-- A parameter's group exists afterwards, and the groups stay fit. -/
theorem GroupsFit.addGroup (h : GroupsFit bitTypeId pcWidth first groups slots) (ty : TypeId) :
    GroupsFit bitTypeId pcWidth first (addGroup types bitTypeId pcWidth groups slots ty).1
        (addGroup types bitTypeId pcWidth groups slots ty).2 ∧
      slots <+: (addGroup types bitTypeId pcWidth groups slots ty).2 ∧
      groups ⊆ (addGroup types bitTypeId pcWidth groups slots ty).1 ∧
      ∃ g ∈ (addGroup types bitTypeId pcWidth groups slots ty).1,
        g.sig = SlotSig.of ty types pcWidth bitTypeId := by
  unfold Movfuscate.addGroup
  dsimp only
  split_ifs with hany
  · obtain ⟨g, hg, hsig⟩ := List.any_eq_true.mp hany
    exact ⟨h, List.prefix_refl _, fun g hg => hg, g, hg, of_decide_eq_true hsig⟩
  · have hpre := List.prefix_append slots
      ((SlotSig.of ty types pcWidth bitTypeId).slotTypes pcWidth bitTypeId)
    have hold := h.mono hpre
    refine ⟨⟨hold.inRange, ?_, ?_, ?_, ?_⟩, hpre, List.subset_append_left _ _, _,
      List.mem_append_right _ (List.mem_singleton_self _), rfl⟩
    · intro g hg
      rcases List.mem_append.mp hg with hg | hg
      · exact hold.after g hg
      · rw [List.mem_singleton.mp hg]
        exact h.inRange
    · intro g hg
      rcases List.mem_append.mp hg with hg | hg
      · exact hold.count g hg
      · rw [List.mem_singleton.mp hg]
        exact (length_slotTypes _).symm
    · intro g hg
      rcases List.mem_append.mp hg with hg | hg
      · exact hold.before g hg
      · rw [List.mem_singleton.mp hg, List.length_append, length_slotTypes]
    · intro g hg
      rcases List.mem_append.mp hg with hg | hg
      · exact hold.here g hg
      · rw [List.mem_singleton.mp hg, List.drop_left]

variable {P : Type} {blocks : List (IRBlock P)}

variable (types bitTypeId pcWidth) in
/-- The groups of a position, with one for every parameter there. -/
theorem groupsFit_groupsAt (blocks : List (IRBlock P)) (k : ℕ) (slots : List TypeId) :
    GroupsFit bitTypeId pcWidth slots.length (groupsAt types bitTypeId pcWidth blocks k slots).1
        (groupsAt types bitTypeId pcWidth blocks k slots).2 ∧
      slots <+: (groupsAt types bitTypeId pcWidth blocks k slots).2 ∧
      ∀ b ∈ blocks, ∀ ty, b.params[k]? = some ty →
        ∃ g ∈ (groupsAt types bitTypeId pcWidth blocks k slots).1,
          g.sig = SlotSig.of ty types pcWidth bitTypeId := by
  induction blocks using List.reverseRecOn with
  | nil =>
      refine ⟨⟨le_rfl, nofun, nofun, nofun, nofun⟩, List.prefix_refl _, nofun⟩
  | append_singleton blocks b ih =>
      obtain ⟨hfit, hpre, hall⟩ := ih
      unfold groupsAt at hfit hpre hall ⊢
      rw [List.foldl_append, List.foldl_cons, List.foldl_nil]
      generalize blocks.foldl _ ([], slots) = acc at hfit hpre hall
      cases hty : b.params[k]? with
      | none =>
          refine ⟨hfit, hpre, ?_⟩
          intro b' hb' ty hty'
          rcases List.mem_append.mp hb' with hb' | hb'
          · exact hall b' hb' ty hty'
          · rw [List.mem_singleton.mp hb', hty] at hty'
            cases hty'
      | some ty =>
          obtain ⟨hfit', hslots, hgroups, hhere⟩ := hfit.addGroup types ty
          refine ⟨hfit', hpre.trans hslots, ?_⟩
          intro b' hb' ty' hty'
          rcases List.mem_append.mp hb' with hb' | hb'
          · obtain ⟨g, hg, hsig⟩ := hall b' hb' ty' hty'
            exact ⟨g, hgroups hg, hsig⟩
          · rw [List.mem_singleton.mp hb', hty] at hty'
            cases hty'
            exact hhere

variable (types bitTypeId pcWidth) in
theorem positionGroups_prefix (blocks : List (IRBlock P)) {k n : ℕ} (h : k ≤ n) :
    (positionGroups types bitTypeId pcWidth blocks k).2 <+:
      (positionGroups types bitTypeId pcWidth blocks n).2 := by
  induction h with
  | refl => exact List.prefix_refl _
  | step _ ih => exact ih.trans (groupsFit_groupsAt types bitTypeId pcWidth blocks _ _).2.1

variable (types bitTypeId pcWidth) in
theorem positionGroups_getElem? (blocks : List (IRBlock P)) {k n : ℕ} (h : k < n) :
    (positionGroups types bitTypeId pcWidth blocks n).1[k]? =
      some (groupsAt types bitTypeId pcWidth blocks k
        (positionGroups types bitTypeId pcWidth blocks k).2).1 := by
  have hlen : ∀ n, (positionGroups types bitTypeId pcWidth blocks n).1.length = n := by
    intro n
    induction n with
    | zero => rfl
    | succ n ih => simp [positionGroups, ih]
  induction n with
  | zero => cases h
  | succ n ih =>
      rw [positionGroups]
      dsimp only
      rcases Nat.lt_succ_iff_lt_or_eq.mp h with hlt | rfl
      · rw [List.getElem?_append_left (by rw [hlen]; exact hlt)]
        exact ih hlt
      · rw [List.getElem?_append_right (by rw [hlen]), hlen, Nat.sub_self]
        rfl

theorem exists_find_group {sig : SlotSig} (h : ∃ g ∈ groups, g.sig = sig) :
    ∃ g ∈ groups, (groups.find? fun g => g.sig = sig) = some g ∧ g.sig = sig := by
  have hsome : (groups.find? fun g => g.sig = sig).isSome := by simpa using h
  obtain ⟨g, hg⟩ := Option.isSome_iff_exists.mp hsome
  exact ⟨g, List.mem_of_find?_eq_some hg, hg, by simpa using List.find?_some hg⟩

/-- Every parameter list that occurs has its slots. -/
theorem resolveSlots_fit {n k first : ℕ} {tys : List TypeId} (hn : k + tys.length ≤ n)
    (hfirst : first ≤ (positionGroups types bitTypeId pcWidth blocks k).2.length)
    (htys : ∀ i ty, tys[i]? = some ty → ∃ b ∈ blocks, b.params[k + i]? = some ty) :
    ∃ found, resolveSlots types bitTypeId pcWidth
        (positionGroups types bitTypeId pcWidth blocks n).1 k tys = some found ∧
      SlotsFor types bitTypeId pcWidth (positionGroups types bitTypeId pcWidth blocks n).2 first
        tys found := by
  induction tys generalizing k first with
  | nil => exact ⟨[], rfl, .nil first⟩
  | cons ty tys ih =>
      rw [List.length_cons] at hn
      obtain ⟨b, hb, hparam⟩ := htys 0 ty rfl
      have hgroups := positionGroups_getElem? types bitTypeId pcWidth blocks
        (show k < n by omega)
      obtain ⟨hfit, -, hall⟩ := groupsFit_groupsAt types bitTypeId pcWidth blocks k
        (positionGroups types bitTypeId pcWidth blocks k).2
      obtain ⟨found, hmem, hfound, hsig⟩ := exists_find_group (hall b hb ty hparam)
      have hcount : found.count = (expandType types bitTypeId pcWidth ty).length := by
        rw [hfit.count found hmem, hsig, slotTypes_of]
      have hnext := positionGroups_prefix types bitTypeId pcWidth blocks
        (show k + 1 ≤ n by omega)
      have hbefore : found.offset + found.count ≤
          (positionGroups types bitTypeId pcWidth blocks (k + 1)).2.length :=
        hfit.before found hmem
      have htail : ∀ i t, tys[i]? = some t → ∃ b ∈ blocks, b.params[k + 1 + i]? = some t := by
        intro i t ht
        have hb := htys (i + 1) t ht
        rwa [show k + (i + 1) = k + 1 + i by omega] at hb
      obtain ⟨rest, hrest, hslots⟩ := ih (by omega) hbefore htail
      refine ⟨(found.offset, found.count) :: rest, ?_, ?_⟩
      · rw [resolveSlots, hgroups]
        simp only [Option.bind_eq_bind, Option.bind_some, hfound, hrest]
      · rw [hcount] at hslots ⊢
        have hhere := prefix_drop_of_prefix (hfit.here found hmem) hnext
        rw [hsig, slotTypes_of] at hhere
        exact .cons (hfirst.trans (hfit.after found hmem)) hhere hslots

theorem mem_expandType {t : TypeId} (h : t ∈ expandType types bitTypeId pcWidth ty) :
    t = bitTypeId ∨ t = ty ∧ isBlockType types ty = false := by
  unfold expandType at h
  split_ifs at h with hblock
  · exact .inl (List.eq_of_mem_replicate h)
  · exact .inr ⟨List.mem_singleton.mp h, Bool.eq_false_iff.mpr hblock⟩

theorem mem_addGroup {t : TypeId} (h : t ∈ (addGroup types bitTypeId pcWidth groups slots ty).2) :
    t ∈ slots ∨ t ∈ expandType types bitTypeId pcWidth ty := by
  unfold addGroup at h
  dsimp only at h
  split_ifs at h
  · exact .inl h
  · rw [slotTypes_of] at h
    exact List.mem_append.mp h

theorem mem_groupsAt {k : ℕ} {t : TypeId}
    (h : t ∈ (groupsAt types bitTypeId pcWidth blocks k slots).2) :
    t ∈ slots ∨ ∃ b ∈ blocks, ∃ ty ∈ b.params, t ∈ expandType types bitTypeId pcWidth ty := by
  induction blocks using List.reverseRecOn with
  | nil => exact .inl h
  | append_singleton blocks b ih =>
      unfold groupsAt at h ih
      rw [List.foldl_append, List.foldl_cons, List.foldl_nil] at h
      generalize blocks.foldl _ ([], slots) = acc at h ih
      have hold : t ∈ acc.2 → t ∈ slots ∨
          ∃ b' ∈ blocks ++ [b], ∃ ty ∈ b'.params, t ∈ expandType types bitTypeId pcWidth ty := by
        intro ht
        rcases ih ht with ht | ⟨b', hb', hty⟩
        · exact .inl ht
        · exact .inr ⟨b', List.mem_append_left _ hb', hty⟩
      cases hty : b.params[k]? with
      | none =>
          rw [hty] at h
          exact hold h
      | some ty =>
          rw [hty] at h
          rcases mem_addGroup h with h | h
          · exact hold h
          · exact .inr ⟨b, List.mem_append_right _ (List.mem_singleton_self b), ty,
              List.mem_of_getElem? hty, h⟩

theorem mem_positionGroups {n : ℕ} {t : TypeId}
    (h : t ∈ (positionGroups types bitTypeId pcWidth blocks n).2) :
    ∃ b ∈ blocks, ∃ ty ∈ b.params, t ∈ expandType types bitTypeId pcWidth ty := by
  induction n with
  | zero => cases h
  | succ n ih =>
      rcases mem_groupsAt h with h | h
      · exact ih h
      · exact h

theorem map_id_injective {tys tys' : List TypeId} (h : tys.map TypeId.id = tys'.map TypeId.id) :
    tys = tys' := by
  apply List.map_injective_iff.mpr _ h
  rintro ⟨i⟩ ⟨j⟩ hij
  exact congrArg TypeId.mk hij

theorem signatureSlots_get {slotOf : List (List (ℕ × ℕ))} {f : List TypeId → List (ℕ × ℕ)}
    {b : IRBlock P} (hb : b ∈ blocks) (h : slotOf = blocks.map fun b => f b.params) :
    (signatureSlots blocks slotOf).get (b.params.map TypeId.id) = some (f b.params) := by
  have hall : ∀ (bs : List (IRBlock P)) (m : SortedMap (List ℕ) (List (ℕ × ℕ))),
      m.get (b.params.map TypeId.id) = some (f b.params) ∨
        m.get (b.params.map TypeId.id) = none ∧ b ∈ bs →
      (((bs.zip (bs.map fun b => f b.params)).foldl (fun m e =>
        m.upsert (e.1.params.map TypeId.id) fun old => old.getD e.2) m).get
          (b.params.map TypeId.id)) = some (f b.params) := by
    intro bs
    induction bs with
    | nil =>
        intro m hm
        exact hm.resolve_right fun h => List.not_mem_nil h.2
    | cons b' bs ih =>
        intro m hm
        apply ih
        rw [SortedMap.get_upsert]
        split_ifs with hsame
        · have heq : b.params = b'.params := map_id_injective hsame
          dsimp only
          rw [← heq]
          rcases hm with hm | hm
          · rw [hm]
            exact .inl rfl
          · rw [hm.1]
            exact .inl rfl
        · rcases hm with hm | ⟨hm, hmem⟩
          · exact .inl hm
          · rcases List.mem_cons.mp hmem with rfl | hmem
            · exact absurd rfl hsame
            · exact .inr ⟨hm, hmem⟩
  rw [signatureSlots, h]
  exact hall blocks _ (.inr ⟨rfl, hb⟩)

variable (types bitTypeId pcWidth) in
/-- What the slot classes promise of each block. -/
structure ClassesFit {P : Type} (blocks : List (IRBlock P)) (classes : SlotClasses) : Prop where
  slotOf : ∀ (i : ℕ) (b : IRBlock P), blocks[i]? = some b →
      ∃ found, classes.slotOf[i]? = some found ∧
    SlotsFor types bitTypeId pcWidth classes.stateSlotTypes 0 b.params found ∧
    classes.sigFallback.get (b.params.map TypeId.id) = some found
  expands : ∀ t ∈ classes.stateSlotTypes,
    ∃ b ∈ blocks, ∃ ty ∈ b.params, t ∈ expandType types bitTypeId pcWidth ty

theorem length_le_foldr_max {lens : List ℕ} {n : ℕ} (h : n ∈ lens) : n ≤ lens.foldr max 0 := by
  induction lens with
  | nil => cases h
  | cons m lens ih =>
      rcases List.mem_cons.mp h with rfl | h
      · exact le_max_left _ _
      · exact (ih h).trans (le_max_right _ _)

variable (types bitTypeId pcWidth) in
theorem computeStaticSlotClasses_fit (p : IRBlocks P) :
    ∃ classes, computeStaticSlotClasses types bitTypeId pcWidth p = some classes ∧
      ClassesFit types bitTypeId pcWidth p.blocks classes := by
  unfold computeStaticSlotClasses
  generalize hmax : (p.blocks.map fun b => b.params.length).foldr max 0 = n
  generalize hgroups : positionGroups types bitTypeId pcWidth p.blocks n = groups
  have hresolve : ∀ b ∈ p.blocks, ∃ found,
      resolveSlots types bitTypeId pcWidth groups.1 0 b.params = some found ∧
        SlotsFor types bitTypeId pcWidth groups.2 0 b.params found := by
    intro b hb
    have hlen : 0 + b.params.length ≤ n := by
      rw [Nat.zero_add, ← hmax]
      exact length_le_foldr_max (List.mem_map_of_mem hb)
    subst hgroups
    apply resolveSlots_fit hlen (Nat.zero_le _)
    intro i ty hty
    exact ⟨b, hb, by rwa [Nat.zero_add]⟩
  let f : List TypeId → List (ℕ × ℕ) := fun tys =>
    (resolveSlots types bitTypeId pcWidth groups.1 0 tys).getD []
  have hf : ∀ b ∈ p.blocks, resolveSlots types bitTypeId pcWidth groups.1 0 b.params =
      some (f b.params) ∧ SlotsFor types bitTypeId pcWidth groups.2 0 b.params (f b.params) := by
    intro b hb
    obtain ⟨found, hfound, hslots⟩ := hresolve b hb
    simp only [f, hfound, Option.getD_some]
    exact ⟨trivial, hslots⟩
  have hmapM : (p.blocks.mapM fun b => resolveSlots types bitTypeId pcWidth groups.1 0 b.params) =
      some (p.blocks.map fun b => f b.params) := mapM_eq_some fun b hb => (hf b hb).1
  refine ⟨⟨groups.2, p.blocks.map fun b => f b.params,
    signatureSlots p.blocks (p.blocks.map fun b => f b.params)⟩, ?_, ?_, ?_⟩
  · simp only [Option.bind_eq_bind, hgroups, hmapM, Option.bind_some]
  · intro i b hb
    have hmem := List.mem_of_getElem? hb
    refine ⟨f b.params, ?_, (hf b hmem).2, signatureSlots_get hmem rfl⟩
    simp [hb]
  · intro t ht
    dsimp only at ht
    rw [← hgroups] at ht
    exact mem_positionGroups ht

end

section
variable (types : TypeTable) (pcWidth : ℕ)

def cellsOf (ty : TypeId) (bits : List Bool) : List (List Bool) :=
  if isBlockType types ty then (pcBitsOf pcWidth (bitsToU64 bits)).map fun b => [b] else [bits]

def loadArg (state : List (List Bool)) (slot : ℕ × ℕ) (ty : TypeId) : List Bool :=
  if isBlockType types ty then refBits (Bits.value ((state.drop slot.1).take slot.2).flatten)
  else state.getD slot.1 []

def loadArgs (state : List (List Bool)) : List (ℕ × ℕ) → List TypeId → List (List Bool)
  | slot :: slots, ty :: tys => loadArg types state slot ty :: loadArgs state slots tys
  | _, _ => []

def storeFrom {α : Type} (state : List α) : (start : ℕ) → List α → List α
  | _, [] => state
  | start, x :: xs => storeFrom (state.set start x) (start + 1) xs

def scatterCells (state : List (List Bool)) :
    List (ℕ × ℕ) → List TypeId → List (List Bool) → List (List Bool)
  | slot :: slots, ty :: tys, bits :: args =>
      scatterCells (storeFrom state slot.1 (cellsOf types pcWidth ty bits)) slots tys args
  | _, _, _ => state

end

section
variable {α : Type} {state : List α} {start : ℕ} {xs : List α}

@[simp] theorem length_storeFrom (state : List α) (start : ℕ) (xs : List α) :
    (storeFrom state start xs).length = state.length := by
  induction xs generalizing state start with
  | nil => rfl
  | cons x xs ih => rw [storeFrom, ih, List.length_set]

theorem getElem?_storeFrom (state : List α) (start : ℕ) (xs : List α) (k : ℕ) :
    (storeFrom state start xs)[k]? =
      if start ≤ k ∧ k < start + xs.length ∧ k < state.length then xs[k - start]?
      else state[k]? := by
  induction xs generalizing state start with
  | nil =>
      rw [storeFrom, if_neg]
      simp only [List.length_nil]
      omega
  | cons x xs ih =>
      rw [storeFrom, ih, List.length_set, List.length_cons]
      by_cases hk : start = k
      · subst hk
        rw [if_neg (by omega)]
        by_cases hlt : start < state.length
        · rw [if_pos (by omega), Nat.sub_self, List.getElem?_set_self hlt]
          rfl
        · rw [if_neg (by omega), List.getElem?_eq_none (by simpa using hlt),
            List.getElem?_eq_none (by omega)]
      · rw [List.getElem?_set_ne hk]
        by_cases hin : start + 1 ≤ k ∧ k < start + 1 + xs.length ∧ k < state.length
        · rw [if_pos hin, if_pos (by omega), show k - start = k - (start + 1) + 1 by omega,
            List.getElem?_cons_succ]
        · rw [if_neg hin, if_neg (by omega)]

theorem take_drop_storeFrom (h : start + xs.length ≤ state.length) :
    ((storeFrom state start xs).drop start).take xs.length = xs := by
  apply List.ext_getElem?
  intro k
  rw [List.getElem?_take, List.getElem?_drop, getElem?_storeFrom]
  by_cases hk : k < xs.length
  · rw [if_pos hk, if_pos (by omega), Nat.add_sub_cancel_left]
  · rw [if_neg hk, List.getElem?_eq_none (Nat.le_of_not_lt hk)]

theorem take_storeFrom {n : ℕ} (h : n ≤ start) :
    (storeFrom state start xs).take n = state.take n := by
  apply List.ext_getElem?
  intro k
  rw [List.getElem?_take, List.getElem?_take, getElem?_storeFrom]
  split_ifs with hk hin
  · omega
  · rfl
  · rfl

end

section
variable {types : TypeTable} {bitTypeId : TypeId} {pcWidth : ℕ} {slots : List TypeId}
  {start : ℕ} {tys : List TypeId} {found : List (ℕ × ℕ)} {state state' : List (List Bool)}

theorem length_cellsOf (ty : TypeId) (bits : List Bool) :
    (cellsOf types pcWidth ty bits).length = (expandType types bitTypeId pcWidth ty).length := by
  unfold cellsOf expandType
  split_ifs <;> simp

theorem add_length_le {offset : ℕ} {here : List TypeId} (h : here <+: slots.drop offset)
    (hpos : 0 < here.length) : offset + here.length ≤ slots.length := by
  have hlen := h.length_le
  rw [List.length_drop] at hlen
  omega

variable (types bitTypeId) in
theorem length_expandType_pos (hpc : 0 < pcWidth) (ty : TypeId) :
    0 < (expandType types bitTypeId pcWidth ty).length := by
  unfold expandType
  split_ifs
  · rw [List.length_replicate]
    exact hpc
  · exact Nat.one_pos

theorem SlotsFor.take_scatterCells (h : SlotsFor types bitTypeId pcWidth slots start tys found)
    (state : List (List Bool)) (args : List (List Bool)) {n : ℕ} (hn : n ≤ start) :
    (scatterCells types pcWidth state found tys args).take n = state.take n := by
  induction h generalizing state args n with
  | nil => simp [scatterCells]
  | cons after here next ih =>
      cases args with
      | nil => simp [scatterCells]
      | cons bits args =>
          rw [scatterCells, ih _ _ (by omega), take_storeFrom (hn.trans after)]

theorem loadArg_congr {offset n : ℕ} {ty : TypeId} (hn : 0 < n)
    (h : state.take (offset + n) = state'.take (offset + n)) :
    loadArg types state (offset, n) ty = loadArg types state' (offset, n) ty := by
  unfold loadArg
  split_ifs
  · have hcells : ∀ s : List (List Bool), (s.drop offset).take n =
        (s.take (offset + n)).drop offset := by
      intro s
      rw [List.drop_take, Nat.add_sub_cancel_left]
    rw [hcells, hcells, h]
  · have hget := congrArg (fun s => s[offset]?) h
    simp only [List.getElem?_take, show offset < offset + n by omega, if_true] at hget
    rw [List.getD_eq_getElem?_getD, List.getD_eq_getElem?_getD, hget]

theorem loadArg_storeFrom {offset : ℕ} {ty : TypeId} {bits : List Bool}
    (hsmall : pcWidth ≤ 32) (hbits : IsArg types (2 ^ pcWidth) ty bits)
    (hfits : offset + (expandType types bitTypeId pcWidth ty).length ≤ state.length)
    (hpos : 0 < (expandType types bitTypeId pcWidth ty).length) :
    loadArg types (storeFrom state offset (cellsOf types pcWidth ty bits))
      (offset, (expandType types bitTypeId pcWidth ty).length) ty = bits := by
  have hlen : (cellsOf types pcWidth ty bits).length =
      (expandType types bitTypeId pcWidth ty).length := length_cellsOf ty bits
  unfold loadArg
  split_ifs with hblock
  · obtain ⟨k, hk, rfl⟩ := hbits.2 hblock
    have hk32 : k < 2 ^ 32 := hk.trans_le (Nat.pow_le_pow_right (by decide) hsmall)
    dsimp only
    rw [← hlen, take_drop_storeFrom (by rw [hlen]; exact hfits), cellsOf, if_pos hblock,
      bitsToU64_refBits hk32]
    have hflat : ((pcBitsOf pcWidth k).map fun b => [b]).flatten = pcBitsOf pcWidth k := by
      rw [← List.flatMap_def, List.flatMap_singleton']
    rw [hflat, value_pcBitsOf hk]
  · dsimp only
    rw [List.getD_eq_getElem?_getD, getElem?_storeFrom, hlen, if_pos (by omega), Nat.sub_self,
      cellsOf, if_neg hblock]
    rfl

theorem SlotsFor.loadArgs_scatterCells (h : SlotsFor types bitTypeId pcWidth slots start tys found)
    (hpc : 0 < pcWidth) (hsmall : pcWidth ≤ 32) {state : List (List Bool)}
    (hstate : state.length = slots.length) {args : List (List Bool)}
    (hargs : List.Forall₂ (IsArg types (2 ^ pcWidth)) tys args) :
    loadArgs types (scatterCells types pcWidth state found tys args) found tys = args := by
  induction h generalizing state args with
  | nil =>
      cases hargs
      rfl
  | @cons _ offset ty _ _ _ here next ih =>
      cases hargs with
      | @cons _ bits _ args hbits hargs =>
          have hpos := length_expandType_pos types bitTypeId hpc ty
          have hle := add_length_le here hpos
          rw [scatterCells, loadArgs, ih (by rw [length_storeFrom, hstate]) hargs]
          congr 1
          rw [loadArg_congr hpos (next.take_scatterCells _ _ le_rfl)]
          exact loadArg_storeFrom hsmall hbits (by rw [hstate]; exact hle) hpos

theorem getElem?_of_prefix_drop {here : List TypeId} {offset i : ℕ}
    (h : here <+: slots.drop offset) (hi : i < here.length) :
    slots[offset + i]? = here[i]? := by
  obtain ⟨more, hmore⟩ := h
  rw [← List.getElem?_drop, ← hmore, List.getElem?_append_left hi]

theorem argsFit_storeFrom {offset : ℕ} {ty : TypeId} {bits : List Bool}
    (hbit : types.isBit bitTypeId = true) (hstate : ArgsFit types slots state)
    (hbits : bits.length = types.bitWidth ty)
    (here : expandType types bitTypeId pcWidth ty <+: slots.drop offset) :
    ArgsFit types slots (storeFrom state offset (cellsOf types pcWidth ty bits)) := by
  have hlen : (cellsOf types pcWidth ty bits).length =
      (expandType types bitTypeId pcWidth ty).length := length_cellsOf ty bits
  have hcells : (cellsOf types pcWidth ty bits).map List.length =
      (expandType types bitTypeId pcWidth ty).map types.bitWidth := by
    unfold cellsOf expandType
    split_ifs
    · rw [List.map_map, List.map_replicate, bitWidth_of_isBit hbit]
      simp [Function.comp_def]
    · simp [hbits]
  rw [argsFit_iff] at hstate ⊢
  intro i
  rw [getElem?_storeFrom, hlen]
  split_ifs with hi
  · have hcell := congrArg (fun s => s[i - offset]?) hcells
    simp only [List.getElem?_map] at hcell
    rw [hcell, ← getElem?_of_prefix_drop here (by omega), Nat.add_sub_cancel' hi.1]
  · exact hstate i

theorem SlotsFor.argsFit_scatterCells
    (h : SlotsFor types bitTypeId pcWidth slots start tys found)
    (hbit : types.isBit bitTypeId = true) {state : List (List Bool)}
    (hstate : ArgsFit types slots state) {args : List (List Bool)}
        (hargs : ArgsFit types tys args) :
    ArgsFit types slots (scatterCells types pcWidth state found tys args) := by
  induction h generalizing state args with
  | nil => simpa [scatterCells] using hstate
  | cons _ here _ ih =>
      cases args with
      | nil => simpa [scatterCells] using hstate
      | cons bits args =>
          rw [ArgsFit, List.map_cons, List.map_cons, List.cons.injEq] at hargs
          rw [scatterCells]
          exact ih (argsFit_storeFrom hbit hstate hargs.1 here) hargs.2

theorem length_flatten_of_bits (hbit : types.isBit bitTypeId = true)
    (hstate : ArgsFit types slots state) {offset n : ℕ}
    (here : List.replicate n bitTypeId <+: slots.drop offset) :
    ((state.drop offset).take n).flatten.length = n := by
  have hlens : ((state.drop offset).take n).map List.length = List.replicate n 1 := by
    apply List.ext_getElem?
    intro i
    rw [List.getElem?_map, List.getElem?_take, List.getElem?_replicate]
    split_ifs with hi
    · have hi' : i < (List.replicate n bitTypeId).length := by rwa [List.length_replicate]
      rw [List.getElem?_drop, argsFit_iff.mp hstate, getElem?_of_prefix_drop here hi',
        List.getElem?_replicate, if_pos hi, Option.map_some, bitWidth_of_isBit hbit]
    · rfl
  rw [List.length_flatten, hlens, List.sum_replicate, smul_eq_mul, Nat.mul_one]

theorem isArg_loadArg {offset : ℕ} {ty : TypeId} (hbit : types.isBit bitTypeId = true)
    (hstate : ArgsFit types slots state)
    (here : expandType types bitTypeId pcWidth ty <+: slots.drop offset) :
    IsArg types (2 ^ pcWidth) ty
      (loadArg types state (offset, (expandType types bitTypeId pcWidth ty).length) ty) := by
  unfold loadArg
  split_ifs with hblock
  · refine ⟨by rw [length_refBits, bitWidth_of_isBlockType hblock], fun _ => ⟨_, ?_, rfl⟩⟩
    rw [expandType, if_pos hblock] at here ⊢
    apply (Bits.value_lt _).trans_eq
    rw [List.length_replicate, length_flatten_of_bits hbit hstate here]
  · refine ⟨?_, fun h => absurd h hblock⟩
    rw [expandType, if_neg hblock] at here
    have hslot := argsFit_iff.mp hstate offset
    have hty : slots[offset]? = some ty := getElem?_of_prefix_drop here Nat.one_pos
    rw [hty, Option.map_some] at hslot
    obtain ⟨bits, hbits, hwidth⟩ := Option.map_eq_some_iff.mp hslot
    dsimp only
    rw [List.getD_eq_getElem?_getD, hbits]
    exact hwidth

theorem SlotsFor.isArg_loadArgs (h : SlotsFor types bitTypeId pcWidth slots start tys found)
    (hbit : types.isBit bitTypeId = true) (hstate : ArgsFit types slots state) :
    List.Forall₂ (IsArg types (2 ^ pcWidth)) tys (loadArgs types state found tys) := by
  induction h with
  | nil => exact .nil
  | cons _ here _ ih => exact .cons (isArg_loadArg hbit hstate here) ih

end
end VolarIR.Movfuscate
