import VolarIR.Ir.HoistRuns

/-!
# Hoisting after batching: regions

Every group of the hoisted order is in one piece, and the returned ranges are these pieces.
With the order and the runs this says when hoisting after batching is right.
-/
namespace VolarIR.Ir

section
variable {regionSets : List (List ℕ)} {n : ℕ}

theorem groupRank_mono {k l i j : ℕ} (hkl : k ≤ l) (hk : (hoistOrder regionSets n)[k]? = some i)
    (hl : (hoistOrder regionSets n)[l]? = some j) :
    groupRank regionSets n i ≤ groupRank regionSets n j := by
  rcases Nat.lt_or_eq_of_le hkl with hlt | rfl
  · rw [place_hoistOrder_lt hk hl, Prod.Lex.toLex_lt_toLex] at hlt
    rcases hlt with hrank | hrank
    · exact hrank.le
    · exact hrank.1.le
  · rw [hk] at hl
    rw [Option.some.inj hl]

theorem groupKey_between {k l m h i j : ℕ} (hkl : k ≤ l) (hlm : l ≤ m)
    (hk : (hoistOrder regionSets n)[k]? = some h) (hl : (hoistOrder regionSets n)[l]? = some i)
    (hm : (hoistOrder regionSets n)[m]? = some j)
    (hkey : groupKey regionSets h = groupKey regionSets j) :
    groupKey regionSets i = groupKey regionSets j := by
  have hlt : ∀ {a b : ℕ}, (hoistOrder regionSets n)[a]? = some b → b < n := fun ha =>
    mem_hoistOrder.mp (List.mem_of_getElem? ha)
  have hfirst := groupRank_mono hkl hk hl
  have hsecond := groupRank_mono hlm hl hm
  rw [← groupRank_inj (hlt hk) (hlt hm)] at hkey
  rw [← groupRank_inj (hlt hl) (hlt hm)]
  omega

structure RegionsInOrder (regionSets : List (List ℕ)) (n : ℕ) : Prop where
  lead : ∀ q < n, ∀ p < q, groupKey regionSets q = 0 → groupKey regionSets p = 0
  contiguous : ∀ r < n, ∀ q < r, ∀ p < q, groupKey regionSets p = groupKey regionSets r →
    groupKey regionSets q = groupKey regionSets r

theorem RegionsInOrder.place_lt (h : RegionsInOrder regionSets n) {p q : ℕ} (hpq : p < q)
    (hq : q < n) : hoistPlace regionSets n p < hoistPlace regionSets n q := by
  by_cases hstays : groupKey regionSets p = 0 ∨ groupKey regionSets p = groupKey regionSets q
  · exact hoistPlace_lt_of_key hpq hq hstays
  · rw [not_or] at hstays
    apply hoistPlace_lt_of_new hpq hq
    · exact fun hzero => hstays.1 (h.lead q hq p hpq hzero)
    · intro k hk heq
      rcases Nat.lt_or_eq_of_le hk with hlt | rfl
      · exact hstays.2 (h.contiguous q hq p hpq k hlt heq)
      · exact hstays.2 heq

theorem regionsInOrder_iff : RegionsInOrder regionSets n ↔
    hoistOrder regionSets n = List.range n := by
  constructor
  · intro h
    have hsorted : (hoistOrder regionSets n).Pairwise (· < ·) := by
      rw [List.pairwise_iff_getElem]
      intro k l hk hl hkl
      have hkget := List.getElem?_eq_getElem hk
      have hlget := List.getElem?_eq_getElem hl
      generalize (hoistOrder regionSets n)[k] = i at hkget ⊢
      generalize (hoistOrder regionSets n)[l] = j at hlget ⊢
      have hi : i < n := mem_hoistOrder.mp (List.mem_of_getElem? hkget)
      have hj : j < n := mem_hoistOrder.mp (List.mem_of_getElem? hlget)
      have hplace : ∀ {k i : ℕ}, (hoistOrder regionSets n)[k]? = some i → i < n →
          hoistPlace regionSets n i = k := by
        intro k i hget hi
        have hlt := (List.getElem?_eq_some_iff.mp hget).1
        exact ((List.getElem?_inj hlt nodup_hoistOrder).mp
          (hget.trans (getElem?_hoistPlace regionSets hi).symm)).symm
      by_contra hle
      rcases Nat.lt_or_eq_of_le (Nat.le_of_not_lt hle) with hlt | rfl
      · have hback := h.place_lt hlt hi
        rw [hplace hkget hi, hplace hlget hj] at hback
        omega
      · rw [← hplace hkget hi, hplace hlget hi] at hkl
        exact absurd hkl (Nat.lt_irrefl _)
    exact perm_hoistOrder.eq_of_pairwise
      (fun i j _ _ hij hji => absurd hij (Nat.lt_asymm hji)) hsorted List.pairwise_lt_range
  · intro heq
    have hget : ∀ {i : ℕ}, i < n → (hoistOrder regionSets n)[i]? = some i := by
      intro i hi
      rw [heq, List.getElem?_range hi]
    constructor
    · intro q hq p hpq hzero
      by_contra hregion
      have hlt := hoistPlace_lt_of_lead (hpq.trans hq) hq hzero hregion
      have hplace : ∀ {i : ℕ}, i < n → hoistPlace regionSets n i = i := by
        intro i hi
        have hmem := getElem?_hoistPlace regionSets hi
        have hlen := (List.getElem?_eq_some_iff.mp hmem).1
        exact (List.getElem?_inj hlen nodup_hoistOrder).mp (hmem.trans (hget hi).symm)
      rw [hplace hq, hplace (hpq.trans hq)] at hlt
      omega
    · intro r hr q hqr p hpq hkey
      exact groupKey_between hpq.le hqr.le (hget (hpq.trans (hqr.trans hr)))
        (hget (hqr.trans hr)) (hget hr) hkey

/-- The ranges after the first statements of the order. -/
def rangesAfter (regionSets : List (List ℕ)) (nParams : ℕ) (order : List ℕ) (m : ℕ) :
    SortedMap ℕ (ℕ × ℕ) :=
  (order.zipIdx.take m).foldl (fun (ranges : SortedMap ℕ (ℕ × ℕ)) e =>
      ranges.upsert (groupKey regionSets e.1) fun old =>
        match old with
        | some range => (range.1, nParams + e.2 + 1)
        | none => (nParams + e.2, nParams + e.2 + 1))
    .empty

theorem rangesAfter_succ {nParams m i : ℕ} {order : List ℕ} (hi : order[m]? = some i) :
    rangesAfter regionSets nParams order (m + 1) =
      (rangesAfter regionSets nParams order m).upsert (groupKey regionSets i) fun old =>
        match old with
        | some range => (range.1, nParams + m + 1)
        | none => (nParams + m, nParams + m + 1) := by
  have hzip : order.zipIdx[m]? = some (i, m) := by
    rw [List.getElem?_zipIdx, hi]
    simp
  rw [rangesAfter, List.take_add_one, hzip, List.foldl_append]
  rfl

/-- What the ranges say of the first `m` statements of the order. -/
structure RangesSoFar (regionSets : List (List ℕ)) (nParams : ℕ) (order : List ℕ) (m : ℕ)
    (ranges : SortedMap ℕ (ℕ × ℕ)) : Prop where
  present : ∀ k i, k < m → order[k]? = some i → ∃ r, ranges.get (groupKey regionSets i) = some r
  range : ∀ g s e, ranges.get g = some (s, e) → nParams ≤ s ∧ s < e ∧ e ≤ nParams + m ∧
    ∀ k i, k < m → order[k]? = some i →
      (s ≤ nParams + k ∧ nParams + k < e ↔ groupKey regionSets i = g)

theorem rangesSoFar_step {nParams m i : ℕ} {ranges : SortedMap ℕ (ℕ × ℕ)}
    (h : RangesSoFar regionSets nParams (hoistOrder regionSets n) m ranges)
    (hi : (hoistOrder regionSets n)[m]? = some i) :
    RangesSoFar regionSets nParams (hoistOrder regionSets n) (m + 1)
      (ranges.upsert (groupKey regionSets i) fun old =>
        match old with
        | some range => (range.1, nParams + m + 1)
        | none => (nParams + m, nParams + m + 1)) := by
  constructor
  · intro k j hk hj
    rw [SortedMap.get_upsert]
    split_ifs with hsame
    · exact ⟨_, rfl⟩
    · apply h.present k j _ hj
      rcases Nat.lt_succ_iff_lt_or_eq.mp hk with hlt | rfl
      · exact hlt
      · rw [hi] at hj
        cases hj
        exact absurd rfl hsame
  · intro g s e hget
    rw [SortedMap.get_upsert] at hget
    by_cases hsame : g = groupKey regionSets i
    · rw [if_pos hsame] at hget
      subst hsame
      cases hold : ranges.get (groupKey regionSets i) with
      | none =>
          rw [hold] at hget
          cases hget
          refine ⟨by omega, by omega, by omega, ?_⟩
          intro k j hk hj
          rcases Nat.lt_succ_iff_lt_or_eq.mp hk with hlt | rfl
          · obtain ⟨r, hr⟩ := h.present k j hlt hj
            constructor
            · omega
            · intro heq
              rw [heq, hold] at hr
              cases hr
          · rw [hi] at hj
            cases hj
            exact ⟨fun _ => rfl, fun _ => by omega⟩
      | some range =>
          obtain ⟨s', e'⟩ := range
          rw [hold] at hget
          cases hget
          obtain ⟨hstart, hlt, hend, hin⟩ := h.range _ _ _ hold
          refine ⟨hstart, by omega, by omega, ?_⟩
          -- the first statement of the range, with the new one, has all between in the group
          obtain ⟨k₀, rfl⟩ : ∃ k₀, s' = nParams + k₀ := ⟨s' - nParams, by omega⟩
          have hk₀ : k₀ < (hoistOrder regionSets n).length := by
            have hmlt := (List.getElem?_eq_some_iff.mp hi).1
            omega
          have hfirst := List.getElem?_eq_getElem hk₀
          have hfirstKey := (hin k₀ _ (by omega) hfirst).mp (by omega)
          intro k j hk hj
          constructor
          · intro hbetween
            exact groupKey_between (by omega) (Nat.le_of_lt_succ hk) hfirst hj hi hfirstKey
          · intro heq
            rcases Nat.lt_succ_iff_lt_or_eq.mp hk with hklt | rfl
            · have hrange := (hin k j hklt hj).mpr heq
              omega
            · omega
    · rw [if_neg hsame] at hget
      obtain ⟨hstart, hlt, hend, hin⟩ := h.range g s e hget
      refine ⟨hstart, hlt, by omega, ?_⟩
      intro k j hk hj
      rcases Nat.lt_succ_iff_lt_or_eq.mp hk with hklt | rfl
      · exact hin k j hklt hj
      · rw [hi] at hj
        cases hj
        constructor
        · omega
        · intro heq
          exact absurd heq.symm hsame

theorem rangesSoFar_regionRanges (nParams : ℕ) :
    RangesSoFar regionSets nParams (hoistOrder regionSets n) n
      (regionRanges regionSets nParams (hoistOrder regionSets n)) := by
  have hall : ∀ m ≤ n, RangesSoFar regionSets nParams (hoistOrder regionSets n) m
      (rangesAfter regionSets nParams (hoistOrder regionSets n) m) := by
    intro m
    induction m with
    | zero =>
        intro _
        exact ⟨fun k i hk => absurd hk (Nat.not_lt_zero k), nofun⟩
    | succ m ih =>
        intro hm
        have hlt : m < (hoistOrder regionSets n).length := by
          rw [length_hoistOrder]
          exact hm
        have hi := List.getElem?_eq_getElem hlt
        rw [rangesAfter_succ hi]
        exact rangesSoFar_step (ih (by omega)) hi
  have hend := hall n le_rfl
  rwa [rangesAfter, List.take_of_length_le (by rw [List.length_zipIdx, length_hoistOrder])] at hend

end

section
variable {P : Type}

/-- Every group has a range, and a range holds the statements of its group and no others. -/
structure RangesExact (block : IRBlock P) (sets : List (List ℕ)) (hoisted : Hoisted P) :
    Prop where
  present : ∀ p < block.stmts.length, ∃ r, hoisted.regionRanges.get (groupKey sets p) = some r
  range : ∀ g s e, hoisted.regionRanges.get g = some (s, e) →
    block.params.length ≤ s ∧ s < e ∧ e ≤ block.varSpace ∧
      ∀ p < block.stmts.length, let v := remapped hoisted.remap (block.params.length + p)
        (s ≤ v ∧ v < e ↔ groupKey sets p = g)

theorem rangesExact_hoist (block : IRBlock P) (sets : List (List ℕ)) :
    RangesExact block sets (hoistSharedStatementsOnce block sets) := by
  have hranges : (hoistSharedStatementsOnce block sets).regionRanges =
      regionRanges sets block.params.length (hoistOrder sets block.stmts.length) := by
    rw [hoistSharedStatementsOnce]
    dsimp only
    split_ifs <;> rfl
  have hremap : ∀ p < block.stmts.length,
      remapped (hoistSharedStatementsOnce block sets).remap (block.params.length + p) =
        block.params.length + hoistPlace sets block.stmts.length p := by
    intro p hp
    by_cases heq : hoistOrder sets block.stmts.length = List.range block.stmts.length
    · have hget := getElem?_hoistPlace sets hp
      rw [heq] at hget
      obtain ⟨hlt, hval⟩ := List.getElem?_eq_some_iff.mp hget
      rw [List.getElem_range] at hval
      rw [(hoistSharedStatementsOnce_of_eq heq).2, remapped_range, hval]
    · rw [(hoistSharedStatementsOnce_of_ne heq).2, remapped_hoistRemap_add hp]
  have hall : RangesSoFar sets block.params.length (hoistOrder sets block.stmts.length)
      block.stmts.length (regionRanges sets block.params.length
        (hoistOrder sets block.stmts.length)) := rangesSoFar_regionRanges block.params.length
  have hplace : ∀ p < block.stmts.length, hoistPlace sets block.stmts.length p <
      block.stmts.length := by
    intro p hp
    have hlt := (List.getElem?_eq_some_iff.mp (getElem?_hoistPlace sets hp)).1
    rwa [length_hoistOrder] at hlt
  rw [← hranges] at hall
  constructor
  · intro p hp
    exact hall.present _ p (hplace p hp) (getElem?_hoistPlace sets hp)
  · intro g s e hget
    obtain ⟨hstart, hlt, hend, hin⟩ := hall.range g s e hget
    refine ⟨hstart, hlt, hend, ?_⟩
    intro p hp
    dsimp only
    rw [hremap p hp]
    exact hin _ p (hplace p hp) (getElem?_hoistPlace sets hp)

/-- A block with labels as it comes to batching and hoisting. -/
structure HoistInput (table : TypeTable) (b : IRBlock P) (labels : List ℕ) : Prop where
  wellFormed : b.WellFormed
  typed : StmtsTyped table (b.params.map .data) b.kinds
  sorted : ∀ s ∈ b.kinds, MonomialsSorted s
  /-- The largest var id is free. -/
  space : b.varSpace ≤ u32Max
  labelled : Labelled b labels

/-- Hoisting after batching keeps operands defined before their use, computes what the batched
block computes and returns the ranges of the regions. -/
def HoistKeeps (table : TypeTable) (b : IRBlock P) (labels : List ℕ) : Prop :=
  let batched := batchBlock none table b
  let sets := regionSets labels b.params.length batched
  let hoisted := hoistSharedStatementsOnce batched.block sets
  hoisted.block.WellFormed ∧
    (∀ (world : Externals) (args : List (List Bool)) (σ : EvalState),
      ArgsFit batched.types b.params args → StorageFits batched.types σ →
        evalBlock batched.types world hoisted.block args σ =
          evalBlock batched.types world batched.block args σ) ∧
    RangesExact batched.block sets hoisted

def oneBitTable : TypeTable := ⟨[.primitive .bit]⟩

def twoProducts : IRBlock Unit where
  params := [⟨0⟩, ⟨0⟩]
  stmts := [
    .new (.const ⟨0, 1⟩ ⟨0⟩) (),
    .new (.poly ⟨0⟩ (.ofList [([1, 2], 1)]) .zero) (),
    .new (.poly ⟨0⟩ (.ofList [([0, 1], 1)]) .zero) ()]
  terminator := .jmp ⟨.ret, [3, 4]⟩

theorem twoProducts_labelled {first : ℕ} (h : first ∈ [0, 1]) :
    Labelled twoProducts [first, 1, 2] := by
  rw [List.mem_cons, List.mem_singleton] at h
  rcases h with rfl | rfl
  · exact ⟨by decide, by decide +kernel, by decide⟩
  · exact ⟨by decide, by decide +kernel, by decide⟩

theorem twoProducts_input {first : ℕ} (h : first ∈ [0, 1]) :
    HoistInput oneBitTable twoProducts [first, 1, 2] where
  wellFormed := by decide +kernel
  typed := by
    have hty : PolyType oneBitTable ⟨0⟩ := .bits (by decide) (by decide)
    have hgate : FactorTyped oneBitTable ⟨0⟩ ⟨0⟩ := .gate (by decide)
    refine ⟨trivial, ⟨hty, ?_⟩, ⟨hty, ?_⟩, trivial⟩
    · intro e he v hv
      refine ⟨⟨0⟩, ?_, hgate⟩
      revert v
      revert e
      decide +kernel
    · intro e he v hv
      refine ⟨⟨0⟩, ?_, hgate⟩
      revert v
      revert e
      decide +kernel
  sorted := by decide +kernel
  space := by decide
  labelled := twoProducts_labelled h

end
end VolarIR.Ir
