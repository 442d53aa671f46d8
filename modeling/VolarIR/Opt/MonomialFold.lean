import VolarIR.Common.PolyCoeffsSound
import VolarIR.Ir.Valuation
import VolarIR.Opt.ConstantBits

/-!
# Folding one monomial

What dropping, sorting and merging the factors of a monomial does to its product, and what
entering it into the new coefficients does to their sum.
-/
namespace VolarIR.Opt
open Ir Common

section
variable {V : Type} [LinearOrder V] {idempotent : V → Bool}

theorem mem_foldl_collapse {vars acc : List V} {v : V} :
    v ∈ vars.foldl (fun deduped v =>
      if idempotent v && decide (deduped.getLast? = some v) then deduped else deduped ++ [v]) acc ↔
      v ∈ acc ∨ v ∈ vars := by
  induction vars generalizing acc with
  | nil => simp
  | cons u rest ih =>
      rw [List.foldl_cons, ih]
      split_ifs with h
      · rw [Bool.and_eq_true, decide_eq_true_iff] at h
        have hu : u ∈ acc := List.mem_of_getLast? h.2
        rw [List.mem_cons]
        constructor
        · rintro (hv | hv)
          · exact .inl hv
          · exact .inr (.inr hv)
        · rintro (hv | rfl | hv)
          · exact .inl hv
          · exact .inl hu
          · exact .inr hv
      · rw [List.mem_append, List.mem_singleton, List.mem_cons, or_assoc]

theorem mem_collapse {key : List V} {v : V} : v ∈ collapse idempotent key ↔ v ∈ key := by
  rw [collapse, mem_foldl_collapse, List.mem_insertionSort]
  simp

theorem isEmpty_collapse (key : List V) : (collapse idempotent key).isEmpty = key.isEmpty := by
  rw [Bool.eq_iff_iff, List.isEmpty_iff, List.isEmpty_iff, List.eq_nil_iff_forall_not_mem,
    List.eq_nil_iff_forall_not_mem]
  exact forall_congr' fun v => not_congr mem_collapse

theorem pairwise_collapse (key : List V) : (collapse (fun _ => true) key).Pairwise (· < ·) := by
  have hsorted := List.pairwise_insertionSort (· ≤ ·) key
  have hfold : ∀ vars acc : List V, vars.Pairwise (· ≤ ·) → acc.Pairwise (· < ·) →
      (∀ a ∈ acc, ∀ v ∈ vars, a ≤ v) → (vars.foldl (fun deduped v =>
        if true && decide (deduped.getLast? = some v) then deduped else deduped ++ [v])
        acc).Pairwise (· < ·) := by
    intro vars
    induction vars with
    | nil => exact fun acc _ hacc _ => hacc
    | cons u rest ih =>
        intro acc hvars hacc hle
        rw [List.foldl_cons]
        have hrest := (List.pairwise_cons.mp hvars).2
        split_ifs with h
        · exact ih acc hrest hacc fun a ha v hv => hle a ha v (List.mem_cons_of_mem u hv)
        · apply ih _ hrest
          · rw [List.pairwise_append]
            refine ⟨hacc, List.pairwise_singleton _ _, ?_⟩
            intro a ha v hv
            obtain rfl := List.mem_singleton.mp hv
            have hav := hle a ha v List.mem_cons_self
            apply lt_of_le_of_ne hav
            rintro rfl
            -- the greatest var so far is the last one
            obtain ⟨last, hlast⟩ : ∃ last, acc.getLast? = some last :=
              Option.isSome_iff_exists.mp (by
                rw [List.getLast?_isSome]
                exact List.ne_nil_of_mem ha)
            have hlastMem := List.mem_of_getLast? hlast
            have hmax : a ≤ last := by
              obtain ⟨init, rfl⟩ := List.getLast?_eq_some_iff.mp hlast
              rcases List.mem_append.mp ha with hinit | hsingle
              · exact ((List.pairwise_append.mp hacc).2.2 a hinit last
                  (List.mem_singleton_self last)).le
              · exact (List.mem_singleton.mp hsingle).le
            have heq : last = a := le_antisymm (hle last hlastMem a List.mem_cons_self) hmax
            rw [hlast, heq] at h
            simp at h
          · intro a ha v hv
            rcases List.mem_append.mp ha with ha | ha
            · exact hle a ha v (List.mem_cons_of_mem u hv)
            · obtain rfl := List.mem_singleton.mp ha
              exact (List.pairwise_cons.mp hvars).1 v hv
  exact hfold _ [] hsorted List.Pairwise.nil (by simp)

variable {R : Type} [CommRing R] {y : V → R}

theorem prod_collapse (idempotent : V → Bool) (key : List V)
    (hidem : ∀ v ∈ key, idempotent v = true → y v * y v = y v) :
    ((collapse idempotent key).map y).prod = (key.map y).prod := by
  have hfold : ∀ vars acc : List V, (∀ v ∈ vars, idempotent v = true → y v * y v = y v) →
      ((vars.foldl (fun deduped v =>
        if idempotent v && decide (deduped.getLast? = some v) then deduped else deduped ++ [v])
        acc).map y).prod = (acc.map y).prod * (vars.map y).prod := by
    intro vars
    induction vars with
    | nil => simp
    | cons u rest ih =>
        intro acc hvars
        have hrest := fun acc => ih acc fun v hv => hvars v (List.mem_cons_of_mem u hv)
        rw [List.foldl_cons, List.map_cons, List.prod_cons]
        split_ifs with h
        · rw [Bool.and_eq_true, decide_eq_true_iff] at h
          obtain ⟨init, rfl⟩ := List.getLast?_eq_some_iff.mp h.2
          rw [hrest, List.map_append, List.prod_append, List.map_singleton, List.prod_singleton,
            mul_assoc, mul_assoc, ← mul_assoc (y u), hvars u List.mem_cons_self h.1]
        · rw [hrest, List.map_append, List.prod_append, List.map_singleton, List.prod_singleton,
            mul_assoc]
  have hperm : (key.insertionSort (· ≤ ·)).Perm key := List.perm_insertionSort _ key
  rw [collapse, hfold _ [] fun v hv => hidem v (List.mem_insertionSort _ |>.mp hv),
    (hperm.map y).prod_eq]
  simp

end

section
variable {table : TypeTable} {V : Type} {constMap : V → Option Constant}
  {typeMap : V → Option TypeId} {R : Type} [CommRing R] {y : V → R}

/-- What remains of an AND; `bad` marks vars that are zero although they are dropped. -/
theorem simplifyKey_spec (bad : V → Bool) {key : List V}
    (hzero : ∀ v ∈ key, ∀ c, constMap v = some c →
      constantIsZero (andFactor table typeMap v c).2 = true → y v = 0)
    (hones : ∀ v ∈ key, ∀ c, constMap v = some c → bad v = false →
      constantIsAllOnes (andFactor table typeMap v c).2 (andFactor table typeMap v c).1 = true →
      y v = 1)
    (hbad : ∀ v ∈ key, bad v = true → y v = 0) :
    match simplifyKey table constMap typeMap key with
    | none => (key.map y).prod = 0
    | some newKey => (key.map y).prod = if key.any bad then 0 else (newKey.map y).prod := by
  induction key with
  | nil => rfl
  | cons v rest ih =>
      have hrest := ih (fun u hu => hzero u (List.mem_cons_of_mem v hu))
        (fun u hu => hones u (List.mem_cons_of_mem v hu))
        (fun u hu => hbad u (List.mem_cons_of_mem v hu))
      -- a var that stays in front of what remains of the others
      have hkeep : match (simplifyKey table constMap typeMap rest).map (v :: ·) with
          | none => ((v :: rest).map y).prod = 0
          | some newKey => ((v :: rest).map y).prod =
              if (v :: rest).any bad then 0 else (newKey.map y).prod := by
        rw [List.map_cons, List.prod_cons, List.any_cons]
        cases hkey : simplifyKey table constMap typeMap rest with
        | none =>
            rw [hkey] at hrest
            exact hrest.symm ▸ mul_zero _
        | some newKey =>
            rw [hkey] at hrest
            dsimp only [Option.map_some] at hrest ⊢
            rw [hrest, List.map_cons, List.prod_cons]
            cases hv : bad v with
            | true => simp [hbad v List.mem_cons_self hv]
            | false => rw [Bool.false_or, mul_ite, mul_zero]
      rw [simplifyKey]
      cases hc : constMap v with
      | some c =>
          dsimp only
          by_cases hz : constantIsZero (andFactor table typeMap v c).2 = true
          · rw [if_pos hz]
            change _ = _
            rw [List.map_cons, List.prod_cons, hzero v List.mem_cons_self c hc hz, zero_mul]
          · rw [if_neg hz]
            by_cases ho : constantIsAllOnes (andFactor table typeMap v c).2
                (andFactor table typeMap v c).1 = true
            · rw [if_pos ho]
              cases hkey : simplifyKey table constMap typeMap rest with
              | none =>
                  rw [hkey] at hrest
                  change _ = _ at hrest
                  change _ = _
                  rw [List.map_cons, List.prod_cons, hrest, mul_zero]
              | some newKey =>
                  rw [hkey] at hrest
                  change _ = _ at hrest
                  change _ = _
                  rw [List.map_cons, List.prod_cons, List.any_cons, hrest]
                  cases hv : bad v with
                  | true => simp [hbad v List.mem_cons_self hv]
                  | false => simp [hones v List.mem_cons_self c hc hv ho]
            · rw [if_neg ho]
              exact hkeep
      | none => exact hkeep

theorem simplifyKey_sublist {key newKey : List V}
    (h : simplifyKey table constMap typeMap key = some newKey) : newKey.Sublist key := by
  induction key generalizing newKey with
  | nil =>
      cases h
      exact List.Sublist.slnil
  | cons v rest ih =>
      have hkeep : (simplifyKey table constMap typeMap rest).map (v :: ·) = some newKey →
          newKey.Sublist (v :: rest) := by
        intro hmap
        obtain ⟨kept, hkept, rfl⟩ := Option.map_eq_some_iff.mp hmap
        exact (ih hkept).cons_cons v
      rw [simplifyKey] at h
      split at h
      · dsimp only at h
        split_ifs at h
        · exact (ih h).cons v
        · exact hkeep h
      · exact hkeep h

theorem simplifyKey_const {key newKey : List V}
    (h : simplifyKey table constMap typeMap key = some newKey) {v : V} (hv : v ∈ newKey)
    {c : Constant} (hc : constMap v = some c) :
    constantIsZero (andFactor table typeMap v c).2 = false ∧
      constantIsAllOnes (andFactor table typeMap v c).2 (andFactor table typeMap v c).1 =
        false := by
  induction key generalizing newKey with
  | nil =>
      cases h
      cases hv
  | cons u rest ih =>
      rw [simplifyKey] at h
      split at h
      · next d hd =>
          dsimp only at h
          split_ifs at h with hz ho
          · exact ih h hv
          · obtain ⟨kept, hkept, rfl⟩ := Option.map_eq_some_iff.mp h
            rcases List.mem_cons.mp hv with rfl | hv
            · cases hc.symm.trans hd
              exact ⟨Bool.eq_false_iff.mpr hz, Bool.eq_false_iff.mpr ho⟩
            · exact ih hkept hv
      · next hd =>
          obtain ⟨kept, hkept, rfl⟩ := Option.map_eq_some_iff.mp h
          rcases List.mem_cons.mp hv with rfl | hv
          · cases hc.symm.trans hd
          · exact ih hkept hv

/-- What remains of a product: the vars that stay multiply to it, and when only constants are
left their factors are these vars. -/
theorem simplifyFactors_spec {key : List V} {f : V → Factor Bool}
    (hzero : ∀ v ∈ key, ∀ c fty, constMap v = some c → typeMap v = some fty →
      constantIsZero (maskConstant c ((table.valueBitWidth fty).getD 1)) = true → y v = 0)
    (hone : ∀ v ∈ key, ∀ c fty, constMap v = some c → typeMap v = some fty →
      constantIsMulIdentity table (maskConstant c ((table.valueBitWidth fty).getD 1)) fty = true →
      y v = 1)
    (hconst : ∀ v ∈ key, ∀ c fty, constMap v = some c → typeMap v = some fty →
      f v = (fty, constBits (maskConstant c ((table.valueBitWidth fty).getD 1))
        ((table.valueBitWidth fty).getD 1))) :
    match simplifyFactors table constMap typeMap key with
    | none => (key.map y).prod = 0
    | some s => (key.map y).prod = (s.newKey.map y).prod ∧ s.newKey.Sublist key ∧
        (s.allConstant = true → s.constFactors = s.newKey.map f) ∧
        (s.newKey = [] → s.allConstant = true) := by
  induction key with
  | nil => exact ⟨rfl, List.Sublist.slnil, fun _ => rfl, fun _ => rfl⟩
  | cons v rest ih =>
      have hrest := ih (fun u hu => hzero u (List.mem_cons_of_mem v hu))
        (fun u hu => hone u (List.mem_cons_of_mem v hu))
        (fun u hu => hconst u (List.mem_cons_of_mem v hu))
      -- a var that stays, and is no constant
      have hkeep : match (simplifyFactors table constMap typeMap rest).map fun s => { s with
            newKey := v :: s.newKey
            allConstant := false } with
          | none => ((v :: rest).map y).prod = 0
          | some s => ((v :: rest).map y).prod = (s.newKey.map y).prod ∧
              s.newKey.Sublist (v :: rest) ∧
              (s.allConstant = true → s.constFactors = s.newKey.map f) ∧
              (s.newKey = [] → s.allConstant = true) := by
        cases hkey : simplifyFactors table constMap typeMap rest with
        | none =>
            rw [hkey] at hrest
            change _ = _ at hrest
            change _ = _
            rw [List.map_cons, List.prod_cons, hrest, mul_zero]
        | some s =>
            rw [hkey] at hrest
            refine ⟨?_, hrest.2.1.cons_cons v, nofun, nofun⟩
            dsimp only
            rw [List.map_cons, List.prod_cons, hrest.1, List.map_cons, List.prod_cons]
      rw [simplifyFactors]
      cases hty : typeMap v with
      | none => exact hkeep
      | some fty =>
          cases hc : constMap v with
          | none => exact hkeep
          | some c =>
              have hz := hzero v List.mem_cons_self c fty hc hty
              have ho := hone v List.mem_cons_self c fty hc hty
              have hf := hconst v List.mem_cons_self c fty hc hty
              dsimp only
              split_ifs with hzeroIf honeIf
              · rw [List.map_cons, List.prod_cons, hz hzeroIf, zero_mul]
              · rw [List.map_cons, List.prod_cons, ho honeIf, one_mul]
                cases hkey : simplifyFactors table constMap typeMap rest with
                | none =>
                    rw [hkey] at hrest
                    exact hrest
                | some s =>
                    rw [hkey] at hrest
                    exact ⟨hrest.1, hrest.2.1.cons v, hrest.2.2⟩
              · cases hkey : simplifyFactors table constMap typeMap rest with
                | none =>
                    rw [hkey] at hrest
                    change _ = _ at hrest
                    change _ = _
                    rw [List.map_cons, List.prod_cons, hrest, mul_zero]
                | some s =>
                    rw [hkey] at hrest
                    refine ⟨?_, hrest.2.1.cons_cons v, ?_, nofun⟩
                    · dsimp only
                      rw [List.map_cons, List.prod_cons, hrest.1, List.map_cons, List.prod_cons]
                    · intro hall
                      dsimp only at hall ⊢
                      rw [hrest.2.2.1 hall, List.map_cons, hf]

end

section
variable {V : Type} [LinearOrder V] {c : Common.PolyCoeffs V}

def IsMap (c : Common.PolyCoeffs V) : Prop :=
  ∃ m : SortedMap (List V) U8, PolyCoeffs.Represents c m

theorem isMap_new : IsMap (PolyCoeffs.new : Common.PolyCoeffs V) := ⟨SortedMap.empty, rfl⟩

omit [LinearOrder V] in
theorem iter_retain (c : Common.PolyCoeffs V) (keep : U8 → Bool) :
    (c.retain fun _ _ coeff => (coeff, keep coeff)).iter = c.iter.filter fun e => keep e.2 := by
  have hmap : ∀ l : List (PolyKey V × BitVec 8),
      ((l.mapIdx fun _ e => ((e.1, e.2), keep e.2)).filterMap
        fun e => if e.2 then some e.1 else none) = l.filter fun e => keep e.2 := by
    intro l
    induction l with
    | nil => rfl
    | cons e rest ih =>
        rw [List.mapIdx_cons, List.filterMap_cons, ih, List.filter_cons]
        cases keep e.2 <;> rfl
  rw [PolyCoeffs.iter, PolyCoeffs.retain, hmap, PolyCoeffs.iter, List.filter_map]
  rfl

variable {R : Type} [CommRing R] {y : V → R}

def monomialAt (y : V → R) (key : List V) (coeff : U8) : R :=
  (coeff.toNat : R) * (key.map y).prod

omit [LinearOrder V] in
theorem sumAt_eq_total (terms : List (List V × U8)) :
    sumAt y terms = SortedMap.total (monomialAt y) terms := rfl

omit [LinearOrder V] in
theorem sumAt_filter {terms : List (List V × U8)} {keep : U8 → Bool}
    (h : ∀ coeff : U8, keep coeff = false → (coeff.toNat : R) = 0) :
    sumAt y (terms.filter fun e => keep e.2) = sumAt y terms := by
  apply SortedMap.total_filter (g := monomialAt y)
  intro e _ he
  rw [monomialAt, h e.2 he, zero_mul]

theorem IsMap.entryXor (h : IsMap c) (htwo : (2 : R) = 0) (key : List V) (coeff : U8) :
    IsMap (c.entryOrInsert key 0 (· ^^^ coeff)) ∧
      (∀ e ∈ (c.entryOrInsert key 0 (· ^^^ coeff)).iter, e.1 = key ∨ e.1 ∈ c.keys) ∧
      sumAt y (c.entryOrInsert key 0 (· ^^^ coeff)).iter =
        sumAt y c.iter + monomialAt y key coeff := by
  obtain ⟨m, hm⟩ := h
  have hnext := hm.entryOrInsert key 0 (· ^^^ coeff)
  refine ⟨⟨_, hnext⟩, ?_, ?_⟩
  · intro e he
    rw [hnext.iter, SortedMap.entries_upsert] at he
    rw [hm.keys]
    exact SortedMap.mem_keys_upsertList.mp (List.mem_map_of_mem he)
  · have hparity : ∀ a b : U8, ((a ^^^ b).toNat : R) = a.toNat + b.toNat := by
      intro a b
      rw [cast_toNat_of_two htwo, cast_toNat_of_two htwo, cast_toNat_of_two htwo]
      have hodd : odd (a ^^^ b) = (odd a ^^ odd b) := BitVec.getLsbD_xor
      have hsum : (1 : R) + 1 = 0 := by rwa [one_add_one_eq_two]
      rw [hodd]
      cases odd a <;> cases odd b <;> simp [hsum]
    rw [hnext.iter, hm.iter, SortedMap.entries_upsert, sumAt_eq_total, sumAt_eq_total]
    apply SortedMap.total_upsertList
    · have hzero : ((0 : U8).toNat : R) = 0 := Nat.cast_zero
      rw [Option.getD_none, monomialAt, hparity, hzero, zero_add]
      rfl
    · intro v
      rw [Option.getD_some, monomialAt, hparity, add_mul]
      rfl

theorem IsMap.insert (h : IsMap c) (key : List V) (coeff add : U8)
    (hadd : (coeff.toNat : R) = (c.get key).elim 0 (fun prev => (prev.toNat : R)) + add.toNat) :
    IsMap (c.insert key coeff).2 ∧
      (∀ e ∈ (c.insert key coeff).2.iter, e.1 = key ∨ e.1 ∈ c.keys) ∧
      sumAt y (c.insert key coeff).2.iter = sumAt y c.iter + monomialAt y key add := by
  obtain ⟨m, hm⟩ := h
  have hnext := (hm.insert key coeff).2
  refine ⟨⟨_, hnext⟩, ?_, ?_⟩
  · intro e he
    rw [hnext.iter, SortedMap.entries_upsert] at he
    rw [hm.keys]
    exact SortedMap.mem_keys_upsertList.mp (List.mem_map_of_mem he)
  · rw [hm.get] at hadd
    have hold := SortedMap.total_eq_add_erase (g := monomialAt y) m key
    have hnew := SortedMap.total_eq_add_erase (g := monomialAt y)
      (m.upsert key fun _ => coeff) key
    rw [SortedMap.erase_upsert, SortedMap.get_upsert, if_pos rfl, Option.elim_some] at hnew
    rw [hnext.iter, hm.iter, sumAt_eq_total, sumAt_eq_total, hnew, hold]
    unfold monomialAt
    rw [hadd]
    cases m.get key with
    | none =>
        rw [Option.elim_none, Option.elim_none]
        ring
    | some prev =>
        rw [Option.elim_some, Option.elim_some]
        ring

theorem IsMap.remove (h : IsMap c) (key : List V) (add : U8)
    (hadd : (0 : R) = (c.get key).elim 0 (fun prev => (prev.toNat : R)) + add.toNat) :
    IsMap (c.remove key).2 ∧ (∀ e ∈ (c.remove key).2.iter, e.1 ∈ c.keys) ∧
      sumAt y (c.remove key).2.iter = sumAt y c.iter + monomialAt y key add := by
  obtain ⟨m, hm⟩ := h
  have hnext := (hm.remove key).2
  refine ⟨⟨_, hnext⟩, ?_, ?_⟩
  · intro e he
    rw [hnext.iter, SortedMap.erase, SortedMap.entries_filter] at he
    rw [hm.keys]
    exact List.mem_map_of_mem (List.mem_of_mem_filter he)
  · rw [hm.get] at hadd
    have hold := SortedMap.total_eq_add_erase (g := monomialAt y) m key
    have hcount : (m.get key).elim 0 (monomialAt y key) =
        (m.get key).elim 0 (fun prev => (prev.toNat : R)) * (key.map y).prod := by
      cases m.get key with
      | none => exact (zero_mul _).symm
      | some prev => rfl
    rw [hnext.iter, hm.iter, sumAt_eq_total, sumAt_eq_total, hold, hcount, monomialAt,
      add_right_comm, ← add_mul, ← hadd, zero_mul, zero_add]

end

end VolarIR.Opt
