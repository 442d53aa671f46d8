import VolarIR.Vaffle.Eval
import VolarIR.Common.PolyCoeffsRuns

/-!
# Polynomials over bits

What a coefficient collection sums to, for the collections the builders make: from a list of
keys, by insertion or in bulk, where equal keys count once, and from folded terms.
-/
namespace VolarIR.Vaffle
open Common SortedMap

def polySum (on : ℕ → Bool) : List (List ℕ × U8) → Bool
  | [] => false
  | e :: rest => (e.2.getLsbD 0 && e.1.all on) ^^ polySum on rest

theorem polyBit_eq (coeffs : PolyCoeffs ℕ) (constant : Constant) (table : Table) (k : ℕ) :
    polyBit coeffs constant table k = (constant.bit k ^^
      polySum (fun v => (table.look v).bits.getD k false) coeffs.iter) := by
  unfold polyBit
  generalize constant.bit k = c
  generalize coeffs.iter = terms
  induction terms generalizing c with
  | nil => simp [polySum]
  | cons e rest ih =>
      rw [List.foldl_cons, ih, polySum]
      cases e.2.getLsbD 0 <;> simp

theorem polySum_put (on : ℕ → Bool) (key : List ℕ) {l : List (List ℕ × U8)} (hs : Sorted l)
    (hone : ∀ e ∈ l, e.2 = 1) :
    polySum on (upsertList key (fun _ => 1) l) =
      (polySum on l ^^ (if key ∈ l.map Prod.fst then false else key.all on)) := by
  induction l with
  | nil => simp [upsertList, polySum]
  | cons e rest ih =>
      have hhead := (List.pairwise_cons.mp hs).1
      have he : e.2 = 1 := hone e List.mem_cons_self
      have hput := ih (List.pairwise_cons.mp hs).2 fun b hb => hone b (List.mem_cons_of_mem e hb)
      rw [upsertList, List.map_cons]
      by_cases hlt : key < e.1
      · have hmem : key ∉ e.1 :: rest.map Prod.fst := by
          intro h
          rcases List.mem_cons.mp h with h | h
          · exact absurd hlt (h ▸ lt_irrefl _)
          · obtain ⟨b, hb, rfl⟩ := List.mem_map.mp h
            exact absurd (hhead b hb) hlt.not_gt
        have hodd : ((1 : U8).getLsbD 0 && key.all on) = key.all on := by simp
        rw [if_pos hlt, if_neg hmem, polySum, Bool.xor_comm, hodd]
      · rw [if_neg hlt]
        by_cases heq : key = e.1
        · have hmem : key ∈ e.1 :: rest.map Prod.fst := heq ▸ List.mem_cons_self
          rw [if_pos heq, if_pos hmem, polySum, polySum, he, Bool.xor_false]
        · have hmem : key ∈ e.1 :: rest.map Prod.fst ↔ key ∈ rest.map Prod.fst := by
            rw [List.mem_cons, or_iff_right heq]
          simp only [if_neg heq, polySum, hput, hmem, Bool.xor_assoc]

theorem mem_put {key : List ℕ} {c : U8} {l : List (List ℕ × U8)} {e : List ℕ × U8}
    (h : e ∈ upsertList key (fun _ => c) l) : e ∈ l ∨ e.2 = c := by
  induction l with
  | nil => exact Or.inr (by rw [List.mem_singleton.mp h])
  | cons b rest ih =>
      simp only [upsertList] at h
      split_ifs at h with hlt heq
      · rcases List.mem_cons.mp h with rfl | h
        · exact Or.inr rfl
        · exact Or.inl h
      · rcases List.mem_cons.mp h with rfl | h
        · exact Or.inr rfl
        · exact Or.inl (List.mem_cons_of_mem b h)
      · rcases List.mem_cons.mp h with rfl | h
        · exact Or.inl List.mem_cons_self
        · exact (ih h).imp_left (List.mem_cons_of_mem b)

theorem polySum_toggle (on : ℕ → Bool) (key : List ℕ) (l : List (List ℕ × U8)) :
    polySum on (upsertList key (fun o => o.getD 0 ^^^ 1) l) = (polySum on l ^^ key.all on) := by
  induction l with
  | nil => simp [upsertList, polySum]
  | cons e rest ih =>
      have hflip : ∀ v : U8, (v ^^^ 1).getLsbD 0 = !v.getLsbD 0 := by
        intro v
        rw [BitVec.getLsbD_xor]
        simp
      simp only [upsertList]
      split_ifs with hlt heq
      · rw [polySum]
        simp [Bool.xor_comm]
      · rw [polySum, polySum, Option.getD_some, hflip, heq]
        cases e.2.getLsbD 0 <;> cases e.1.all on <;> simp
      · rw [polySum, ih, polySum, Bool.xor_assoc]

def keySum (on : ℕ → Bool) : List (List ℕ) → Bool
  | [] => false
  | key :: earlier => keySum on earlier ^^ (if key ∈ earlier then false else key.all on)

def keyMap (keys : List (List ℕ)) : SortedMap (List ℕ) U8 := .ofList (keys.map fun key => (key, 1))

theorem keyMap_concat (keys : List (List ℕ)) (key : List ℕ) :
    keyMap (keys ++ [key]) = (keyMap keys).upsert key fun _ => 1 := by
  apply SortedMap.ext
  simp [keyMap, ofList, insertAll]

theorem mem_keyMap {keys : List (List ℕ)} {key : List ℕ} :
    key ∈ (keyMap keys).entries.map Prod.fst ↔ key ∈ keys := by
  rw [keyMap, mem_keys_ofList, List.map_map]
  simp [Function.comp_def]

theorem keyMap_one {keys : List (List ℕ)} : ∀ e ∈ (keyMap keys).entries, e.2 = 1 := by
  induction keys using List.reverseRecOn with
  | nil => simp [keyMap, ofList, insertAll]
  | append_singleton keys key ih =>
      intro e he
      rw [keyMap_concat] at he
      exact (mem_put he).elim (ih e) id

theorem polySum_keyMap (on : ℕ → Bool) (keys : List (List ℕ)) :
    polySum on (keyMap keys).entries = keySum on keys.reverse := by
  induction keys using List.reverseRecOn with
  | nil => rfl
  | append_singleton keys key ih =>
      have hmem : key ∈ (keyMap keys).entries.map Prod.fst ↔ key ∈ keys.reverse := by
        rw [mem_keyMap, List.mem_reverse]
      rw [keyMap_concat, entries_upsert, polySum_put on key (keyMap keys).sorted keyMap_one, ih,
        List.reverse_append, List.reverse_singleton, List.singleton_append, keySum]
      simp only [hmem]

theorem iter_fromIter {keys : List (List ℕ)} (h : PolyKey.Aligned keys) :
    (PolyCoeffs.fromIter (keys.map fun key => (key, (1 : U8)))).iter = (keyMap keys).entries := by
  have hkeys : (keys.map fun key => (key, (1 : U8))).map Prod.fst = keys := by
    rw [List.map_map]
    exact List.map_id keys
  exact PolyCoeffs.Represents.iter (PolyCoeffs.represents_fromIter (hkeys.symm ▸ h))

theorem represents_monomials (keys : List (List ℕ)) :
    (VaffleTarget.monomials keys).Represents (keyMap keys) := by
  induction keys using List.reverseRecOn with
  | nil => rfl
  | append_singleton keys key ih =>
      rw [keyMap_concat, VaffleTarget.monomials, List.foldl_append]
      exact (ih.insert key 1).2

theorem iter_monomials (keys : List (List ℕ)) :
    (VaffleTarget.monomials keys).iter = (keyMap keys).entries := (represents_monomials keys).iter

theorem sortPair_eq_iff {a b c d : ℕ} :
    sortPair a b = sortPair c d ↔ (a = c ∧ b = d) ∨ (a = d ∧ b = c) := by
  unfold sortPair
  split <;> split <;> simp <;> omega

theorem aligned_of_length {keys : List (List ℕ)} {n : ℕ} (h : ∀ key ∈ keys, key.length = n) :
    PolyKey.Aligned keys := by
  intro k hk k' hk' hone hmany
  rw [h k hk] at hone
  rw [h k' hk'] at hmany
  exact absurd hone hmany

theorem keySum_singles (on : ℕ → Bool) {a b : ℕ} (h : ¬(a = b ∧ on a = true)) :
    keySum on [[b], [a]] = (on a ^^ on b) := by
  by_cases hab : a = b
  · have hoff : on b = false := by
      rw [hab] at h
      simpa using h
    simp [keySum, hab, hoff]
  · simp [keySum, Ne.symm hab]

/-- The majority, unless two of the pairs are the same monomial and it is on. -/
theorem keySum_pairs (on : ℕ → Bool) {a b c : ℕ}
    (h : ¬((a = b ∨ a = c ∨ b = c) ∧ ¬(a = b ∧ b = c) ∧
      on a = true ∧ on b = true ∧ on c = true)) :
    keySum on [sortPair b c, sortPair a c, sortPair a b] =
      ((on a && on b) ^^ ((on a && on c) ^^ (on b && on c))) := by
  simp only [keySum, List.mem_cons, List.not_mem_nil, or_false, sortPair_eq_iff, all_sortPair]
  by_cases hab : a = b
  · subst hab
    by_cases hac : a = c
    · subst hac
      simp
    · have hoff : on a = true → on c = false := by simpa [hac] using h
      cases ha : on a
      · simp
      · simp [hoff ha]
  · by_cases hac : a = c
    · subst hac
      have hoff : on a = true → on b = false := by
        intro ha
        simpa [hab, Ne.symm hab, ha] using h
      cases ha : on a
      · simp
      · simp [hoff ha, hab]
    · by_cases hbc : b = c
      · subst hbc
        have hoff : on a = true → on b = false := by simpa [hab] using h
        cases ha : on a
        · simp [Ne.symm hab]
        · simp [hab, hoff ha]
      · simp [hab, hbc, Ne.symm hab, Ne.symm hac, Ne.symm hbc]

end VolarIR.Vaffle
