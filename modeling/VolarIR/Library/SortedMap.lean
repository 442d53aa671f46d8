import Mathlib.Algebra.BigOperators.Group.Finset.Basic
import Mathlib.Algebra.BigOperators.Group.Finset.Piecewise
import Mathlib.Data.List.Lex
import Mathlib.Data.List.Sort

/-!
# Sorted association lists

A finite map kept as its entries in strictly increasing key order, so that two maps with the
same entries are equal. `upsert` is the one operation that touches a key: it replaces what
the key holds, or makes an entry for it.
-/
namespace SortedMap
variable {K V W : Type} [LinearOrder K]

def Sorted (entries : List (K × V)) : Prop := entries.Pairwise fun a b => a.1 < b.1

instance (entries : List (K × V)) : Decidable (Sorted entries) :=
  inferInstanceAs (Decidable (List.Pairwise _ _))

/-- Rewrite the entry of `key`, or make one at its place. -/
def upsertList (key : K) (f : Option V → V) : List (K × V) → List (K × V)
  | [] => [(key, f none)]
  | (k, v) :: rest =>
      if key < k then (key, f none) :: (k, v) :: rest
      else if key = k then (k, f (some v)) :: rest
      else (k, v) :: upsertList key f rest

theorem mem_keys_upsertList {key k : K} {f : Option V → V} {l : List (K × V)} :
    k ∈ (upsertList key f l).map Prod.fst ↔ k = key ∨ k ∈ l.map Prod.fst := by
  induction l with
  | nil => simp [upsertList]
  | cons e rest ih =>
      simp only [upsertList]
      split_ifs with hlt heq
      · simp
      · simp [heq]
      · rw [List.map_cons, List.mem_cons, ih, List.map_cons, List.mem_cons]
        tauto

theorem sorted_upsertList {key : K} {f : Option V → V} {l : List (K × V)} (h : Sorted l) :
    Sorted (upsertList key f l) := by
  induction l with
  | nil => exact List.pairwise_singleton _ _
  | cons e rest ih =>
      have hhead := (List.pairwise_cons.mp h).1
      have hrest := (List.pairwise_cons.mp h).2
      simp only [upsertList]
      split_ifs with hlt heq
      · apply List.pairwise_cons.mpr ⟨?_, h⟩
        intro b hb
        rcases List.mem_cons.mp hb with rfl | hb
        · exact hlt
        · exact hlt.trans (hhead b hb)
      · exact List.pairwise_cons.mpr ⟨hhead, hrest⟩
      · apply List.pairwise_cons.mpr ⟨?_, ih hrest⟩
        intro b hb
        have hkey := mem_keys_upsertList.mp (List.mem_map_of_mem (f := Prod.fst) hb)
        rcases hkey with hb | hb
        · rw [hb]
          exact lt_of_le_of_ne (not_lt.mp hlt) (Ne.symm heq)
        · have hmem := List.mem_map.mp hb
          exact hmem.choose_spec.2 ▸ hhead _ hmem.choose_spec.1

theorem lookup_cons_ite (k : K) (e : K × V) (l : List (K × V)) :
    (e :: l).lookup k = if k = e.1 then some e.2 else l.lookup k := by
  rw [List.lookup_cons]
  by_cases h : k = e.1
  · rw [if_pos h, h, beq_self_eq_true]
  · rw [if_neg h, beq_false_of_ne h]

theorem lookup_of_lt {k : K} {l : List (K × V)} (h : ∀ e ∈ l, k < e.1) : l.lookup k = none := by
  apply List.lookup_eq_none_iff.mpr
  intro e he
  exact bne_iff_ne.mpr (ne_of_lt (h e he))

theorem lookup_upsertList {key k : K} {f : Option V → V} {l : List (K × V)} (h : Sorted l) :
    (upsertList key f l).lookup k = if k = key then some (f (l.lookup key)) else l.lookup k := by
  induction l with
  | nil => rw [upsertList, lookup_cons_ite, List.lookup_nil, List.lookup_nil]
  | cons e rest ih =>
      have hhead := (List.pairwise_cons.mp h).1
      have hrest := ih (List.pairwise_cons.mp h).2
      rw [upsertList]
      by_cases hlt : key < e.1
      · have hnone : (e :: rest).lookup key = none := by
          apply lookup_of_lt
          intro b hb
          rcases List.mem_cons.mp hb with rfl | hb
          · exact hlt
          · exact hlt.trans (hhead b hb)
        rw [if_pos hlt, lookup_cons_ite, hnone]
      · rw [if_neg hlt]
        by_cases heq : key = e.1
        · rw [if_pos heq, lookup_cons_ite, lookup_cons_ite key, if_pos heq, lookup_cons_ite k, heq]
          split_ifs <;> rfl
        · rw [if_neg heq, lookup_cons_ite, hrest, lookup_cons_ite key, if_neg heq,
            lookup_cons_ite k]
          by_cases hk : k = e.1
          · have hne : k ≠ key := fun h => heq (h.symm.trans hk)
            rw [if_pos hk, if_neg hne, if_pos hk]
          · rw [if_neg hk, if_neg hk]

theorem upsertList_append {key : K} {f : Option V → V} {l : List (K × V)}
    (h : ∀ e ∈ l, e.1 < key) : upsertList key f l = l ++ [(key, f none)] := by
  induction l with
  | nil => rfl
  | cons e rest ih =>
      have he := h e List.mem_cons_self
      rw [upsertList, if_neg he.not_gt, if_neg (ne_of_gt he),
        ih fun b hb => h b (List.mem_cons_of_mem e hb), List.cons_append]

theorem perm_upsertList {key : K} {f : Option V → V} {l : List (K × V)}
    (h : key ∉ l.map Prod.fst) : (upsertList key f l).Perm ((key, f none) :: l) := by
  induction l with
  | nil => exact .refl _
  | cons e rest ih =>
      rw [List.map_cons, List.mem_cons, not_or] at h
      rw [upsertList, if_neg h.1]
      split
      · exact .refl _
      · exact ((ih h.2).cons e).trans (.swap _ _ _)

theorem upsertList_upsertList (key : K) (v : V) (l : List (K × V)) :
    upsertList key (fun _ => v) (upsertList key (fun _ => v) l) =
      upsertList key (fun _ => v) l := by
  induction l with
  | nil => simp [upsertList]
  | cons e rest ih =>
      rw [upsertList]
      by_cases hlt : key < e.1
      · rw [if_pos hlt, upsertList, if_neg (lt_irrefl _), if_pos rfl]
      · rw [if_neg hlt]
        by_cases heq : key = e.1
        · rw [if_pos heq, upsertList, if_neg hlt, if_pos heq]
        · rw [if_neg heq, upsertList, if_neg hlt, if_neg heq, ih]

def insertAll (acc : List (K × V)) (l : List (K × V)) : List (K × V) :=
  l.foldl (fun acc e => upsertList e.1 (fun _ => e.2) acc) acc

theorem sorted_insertAll {acc l : List (K × V)} (h : Sorted acc) : Sorted (insertAll acc l) := by
  induction l generalizing acc with
  | nil => exact h
  | cons e rest ih => exact ih (sorted_upsertList h)

theorem mem_keys_insertAll {k : K} {acc l : List (K × V)} :
    k ∈ (insertAll acc l).map Prod.fst ↔ k ∈ acc.map Prod.fst ∨ k ∈ l.map Prod.fst := by
  induction l generalizing acc with
  | nil => simp [insertAll]
  | cons e rest ih =>
      have hstep : insertAll acc (e :: rest) = insertAll (upsertList e.1 (fun _ => e.2) acc) rest :=
        rfl
      rw [hstep, ih, mem_keys_upsertList, List.map_cons, List.mem_cons]
      tauto

theorem insertAll_of_sorted {acc l : List (K × V)} (h : Sorted (acc ++ l)) :
    insertAll acc l = acc ++ l := by
  induction l generalizing acc with
  | nil => simp [insertAll]
  | cons e rest ih =>
      have hlt : ∀ b ∈ acc, b.1 < e.1 := fun b hb =>
        (List.pairwise_append.mp h).2.2 b hb e List.mem_cons_self
      have hsplit : acc ++ e :: rest = (acc ++ [e]) ++ rest := by simp
      have hstep : insertAll acc (e :: rest) = insertAll (acc ++ [e]) rest := by
        rw [insertAll, List.foldl_cons, upsertList_append hlt]
        rfl
      rw [hsplit] at h ⊢
      rw [hstep]
      exact ih h

section
omit [LinearOrder K]
variable {M : Type} [AddCommMonoid M]

def total (g : K → V → M) (l : List (K × V)) : M := (l.map fun e => g e.1 e.2).sum

@[simp] theorem total_nil (g : K → V → M) : total g [] = 0 := rfl

@[simp] theorem total_cons (g : K → V → M) (e : K × V) (l : List (K × V)) :
    total g (e :: l) = g e.1 e.2 + total g l := by
  simp [total]

variable [LinearOrder K] in
/-- An upsert that adds `d` to the contribution of its key adds `d` to the total. -/
theorem total_upsertList {g : K → V → M} {key : K} {f : Option V → V} {d : M}
    (hnone : g key (f none) = d) (hsome : ∀ v, g key (f (some v)) = g key v + d)
    (l : List (K × V)) : total g (upsertList key f l) = total g l + d := by
  induction l with
  | nil => simp [upsertList, hnone]
  | cons e rest ih =>
      simp only [upsertList]
      split_ifs with hlt heq
      · rw [total_cons, total_cons, hnone, add_comm]
      · subst heq
        rw [total_cons, total_cons, hsome, add_right_comm]
      · rw [total_cons, ih, total_cons, add_assoc]

theorem total_filter {g : K → V → M} {p : K × V → Bool} {l : List (K × V)}
    (h : ∀ e ∈ l, p e = false → g e.1 e.2 = 0) : total g (l.filter p) = total g l := by
  induction l with
  | nil => rfl
  | cons e rest ih =>
      have hrest := ih fun b hb => h b (List.mem_cons_of_mem e hb)
      by_cases hp : p e = true
      · rw [List.filter_cons_of_pos hp, total_cons, total_cons, hrest]
      · rw [List.filter_cons_of_neg hp, total_cons, hrest,
          h e List.mem_cons_self (Bool.eq_false_iff.mpr hp), zero_add]

end

section
variable {M : Type} [AddCommMonoid M]

def valuesAt (key : K) (l : List (K × V)) : List V :=
  (l.filter fun e => e.1 = key).map Prod.snd

@[simp] theorem valuesAt_nil (key : K) :
    valuesAt key ([] : List (K × V)) = [] := rfl

theorem valuesAt_cons (key : K) (e : K × V) (l : List (K × V)) :
    valuesAt key (e :: l) = if e.1 = key then e.2 :: valuesAt key l else valuesAt key l := by
  unfold valuesAt
  by_cases h : e.1 = key <;> simp [h]

theorem mem_valuesAt {key : K} {v : V} {l : List (K × V)} :
    v ∈ valuesAt key l ↔ (key, v) ∈ l := by
  simp [valuesAt]

theorem total_eq_sum {g : K → V → M} {s : Finset K} {l : List (K × V)}
    (h : ∀ e ∈ l, e.1 ∈ s) : total g l = ∑ k ∈ s, ((valuesAt k l).map (g k)).sum := by
  induction l with
  | nil => simp
  | cons e rest ih =>
      have hsplit : ∀ k, ((valuesAt k (e :: rest)).map (g k)).sum =
          (if e.1 = k then g e.1 e.2 else 0) + ((valuesAt k rest).map (g k)).sum := by
        intro k
        rw [valuesAt_cons]
        split_ifs with hk
        · rw [List.map_cons, List.sum_cons, hk]
        · rw [zero_add]
      rw [total_cons, ih fun b hb => h b (List.mem_cons_of_mem e hb),
        Finset.sum_congr rfl fun k _ => hsplit k, Finset.sum_add_distrib, Finset.sum_ite_eq,
        if_pos (h e List.mem_cons_self)]

theorem valuesAt_of_sorted {key : K} {l : List (K × V)} (h : Sorted l) :
    valuesAt key l = (l.lookup key).toList := by
  induction l with
  | nil => rfl
  | cons e rest ih =>
      have hhead := (List.pairwise_cons.mp h).1
      rw [valuesAt_cons, List.lookup_cons, ih (List.pairwise_cons.mp h).2]
      by_cases hk : e.1 = key
      · have hnone : rest.lookup key = none := lookup_of_lt fun b hb => hk ▸ hhead b hb
        rw [if_pos hk, hnone, hk, beq_self_eq_true]
        rfl
      · rw [if_neg hk, beq_false_of_ne (Ne.symm hk)]

end

end SortedMap

structure SortedMap (K V : Type) [LinearOrder K] where
  entries : List (K × V)
  sorted : SortedMap.Sorted entries
  deriving DecidableEq

namespace SortedMap
variable {K V W : Type} [LinearOrder K]

@[ext] theorem ext {m m' : SortedMap K V} (h : m.entries = m'.entries) : m = m' := by
  cases m
  cases m'
  simpa using h

def empty : SortedMap K V := ⟨[], List.Pairwise.nil⟩

def upsert (m : SortedMap K V) (key : K) (f : Option V → V) : SortedMap K V :=
  ⟨upsertList key f m.entries, sorted_upsertList m.sorted⟩

def ofList (l : List (K × V)) : SortedMap K V :=
  ⟨insertAll [] l, sorted_insertAll List.Pairwise.nil⟩

def get (m : SortedMap K V) (key : K) : Option V := m.entries.lookup key

def filter (m : SortedMap K V) (p : K × V → Bool) : SortedMap K V :=
  ⟨m.entries.filter p, m.sorted.filter p⟩

def mapValues (f : V → W) (m : SortedMap K V) : SortedMap K W where
  entries := m.entries.map fun e => (e.1, f e.2)
  sorted := by
    rw [Sorted, List.pairwise_map]
    exact m.sorted

@[simp] theorem entries_upsert (m : SortedMap K V) (key : K) (f : Option V → V) :
    (m.upsert key f).entries = upsertList key f m.entries := rfl

@[simp] theorem entries_filter (m : SortedMap K V) (p : K × V → Bool) :
    (m.filter p).entries = m.entries.filter p := rfl

@[simp] theorem entries_mapValues (f : V → W) (m : SortedMap K V) :
    (m.mapValues f).entries = m.entries.map fun e => (e.1, f e.2) := rfl

theorem entries_ofList_of_sorted {l : List (K × V)} (h : Sorted l) : (ofList l).entries = l :=
  (insertAll_of_sorted ((List.nil_append l).symm ▸ h)).trans (List.nil_append l)

theorem ofList_concat (l : List (K × V)) (e : K × V) :
    ofList (l ++ [e]) = (ofList l).upsert e.1 fun _ => e.2 := by
  apply ext
  simp [ofList, insertAll]

theorem perm_ofList {l : List (K × V)} (h : (l.map Prod.fst).Nodup) :
    (ofList l).entries.Perm l := by
  induction l using List.reverseRecOn with
  | nil => exact .refl _
  | append_singleton l e ih =>
      rw [List.map_append, List.nodup_append] at h
      rw [ofList_concat, entries_upsert]
      have hrest := ih h.1
      have hmem : e.1 ∉ (ofList l).entries.map Prod.fst := by
        intro hmem
        exact h.2.2 e.1 ((hrest.map _).mem_iff.mp hmem) e.1 (by simp) rfl
      exact (perm_upsertList hmem).trans
          ((hrest.cons e).trans (List.perm_append_singleton e l).symm)

theorem ofList_concat_twice (l : List (K × V)) (e : K × V) :
    ofList (l ++ [e, e]) = ofList (l ++ [e]) := by
  apply ext
  have hsplit : l ++ [e, e] = (l ++ [e]) ++ [e] := by simp
  rw [hsplit, ofList_concat, entries_upsert, ofList_concat, entries_upsert, upsertList_upsertList]

theorem mem_keys_ofList {k : K} {l : List (K × V)} :
    k ∈ (ofList l).entries.map Prod.fst ↔ k ∈ l.map Prod.fst := by
  rw [ofList, mem_keys_insertAll]
  simp

theorem mem_of_get {m : SortedMap K V} {key : K} {v : V} (h : m.get key = some v) :
    (key, v) ∈ m.entries := by
  obtain ⟨before, after, heq, -⟩ := List.lookup_eq_some_iff.mp h
  rw [heq]
  exact List.mem_append_right _ List.mem_cons_self

theorem get_upsert (m : SortedMap K V) (key k : K) (f : Option V → V) :
    (m.upsert key f).get k = if k = key then some (f (m.get key)) else m.get k :=
  lookup_upsertList m.sorted

theorem get_foldl_upsert {X : Type} (f : X → Option V → V) (l : List (K × X)) (key : K)
    (m : SortedMap K V) :
    (l.foldl (fun m e => m.upsert e.1 (f e.2)) m).get key =
      (valuesAt key l).foldl (fun o x => some (f x o)) (m.get key) := by
  induction l generalizing m with
  | nil => rfl
  | cons e rest ih =>
      rw [List.foldl_cons, ih, get_upsert, valuesAt_cons]
      by_cases hk : e.1 = key
      · rw [if_pos hk, if_pos hk.symm, List.foldl_cons, hk]
      · rw [if_neg hk, if_neg (Ne.symm hk)]

theorem valuesAt_entries (m : SortedMap K V) (key : K) :
    valuesAt key m.entries = (m.get key).toList := valuesAt_of_sorted m.sorted

theorem get_mapValues (f : V → W) (m : SortedMap K V) (key : K) :
    (m.mapValues f).get key = (m.get key).map f := by
  simp only [get, entries_mapValues]
  induction m.entries with
  | nil => rfl
  | cons e rest ih =>
      rw [List.map_cons, List.lookup_cons, List.lookup_cons]
      cases key == e.1 with
      | false => exact ih
      | true => rfl

end SortedMap

/-!
## Sorting by a key

The stable sort of a list by a key, and the fact that a list with distinct keys is sorted
in one way only.
-/
namespace SortByKey

variable {α κ : Type*} [LinearOrder κ] {key : α → κ}

/-- `sort_by_key`. -/
def sortByKey (key : α → κ) (xs : List α) : List α :=
  xs.insertionSort fun a b => key a ≤ key b

theorem perm_sortByKey (xs : List α) : (sortByKey key xs).Perm xs := List.perm_insertionSort _ xs

theorem pairwise_sortByKey (xs : List α) :
    (sortByKey key xs).Pairwise fun a b => key a ≤ key b := by
  have htotal : Std.Total fun a b : α => key a ≤ key b := ⟨fun a b => le_total _ _⟩
  have htrans : IsTrans α fun a b : α => key a ≤ key b := ⟨fun _ _ _ => le_trans⟩
  exact List.pairwise_insertionSort _ xs

theorem pairwise_lt_sortByKey {xs : List α} (h : (xs.map key).Nodup) :
    (sortByKey key xs).Pairwise fun a b => key a < key b := by
  have hne : (sortByKey key xs).Pairwise fun a b => key a ≠ key b :=
    List.pairwise_map.mp (((perm_sortByKey xs).map key).nodup_iff.mpr h)
  exact (pairwise_sortByKey xs).imp₂ (fun _ _ hle hne => lt_of_le_of_ne hle hne) hne

end SortByKey
