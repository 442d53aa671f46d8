import VolarIR.Library.SortedMap

/-!
# A sorted map built at once

Sorting the pairs stably by their keys and merging equal neighbours, the later value
replacing the earlier, gives the map that inserting them in turn gives.
-/
namespace SortedMap
open SortByKey
variable {K V : Type} [LinearOrder K]

/-- Merge neighbours with equal keys; `last` is the entry that is still open. -/
def compactFrom (last : K × V) : List (K × V) → List (K × V)
  | [] => [last]
  | e :: rest => if last.1 = e.1 then compactFrom (last.1, e.2) rest else last :: compactFrom e rest

def compact : List (K × V) → List (K × V)
  | [] => []
  | e :: rest => compactFrom e rest

def Ascending (l : List (K × V)) : Prop := l.Pairwise fun a b => a.1 ≤ b.1

theorem mem_compactFrom {last e : K × V} {l : List (K × V)} (h : e ∈ compactFrom last l) :
    e.1 = last.1 ∨ e.1 ∈ l.map Prod.fst := by
  induction l generalizing last with
  | nil => exact .inl (congrArg Prod.fst (List.mem_singleton.mp h))
  | cons b rest ih =>
      rw [List.map_cons, List.mem_cons]
      rw [compactFrom] at h
      split_ifs at h with heq
      · exact (ih h).imp_right .inr
      · rcases List.mem_cons.mp h with rfl | h
        · exact .inl rfl
        · exact .inr (ih h)

theorem sorted_compactFrom {last : K × V} {l : List (K × V)} (h : Ascending (last :: l)) :
    Sorted (compactFrom last l) := by
  induction l generalizing last with
  | nil => exact List.pairwise_singleton _ _
  | cons e rest ih =>
      have hle := (List.pairwise_cons.mp h).1
      have hrest := (List.pairwise_cons.mp h).2
      have htail := (List.pairwise_cons.mp hrest).2
      rw [compactFrom]
      split_ifs with heq
      · apply ih
        exact List.pairwise_cons.mpr ⟨fun b hb => hle b (List.mem_cons_of_mem e hb), htail⟩
      · have hlt : last.1 < e.1 := lt_of_le_of_ne (hle e List.mem_cons_self) heq
        apply List.pairwise_cons.mpr ⟨?_, ih hrest⟩
        intro b hb
        rcases mem_compactFrom hb with hkey | hkey
        · rw [hkey]
          exact hlt
        · obtain ⟨b', hb', hfst⟩ := List.mem_map.mp hkey
          rw [← hfst]
          exact hlt.trans_le ((List.pairwise_cons.mp hrest).1 b' hb')

theorem sorted_compact {l : List (K × V)} (h : Ascending l) : Sorted (compact l) := by
  cases l with
  | nil => exact List.Pairwise.nil
  | cons e rest => exact sorted_compactFrom h

theorem valuesAt_of_forall_ne {key : K} {l : List (K × V)} (h : ∀ e ∈ l, e.1 ≠ key) :
    valuesAt key l = [] := by
  rw [valuesAt, List.filter_eq_nil_iff.mpr, List.map_nil]
  intro e he
  simpa using h e he

theorem lookup_compactFrom {last : K × V} {l : List (K × V)} (h : Ascending (last :: l)) (key : K) :
    (compactFrom last l).lookup key = (valuesAt key (last :: l)).getLast? := by
  induction l generalizing last with
  | nil =>
      rw [compactFrom, lookup_cons_ite, List.lookup_nil, valuesAt_cons, valuesAt_nil]
      by_cases hk : key = last.1
      · rw [if_pos hk, if_pos hk.symm]
        rfl
      · rw [if_neg hk, if_neg (Ne.symm hk)]
        rfl
  | cons e rest ih =>
      have hle := (List.pairwise_cons.mp h).1
      have hrest := (List.pairwise_cons.mp h).2
      have htail := (List.pairwise_cons.mp hrest).2
      rw [compactFrom]
      split_ifs with heq
      · have hmerged : Ascending ((last.1, e.2) :: rest) :=
          List.pairwise_cons.mpr ⟨fun b hb => hle b (List.mem_cons_of_mem e hb), htail⟩
        rw [ih hmerged, valuesAt_cons, valuesAt_cons key last, valuesAt_cons key e]
        by_cases hk : last.1 = key
        · rw [if_pos hk, if_pos hk, if_pos (heq.symm.trans hk), List.getLast?_cons_cons]
        · rw [if_neg hk, if_neg hk, if_neg (fun h => hk (heq.trans h))]
      · rw [lookup_cons_ite, ih hrest, valuesAt_cons key last]
        by_cases hk : key = last.1
        · have hnone : valuesAt key (e :: rest) = [] := by
            apply valuesAt_of_forall_ne
            intro b hb hbk
            have hlt : last.1 < e.1 := lt_of_le_of_ne (hle e List.mem_cons_self) heq
            have hge : e.1 ≤ b.1 := by
              rcases List.mem_cons.mp hb with rfl | hb
              · exact le_refl _
              · exact (List.pairwise_cons.mp hrest).1 b hb
            rw [hbk, hk] at hge
            exact absurd hlt hge.not_gt
          rw [if_pos hk, if_pos hk.symm, hnone]
          rfl
        · rw [if_neg hk, if_neg (Ne.symm hk)]

theorem lookup_compact {l : List (K × V)} (h : Ascending l) (key : K) :
    (compact l).lookup key = (valuesAt key l).getLast? := by
  cases l with
  | nil => rfl
  | cons e rest => exact lookup_compactFrom h key

theorem valuesAt_sortByKey (key : K) (l : List (K × V)) :
    valuesAt key (sortByKey Prod.fst l) = valuesAt key l := by
  have hone : ∀ (e : K × V) (l : List (K × V)),
      valuesAt key (l.orderedInsert (fun a b => a.1 ≤ b.1) e) = valuesAt key (e :: l) := by
    intro e l
    induction l with
    | nil => rfl
    | cons b rest ih =>
        by_cases hle : e.1 ≤ b.1
        · rw [List.orderedInsert_cons_of_le (fun a b : K × V => a.1 ≤ b.1) rest hle]
        · rw [List.orderedInsert_of_not_le (fun a b : K × V => a.1 ≤ b.1) rest hle,
            valuesAt_cons, ih, valuesAt_cons key e, valuesAt_cons key e, valuesAt_cons key b]
          by_cases hk : e.1 = key
          · have hb : b.1 ≠ key := fun hb => hle (hk.trans hb.symm).le
            rw [if_neg hb, if_pos hk, if_neg hb, if_pos hk]
          · rw [if_neg hk, if_neg hk]
  unfold sortByKey
  induction l with
  | nil => rfl
  | cons e rest ih => rw [List.insertionSort_cons, hone, valuesAt_cons, valuesAt_cons, ih]

theorem lookup_of_mem {l : List (K × V)} (h : Sorted l) {e : K × V} (he : e ∈ l) :
    l.lookup e.1 = some e.2 := by
  have hvals : valuesAt e.1 l = _ := valuesAt_of_sorted h
  have hmem : e.2 ∈ valuesAt e.1 l := mem_valuesAt.mpr he
  rw [hvals] at hmem
  exact Option.mem_toList.mp hmem

theorem eq_of_lookup {l l' : List (K × V)} (h : Sorted l) (h' : Sorted l')
    (hsame : ∀ key, l.lookup key = l'.lookup key) : l = l' := by
  have hmem : ∀ e, e ∈ l ↔ e ∈ l' := by
    intro e
    have hiff : ∀ {xs : List (K × V)}, Sorted xs → (e ∈ xs ↔ xs.lookup e.1 = some e.2) := by
      intro xs hxs
      refine ⟨lookup_of_mem hxs, fun hlook => ?_⟩
      have hget : (⟨xs, hxs⟩ : SortedMap K V).get e.1 = some e.2 := hlook
      exact mem_of_get hget
    rw [hiff h, hiff h', hsame]
  have hnodup : ∀ {xs : List (K × V)}, Sorted xs → xs.Nodup := fun hxs =>
    hxs.imp fun hlt heq => absurd (congrArg Prod.fst heq) hlt.ne
  have hperm : l.Perm l' := (List.perm_ext_iff_of_nodup (hnodup h) (hnodup h')).mpr hmem
  exact hperm.eq_of_pairwise (fun a b _ _ hab hba => absurd hab hba.not_gt) h h'

theorem lookup_ofList (l : List (K × V)) (key : K) :
    (ofList l).entries.lookup key = (valuesAt key l).getLast? := by
  have hfold := get_foldl_upsert (fun v (_ : Option V) => v) l key empty
  have hsplit : ∀ (l : List (K × V)) (m : SortedMap K V),
      (l.foldl (fun m e => m.upsert e.1 fun _ => e.2) m).entries = insertAll m.entries l := by
    intro l
    induction l with
    | nil => exact fun _ => rfl
    | cons e rest ih => exact fun m => ih _
  have hlast : ∀ (vs : List V) (o : Option V),
      vs.foldl (fun _ v => some v) o = vs.getLast?.or o := by
    intro vs
    induction vs with
    | nil => exact fun _ => rfl
    | cons v vs ih =>
        intro o
        rw [List.foldl_cons, ih, List.getLast?_cons]
        cases vs.getLast? <;> rfl
  rw [hlast] at hfold
  have hentries : (ofList l).entries =
      (l.foldl (fun m e => m.upsert e.1 fun _ => e.2) empty).entries := (hsplit l empty).symm
  rw [hentries]
  refine hfold.trans ?_
  cases (valuesAt key l).getLast? <;> rfl

theorem compact_sortByKey (l : List (K × V)) :
    compact (sortByKey Prod.fst l) = (ofList l).entries := by
  have hasc : Ascending (sortByKey Prod.fst l) := pairwise_sortByKey l
  apply eq_of_lookup (sorted_compact hasc) (ofList l).sorted
  intro key
  rw [lookup_compact hasc, valuesAt_sortByKey, lookup_ofList]

section
variable {l : List (K × V)} {key : K} {i : ℕ}

theorem upsertList_of_getElem? (h : Sorted l) {v : V} (hi : l[i]? = some (key, v))
    (f : Option V → V) : upsertList key f l = l.modify i fun e => (e.1, f (some e.2)) := by
  induction l generalizing i with
  | nil => simp at hi
  | cons e rest ih =>
      have hhead := (List.pairwise_cons.mp h).1
      obtain ⟨k, w⟩ := e
      cases i with
      | zero =>
          cases hi
          rw [upsertList, if_neg (lt_irrefl key), if_pos rfl]
          rfl
      | succ i =>
          rw [List.getElem?_cons_succ] at hi
          have hlt : k < key := hhead _ (List.mem_of_getElem? hi)
          rw [upsertList, if_neg hlt.not_gt, if_neg hlt.ne', ih (List.pairwise_cons.mp h).2 hi]
          rfl

theorem upsertList_of_gap (hi : i ≤ l.length)
    (hbelow : ∀ j a, j < i → l[j]? = some a → a.1 < key)
    (habove : ∀ j b, i ≤ j → l[j]? = some b → key < b.1) (f : Option V → V) :
    upsertList key f l = l.insertIdx i (key, f none) := by
  induction l generalizing i with
  | nil =>
      obtain rfl : i = 0 := Nat.le_zero.mp hi
      rfl
  | cons e rest ih =>
      obtain ⟨k, w⟩ := e
      cases i with
      | zero =>
          have hlt : key < k := habove 0 _ le_rfl rfl
          rw [upsertList, if_pos hlt]
          rfl
      | succ i =>
          have hlt : k < key := hbelow 0 _ (Nat.succ_pos i) rfl
          rw [upsertList, if_neg hlt.not_gt, if_neg hlt.ne', List.insertIdx_succ_cons,
            ih (Nat.le_of_succ_le_succ hi)]
          · exact fun j a hj ha => hbelow (j + 1) a (Nat.succ_lt_succ hj) ha
          · exact fun j b hj hb => habove (j + 1) b (Nat.succ_le_succ hj) hb

theorem filter_ne_of_getElem? (h : Sorted l) {v : V} (hi : l[i]? = some (key, v)) :
    l.filter (fun e => e.1 ≠ key) = l.eraseIdx i := by
  induction l generalizing i with
  | nil => simp at hi
  | cons e rest ih =>
      have hhead := (List.pairwise_cons.mp h).1
      cases i with
      | zero =>
          cases hi
          rw [List.filter_cons_of_neg (by simp), List.eraseIdx_cons_zero, List.filter_eq_self]
          intro b hb
          simpa using (hhead b hb).ne'
      | succ i =>
          rw [List.getElem?_cons_succ] at hi
          have hlt : e.1 < key := hhead _ (List.mem_of_getElem? hi)
          rw [List.filter_cons_of_pos (by simpa using hlt.ne), List.eraseIdx_cons_succ,
            ih (List.pairwise_cons.mp h).2 hi]

end

section
variable {m : SortedMap K V} {key : K} {i : ℕ}

/-- `remove`: the map without a key. -/
def erase (m : SortedMap K V) (key : K) : SortedMap K V := m.filter fun e => e.1 ≠ key

theorem mem_entries_iff {v : V} : (key, v) ∈ m.entries ↔ m.get key = some v :=
  ⟨fun h => lookup_of_mem m.sorted h, mem_of_get⟩

theorem ext_entries {m m' : SortedMap K V} (h : ∀ e, e ∈ m.entries ↔ e ∈ m'.entries) : m = m' := by
  apply SortedMap.ext
  apply eq_of_lookup m.sorted m'.sorted
  intro key
  apply Option.ext
  intro v
  exact mem_entries_iff.symm.trans ((h (key, v)).trans mem_entries_iff)

theorem get_of_getElem? {v : V} (hi : m.entries[i]? = some (key, v)) : m.get key = some v :=
  mem_entries_iff.mp (List.mem_of_getElem? hi)

theorem get_of_gap (hbelow : ∀ j a, j < i → m.entries[j]? = some a → a.1 < key)
    (habove : ∀ j b, i ≤ j → m.entries[j]? = some b → key < b.1) : m.get key = none := by
  apply List.lookup_eq_none_iff.mpr
  intro e he
  obtain ⟨j, hj⟩ := List.mem_iff_getElem?.mp he
  apply bne_iff_ne.mpr
  rcases Nat.lt_or_ge j i with hlt | hge
  · exact (hbelow j e hlt hj).ne'
  · exact (habove j e hge hj).ne

theorem erase_of_getElem? {v : V} (hi : m.entries[i]? = some (key, v)) :
    (m.erase key).entries = m.entries.eraseIdx i := filter_ne_of_getElem? m.sorted hi

theorem erase_of_get (h : m.get key = none) : m.erase key = m := by
  apply SortedMap.ext
  rw [erase, entries_filter, List.filter_eq_self]
  intro e he
  have hsome : m.get e.1 = some e.2 := mem_entries_iff.mp he
  apply decide_eq_true
  rintro rfl
  rw [h] at hsome
  cases hsome

variable {M : Type} [AddCommMonoid M] {g : K → V → M}

theorem total_eq_add_erase (m : SortedMap K V) (key : K) :
    total g m.entries = (m.get key).elim 0 (g key) + total g (m.erase key).entries := by
  have hlist : ∀ l : List (K × V), Sorted l →
      total g l = (l.lookup key).elim 0 (g key) + total g (l.filter fun e => e.1 ≠ key) := by
    intro l hl
    induction l with
    | nil => simp
    | cons e rest ih =>
        have hrest := ih (List.pairwise_cons.mp hl).2
        rw [total_cons, hrest, lookup_cons_ite]
        by_cases hkey : e.1 = key
        · have hnone : rest.lookup key = none :=
            lookup_of_lt fun b hb => hkey ▸ (List.pairwise_cons.mp hl).1 b hb
          rw [if_pos hkey.symm, List.filter_cons_of_neg (by simpa using hkey), hnone,
            Option.elim_none, zero_add, Option.elim_some, hkey]
        · rw [if_neg (Ne.symm hkey), List.filter_cons_of_pos (by simpa using hkey), total_cons,
            add_left_comm]
  exact hlist m.entries m.sorted

theorem erase_upsert (m : SortedMap K V) (key : K) (f : Option V → V) :
    (m.upsert key f).erase key = m.erase key := by
  apply ext_entries
  rintro ⟨k, v⟩
  rw [erase, erase, entries_filter, entries_filter, List.mem_filter, List.mem_filter,
    mem_entries_iff, mem_entries_iff, get_upsert]
  by_cases hkey : k = key <;> simp [hkey]

end

end SortedMap
