import VolarIR.Common.PolyCoeffs

/-!
# When the collection is a map

A collection whose keys increase lexicographically stands for a sorted map, and every call
but two keeps it so. The two that sort keep it so exactly when no key of one variable is
lexicographically above a key of another length.
-/
namespace VolarIR.Common
open SortedMap

namespace PolyKey
variable {V : Type}

@[simp] theorem asSlice_fromVec (vars : List V) : (fromVec vars).asSlice = vars := by
  match vars with
  | [] => rfl
  | [v] => rfl
  | _ :: _ :: _ => rfl

theorem fromVec_injective : Function.Injective (fromVec : List V → PolyKey V) :=
  Function.LeftInverse.injective asSlice_fromVec

theorem fromVec_of_length {vars : List V} (h : vars.length ≠ 1) : fromVec vars = .many vars := by
  match vars, h with
  | [], _ => rfl
  | [v], h => exact absurd rfl h
  | _ :: _ :: _, _ => rfl

theorem mapSlice_fromVec {f : List V → List V} (hf : ∀ vars, (f vars).length = vars.length)
    (vars : List V) : (fromVec vars).mapSlice f = fromVec (f vars) := by
  by_cases h : vars.length = 1
  · obtain ⟨v, rfl⟩ := List.length_eq_one_iff.mp h
    obtain ⟨w, hw⟩ := List.length_eq_one_iff.mp (hf [v])
    rw [hw, fromVec, mapSlice, hw]
    rfl
  · have hlen : (f vars).length ≠ 1 := by rwa [hf]
    rw [fromVec_of_length h, fromVec_of_length hlen, mapSlice]

variable [LinearOrder V]

def Aligned (keys : List (List V)) : Prop :=
  ∀ k ∈ keys, ∀ k' ∈ keys, k.length = 1 → k'.length ≠ 1 → k < k'

theorem fromVec_lt {keys : List (List V)} (h : Aligned keys) {k k' : List V} (hk : k ∈ keys)
    (hk' : k' ∈ keys) : fromVec k < fromVec k' ↔ k < k' := by
  by_cases hone : k.length = 1
  · obtain ⟨v, rfl⟩ := List.length_eq_one_iff.mp hone
    by_cases hone' : k'.length = 1
    · obtain ⟨w, rfl⟩ := List.length_eq_one_iff.mp hone'
      exact one_lt_one.trans (by simp [List.cons_lt_cons_iff])
    · rw [fromVec_of_length hone']
      exact iff_of_true (one_lt_many v k') (h _ hk _ hk' hone hone')
  · by_cases hone' : k'.length = 1
    · have hlt := h _ hk' _ hk hone' hone
      obtain ⟨w, rfl⟩ := List.length_eq_one_iff.mp hone'
      rw [fromVec_of_length hone]
      exact iff_of_false (one_lt_many w k).not_gt hlt.not_gt
    · rw [fromVec_of_length hone, fromVec_of_length hone']
      exact many_lt_many

theorem fromVec_lt_of_length {k k' : List V} (hone : k.length = 1) (hmany : k'.length ≠ 1) :
    fromVec k < fromVec k' := by
  obtain ⟨v, rfl⟩ := List.length_eq_one_iff.mp hone
  rw [fromVec_of_length hmany]
  exact one_lt_many v k'

theorem cmpSlice_eq_lt {key : PolyKey V} {vars : List V} :
    key.cmpSlice vars = .lt ↔ key.asSlice < vars := by
  unfold cmpSlice compareOfLessAndEq
  split
  case isTrue hlt => exact iff_of_true rfl hlt
  case isFalse hge => exact iff_of_false (by split <;> simp) hge

theorem cmpSlice_eq_eq {key : PolyKey V} {vars : List V} :
    key.cmpSlice vars = .eq ↔ key.asSlice = vars := by
  unfold cmpSlice compareOfLessAndEq
  split
  case isTrue hlt => exact iff_of_false (by simp) hlt.ne
  case isFalse => split <;> simp_all

theorem cmpSlice_eq_gt {key : PolyKey V} {vars : List V} :
    key.cmpSlice vars = .gt ↔ vars < key.asSlice := by
  have htri := lt_trichotomy key.asSlice vars
  have hlt : key.cmpSlice vars = .lt ↔ key.asSlice < vars := cmpSlice_eq_lt
  have heq : key.cmpSlice vars = .eq ↔ key.asSlice = vars := cmpSlice_eq_eq
  cases hcmp : key.cmpSlice vars with
  | lt => exact iff_of_false (by simp) (hlt.mp hcmp).not_gt
  | eq => exact iff_of_false (by simp) (heq.mp hcmp).not_gt
  | gt =>
      rw [hcmp] at hlt heq
      simp only [reduceCtorEq, false_iff] at hlt heq
      exact iff_of_true rfl ((htri.resolve_left hlt).resolve_left heq)

end PolyKey

namespace PolyCoeffs
open PolyKey
variable {V : Type}

theorem iter_retain (c : PolyCoeffs V) (p : List V → BitVec 8 → Bool) :
    (c.retain fun _ key d => (d, p key d)).iter = c.iter.filter fun e => p e.1 e.2 := by
  unfold retain iter
  generalize c.entries = entries
  induction entries with
  | nil => rfl
  | cons e rest ih =>
      rw [List.mapIdx_cons, List.map_cons, List.filter_cons, ← ih]
      cases hp : p e.1.asSlice e.2 with
      | false => simp [hp]
      | true => simp [hp]

def stored (l : List (List V × BitVec 8)) : List (PolyKey V × BitVec 8) :=
  l.map fun e => (fromVec e.1, e.2)

variable [LinearOrder V]

/-- In whatever order the entries stand, `entry` updates one that has the key or adds one. -/
theorem iter_entryOrInsert (c : PolyCoeffs V) (key : List V) (default : BitVec 8)
    (update : BitVec 8 → BitVec 8) :
    (∃ d rest, c.iter.Perm ((key, d) :: rest) ∧
      (c.entryOrInsert key default update).iter.Perm ((key, update d) :: rest)) ∨
    (c.entryOrInsert key default update).iter.Perm ((key, update default) :: c.iter) := by
  have hfits := @BinarySearch.search_fits _ (fun e => e.1.cmpSlice key) c.entries
  unfold entryOrInsert keyIndex
  cases hsearch : BinarySearch.search (fun e => e.1.cmpSlice key) c.entries with
  | ok i =>
      rw [hsearch] at hfits
      obtain ⟨e, he, hkey⟩ := hfits
      obtain ⟨hlt, rfl⟩ := List.getElem?_eq_some_iff.mp he
      rw [cmpSlice_eq_eq] at hkey
      have hperm : c.entries.Perm
          (c.entries[i] :: (c.entries.take i ++ c.entries.drop (i + 1))) := by
        conv_lhs => rw [← List.take_append_drop i c.entries, List.drop_eq_getElem_cons hlt]
        exact List.perm_middle
      refine Or.inl ⟨c.entries[i].2,
        (c.entries.take i ++ c.entries.drop (i + 1)).map fun e => (e.1.asSlice, e.2), ?_, ?_⟩
      · have hmap := hperm.map fun e : PolyKey V × BitVec 8 => (e.1.asSlice, e.2)
        rwa [List.map_cons, hkey] at hmap
      · simp only [setCoeff, iter, List.modify_eq_take_cons_drop hlt]
        simp [hkey]
  | error i =>
      rw [hsearch] at hfits
      right
      have hperm := (List.perm_insertIdx (fromVec key, update default) c.entries hfits).map
        fun e : PolyKey V × BitVec 8 => (e.1.asSlice, e.2)
      simpa [insertAt, iter] using hperm

theorem valuesAt_stored (l : List (List V × BitVec 8)) (key : List V) :
    valuesAt (fromVec key) (stored l) = valuesAt key l := by
  induction l with
  | nil => rfl
  | cons e rest ih =>
      rw [stored, List.map_cons, valuesAt_cons, valuesAt_cons]
      by_cases hk : e.1 = key
      · rw [if_pos hk, if_pos (congrArg fromVec hk)]
        exact congrArg _ ih
      · rw [if_neg hk, if_neg fun h => hk (fromVec_injective h)]
        exact ih

theorem valuesAt_stored_of_ne {key : PolyKey V} (h : ∀ k, fromVec k ≠ key)
    (l : List (List V × BitVec 8)) : valuesAt key (stored l) = [] := by
  apply valuesAt_of_forall_ne
  intro e he
  obtain ⟨e', -, rfl⟩ := List.mem_map.mp he
  exact h e'.1

theorem sorted_stored {l : List (List V × BitVec 8)} {keys : List (List V)} (h : Aligned keys)
    (hkeys : ∀ e ∈ l, e.1 ∈ keys) (hl : Sorted l) : Sorted (stored l) := by
  apply List.pairwise_map.mpr
  apply hl.imp_of_mem
  intro a b ha hb hlt
  exact (fromVec_lt h (hkeys a ha) (hkeys b hb)).mpr hlt

theorem canonicalize_stored {l : List (List V × BitVec 8)} (h : Aligned (l.map Prod.fst)) :
    canonicalize (stored l) = stored (ofList l).entries := by
  have hkeys : ∀ e ∈ (ofList l).entries, e.1 ∈ l.map Prod.fst := fun e he =>
    mem_keys_ofList.mp (List.mem_map_of_mem he)
  have hsorted := sorted_stored h hkeys (ofList l).sorted
  rw [canonicalize, compact_sortByKey]
  apply eq_of_lookup (ofList (stored l)).sorted hsorted
  intro key
  rw [lookup_ofList]
  have hvals : valuesAt key (stored (ofList l).entries) = _ := valuesAt_of_sorted hsorted
  by_cases hkey : ∃ k, fromVec k = key
  · obtain ⟨k, rfl⟩ := hkey
    rw [valuesAt_stored] at hvals ⊢
    rw [valuesAt_of_sorted (ofList l).sorted, lookup_ofList] at hvals
    have hhead := congrArg List.head? hvals
    simpa using hhead
  · rw [not_exists] at hkey
    rw [valuesAt_stored_of_ne hkey] at hvals ⊢
    have hhead := congrArg List.head? hvals
    simpa using hhead

theorem aligned_of_canonicalize {l : List (List V × BitVec 8)}
    (h : ((canonicalize (stored l)).map fun e => e.1.asSlice).Pairwise (· < ·)) :
    Aligned (l.map Prod.fst) := by
  intro k hk k' hk' hone hmany
  rw [canonicalize, compact_sortByKey] at h
  have hlt := fromVec_lt_of_length hone hmany
  have hmem : ∀ k ∈ l.map Prod.fst, ∃ e ∈ (ofList (stored l)).entries, e.1 = fromVec k := by
    intro k hk
    obtain ⟨e, he, rfl⟩ := List.mem_map.mp hk
    have hstored : fromVec e.1 ∈ (stored l).map Prod.fst := by
      rw [stored, List.map_map]
      exact List.mem_map_of_mem he
    obtain ⟨e', he', hkey⟩ := List.mem_map.mp (mem_keys_ofList.mpr hstored)
    exact ⟨e', he', hkey⟩
  obtain ⟨a, ha, hak⟩ := hmem k hk
  obtain ⟨b, hb, hbk⟩ := hmem k' hk'
  -- Of two entries one comes first, in both orders.
  have hboth : (ofList (stored l)).entries.Pairwise fun a b =>
      a.1 < b.1 ∧ a.1.asSlice < b.1.asSlice :=
    (ofList (stored l)).sorted.and (List.pairwise_map.mp h)
  have hsymm : Std.Symm fun a b : PolyKey V × BitVec 8 =>
      (a.1 < b.1 ∧ a.1.asSlice < b.1.asSlice) ∨ (b.1 < a.1 ∧ b.1.asSlice < a.1.asSlice) :=
    ⟨fun _ _ => Or.symm⟩
  have hne : a ≠ b := by
    rintro rfl
    rw [← hak, ← hbk] at hlt
    exact lt_irrefl _ hlt
  have hor := (hboth.imp fun {a b} hab => Or.inl (b := b.1 < a.1 ∧ b.1.asSlice < a.1.asSlice)
    hab).forall ha hb hne
  rcases hor with ⟨-, hslice⟩ | ⟨hgt, -⟩
  · rwa [hak, hbk, asSlice_fromVec, asSlice_fromVec] at hslice
  · rw [hak, hbk] at hgt
    exact absurd hlt hgt.not_gt

def Represents (c : PolyCoeffs V) (m : SortedMap (List V) (BitVec 8)) : Prop :=
  c.entries = stored m.entries

section
variable {c : PolyCoeffs V} {m : SortedMap (List V) (BitVec 8)}

theorem Represents.getElem? (h : Represents c m) (i : ℕ) :
    c.entries[i]? = m.entries[i]?.map fun e => (fromVec e.1, e.2) := by
  rw [h, stored, List.getElem?_map]

theorem Represents.iter (h : Represents c m) : c.iter = m.entries := by
  rw [PolyCoeffs.iter, h, stored, List.map_map]
  simp [Function.comp_def]

theorem Represents.keys (h : Represents c m) : c.keys = m.entries.map Prod.fst := by
  rw [PolyCoeffs.keys, h.iter]

theorem Represents.ordered (h : Represents c m) (key : List V) :
    BinarySearch.Ordered (fun e => e.1.cmpSlice key) c.entries := by
  rw [h]
  apply List.pairwise_map.mpr
  apply m.sorted.imp
  intro a b hlt hb
  rw [cmpSlice_eq_lt, asSlice_fromVec]
  rw [Ne, cmpSlice_eq_gt, asSlice_fromVec, not_lt] at hb
  exact hlt.trans_le hb

theorem Represents.keyIndex (h : Represents c m) (key : List V) :
    (∃ i v, c.keyIndex key = .ok i ∧ m.entries[i]? = some (key, v)) ∨
      ∃ i, c.keyIndex key = .error i ∧ i ≤ m.entries.length ∧
        (∀ j a, j < i → m.entries[j]? = some a → a.1 < key) ∧
        ∀ j b, i ≤ j → m.entries[j]? = some b → key < b.1 := by
  have hspec := BinarySearch.search_spec (h.ordered key)
  have hstored : ∀ (j : ℕ) (e : List V × BitVec 8), m.entries[j]? = some e →
      c.entries[j]? = some (fromVec e.1, e.2) := by
    intro j e he
    rw [h.getElem?, he]
    rfl
  unfold PolyCoeffs.keyIndex
  cases hres : BinarySearch.search (fun e : PolyKey V × BitVec 8 => e.1.cmpSlice key)
      c.entries with
  | ok i =>
      rw [hres] at hspec
      obtain ⟨a, ha, heq⟩ := hspec
      rw [h.getElem?] at ha
      obtain ⟨e, he, rfl⟩ := Option.map_eq_some_iff.mp ha
      rw [cmpSlice_eq_eq, asSlice_fromVec] at heq
      exact .inl ⟨i, e.2, rfl, by rw [he, ← heq]⟩
  | error i =>
      rw [hres] at hspec
      obtain ⟨hle, hbelow, habove⟩ := hspec
      have hlen : c.entries.length = m.entries.length := by
        rw [h, stored, List.length_map]
      refine .inr ⟨i, rfl, hlen ▸ hle, ?_, ?_⟩
      · intro j a hj ha
        have hcmp := hbelow j _ hj (hstored j a ha)
        rwa [cmpSlice_eq_lt, asSlice_fromVec] at hcmp
      · intro j b hj hb
        have hcmp := habove j _ hj (hstored j b hb)
        rwa [cmpSlice_eq_gt, asSlice_fromVec] at hcmp

theorem Represents.getElem?_snd (h : Represents c m) {i : ℕ} {key : List V} {v : BitVec 8}
    (hi : m.entries[i]? = some (key, v)) : c.entries[i]?.map Prod.snd = m.get key := by
  rw [h.getElem?, hi, get_of_getElem? hi]
  rfl

theorem Represents.get (h : Represents c m) (key : List V) : c.get key = m.get key := by
  unfold PolyCoeffs.get
  rcases h.keyIndex key with ⟨i, v, hidx, hi⟩ | ⟨i, hidx, -, hbelow, habove⟩
  · rw [hidx]
    exact h.getElem?_snd hi
  · rw [hidx, get_of_gap hbelow habove]

theorem Represents.found (h : Represents c m) (key : List V) :
    (∃ i, c.keyIndex key = .ok i) ↔ key ∈ c.keys := by
  rw [h.keys]
  rcases h.keyIndex key with ⟨i, v, hidx, hi⟩ | ⟨i, hidx, -, hbelow, habove⟩
  · exact iff_of_true ⟨i, hidx⟩
      (List.mem_map.mpr ⟨(key, v), List.mem_of_getElem? hi, rfl⟩)
  · apply iff_of_false
    · rw [hidx]
      rintro ⟨j, hj⟩
      cases hj
    · intro hmem
      obtain ⟨e, he, rfl⟩ := List.mem_map.mp hmem
      have hget := get_of_gap hbelow habove
      have hsome : m.get e.1 = some e.2 := mem_entries_iff.mp he
      rw [hget] at hsome
      cases hsome

theorem Represents.setCoeff (h : Represents c m) {i : ℕ} {key : List V} {v : BitVec 8}
    (hi : m.entries[i]? = some (key, v)) (f : Option (BitVec 8) → BitVec 8) :
    Represents (c.setCoeff i fun v => f (some v)) (m.upsert key f) := by
  unfold Represents PolyCoeffs.setCoeff
  rw [h, entries_upsert, upsertList_of_getElem? m.sorted hi]
  apply List.ext_getElem?
  intro j
  simp only [stored, List.getElem?_modify, List.getElem?_map]
  cases m.entries[j]? with
  | none => rfl
  | some e => by_cases hij : i = j <;> simp [hij]

theorem Represents.insertAt (h : Represents c m) {i : ℕ} {key : List V}
    (hi : i ≤ m.entries.length) (hbelow : ∀ j a, j < i → m.entries[j]? = some a → a.1 < key)
    (habove : ∀ j b, i ≤ j → m.entries[j]? = some b → key < b.1)
    (f : Option (BitVec 8) → BitVec 8) :
    Represents (c.insertAt i key (f none)) (m.upsert key f) := by
  unfold Represents PolyCoeffs.insertAt
  rw [h, entries_upsert, upsertList_of_gap hi hbelow habove, stored, stored, List.map_insertIdx]

theorem Represents.insert (h : Represents c m) (key : List V) (coeff : BitVec 8) :
    (c.insert key coeff).1 = m.get key ∧
      Represents (c.insert key coeff).2 (m.upsert key fun _ => coeff) := by
  unfold PolyCoeffs.insert
  rcases h.keyIndex key with ⟨i, v, hidx, hi⟩ | ⟨i, hidx, hle, hbelow, habove⟩
  · rw [hidx]
    exact ⟨h.getElem?_snd hi, h.setCoeff hi fun _ => coeff⟩
  · rw [hidx]
    exact ⟨(get_of_gap hbelow habove).symm, h.insertAt hle hbelow habove fun _ => coeff⟩

theorem Represents.entryOrInsert (h : Represents c m) (key : List V) (default : BitVec 8)
    (update : BitVec 8 → BitVec 8) : Represents (c.entryOrInsert key default update)
      (m.upsert key fun o => update (o.getD default)) := by
  unfold PolyCoeffs.entryOrInsert
  rcases h.keyIndex key with ⟨i, v, hidx, hi⟩ | ⟨i, hidx, hle, hbelow, habove⟩
  · rw [hidx]
    exact h.setCoeff hi fun o => update (o.getD default)
  · rw [hidx]
    exact h.insertAt hle hbelow habove fun o => update (o.getD default)

theorem Represents.remove (h : Represents c m) (key : List V) :
    (c.remove key).1 = m.get key ∧ Represents (c.remove key).2 (m.erase key) := by
  unfold PolyCoeffs.remove
  rcases h.keyIndex key with ⟨i, v, hidx, hi⟩ | ⟨i, hidx, -, hbelow, habove⟩
  · rw [hidx]
    refine ⟨h.getElem?_snd hi, ?_⟩
    dsimp only [Represents]
    rw [erase_of_getElem? hi, h, stored, stored, List.eraseIdx_map]
  · rw [hidx]
    have hget := get_of_gap hbelow habove
    refine ⟨hget.symm, ?_⟩
    rw [erase_of_get hget]
    exact h

end

end PolyCoeffs
end VolarIR.Common
