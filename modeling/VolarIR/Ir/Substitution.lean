import VolarIR.Ir.BatchGroups

/-!
# Substituting a var of a polynomial

Where the monomials are sorted and the new var is not there yet, no two monomials become one:
the substituted polynomial has the odd monomials of the old one, each with its coefficient. In
characteristic two it is the old one at the substituted values, in any case.
-/
namespace VolarIR.Ir

def MonomialsSorted : IRStmt → Prop
  | .poly _ coeffs _ => ∀ e ∈ coeffs.entries, e.1.Pairwise (· ≤ ·)
  | _ => True

instance : DecidablePred MonomialsSorted := fun s =>
  match s with
  | .poly _ coeffs _ =>
      inferInstanceAs (Decidable (∀ e ∈ coeffs.entries, e.1.Pairwise (· ≤ ·)))
  | .storageRead .. | .storageWrite .. | .const .. | .transmute .. | .rol .. | .ror .. | .merge ..
  | .splat .. | .shuffle .. | .oracleCall .. | .oracleOutput .. | .actionCall ..
  | .actionStore .. | .actionOutput .. | .rng .. => isTrue trivial

def renamedMono (g : ℕ → ℕ) (mono : List ℕ) : List ℕ := (mono.map g).insertionSort (· ≤ ·)

theorem mem_renamedMono {g : ℕ → ℕ} {mono : List ℕ} {u : ℕ} :
    u ∈ renamedMono g mono ↔ ∃ v ∈ mono, g v = u := by
  rw [renamedMono, List.mem_insertionSort, List.mem_map]

theorem renamedMono_inj {g : ℕ → ℕ} {xs ys : List ℕ} (hg : Set.InjOn g {v | v ∈ xs ++ ys})
    (hxs : xs.Pairwise (· ≤ ·)) (hys : ys.Pairwise (· ≤ ·))
        (h : renamedMono g xs = renamedMono g ys) :
    xs = ys := by
  let back := Function.invFunOn g {v | v ∈ xs ++ ys}
  have hback : ∀ v ∈ xs ++ ys, back (g v) = v := fun v hv => hg.leftInvOn_invFunOn hv
  have hperm : (xs.map g).Perm (ys.map g) := by
    have hsorted := List.perm_insertionSort (· ≤ ·) (ys.map g)
    rw [← renamedMono, ← h] at hsorted
    exact (List.perm_insertionSort (· ≤ ·) (xs.map g)).symm.trans hsorted
  have hold := hperm.map back
  have hxsback : (xs.map g).map back = xs := by
    rw [List.map_map]
    exact (List.map_congr_left fun v hv => hback v (List.mem_append_left _ hv)).trans
      (List.map_id _)
  have hysback : (ys.map g).map back = ys := by
    rw [List.map_map]
    exact (List.map_congr_left fun v hv => hback v (List.mem_append_right _ hv)).trans
      (List.map_id _)
  rw [hxsback, hysback] at hold
  exact hold.eq_of_pairwise (fun a b _ _ hab hba => le_antisymm hab hba) hxs hys

theorem valuesAt_of_nodup {terms : List (List ℕ × U8)} (hnodup : (terms.map Prod.fst).Nodup)
    {t : List ℕ × U8} (ht : t ∈ terms) : SortedMap.valuesAt t.1 terms = [t.2] := by
  induction terms with
  | nil => cases ht
  | cons d rest ih =>
      rw [List.map_cons, List.nodup_cons] at hnodup
      rw [SortedMap.valuesAt_cons]
      cases List.mem_cons.mp ht with
      | inl heq =>
          have hnone : SortedMap.valuesAt d.1 rest = [] := by
            rw [List.eq_nil_iff_forall_not_mem]
            intro c hc
            have hmem := SortedMap.mem_valuesAt.mp hc
            exact hnodup.1 (List.mem_map.mpr ⟨(d.1, c), hmem, rfl⟩)
          rw [heq, if_pos rfl, hnone]
      | inr hrest =>
          have hne : d.1 ≠ t.1 := fun heq =>
            hnodup.1 (heq ▸ List.mem_map_of_mem (f := Prod.fst) hrest)
          rw [if_neg hne, ih hnodup.2 hrest]

theorem mem_collectOdd {terms : List (List ℕ × U8)} (hnodup : (terms.map Prod.fst).Nodup)
    {t : List ℕ × U8} : t ∈ (collectOdd terms).entries ↔ t ∈ terms ∧ odd t.2 = true := by
  let combined : PolyCoeffs := terms.foldl (fun (acc : PolyCoeffs) t =>
    acc.upsert t.1 fun old => old.getD 0 ^^^ t.2) .empty
  have hget : combined.get t.1 = (SortedMap.valuesAt t.1 terms).foldl
      (fun old c => some (old.getD 0 ^^^ c)) none :=
    SortedMap.get_foldl_upsert (fun c old => old.getD 0 ^^^ c) terms t.1 .empty
  have hcombined : t ∈ combined.entries ↔ t ∈ terms := by
    have hentry : t ∈ combined.entries ↔ t.2 ∈ SortedMap.valuesAt t.1 combined.entries :=
      SortedMap.mem_valuesAt.symm
    rw [hentry, SortedMap.valuesAt_entries, hget]
    cases hvalues : SortedMap.valuesAt t.1 terms with
    | nil =>
        have hnot : t ∉ terms := by
          intro ht
          rw [valuesAt_of_nodup hnodup ht] at hvalues
          cases hvalues
        simp [hnot]
    | cons c rest =>
        have hc : (t.1, c) ∈ terms := SortedMap.mem_valuesAt.mp (by
          rw [hvalues]
          exact List.mem_cons_self)
        have hone := valuesAt_of_nodup hnodup hc
        rw [hvalues] at hone
        cases hone
        have hzero : (0 : U8) ^^^ c = c := BitVec.zero_xor
        rw [List.foldl_cons, List.foldl_nil, Option.getD_none, hzero, Option.toList_some,
          List.mem_singleton]
        constructor
        · intro heq
          rw [← heq] at hc
          exact hc
        · intro ht
          have hboth := valuesAt_of_nodup hnodup ht
          rw [hvalues] at hboth
          exact (List.cons.inj hboth).1.symm
  have hfilter : t ∈ (collectOdd terms).entries ↔ t ∈ combined.entries ∧ odd t.2 = true := by
    rw [collectOdd, SortedMap.entries_filter, List.mem_filter]
  rw [hfilter, hcombined]

def substituted (source target v : ℕ) : ℕ := if v = source then target else v

theorem substituteVar_eq (coeffs : PolyCoeffs) (source target : ℕ) :
    substituteVar coeffs source target =
      collectOdd (coeffs.entries.map fun e => (renamedMono (substituted source target) e.1, e.2)) :=
  rfl

theorem substituted_injOn {source target : ℕ} {vars : List ℕ} (h : target ∉ vars) :
    Set.InjOn (substituted source target) {v | v ∈ vars} := by
  intro u hu v hv heq
  unfold substituted at heq
  split_ifs at heq with husource hvsource
  · rw [husource, hvsource]
  · exact absurd (heq ▸ hv) h
  · exact absurd (heq ▸ hu) h
  · exact heq

theorem nodup_renamedMono {coeffs : PolyCoeffs}
    (hsorted : ∀ e ∈ coeffs.entries, e.1.Pairwise (· ≤ ·))
    {g : ℕ → ℕ} (hg : Set.InjOn g {v | v ∈ polyVars coeffs}) :
    ((coeffs.entries.map fun e => (renamedMono g e.1, e.2)).map Prod.fst).Nodup := by
  have hkeys : (coeffs.entries.map Prod.fst).Nodup :=
    (List.pairwise_map.mpr coeffs.sorted).imp fun hlt => ne_of_lt hlt
  rw [List.map_map]
  apply List.Nodup.map_on _ hkeys.of_map
  intro d hd e he heq
  have hvars : ∀ v ∈ d.1 ++ e.1, v ∈ polyVars coeffs := by
    intro v hv
    rw [mem_polyVars]
    cases List.mem_append.mp hv with
    | inl hleft => exact ⟨d, hd, hleft⟩
    | inr hright => exact ⟨e, he, hright⟩
  have hmono := renamedMono_inj (hg.mono hvars) (hsorted d hd) (hsorted e he) heq
  exact List.inj_on_of_nodup_map hkeys hd he hmono

theorem mem_substituteVar {coeffs : PolyCoeffs} {source target : ℕ}
    (hsorted : ∀ e ∈ coeffs.entries, e.1.Pairwise (· ≤ ·)) (hfresh : target ∉ polyVars coeffs)
    {t : List ℕ × U8} : t ∈ (substituteVar coeffs source target).entries ↔
      ∃ e ∈ coeffs.entries, odd e.2 = true ∧
          (renamedMono (substituted source target) e.1, e.2) = t := by
  rw [substituteVar_eq,
    mem_collectOdd (nodup_renamedMono hsorted (substituted_injOn hfresh)), List.mem_map]
  constructor
  · intro h
    obtain ⟨⟨e, he, heq⟩, hodd⟩ := h
    rw [← heq] at hodd
    exact ⟨e, he, hodd, heq⟩
  · intro h
    obtain ⟨e, he, hodd, heq⟩ := h
    rw [← heq]
    exact ⟨⟨e, he, rfl⟩, hodd⟩

section
variable {R : Type} [CommRing R] (y : ℕ → R)

end

/-- Under an increasing renumbering the rebuilt template is the template renumbered. -/
theorem entries_remappedTemplate {coeffs : PolyCoeffs} {remap : List ℕ} {g : ℕ → ℕ}
    (hsorted : ∀ e ∈ coeffs.entries, e.1.Pairwise (· ≤ ·))
    (hremap : ∀ v ∈ polyVars coeffs, remapped remap v = g v)
    (hmono : StrictOn g (coeffs.entries.flatMap Prod.fst)) :
    (SortedMap.ofList (coeffs.entries.map fun e => (remapMonomial remap e.1, e.2)) :
      PolyCoeffs).entries = coeffs.entries.map fun e => (e.1.map g, e.2) := by
  have hsame : (coeffs.entries.map fun e => (remapMonomial remap e.1, e.2)) =
      coeffs.entries.map fun e => (e.1.map g, e.2) := by
    apply List.map_congr_left
    intro e he
    have hmap : e.1.map (remapped remap) = e.1.map g :=
      List.map_congr_left fun v hv => hremap v (mem_polyVars.mpr ⟨e, he, hv⟩)
    have hascending : (e.1.map g).Pairwise (· ≤ ·) := by
      rw [List.pairwise_map]
      apply (hsorted e he).imp_of_mem
      intro u v hu hv huv
      rcases Nat.lt_or_eq_of_le huv with hlt | rfl
      · exact (hmono u (List.mem_flatMap.mpr ⟨e, he, hu⟩) v
          (List.mem_flatMap.mpr ⟨e, he, hv⟩) hlt).le
      · exact le_rfl
    rw [remapMonomial, hmap, hascending.insertionSort_eq]
  rw [hsame, entries_mapVars hmono]

end VolarIR.Ir
