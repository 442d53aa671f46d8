import VolarIR.Vaffle.PolySums

/-!
# The folding of polynomials

What `bc_poly` makes of a polynomial sums to what the polynomial sums to, on wires that agree
with the constants of the arena.
-/
namespace VolarIR.Vaffle.VaffleTarget
open Common SortedMap

def Knows (t : VaffleTarget) (on : ℕ → Bool) : Prop := ∀ f b, t.constBit f = some b → on f = b

def Over (P : ℕ → Prop) (terms : List (List ℕ × U8)) : Prop := ∀ e ∈ terms, ∀ v ∈ e.1, P v

theorem mem_dedup {v : ℕ} {l : List ℕ} : v ∈ dedup l ↔ v ∈ l := by
  induction l with
  | nil => rfl
  | cons a rest ih =>
      cases rest with
      | nil => rfl
      | cons b l =>
          rw [dedup]
          split
          case isTrue heq => rw [ih, heq, List.mem_cons (l := b :: l), List.mem_cons]; tauto
          case isFalse => rw [List.mem_cons, ih, ← List.mem_cons]

variable {t : VaffleTarget} {on : ℕ → Bool}

theorem keptFactors_none (hknows : t.Knows on) {mono : List ℕ} (h : t.keptFactors mono = none) :
    mono.all on = false := by
  unfold keptFactors at h
  split at h
  case isTrue hany =>
    obtain ⟨f, hf, hzero⟩ := List.any_eq_true.mp hany
    rw [List.all_eq_false]
    exact ⟨f, hf, by simp [hknows f false (of_decide_eq_true hzero)]⟩
  case isFalse => cases h

theorem mem_keptFactors {mono keep : List ℕ} (h : t.keptFactors mono = some keep) (v : ℕ) :
    v ∈ keep ↔ v ∈ mono ∧ t.constBit v = none := by
  unfold keptFactors at h
  split at h
  case isTrue => cases h
  case isFalse =>
    cases h
    rw [mem_dedup, List.mem_insertionSort, List.mem_filter, Option.isNone_iff_eq_none]

theorem keptFactors_some (hknows : t.Knows on) {mono keep : List ℕ}
    (h : t.keptFactors mono = some keep) : mono.all on = keep.all on := by
  have hone : ∀ f ∈ mono, t.constBit f ≠ some false := by
    intro f hf hzero
    unfold keptFactors at h
    rw [if_pos (List.any_eq_true.mpr ⟨f, hf, decide_eq_true hzero⟩)] at h
    cases h
  rw [Bool.eq_iff_iff, List.all_eq_true, List.all_eq_true]
  constructor
  · intro hall v hv
    exact hall v ((mem_keptFactors h v).mp hv).1
  · intro hall v hv
    cases hc : t.constBit v with
    | none => exact hall v ((mem_keptFactors h v).mpr ⟨hv, hc⟩)
    | some b =>
        cases b with
        | false => exact absurd hc (hone v hv)
        | true => exact hknows v true hc

theorem foldTerm_sum (hknows : t.Knows on) (acc : SortedMap (List ℕ) U8 × Bool)
    (e : List ℕ × U8) :
    (polySum on (t.foldTerm acc e).1.entries ^^ (t.foldTerm acc e).2) =
      ((polySum on acc.1.entries ^^ acc.2) ^^ (e.2.getLsbD 0 && e.1.all on)) := by
  unfold foldTerm
  cases e.2.getLsbD 0 with
  | false => simp
  | true =>
      rw [if_pos rfl, Bool.true_and]
      cases hkeep : t.keptFactors e.1 with
      | none => simp [keptFactors_none hknows hkeep]
      | some keep =>
          rw [keptFactors_some hknows hkeep]
          cases keep with
          | nil => simp
          | cons v keep =>
              simp only [entries_upsert, polySum_toggle, Bool.xor_assoc]
              rw [Bool.xor_comm acc.2]

theorem foldTerms_sum (hknows : t.Knows on) (acc : SortedMap (List ℕ) U8 × Bool)
    (terms : List (List ℕ × U8)) :
    (polySum on (terms.foldl t.foldTerm acc).1.entries ^^ (terms.foldl t.foldTerm acc).2) =
      ((polySum on acc.1.entries ^^ acc.2) ^^ polySum on terms) := by
  induction terms generalizing acc with
  | nil => simp [polySum]
  | cons e rest ih => rw [List.foldl_cons, ih, foldTerm_sum hknows, polySum, Bool.xor_assoc]

theorem foldTerm_over {P : ℕ → Prop} {acc : SortedMap (List ℕ) U8 × Bool} {e : List ℕ × U8}
    (hacc : Over P acc.1.entries) (he : ∀ v ∈ e.1, P v) :
    Over P (t.foldTerm acc e).1.entries := by
  unfold foldTerm
  cases e.2.getLsbD 0 with
  | false => exact hacc
  | true =>
      rw [if_pos rfl]
      cases hkeep : t.keptFactors e.1 with
      | none => exact hacc
      | some keep =>
          cases keep with
          | nil => exact hacc
          | cons v keep =>
              intro b hb w hw
              have hkey := mem_keys_upsertList.mp (List.mem_map_of_mem hb)
              cases hkey with
              | inl heq => exact he w ((mem_keptFactors hkeep w).mp (heq ▸ hw)).1
              | inr hold =>
                  obtain ⟨b', hb', heq⟩ := List.mem_map.mp hold
                  exact hacc b' hb' w (heq ▸ hw)

theorem foldTerms_over {P : ℕ → Prop} {acc : SortedMap (List ℕ) U8 × Bool}
    {terms : List (List ℕ × U8)} (hacc : Over P acc.1.entries) (hterms : Over P terms) :
    Over P (terms.foldl t.foldTerm acc).1.entries := by
  induction terms generalizing acc with
  | nil => exact hacc
  | cons e rest ih =>
      exact ih (foldTerm_over hacc (hterms e List.mem_cons_self))
        fun b hb => hterms b (List.mem_cons_of_mem e hb)

def oddKeys (entries : List (List ℕ × U8)) : List (List ℕ) :=
  (entries.filter fun e => e.2.getLsbD 0).map Prod.fst

theorem represents_collect (entries : List (List ℕ × U8)) :
    (entries.foldl (fun (out : PolyCoeffs ℕ) (e : List ℕ × U8) =>
      if e.2.getLsbD 0 then (out.insert e.1 1).2 else out) .new).Represents
        (keyMap (oddKeys entries)) := by
  induction entries using List.reverseRecOn with
  | nil => rfl
  | append_singleton entries e ih =>
      rw [List.foldl_append, List.foldl_cons, List.foldl_nil, oddKeys, List.filter_append,
        List.map_append, List.filter_singleton]
      cases e.2.getLsbD 0 with
      | false =>
          rw [if_neg Bool.false_ne_true, cond_false, List.map_nil, List.append_nil]
          exact ih
      | true =>
          rw [if_pos rfl, cond_true, List.map_singleton, keyMap_concat]
          exact (ih.insert e.1 1).2

theorem iter_collect (folded : SortedMap (List ℕ) U8) :
    (collect folded).iter = (oddKeys folded.entries).map fun key => (key, 1) := by
  have hsorted : Sorted ((oddKeys folded.entries).map fun key => (key, (1 : U8))) := by
    rw [oddKeys, List.map_map]
    apply List.pairwise_map.mpr
    exact folded.sorted.sublist List.filter_sublist
  have hiter := (represents_collect folded.entries).iter
  rw [keyMap, entries_ofList_of_sorted hsorted] at hiter
  exact hiter

theorem polySum_collect (folded : SortedMap (List ℕ) U8) :
    polySum on (collect folded).iter = polySum on folded.entries := by
  rw [iter_collect]
  induction folded.entries with
  | nil => rfl
  | cons e rest ih =>
      rw [oddKeys, List.filter_cons, polySum]
      cases e.2.getLsbD 0 with
      | false => simpa [oddKeys] using ih
      | true => simpa [oddKeys, polySum] using ih

theorem collect_over {P : ℕ → Prop} {folded : SortedMap (List ℕ) U8} (h : Over P folded.entries) :
    Over P (collect folded).iter := by
  rw [iter_collect]
  intro e he v hv
  obtain ⟨key, hkey, rfl⟩ := List.mem_map.mp he
  obtain ⟨b, hb, rfl⟩ := List.mem_map.mp hkey
  exact h b (List.mem_of_mem_filter hb) v hv

theorem emitFolded_cases (out : PolyCoeffs ℕ) (konst : Bool) :
    (out.iter = [] ∧ emitFolded out konst = emitConst (boolConstant konst) .bit) ∨
    (∃ v c, out.iter = [([v], c)] ∧ konst = false ∧ emitFolded out konst = pure v) ∨
    emitFolded out konst = emitValue (.poly .bit out (boolConstant konst)) := by
  unfold emitFolded
  split
  case h_1 hiter => exact Or.inl ⟨hiter, rfl⟩
  case h_2 v c hiter => exact Or.inr (Or.inl ⟨v, c, hiter, rfl, rfl⟩)
  case h_3 => exact Or.inr (Or.inr rfl)

/-- What `bc_poly` emits: a wire that is there already, or one statement, both of the value of
the polynomial. -/
theorem bcPoly_cases (hknows : t.Knows on) {P : ℕ → Prop} (coeffs : PolyCoeffs ℕ)
    (constant : BitVec 128) (hover : Over P coeffs.iter) :
    (∃ v, P v ∧ bcPoly coeffs constant t = (v, t) ∧
      on v = (constant.getLsbD 0 ^^ polySum on coeffs.iter)) ∨
    (∃ b, bcPoly coeffs constant t = emitConst (boolConstant b) .bit t ∧
      b = (constant.getLsbD 0 ^^ polySum on coeffs.iter)) ∨
    ∃ out b, bcPoly coeffs constant t = emitValue (.poly .bit out (boolConstant b)) t ∧
      Over P out.iter ∧
      (b ^^ polySum on out.iter) = (constant.getLsbD 0 ^^ polySum on coeffs.iter) := by
  have hsum := foldTerms_sum hknows (SortedMap.ofList [], constant.getLsbD 0) coeffs.iter
  have hall : Over P (coeffs.iter.foldl t.foldTerm (.ofList [], constant.getLsbD 0)).1.entries :=
    foldTerms_over (by intro e he; exact absurd he (List.not_mem_nil)) hover
  have hrun : bcPoly coeffs constant t =
      emitFolded (collect (coeffs.iter.foldl t.foldTerm (.ofList [], constant.getLsbD 0)).1)
        (coeffs.iter.foldl t.foldTerm (.ofList [], constant.getLsbD 0)).2 t := rfl
  rw [hrun]
  generalize coeffs.iter.foldl t.foldTerm (.ofList [], constant.getLsbD 0) = r at hsum hall ⊢
  have hover' := collect_over hall
  have hnil : polySum on (SortedMap.ofList [] : SortedMap (List ℕ) U8).entries = false := rfl
  rw [hnil, Bool.false_xor, ← polySum_collect] at hsum
  rcases emitFolded_cases (collect r.1) r.2 with ⟨hiter, heq⟩ | ⟨v, c, hiter, hkonst, heq⟩ | heq
  · rw [hiter, polySum, Bool.false_xor] at hsum
    exact Or.inr (Or.inl ⟨r.2, by rw [heq], hsum⟩)
  · have hmem : ([v], c) ∈ (collect r.1).iter := hiter ▸ List.mem_cons_self
    have hone : c = 1 := by
      rw [iter_collect] at hmem
      obtain ⟨key, -, heq⟩ := List.mem_map.mp hmem
      exact (congrArg Prod.snd heq).symm
    rw [hiter, hkonst, hone] at hsum
    refine Or.inl ⟨v, hover' _ hmem v List.mem_cons_self, by rw [heq]; rfl, ?_⟩
    simpa [polySum] using hsum
  · rw [Bool.xor_comm] at hsum
    exact Or.inr (Or.inr ⟨_, _, by rw [heq], hover', hsum⟩)

end VolarIR.Vaffle.VaffleTarget
