import VolarIR.Schedule.Manifest

/-!
# Reserved ordinal ranges

What `add_range` accepts, one range after the other. The half-open overlap test finds a common
ordinal of two ranges, and it also takes an empty range that starts strictly inside another
one for an overlap. Only ranges that are not empty are recorded, so an empty range is refused
when it comes after the range around it and passes when it comes before.
-/
namespace VolarIR.Schedule

open Fallible

namespace OrdinalRange

def Reserves (range : OrdinalRange) (n : ℕ) : Prop :=
  range.start.val ≤ n ∧ n < range.start.val + range.len.val

/-- The range does not run past the end of `u64`. -/
def Fits (range : OrdinalRange) : Prop := range.start.val + range.len.val < 2 ^ 64

def Disjoint (a b : OrdinalRange) : Prop := ∀ n, a.Reserves n → ¬ b.Reserves n

def Inside (empty range : OrdinalRange) : Prop :=
  empty.len.val = 0 ∧ range.start.val < empty.start.val ∧
    empty.start.val < range.start.val + range.len.val

instance (range : OrdinalRange) : Decidable range.Fits := inferInstanceAs (Decidable (_ < _))

instance (empty range : OrdinalRange) : Decidable (empty.Inside range) :=
  inferInstanceAs (Decidable (_ ∧ _ ∧ _))

variable {a b range : OrdinalRange}

theorem Disjoint.symm (h : a.Disjoint b) : b.Disjoint a := fun n hb ha => h n ha hb

theorem Inside.nonempty (h : a.Inside b) : b.len.val ≠ 0 := by
  have hlt := h.2
  omega

theorem disjoint_of_empty (h : a.len.val = 0) : a.Disjoint b := by
  intro n ha
  have hlt := ha.2
  have hle := ha.1
  omega

theorem disjoint_iff (ha : a.len.val ≠ 0) (hb : b.len.val ≠ 0) :
    a.Disjoint b ↔ ¬ (a.start.val < b.start.val + b.len.val ∧
      b.start.val < a.start.val + a.len.val) := by
  constructor
  · intro h hmeet
    exact h (max a.start.val b.start.val) ⟨by omega, by omega⟩ ⟨by omega, by omega⟩
  · intro h n hna hnb
    have ha' := hna.2
    have hb' := hnb.2
    have hale := hna.1
    have hble := hnb.1
    omega

theorem rangeEnd_eq_ok {last : U64} :
    range.rangeEnd = .ok last ↔ last.val = range.start.val + range.len.val := by
  rw [rangeEnd, okOr_eq_ok, checkedAdd_eq_some]

theorem exists_rangeEnd : (∃ last, range.rangeEnd = .ok last) ↔ range.Fits := by
  constructor
  · intro h
    obtain ⟨last, hlast⟩ := h
    have hlt := last.isLt
    rw [rangeEnd_eq_ok.mp hlast] at hlt
    exact hlt
  · exact fun h => ⟨⟨_, h⟩, rangeEnd_eq_ok.mpr rfl⟩

theorem overlaps_eq (ha : a.Fits) (hb : b.Fits) :
    a.overlaps b = .ok (decide (a.start.val < b.start.val + b.len.val ∧
      b.start.val < a.start.val + a.len.val)) := by
  have hea : a.rangeEnd = .ok ⟨_, ha⟩ := rangeEnd_eq_ok.mpr rfl
  have heb : b.rangeEnd = .ok ⟨_, hb⟩ := rangeEnd_eq_ok.mpr rfl
  rw [overlaps, hea, heb]
  simp only [bind, Except.bind, pure, Except.pure, Fin.lt_def]
  split_ifs with h
  · simp [h]
  · simp [h]

theorem overlaps_eq_false_iff (ha : a.Fits) (hb : b.Fits) (hne : b.len.val ≠ 0) :
    a.overlaps b = .ok false ↔ b.Disjoint a ∧ ¬ a.Inside b := by
  rw [overlaps_eq ha hb, Except.ok.injEq, decide_eq_false_iff_not]
  by_cases hempty : a.len.val = 0
  · have hdisjoint : b.Disjoint a := (disjoint_of_empty hempty).symm
    have hinside : a.Inside b ↔ a.start.val < b.start.val + b.len.val ∧
        b.start.val < a.start.val + a.len.val := by
      unfold Inside
      omega
    rw [hinside]
    exact ⟨fun h => ⟨hdisjoint, h⟩, fun h => h.2⟩
  · rw [disjoint_iff hne hempty]
    unfold Inside
    omega

end OrdinalRange

def Admits (earlier later : OrdinalRange) : Prop :=
  earlier.Disjoint later ∧ ¬ later.Inside earlier

def Recordable (ranges : List OrdinalRange) : Prop :=
  ∀ range ∈ ranges, range.Fits ∧ range.len.val ≠ 0

/-- What `add_range` checks, and what it records. -/
theorem addRange_eq_ok_iff {ranges out : List OrdinalRange} {range : OrdinalRange}
    (h : Recordable ranges) :
    addRange ranges range = .ok out ↔
      range.Fits ∧ (∀ earlier ∈ ranges, Admits earlier range) ∧
        out = if range.len.val ≠ 0 then ranges ++ [range] else ranges := by
  have hcheck : range.Fits → ∀ earlier ∈ ranges, ((do
      let meets ← range.overlaps earlier
      ensure (meets = false) (.overlappingOrdinalRanges earlier range)) = .ok () ↔
        Admits earlier range) := by
    intro hfits earlier hmem
    obtain ⟨hearlier, hne⟩ := h earlier hmem
    rw [Admits, ← OrdinalRange.overlaps_eq_false_iff hfits hearlier hne]
    simp only [Except.bind_eq_ok, ensure_eq_ok]
    simp
  simp only [addRange, Except.bind_eq_ok]
  constructor
  · intro hadd
    obtain ⟨last, hlast, u, hforM, hout⟩ := hadd
    have hfits := OrdinalRange.exists_rangeEnd.mp ⟨last, hlast⟩
    refine ⟨hfits, ?_, (Except.ok.inj hout).symm⟩
    intro earlier hmem
    exact (hcheck hfits earlier hmem).mp (forM_eq_ok.mp hforM earlier hmem)
  · intro hspec
    obtain ⟨last, hlast⟩ := OrdinalRange.exists_rangeEnd.mpr hspec.1
    refine ⟨last, hlast, (), ?_, congrArg Except.ok hspec.2.2.symm⟩
    exact forM_eq_ok.mpr fun earlier hmem =>
      (hcheck hspec.1 earlier hmem).mpr (hspec.2.1 earlier hmem)

def recorded (ranges : List OrdinalRange) : List OrdinalRange :=
  ranges.filter fun range => decide (range.len.val ≠ 0)

theorem admits_of_empty {earlier later : OrdinalRange} (h : earlier.len.val = 0) :
    Admits earlier later :=
  ⟨OrdinalRange.disjoint_of_empty h, fun hinside => hinside.nonempty h⟩

/-- What a run of `add_range` over a list of ranges accepts, and what it records. -/
theorem addRanges_eq_ok_iff {ranges done out : List OrdinalRange}
    (hdone : ∀ range ∈ done, range.Fits) :
    ranges.foldlM addRange (recorded done) = .ok out ↔
      (∀ range ∈ ranges, range.Fits ∧ ∀ earlier ∈ done, Admits earlier range) ∧
        ranges.Pairwise Admits ∧ out = recorded (done ++ ranges) := by
  induction ranges generalizing done with
  | nil =>
      simp only [List.foldlM_nil, List.append_nil]
      simp [pure, Except.pure, eq_comm]
  | cons range ranges ih =>
      have hrecorded : Recordable (recorded done) := by
        intro earlier hmem
        have hfilter := List.mem_filter.mp hmem
        exact ⟨hdone earlier hfilter.1, of_decide_eq_true hfilter.2⟩
      have hearlier : (∀ earlier ∈ recorded done, Admits earlier range) ↔
          ∀ earlier ∈ done, Admits earlier range := by
        constructor
        · intro hall earlier hmem
          by_cases hempty : earlier.len.val = 0
          · exact admits_of_empty hempty
          · exact hall earlier (List.mem_filter.mpr ⟨hmem, decide_eq_true hempty⟩)
        · exact fun hall earlier hmem => hall earlier (List.mem_of_mem_filter hmem)
      have hnext : (if range.len.val ≠ 0 then recorded done ++ [range] else recorded done) =
          recorded (done ++ [range]) := by
        rw [recorded, recorded, List.filter_append, List.filter_singleton]
        split_ifs with hne
        · simp [hne]
        · simp [hne]
      simp only [List.foldlM_cons, Except.bind_eq_ok, addRange_eq_ok_iff hrecorded, hearlier, hnext]
      have hfits : range.Fits → ∀ r ∈ done ++ [range], r.Fits := by
        intro hr
        rw [List.forall_mem_append]
        exact ⟨hdone, List.forall_mem_singleton.mpr hr⟩
      have happend : done ++ [range] ++ ranges = done ++ range :: ranges := by
        rw [List.append_assoc, List.singleton_append]
      constructor
      · intro h
        obtain ⟨_, ⟨hr, hadmits, rfl⟩, hrest⟩ := h
        obtain ⟨hall, hpair, hout⟩ := (ih (hfits hr)).mp hrest
        refine ⟨List.forall_mem_cons.mpr ⟨⟨hr, hadmits⟩, ?_⟩, List.pairwise_cons.mpr ⟨?_, hpair⟩,
          happend ▸ hout⟩
        · exact fun r hmem => ⟨(hall r hmem).1, fun earlier he =>
            (hall r hmem).2 earlier (List.mem_append_left _ he)⟩
        · exact fun r hmem => (hall r hmem).2 range (List.mem_append_right _ List.mem_cons_self)
      · intro h
        obtain ⟨hall, hpair, hout⟩ := h
        obtain ⟨hhead, hall⟩ := List.forall_mem_cons.mp hall
        obtain ⟨hfirst, hpair⟩ := List.pairwise_cons.mp hpair
        refine ⟨_, ⟨hhead.1, hhead.2, rfl⟩, (ih (hfits hhead.1)).mpr ⟨?_, hpair, happend ▸ hout⟩⟩
        intro r hmem
        refine ⟨(hall r hmem).1, ?_⟩
        rw [List.forall_mem_append]
        exact ⟨(hall r hmem).2, List.forall_mem_singleton.mpr (hfirst r hmem)⟩

structure Apart (ranges : List OrdinalRange) : Prop where
  fits : ∀ range ∈ ranges, range.Fits
  disjoint : ranges.Pairwise OrdinalRange.Disjoint

def NoneInside (ranges : List OrdinalRange) : Prop :=
  ∀ a ∈ ranges, ∀ b ∈ ranges, ¬ a.Inside b

instance (ranges : List OrdinalRange) : Decidable (NoneInside ranges) :=
  inferInstanceAs (Decidable (∀ a ∈ ranges, ∀ b ∈ ranges, ¬ a.Inside b))

theorem reserved_iff {ranges : List OrdinalRange} :
    (∃ out, ranges.foldlM addRange [] = .ok out) ↔
      Apart ranges ∧ ranges.Pairwise fun earlier later => ¬ later.Inside earlier := by
  have hrun : ∀ out, ranges.foldlM addRange [] = .ok out ↔
      (∀ range ∈ ranges, range.Fits) ∧ ranges.Pairwise Admits ∧ out = recorded ranges := by
    intro out
    have h : ranges.foldlM addRange (recorded []) = .ok out ↔ _ :=
      addRanges_eq_ok_iff (by simp)
    simpa [recorded] using h
  have hadmits : ranges.Pairwise Admits ↔ ranges.Pairwise OrdinalRange.Disjoint ∧
      ranges.Pairwise fun earlier later => ¬ later.Inside earlier := List.pairwise_and_iff
  constructor
  · intro h
    obtain ⟨out, hout⟩ := h
    obtain ⟨hfits, hpair, -⟩ := (hrun out).mp hout
    exact ⟨⟨hfits, (hadmits.mp hpair).1⟩, (hadmits.mp hpair).2⟩
  · intro h
    exact ⟨_, (hrun _).mpr ⟨h.1.fits, hadmits.mpr ⟨h.1.disjoint, h.2⟩, rfl⟩⟩

theorem reserved_iff_of_noneInside {ranges : List OrdinalRange} (h : NoneInside ranges) :
    (∃ out, ranges.foldlM addRange [] = .ok out) ↔ Apart ranges := by
  rw [reserved_iff, and_iff_left]
  exact List.pairwise_of_forall_mem_list fun a ha b hb => h b hb a ha

theorem Apart.perm {xs ys : List OrdinalRange} (h : xs.Perm ys) : Apart xs ↔ Apart ys := by
  have hsymm : ∀ {a b : OrdinalRange}, a.Disjoint b → b.Disjoint a := OrdinalRange.Disjoint.symm
  constructor
  · exact fun hxs => ⟨fun r hr =>
      hxs.fits r (h.mem_iff.mpr hr), (h.pairwise_iff hsymm).mp hxs.disjoint⟩
  · exact fun hys => ⟨fun r hr =>
      hys.fits r (h.mem_iff.mp hr), (h.pairwise_iff hsymm).mpr hys.disjoint⟩

theorem NoneInside.perm {xs ys : List OrdinalRange} (h : xs.Perm ys) (hxs : NoneInside xs) :
    NoneInside ys :=
  fun a ha b hb => hxs a (h.mem_iff.mpr ha) b (h.mem_iff.mpr hb)

theorem exists_refused_order {ranges : List OrdinalRange} (h : ¬ NoneInside ranges) :
    ∃ ys : List OrdinalRange, ys.Perm ranges ∧ ¬ ∃ out, ys.foldlM addRange [] = .ok out := by
  simp only [NoneInside, not_forall, not_not] at h
  obtain ⟨a, ha, b, hb, hinside⟩ := h
  have hne : a ≠ b := fun heq => (heq ▸ hinside).nonempty (heq ▸ hinside.1)
  have hrest : a ∈ ranges.erase b := (List.mem_erase_of_ne hne).mpr ha
  refine ⟨b :: a :: (ranges.erase b).erase a, ?_, ?_⟩
  · exact (((List.perm_cons_erase hrest).symm.cons b).trans (List.perm_cons_erase hb).symm)
  · intro hreserved
    have hpair := (reserved_iff.mp hreserved).2
    exact (List.pairwise_cons.mp hpair).1 a List.mem_cons_self hinside

/-- A range as `OrdinalRange::default()` if it is empty. -/
def OrdinalRange.cleared (range : OrdinalRange) : OrdinalRange :=
  if range.len.val = 0 then ⟨0, 0⟩ else range

theorem noneInside_cleared (ranges : List OrdinalRange) :
    NoneInside (ranges.map OrdinalRange.cleared) := by
  intro a ha b _ hinside
  obtain ⟨r, -, rfl⟩ := List.mem_map.mp ha
  unfold OrdinalRange.cleared at hinside
  split_ifs at hinside with hempty
  · exact Nat.not_lt_zero _ hinside.2.1
  · exact hempty hinside.1

theorem disjoint_cleared {a b : OrdinalRange} : a.cleared.Disjoint b.cleared ↔ a.Disjoint b := by
  have hempty : (⟨0, 0⟩ : OrdinalRange).len.val = 0 := rfl
  unfold OrdinalRange.cleared
  split_ifs with ha hb hb
  · exact iff_of_true (OrdinalRange.disjoint_of_empty hempty) (OrdinalRange.disjoint_of_empty ha)
  · exact iff_of_true (OrdinalRange.disjoint_of_empty hempty) (OrdinalRange.disjoint_of_empty ha)
  · exact iff_of_true (OrdinalRange.disjoint_of_empty hempty).symm
      (OrdinalRange.disjoint_of_empty hb).symm
  · exact Iff.rfl

theorem fits_cleared {a : OrdinalRange} : a.cleared.Fits ↔ a.Fits := by
  unfold OrdinalRange.cleared
  split_ifs with h
  · have hlt := a.start.isLt
    unfold OrdinalRange.Fits
    rw [h]
    exact iff_of_true (by decide) (by omega)
  · exact Iff.rfl

theorem apart_cleared {ranges : List OrdinalRange} :
    Apart (ranges.map OrdinalRange.cleared) ↔ Apart ranges := by
  constructor
  · intro h
    refine ⟨fun r hr => fits_cleared.mp (h.fits _ (List.mem_map_of_mem hr)), ?_⟩
    exact (List.pairwise_map.mp h.disjoint).imp disjoint_cleared.mp
  · intro h
    refine ⟨?_, List.pairwise_map.mpr (h.disjoint.imp disjoint_cleared.mpr)⟩
    intro r hr
    obtain ⟨s, hs, rfl⟩ := List.mem_map.mp hr
    exact fits_cleared.mpr (h.fits s hs)

end VolarIR.Schedule
