import Mathlib.Data.List.Basic
import Mathlib.Order.Compare
import Mathlib.Tactic.Common

/-!
# Binary search by a comparison

The search of a list for the element that compares equal, or for the place where one
belongs. In a list that the comparison splits in order it finds exactly that.
-/
namespace BinarySearch
variable {α : Type} (cmp : α → Ordering) (xs : List α)

/-- Halve the range of `size` positions from `base` on until one is left. -/
def loop : (fuel base size : ℕ) → ℕ
  | 0, base, _ => base
  | fuel + 1, base, size =>
      if size ≤ 1 then base
      else
        let half := size / 2
        let base := if xs[base + half]?.map cmp = some .gt then base else base + half
        loop fuel base (size - half)

/-- `binary_search_by`: the position of an equal element, or where to insert one. -/
def search : Except ℕ ℕ :=
  if xs = [] then .error 0
  else
    let base := loop cmp xs xs.length 0 xs.length
    match xs[base]?.map cmp with
    | some .eq => .ok base
    | some .lt => .error (base + 1)
    | _ => .error base

variable {cmp xs} in
theorem loop_lt (fuel : ℕ) {base size n : ℕ} (hpos : 0 < size) (hfits : base + size ≤ n) :
    loop cmp xs fuel base size < n := by
  induction fuel generalizing base size with
  | zero =>
      rw [loop]
      omega
  | succ fuel ih =>
      rw [loop]
      split_ifs with hsize
      · omega
      · apply ih (by omega)
        split_ifs <;> omega

variable {cmp xs} in
theorem search_fits :
    match search cmp xs with
    | .ok i => ∃ a, xs[i]? = some a ∧ cmp a = .eq
    | .error i => i ≤ xs.length := by
  by_cases hnil : xs = []
  · simp [search, hnil]
  · have hlt : loop cmp xs xs.length 0 xs.length < xs.length :=
      loop_lt _ (List.length_pos_of_ne_nil hnil) (by omega)
    rw [search, if_neg hnil]
    generalize loop cmp xs xs.length 0 xs.length = base at hlt
    have hat : xs[base]? = some xs[base] := List.getElem?_eq_getElem hlt
    dsimp only
    rw [hat, Option.map_some]
    cases hcmp : cmp xs[base] with
    | eq => exact ⟨_, hat, hcmp⟩
    | lt => exact hlt
    | gt => exact Nat.le_of_lt hlt

/-- Elements before one that is not greater are less: the list is strictly increasing as far
as the comparison can see. -/
def Ordered : Prop := xs.Pairwise fun a b => cmp b ≠ .gt → cmp a = .lt

variable {cmp xs}

theorem Ordered.lt_of_lt (h : Ordered cmp xs) {i j : ℕ} {a b : α} (hi : xs[i]? = some a)
    (hj : xs[j]? = some b) (hij : i < j) (hb : cmp b ≠ .gt) : cmp a = .lt := by
  obtain ⟨hi', rfl⟩ := List.getElem?_eq_some_iff.mp hi
  obtain ⟨hj', rfl⟩ := List.getElem?_eq_some_iff.mp hj
  exact List.pairwise_iff_getElem.mp h i j hi' hj' hij hb

structure Range (cmp : α → Ordering) (xs : List α) (base size : ℕ) : Prop where
  pos : 0 < size
  fits : base + size ≤ xs.length
  above : ∀ j b, base + size ≤ j → xs[j]? = some b → cmp b = .gt
  below : base = 0 ∨ ∃ a, xs[base]? = some a ∧ cmp a ≠ .gt

theorem Range.half {base size : ℕ} (h : Range cmp xs base size) (hord : Ordered cmp xs)
    (hsize : 1 < size) :
    Range cmp xs (if xs[base + size / 2]?.map cmp = some .gt then base else base + size / 2)
      (size - size / 2) := by
  have hfits := h.fits
  have hlt : base + size / 2 < xs.length := by omega
  have hmid : xs[base + size / 2]? = some xs[base + size / 2] := List.getElem?_eq_getElem hlt
  simp only [hmid, Option.map_some, Option.some.injEq]
  split_ifs with hgt
  · refine ⟨by omega, by omega, ?_, h.below⟩
    intro j b hj hb
    by_cases hlast : base + size ≤ j
    · exact h.above j b hlast hb
    · by_contra hne
      rcases Nat.lt_or_ge (base + size / 2) j with hbefore | hat
      · have hless := hord.lt_of_lt hmid hb hbefore hne
        rw [hgt] at hless
        cases hless
      · obtain rfl : j = base + size / 2 := by omega
        rw [hmid] at hb
        cases hb
        exact hne hgt
  · refine ⟨by omega, by omega, ?_, .inr ⟨_, hmid, hgt⟩⟩
    intro j b hj hb
    exact h.above j b (by omega) hb

theorem loop_spec (hord : Ordered cmp xs) (fuel : ℕ) {base size : ℕ} (hfuel : size ≤ fuel)
    (h : Range cmp xs base size) : Range cmp xs (loop cmp xs fuel base size) 1 := by
  induction fuel generalizing base size with
  | zero =>
      have hpos := h.pos
      omega
  | succ fuel ih =>
      rw [loop]
      split_ifs with hsize
      · have hpos := h.pos
        obtain rfl : size = 1 := by omega
        exact h
      · have hpos := h.pos
        exact ih (by omega) (h.half hord (by omega))

/-- A position found holds an equal element; otherwise the elements before the position
returned are less and those from it on are greater. -/
theorem search_spec (hord : Ordered cmp xs) :
    match search cmp xs with
    | .ok i => ∃ a, xs[i]? = some a ∧ cmp a = .eq
    | .error i => i ≤ xs.length ∧ (∀ j a, j < i → xs[j]? = some a → cmp a = .lt) ∧
        ∀ j b, i ≤ j → xs[j]? = some b → cmp b = .gt := by
  by_cases hnil : xs = []
  · subst hnil
    simp [search]
  · have hlen : 0 < xs.length := List.length_pos_of_ne_nil hnil
    have hstart : Range cmp xs 0 xs.length := by
      refine ⟨hlen, by omega, ?_, .inl rfl⟩
      intro j b hj hb
      rw [List.getElem?_eq_none (by omega)] at hb
      cases hb
    have hend := loop_spec hord xs.length (Nat.le_refl _) hstart
    rw [search, if_neg hnil]
    generalize loop cmp xs xs.length 0 xs.length = base at hend
    have hfits := hend.fits
    have hat : xs[base]? = some xs[base] := List.getElem?_eq_getElem (by omega)
    dsimp only
    rw [hat, Option.map_some]
    cases hcmp : cmp xs[base] with
    | eq => exact ⟨_, hat, hcmp⟩
    | lt =>
        refine ⟨hfits, ?_, fun j b hj hb => hend.above j b hj hb⟩
        intro j a hj ha
        rcases Nat.lt_succ_iff_lt_or_eq.mp hj with hlt | rfl
        · exact hord.lt_of_lt ha hat hlt (by rw [hcmp]; decide)
        · rw [hat] at ha
          cases ha
          exact hcmp
    | gt =>
        have hzero : base = 0 := by
          rcases hend.below with hzero | ⟨a, ha, hne⟩
          · exact hzero
          · rw [hat] at ha
            cases ha
            exact absurd hcmp hne
        subst hzero
        refine ⟨Nat.zero_le _, fun j a hj => absurd hj (Nat.not_lt_zero j), ?_⟩
        intro j b _ hb
        rcases Nat.eq_zero_or_pos j with rfl | hpos
        · rw [hat] at hb
          cases hb
          exact hcmp
        · exact hend.above j b (by omega) hb

end BinarySearch
