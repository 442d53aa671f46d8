import Mathlib.Data.List.Forall2

/-!
# Lists side by side

Two lists related element by element: each element has its partner, and what holds of any two
elements of one list carries over to the other.
-/
namespace SideBySide

variable {α β : Type*} {R : α → β → Prop} {xs : List α} {ys : List β}

theorem exists_right (h : List.Forall₂ R xs ys) {x : α} (hx : x ∈ xs) : ∃ y ∈ ys, R x y := by
  induction h with
  | nil => cases hx
  | cons hhead _ ih =>
      rcases List.mem_cons.mp hx with rfl | hx
      · exact ⟨_, List.mem_cons_self, hhead⟩
      · obtain ⟨y, hy, hxy⟩ := ih hx
        exact ⟨y, List.mem_cons_of_mem _ hy, hxy⟩

theorem exists_left (h : List.Forall₂ R xs ys) {y : β} (hy : y ∈ ys) : ∃ x ∈ xs, R x y :=
  exists_right h.flip hy

theorem exists_pair {S : β → β → Prop} (hS : ∀ y y', S y y' → S y' y) (h : List.Forall₂ R xs ys)
    (hys : ys.Pairwise S) {x x' : α} (hx : x ∈ xs) (hx' : x' ∈ xs) (hne : x ≠ x') :
    ∃ y ∈ ys, ∃ y' ∈ ys, R x y ∧ R x' y' ∧ S y y' := by
  induction h with
  | nil => cases hx
  | cons hhead hrest ih =>
      rw [List.pairwise_cons] at hys
      rcases List.mem_cons.mp hx with rfl | hxs
      · rcases List.mem_cons.mp hx' with rfl | hxs'
        · exact absurd rfl hne
        · obtain ⟨y', hy', hxy'⟩ := exists_right hrest hxs'
          exact ⟨_, List.mem_cons_self, y', List.mem_cons_of_mem _ hy', hhead, hxy', hys.1 y' hy'⟩
      · rcases List.mem_cons.mp hx' with rfl | hxs'
        · obtain ⟨y, hy, hxy⟩ := exists_right hrest hxs
          exact ⟨y, List.mem_cons_of_mem _ hy, _, List.mem_cons_self, hxy, hhead,
            hS _ _ (hys.1 y hy)⟩
        · obtain ⟨y, hy, y', hy', hxy⟩ := ih hys.2 hxs hxs'
          exact ⟨y, List.mem_cons_of_mem _ hy, y', List.mem_cons_of_mem _ hy', hxy⟩

theorem pairwise_right {Q : α → α → Prop} {S : β → β → Prop}
    (hS : ∀ x x' y y', Q x x' → R x y → R x' y' → S y y') (h : List.Forall₂ R xs ys)
    (hxs : xs.Pairwise Q) : ys.Pairwise S := by
  induction h with
  | nil => exact .nil
  | cons hhead hrest ih =>
      rw [List.pairwise_cons] at hxs
      refine .cons ?_ (ih hxs.2)
      intro y hy
      obtain ⟨x, hx, hxy⟩ := exists_left hrest hy
      exact hS _ _ _ _ (hxs.1 x hx) hhead hxy

end SideBySide
