import Mathlib.Data.List.Nodup
import Mathlib.Data.List.Perm.Subperm
import Mathlib.Data.List.Range
import Mathlib.Logic.Relation
import Mathlib.Tactic.Common

/-!
# Depth-first order

The order in which a depth-first search meets the nodes below `n` of a graph that is given
by successor lists. It meets exactly the nodes that can be reached from its root.
-/
namespace VolarIR.Preorder

section
variable (next : ℕ → List ℕ) (n : ℕ)

/-- Everything met once the search has gone through `v`; `fuel` bounds the depth. -/
def visit : (fuel : ℕ) → (met : List ℕ) → (v : ℕ) → List ℕ
  | 0, met, _ => met
  | fuel + 1, met, v =>
      if n ≤ v ∨ v ∈ met then met else (next v).foldl (visit fuel) (met ++ [v])

def preorder (root : ℕ) : List ℕ := visit next n n [] root

structure Met (met : List ℕ) : Prop where
  nodup : met.Nodup
  bound : ∀ v ∈ met, v < n

def Edge (v w : ℕ) : Prop := w ∈ next v ∧ w < n

end

variable {next : ℕ → List ℕ} {n fuel : ℕ} {met : List ℕ}

theorem Met.length_le (h : Met n met) : met.length ≤ n := by
  have hsub : met ⊆ List.range n := fun v hv => List.mem_range.mpr (h.bound v hv)
  have hle := (h.nodup.subperm hsub).length_le
  rwa [List.length_range] at hle

theorem Met.snoc (h : Met n met) {v : ℕ} (hv : v < n) (hnew : v ∉ met) : Met n (met ++ [v]) := by
  constructor
  · rw [List.nodup_append]
    refine ⟨h.nodup, List.nodup_singleton v, ?_⟩
    rintro u hu w hw rfl
    exact hnew (List.mem_singleton.mp hw ▸ hu)
  · intro u hu
    rcases List.mem_append.mp hu with hu | hu
    · exact h.bound u hu
    · rw [List.mem_singleton.mp hu]
      exact hv

theorem Met.mem_of_full (h : Met n met) (hfull : n ≤ met.length) {v : ℕ} (hv : v < n) :
    v ∈ met := by
  by_contra hnew
  have hle := (h.snoc hv hnew).length_le
  rw [List.length_append, List.length_singleton] at hle
  omega

structure Extends (next : ℕ → List ℕ) (n : ℕ) (met out : List ℕ) : Prop where
  grows : met <+: out
  valid : Met n out
  closed : ∀ u ∈ out, u ∉ met → ∀ w, Edge next n u w → w ∈ out

theorem Extends.refl (h : Met n met) : Extends next n met met :=
  ⟨List.prefix_refl met, h, fun _ hu hnew => absurd hu hnew⟩

theorem Extends.trans {mid out : List ℕ} (h : Extends next n met mid)
    (h' : Extends next n mid out) : Extends next n met out where
  grows := h.grows.trans h'.grows
  valid := h'.valid
  closed u hu hnew w hw := by
    by_cases hmid : u ∈ mid
    · exact h'.grows.subset (h.closed u hmid hnew w hw)
    · exact h'.closed u hu hmid w hw

theorem extends_visit (hmet : Met n met) (hfuel : n ≤ met.length + fuel) (v : ℕ) :
    Extends next n met (visit next n fuel met v) ∧ (v < n → v ∈ visit next n fuel met v) := by
  induction fuel generalizing met v with
  | zero => exact ⟨.refl hmet, hmet.mem_of_full hfuel⟩
  | succ fuel ih =>
      rw [visit]
      split_ifs with hstop
      · refine ⟨.refl hmet, fun hv => ?_⟩
        rcases hstop with hbig | hold
        · omega
        · exact hold
      · rw [not_or, not_le] at hstop
        have hfold : ∀ (ws : List ℕ) {acc : List ℕ}, Met n acc → n ≤ acc.length + fuel →
            Extends next n acc (ws.foldl (visit next n fuel) acc) ∧
              ∀ w ∈ ws, w < n → w ∈ ws.foldl (visit next n fuel) acc := by
          intro ws
          induction ws with
          | nil => exact fun hacc _ => ⟨.refl hacc, fun w hw => absurd hw List.not_mem_nil⟩
          | cons w ws ihws =>
              intro acc hacc hlen
              obtain ⟨hone, hself⟩ := ih hacc hlen w
              have hlong := hone.grows.length_le
              obtain ⟨hrest, hothers⟩ := ihws hone.valid (by omega)
              refine ⟨hone.trans hrest, fun u hu hlt => ?_⟩
              rcases List.mem_cons.mp hu with rfl | hu
              · exact hrest.grows.subset (hself hlt)
              · exact hothers u hu hlt
        have hstart := hmet.snoc hstop.1 hstop.2
        have hlen : n ≤ (met ++ [v]).length + fuel := by
          rw [List.length_append, List.length_singleton]
          omega
        obtain ⟨hext, hnext⟩ := hfold (next v) hstart hlen
        have hself := hext.grows.subset (List.mem_append_right met (List.mem_singleton_self v))
        refine ⟨⟨(List.prefix_append met [v]).trans hext.grows, hext.valid, ?_⟩, fun _ => hself⟩
        intro u hu hnew w hw
        by_cases hv : u = v
        · subst hv
          exact hnext w hw.1 hw.2
        · apply hext.closed u hu _ w hw
          intro hmem
          rcases List.mem_append.mp hmem with hmem | hmem
          · exact hnew hmem
          · exact hv (List.mem_singleton.mp hmem)

theorem extends_preorder (root : ℕ) :
    Extends next n [] (preorder next n root) ∧ (root < n → root ∈ preorder next n root) :=
  extends_visit ⟨List.nodup_nil, fun v hv => absurd hv List.not_mem_nil⟩ (by simp) root

theorem preorder_getElem_zero {root : ℕ} (hroot : root < n) :
    (preorder next n root)[0]? = some root := by
  obtain ⟨fuel, rfl⟩ : ∃ m, n = m + 1 := ⟨n - 1, by omega⟩
  have hstart : Met (fuel + 1) [root] := by
    have hnil : Met (fuel + 1) ([] : List ℕ) :=
      ⟨List.nodup_nil, fun v hv => absurd hv List.not_mem_nil⟩
    exact hnil.snoc hroot List.not_mem_nil
  have hgrows : ∀ (ws : List ℕ) {acc : List ℕ}, Met (fuel + 1) acc → fuel + 1 ≤ acc.length + fuel →
      acc <+: ws.foldl (visit next (fuel + 1) fuel) acc := by
    intro ws
    induction ws with
    | nil => exact fun _ _ => List.prefix_refl _
    | cons w ws ih =>
        intro acc hacc hlen
        have hone : Extends next (fuel + 1) acc (visit next (fuel + 1) fuel acc w) :=
          (extends_visit hacc hlen w).1
        have hlong := hone.grows.length_le
        exact hone.grows.trans (ih hone.valid (by omega))
  rw [preorder, visit, if_neg (by simpa using hroot)]
  obtain ⟨rest, hrest⟩ := hgrows (next root) hstart (by simp [Nat.add_comm])
  rw [List.nil_append, ← hrest]
  rfl

end VolarIR.Preorder
