import Mathlib.Tactic.Common
import Mathlib.Data.List.Basic
import Mathlib.Logic.Function.Basic

/-!
# Words of involutions and toggles of a bit store

Two pieces of general theory. A word of actions is run letter by letter; when
every letter is an involution, the reversed word undoes it. A store `ι → Bool`
is changed by toggling one bit at a time; a toggle whose value does not read its
own target is an involution, and toggles at different places that do not read
each other's target commute.
-/
namespace Words

section
variable {σ γ : Type*} {act : γ → σ → σ}

def run (act : γ → σ → σ) (gs : List γ) (s : σ) : σ := gs.foldl (fun s g => act g s) s

@[simp] theorem run_nil (act : γ → σ → σ) (s : σ) : run act [] s = s := rfl

@[simp] theorem run_cons (act : γ → σ → σ) (g : γ) (gs : List γ) (s : σ) :
    run act (g :: gs) s = run act gs (act g s) := rfl

theorem run_append (act : γ → σ → σ) (xs ys : List γ) (s : σ) :
    run act (xs ++ ys) s = run act ys (run act xs s) := by
  simp [run]

theorem run_invariant {p : σ → Prop} {gs : List γ} (h : ∀ g ∈ gs, ∀ s, p s → p (act g s))
    {s : σ} (hs : p s) : p (run act gs s) := by
  induction gs generalizing s with
  | nil => exact hs
  | cons g gs ih =>
      exact ih (fun a ha => h a (List.mem_cons_of_mem g ha)) (h g List.mem_cons_self s hs)

theorem run_reverse_run {gs : List γ} (h : ∀ g ∈ gs, Function.Involutive (act g)) (s : σ) :
    run act gs.reverse (run act gs s) = s := by
  induction gs generalizing s with
  | nil => rfl
  | cons g gs ih =>
      rw [List.reverse_cons, run_append, run_cons, run_cons, run_nil,
        ih (fun a ha => h a (List.mem_cons_of_mem g ha))]
      exact h g List.mem_cons_self s

end
end Words

namespace BitStore

section
variable {ι : Type*} [DecidableEq ι]

/-- Exclusive-or `b` into the bit at `t`. -/
def toggle (t : ι) (b : Bool) (w : ι → Bool) : ι → Bool := Function.update w t (w t ^^ b)

@[simp] theorem toggle_same (t : ι) (b : Bool) (w : ι → Bool) : toggle t b w t = (w t ^^ b) := by
  simp [toggle]

@[simp] theorem toggle_of_ne {i t : ι} (h : i ≠ t) (b : Bool) (w : ι → Bool) :
    toggle t b w i = w i := by
  simp [toggle, h]

theorem toggle_apply (t : ι) (b : Bool) (w : ι → Bool) (i : ι) :
    toggle t b w i = if i = t then w i ^^ b else w i := by
  by_cases h : i = t
  · subst h; simp
  · simp [h]

@[simp] theorem toggle_toggle (t : ι) (b : Bool) (w : ι → Bool) :
    toggle t b (toggle t b w) = w := by
  funext i
  by_cases h : i = t
  · subst h; simp
  · simp [h]

@[simp] theorem toggle_false (t : ι) (w : ι → Bool) : toggle t false w = w := by
  funext i
  simp [toggle_apply]

/-- Change the places in `Y` by `δ` when `guard` is set. -/
def guardedXor (Y : ι → Prop) [DecidablePred Y] (guard : ι) (δ : (ι → Bool) → ι → Bool)
    (w : ι → Bool) : ι → Bool := fun i => if Y i then w i ^^ (δ w i && w guard) else w i

/-- A guard in any state, toggled by `z` between two guarded changes and once more, lets
exactly one change through when `z` holds and none or two otherwise. -/
theorem guardedXor_twice {Y : ι → Prop} [DecidablePred Y] {guard : ι}
    {δ : (ι → Bool) → ι → Bool} {z : (ι → Bool) → Bool} (hg : ¬Y guard)
    (hδ : ∀ v w, (∀ i, ¬Y i → i ≠ guard → v i = w i) → δ v = δ w)
    (hz : ∀ v w, (∀ i, ¬Y i → i ≠ guard → v i = w i) → z v = z w) (w : ι → Bool) :
    let step := fun v => toggle guard (z (guardedXor Y guard δ v)) (guardedXor Y guard δ v)
    step (step w) = fun i => if Y i then w i ^^ (δ w i && z w) else w i := by
  intro step
  have hoff : ∀ v i, ¬Y i → guardedXor Y guard δ v i = v i := fun v i h => if_neg h
  have hstep : ∀ v i, ¬Y i → i ≠ guard → step v i = v i := fun v i h hi => by
    simp only [step]
    rw [toggle_of_ne hi, hoff v i h]
  have hguard : ∀ v, step v guard = (v guard ^^ z v) := fun v => by
    simp only [step]
    rw [toggle_same, hoff v guard hg, hz _ v fun i h _ => hoff v i h]
  have hon : ∀ v i, Y i → step v i = (v i ^^ (δ v i && v guard)) := fun v i h => by
    have hi : i ≠ guard := fun e => hg (e ▸ h)
    simp only [step]
    rw [toggle_of_ne hi]
    exact if_pos h
  funext i
  split_ifs with h
  · rw [hon _ i h, hon w i h, hguard, hδ (step w) w fun j hj hjg => hstep w j hj hjg]
    cases δ w i <;> cases w guard <;> cases z w <;> simp
  · by_cases hi : i = guard
    · subst hi
      rw [hguard, hguard, hz (step w) w fun j hj hjg => hstep w j hj hjg]
      simp
    · rw [hstep _ i h hi, hstep w i h hi]

end
end BitStore
