import Mathlib.Tactic.Common
import Mathlib.Data.Fintype.Card
import Mathlib.Data.List.Basic
import Mathlib.Logic.Function.Iterate

/-!
# Loops that stop at the first unchanged round

A rewriting step reports whether it changed anything, and the loop repeats it while it
did. A measure that every changing round lowers bounds the number of rounds; what each
round keeps, the loop keeps; and a step that reports no change leaves the last state a
fixpoint.
-/
namespace Loop

variable {α : Type}

/-- Repeat `step` until it reports no change; `none` when the fuel runs out. The flag says
whether any round changed anything. -/
def untilStable (step : α → α × Bool) : ℕ → α → Option (α × Bool)
  | 0, _ => none
  | fuel + 1, a =>
      if (step a).2 then (untilStable step fuel (step a).1).map fun r => (r.1, true)
      else some ((step a).1, false)

section
variable {step : α → α × Bool} {inv : α → Prop} {μ : α → ℕ} {a : α} {fuel : ℕ}

theorem untilStable_ends (hinv : ∀ a, inv a → inv (step a).1)
    (hμ : ∀ a, inv a → (step a).2 = true → μ (step a).1 < μ a) (ha : inv a) (hf : μ a < fuel) :
    ∃ r, untilStable step fuel a = some r := by
  induction fuel generalizing a with
  | zero => exact absurd hf (Nat.not_lt_zero _)
  | succ fuel ih =>
      rw [untilStable]
      split_ifs with hc
      · obtain ⟨r, hr⟩ := ih (hinv a ha) (Nat.lt_of_lt_of_le (hμ a ha hc) (Nat.le_of_lt_succ hf))
        exact ⟨_, by rw [hr]; rfl⟩
      · exact ⟨_, rfl⟩

theorem untilStable_keeps (inv : α → Prop) {r : α × Bool}
    (hinv : ∀ a, inv a → inv (step a).1) (ha : inv a) (h : untilStable step fuel a = some r) :
    inv r.1 := by
  induction fuel generalizing a r with
  | zero => cases h
  | succ fuel ih =>
      rw [untilStable] at h
      split_ifs at h with hc
      · obtain ⟨r', hr', rfl⟩ := Option.map_eq_some_iff.mp h
        have hrest := ih (hinv a ha) hr'
        exact hrest
      · obtain rfl := Option.some.inj h
        exact hinv a ha

theorem untilStable_stable {r : α × Bool} (hinv : ∀ a, inv a → inv (step a).1)
    (hid : ∀ a, inv a → (step a).2 = false → (step a).1 = a) (ha : inv a)
    (h : untilStable step fuel a = some r) : step r.1 = (r.1, false) := by
  induction fuel generalizing a r with
  | zero => cases h
  | succ fuel ih =>
      rw [untilStable] at h
      split_ifs at h with hc
      · obtain ⟨r', hr', rfl⟩ := Option.map_eq_some_iff.mp h
        have hrest := ih (hinv a ha) hr'
        exact hrest
      · obtain rfl := Option.some.inj h
        have hsame := hid a ha (Bool.eq_false_iff.mpr hc)
        have hflag : (step a).2 = false := Bool.eq_false_iff.mpr hc
        show step (step a).1 = ((step a).1, false)
        rw [hsame]
        exact Prod.ext hsame hflag

theorem untilStable_of_stable (h : step a = (a, false)) :
    untilStable step (fuel + 1) a = some (a, false) := by
  simp [untilStable, h]

theorem untilStable_of_idempotent (h : step (step a).1 = ((step a).1, false)) :
    untilStable step (fuel + 2) a = some (step a) := by
  rw [untilStable, untilStable_of_stable h]
  split_ifs with hc
  · exact congrArg some (Prod.ext rfl hc.symm)
  · exact congrArg some (Prod.ext rfl (Bool.eq_false_iff.mpr hc).symm)

theorem untilStable_mono {r : α × Bool} (h : untilStable step fuel a = some r) {fuel' : ℕ}
    (hle : fuel ≤ fuel') : untilStable step fuel' a = some r := by
  induction fuel generalizing a r fuel' with
  | zero => cases h
  | succ fuel ih =>
      obtain ⟨fuel', rfl⟩ : ∃ n, fuel' = n + 1 := ⟨fuel' - 1, by omega⟩
      rw [untilStable] at h ⊢
      split_ifs at h ⊢ with hc
      · obtain ⟨r', hr', rfl⟩ := Option.map_eq_some_iff.mp h
        rw [ih hr' (Nat.le_of_succ_le_succ hle)]
        rfl
      · exact h

end
end Loop

/-!
## Descent in a finite table

Entries of different ranks differ, so a table in which every rank below a present one is
present has more entries than that rank.
-/

namespace Descent

variable {ι : Type} {Rank : ℕ → ι → Prop}

theorem exists_below (hpred : ∀ d i, Rank (d + 1) i → ∃ j, Rank d j) {d : ℕ} {i : ι}
    (h : Rank d i) {k : ℕ} (hk : k ≤ d) : ∃ j, Rank k j := by
  induction d generalizing i with
  | zero => exact ⟨i, by rwa [Nat.le_zero.mp hk]⟩
  | succ d ih =>
      by_cases heq : k = d + 1
      · exact ⟨i, by rwa [heq]⟩
      · obtain ⟨j, hj⟩ := hpred d i h
        exact ih hj (by omega)

variable (Rank) in
theorem lt_of_rank {pos : ι → ℕ} {n : ℕ} (hpos : Function.Injective pos)
    (hin : ∀ d i, Rank d i → pos i < n) (hpred : ∀ d i, Rank (d + 1) i → ∃ j, Rank d j)
    (huniq : ∀ j k i, Rank j i → Rank k i → j = k) {d : ℕ} {i : ι} (h : Rank d i) : d < n := by
  choose entry hentry using fun k : Fin (d + 1) => exists_below hpred h (Nat.le_of_lt_succ k.2)
  have hinj : Function.Injective fun k => (⟨pos (entry k), hin _ _ (hentry k)⟩ : Fin n) := by
    intro j k hjk
    have heq : entry j = entry k := hpos (Fin.mk.inj hjk)
    have hk := hentry k
    rw [← heq] at hk
    exact Fin.ext (huniq _ _ _ (hentry j) hk)
  have hcard := Fintype.card_le_of_injective _ hinj
  rwa [Fintype.card_fin, Fintype.card_fin] at hcard

end Descent

/-!
## Bounded loops and their first exit

A loop whose step reports whether it leaves, what it leaves with, and where it goes on
otherwise. Executing every iteration and taking the first result whose flag is set gives
what the bounded loop returns; the flags' disjunction says whether it does.
-/
namespace Cascade

variable {S R : Type}

/-- The loop: leave with the first result whose flag is set, within `n` iterations. -/
def runFor (step : S → Bool × R × S) : ℕ → S → Option R
  | 0, _ => none
  | n + 1, s => if (step s).1 then some (step s).2.1 else runFor step n (step s).2.2

/-- The flag and result of each of `n` iterations, past the exit too. -/
def trace (step : S → Bool × R × S) : ℕ → S → List (Bool × R)
  | 0, _ => []
  | n + 1, s => ((step s).1, (step s).2.1) :: trace step n (step s).2.2

def firstExit (fallback : R) : List (Bool × R) → R
  | [] => fallback
  | p :: rest => if p.1 then p.2 else firstExit fallback rest

theorem any_trace (step : S → Bool × R × S) (n : ℕ) (s : S) :
    (trace step n s).any Prod.fst = (runFor step n s).isSome := by
  induction n generalizing s with
  | zero => rfl
  | succ n ih =>
      rw [trace, runFor, List.any_cons, ih]
      cases (step s).1 <;> simp

theorem firstExit_trace {step : S → Bool × R × S} {n : ℕ} {s : S} {r : R} (fallback : R)
    (h : runFor step n s = some r) : firstExit fallback (trace step n s) = r := by
  induction n generalizing s with
  | zero => cases h
  | succ n ih =>
      rw [runFor] at h
      rw [trace, firstExit]
      split_ifs at h ⊢ with hd
      · exact Option.some.inj h
      · exact ih h

end Cascade

/-!
## Rewriting in place

A sweep rewrites each statement where it stands and carries along what it has learnt. Where
each rewritten statement steps as the original does as long as the knowledge is sound, so does
the whole list. Two steps that agree on an invariant of one of them run alike from it.
-/
namespace Sweep
variable {S K F : Type}

/-- Rewrite the statements from position `rv` on. -/
def rewriteFrom (rewrite : K → ℕ → S → S × K) : K → ℕ → List S → List S × K
  | known, _, [] => ([], known)
  | known, rv, s :: rest =>
      let (s, known) := rewrite known rv s
      let (rest, known) := rewriteFrom rewrite known (rv + 1) rest
      (s :: rest, known)

variable {rewrite : K → ℕ → S → S × K}

@[simp] theorem rewriteFrom_cons (known : K) (rv : ℕ) (s : S) (rest : List S) :
    (rewriteFrom rewrite known rv (s :: rest)).1 =
      (rewrite known rv s).1 :: (rewriteFrom rewrite (rewrite known rv s).2 (rv + 1) rest).1 := rfl

section
variable (step : F → S → F) (Sound : K → ℕ → F → Prop) (Ok : ℕ → S → Prop)

/-- The rewritten list takes every sound frame where the original takes it. -/
theorem foldl_rewriteFrom
    (hstep : ∀ known rv f s, Sound known rv f → Ok rv s →
      step f (rewrite known rv s).1 = step f s ∧
        Sound (rewrite known rv s).2 (rv + 1) (step f s))
    {stmts : List S} {rv : ℕ} {known : K} {f : F}
    (hok : ∀ i s, stmts[i]? = some s → Ok (rv + i) s) (h : Sound known rv f) :
    (rewriteFrom rewrite known rv stmts).1.foldl step f = stmts.foldl step f := by
  induction stmts generalizing rv known f with
  | nil => rfl
  | cons s rest ih =>
      have hfirst := hstep known rv f s h (hok 0 s rfl)
      have hrest : ∀ i t, rest[i]? = some t → Ok (rv + 1 + i) t := by
        intro i t ht
        rw [Nat.add_right_comm]
        exact hok (i + 1) t ht
      rw [rewriteFrom_cons, List.foldl_cons, List.foldl_cons, hfirst.1]
      exact ih hrest hfirst.2

end

theorem iterate_eq {α : Type} {step step' : α → α} {Inv : α → Prop}
    (h : ∀ a, Inv a → step' a = step a ∧ Inv (step a)) (n : ℕ) {a : α} (ha : Inv a) :
    step'^[n] a = step^[n] a := by
  induction n generalizing a with
  | zero => rfl
  | succ n ih =>
      rw [Function.iterate_succ_apply, Function.iterate_succ_apply, (h a ha).1]
      exact ih (h a ha).2

end Sweep
