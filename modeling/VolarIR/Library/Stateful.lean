import Mathlib.Data.List.Induction
import Mathlib.Data.List.Forall2
import Mathlib.Tactic.Common

/-!
# State computations that may stop

Total correctness for computations that change a state and may stop half way: `Ensures`
says that the computation reaches its end and what holds there. The rules follow the
monad and the traversals of lists.
-/
namespace Stateful

variable {σ α β : Type}

/-- From `s`, the computation ends, and its result and last state have the property. -/
def Ensures (m : StateT σ Option α) (s : σ) (Q : α → σ → Prop) : Prop :=
  ∃ a t, m.run s = some (a, t) ∧ Q a t

section
variable {s : σ} {Q : α → σ → Prop}

@[simp] theorem ensures_pure (a : α) : Ensures (pure a) s Q ↔ Q a s := by
  constructor
  · rintro ⟨b, t, h, hQ⟩
    cases h
    exact hQ
  · intro h
    exact ⟨a, s, rfl, h⟩

theorem ensures_modifyGet (f : σ → α × σ) (h : Q (f s).1 (f s).2) :
    Ensures (modifyGet f) s Q := ⟨(f s).1, (f s).2, rfl, h⟩

@[simp] theorem ensures_get {Q : σ → σ → Prop} :
    Ensures (get : StateT σ Option σ) s Q ↔ Q s s := by
  constructor
  · rintro ⟨b, t, h, hQ⟩
    cases h
    exact hQ
  · intro h
    exact ⟨s, s, rfl, h⟩

theorem Ensures.bind {m : StateT σ Option α} {k : α → StateT σ Option β} {R : β → σ → Prop}
    (h : Ensures m s Q) (hk : ∀ a t, Q a t → Ensures (k a) t R) : Ensures (m >>= k) s R := by
  obtain ⟨a, t, hm, hQ⟩ := h
  obtain ⟨b, u, hb, hR⟩ := hk a t hQ
  exact ⟨b, u, by rw [StateT.run_bind, hm]; exact hb, hR⟩

theorem Ensures.mono {R : α → σ → Prop} {m : StateT σ Option α} (h : Ensures m s Q)
    (hr : ∀ a t, Q a t → R a t) : Ensures m s R := by
  obtain ⟨a, t, hm, hQ⟩ := h
  exact ⟨a, t, hm, hr a t hQ⟩

theorem Ensures.of_run {m : StateT σ Option α} {a : α} {t : σ} (h : Ensures m s Q)
    (hm : m.run s = some (a, t)) : Q a t := by
  obtain ⟨b, u, hb, hQ⟩ := h
  rw [hm] at hb
  cases hb
  exact hQ

end

section Traverse
variable {s : σ}

theorem ensures_mapM_range {f : ℕ → StateT σ Option β} (I : ℕ → List β → σ → Prop) {n : ℕ}
    (hinit : I 0 [] s)
    (hstep : ∀ i < n, ∀ ys t, I i ys t → Ensures (f i) t fun y u => I (i + 1) (ys ++ [y]) u) :
    Ensures ((List.range n).mapM f) s (I n) := by
  induction n with
  | zero => exact (ensures_pure _).mpr hinit
  | succ n ih =>
      rw [List.range_succ, List.mapM_append]
      apply (ih fun i hi => hstep i (Nat.lt_succ_of_lt hi)).bind
      intro ys t hys
      rw [List.mapM_cons, List.mapM_nil]
      simp only [bind_assoc, pure_bind]
      apply (hstep n (Nat.lt_succ_self n) ys t hys).bind
      intro y u hy
      exact (ensures_pure _).mpr hy

theorem ensures_foldlM {f : β → α → StateT σ Option β} (I : List α → β → σ → Prop)
    {xs : List α} {b : β} (hinit : I [] b s)
    (hstep : ∀ done x acc t, done ++ [x] <+: xs → I done acc t →
      Ensures (f acc x) t fun acc' u => I (done ++ [x]) acc' u) :
    Ensures (xs.foldlM f b) s (I xs) := by
  induction xs using List.reverseRecOn with
  | nil => exact (ensures_pure _).mpr hinit
  | append_singleton xs x ih =>
      rw [List.foldlM_append]
      apply (ih fun done y acc t hy => hstep done y acc t (hy.trans (List.prefix_append _ _))).bind
      intro acc t hacc
      rw [List.foldlM_cons]
      apply (hstep xs x acc t (List.prefix_refl _) hacc).bind
      intro acc' u hacc'
      rw [List.foldlM_nil]
      exact (ensures_pure _).mpr hacc'

end Traverse

end Stateful
