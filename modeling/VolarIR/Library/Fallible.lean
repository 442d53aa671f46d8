import Mathlib.Tactic.Common

/-!
# Computations that may fail in an allowed way

A postcondition for `Except`: the computation returns a value with the wanted
property, or fails with an error the caller allows. The rules follow the monad.
-/
namespace Fallible

universe u

variable {ε : Type*} {α β : Type u}

/-- `m` returns a value with `Q`, or fails with an error in `E`. -/
def Ends (E : ε → Prop) (m : Except ε α) (Q : α → Prop) : Prop :=
  match m with
  | .ok a => Q a
  | .error e => E e

section
variable {E : ε → Prop} {Q : α → Prop}

@[simp] theorem ends_ok (a : α) : Ends E (.ok a) Q ↔ Q a := Iff.rfl

@[simp] theorem ends_error (e : ε) : Ends E (.error e : Except ε α) Q ↔ E e := Iff.rfl

@[simp] theorem ends_pure (a : α) : Ends E (pure a : Except ε α) Q ↔ Q a := Iff.rfl

@[simp] theorem ok_bind (a : α) (k : α → Except ε β) : (.ok a >>= k) = k a := rfl

theorem Ends.bind {m : Except ε α} {k : α → Except ε β} {R : β → Prop} (h : Ends E m Q)
    (hk : ∀ a, Q a → Ends E (k a) R) : Ends E (m >>= k) R := by
  cases m with
  | ok a => exact hk a h
  | error e => exact h

theorem Ends.mono {R : α → Prop} {m : Except ε α} (h : Ends E m Q) (hr : ∀ a, Q a → R a) :
    Ends E m R := by
  cases m with
  | ok a => exact hr a h
  | error e => exact h

theorem Ends.exists_ok {m : Except ε α} (h : Ends E m Q) (hm : ∀ e, E e → m ≠ .error e) :
    ∃ a, m = .ok a ∧ Q a := by
  cases m with
  | ok a => exact ⟨a, rfl, h⟩
  | error e => exact absurd rfl (hm e h)

theorem Ends.of_ok {m : Except ε α} {a : α} (h : Ends E m Q) (ha : m = .ok a) : Q a := by
  subst ha
  exact h

end

section Traverse
variable {f : α → Except ε β} {g : α → β}

theorem mapM_eq_ok {xs : List α} (h : ∀ x ∈ xs, f x = .ok (g x)) :
    xs.mapM f = .ok (xs.map g) := by
  induction xs with
  | nil => rfl
  | cons x xs ih =>
      rw [List.mapM_cons, h x List.mem_cons_self, ih fun y hy => h y (List.mem_cons_of_mem x hy)]
      rfl

theorem of_mapM_eq_ok {xs : List α} {ys : List β} (h : xs.mapM f = .ok ys) :
    ∀ x ∈ xs, ∃ y, f x = .ok y := by
  induction xs generalizing ys with
  | nil => simp
  | cons x xs ih =>
      rw [List.mapM_cons] at h
      cases hx : f x with
      | error e => simp [hx, bind, Except.bind] at h
      | ok y =>
          cases hxs : xs.mapM f with
          | error e => simp [hx, hxs, bind, Except.bind] at h
          | ok zs =>
              intro z hz
              rcases List.mem_cons.mp hz with rfl | hz
              · exact ⟨y, hx⟩
              · exact ih hxs z hz

theorem Ends.mapM {E : ε → Prop} {R : α → β → Prop} {xs : List α}
    (h : ∀ x ∈ xs, Ends E (f x) (R x)) : Ends E (xs.mapM f) (List.Forall₂ R xs) := by
  induction xs with
  | nil => exact List.Forall₂.nil
  | cons x xs ih =>
      rw [List.mapM_cons]
      apply (h x List.mem_cons_self).bind
      intro y hy
      apply (ih fun z hz => h z (List.mem_cons_of_mem x hz)).bind
      intro ys hys
      exact List.Forall₂.cons hy hys

end Traverse

section Loop
variable {σ : Type u} {xs : List β} {s t : σ}

theorem foldlM_invariant {f : σ → β → Except ε σ} (I : List β → σ → Prop)
    (h : xs.foldlM f s = .ok t) (hinit : I [] s)
    (hstep : ∀ done x u v, I done u → f u x = .ok v → I (done ++ [x]) v) : I xs t := by
  suffices hall : ∀ done u, I done u → xs.foldlM f u = .ok t → I (done ++ xs) t from
    hall [] s hinit h
  clear h hinit
  induction xs with
  | nil =>
      intro done u hu h
      cases h
      rwa [List.append_nil]
  | cons x xs ih =>
      intro done u hu h
      rw [List.foldlM_cons] at h
      cases hx : f u x with
      | error e => simp [hx, bind, Except.bind] at h
      | ok v =>
          rw [hx] at h
          have hrest := ih (done ++ [x]) v (hstep done x u v hu hx) h
          rwa [List.append_assoc] at hrest

theorem of_forM_eq_ok {f : β → Except ε PUnit} {u : PUnit} (h : xs.forM f = .ok u) :
    ∀ x ∈ xs, f x = .ok ⟨⟩ := by
  induction xs with
  | nil => simp
  | cons x xs ih =>
      change (f x >>= fun _ => xs.forM f) = .ok u at h
      cases hx : f x with
      | error e => simp [hx, bind, Except.bind] at h
      | ok v =>
          intro y hy
          rw [hx] at h
          rcases List.mem_cons.mp hy with rfl | hy
          · exact hx
          · exact ih h y hy

theorem forM_eq_ok {f : β → Except ε PUnit} : xs.forM f = .ok ⟨⟩ ↔ ∀ x ∈ xs, f x = .ok ⟨⟩ := by
  refine ⟨of_forM_eq_ok, ?_⟩
  intro h
  induction xs with
  | nil => rfl
  | cons x xs ih =>
      change (f x >>= fun _ => xs.forM f) = .ok ⟨⟩
      rw [h x List.mem_cons_self]
      exact ih fun y hy => h y (List.mem_cons_of_mem x hy)

theorem foldlM_append_eq_ok {f : σ → β → Except ε σ} {ys : List β} :
    (xs ++ ys).foldlM f s = .ok t ↔ ∃ u, xs.foldlM f s = .ok u ∧ ys.foldlM f u = .ok t := by
  rw [List.foldlM_append]
  cases xs.foldlM f s with
  | error e => simp [bind, Except.bind]
  | ok u => simp [bind, Except.bind]

end Loop
end Fallible
