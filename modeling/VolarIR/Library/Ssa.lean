import Mathlib.Data.List.Basic
import Mathlib.Tactic.Common

/-!
# Single-assignment statement lists

A language whose statements each define the next var, and what a rewriting of a statement
list has to keep: every var of the source that still matters sits at some var of the target
and holds the same value there.
-/
namespace Ssa

/-- Statements over values `V` and states `σ`; a statement sees only its operands. -/
structure Language (S V σ : Type) where
  operands : S → List ℕ
  eval : σ → (ℕ → V) → S → V × σ
  eval_congr : ∀ (s : S) (st : σ) {f g : ℕ → V}, (∀ v ∈ operands s, f v = g v) →
    eval st f s = eval st g s

section
variable {S : Type} (operands : S → List ℕ)

/-- Each statement's operands are defined before it, counting from `base` vars. -/
def Defined (base : ℕ) : List S → Prop
  | [] => True
  | s :: rest => (∀ v ∈ operands s, v < base) ∧ Defined (base + 1) rest

instance Defined.decidable : ∀ (base : ℕ) (stmts : List S),
    Decidable (Defined operands base stmts)
  | _, [] => isTrue trivial
  | base, s :: rest =>
      have := Defined.decidable (base + 1) rest
      inferInstanceAs (Decidable ((∀ v ∈ operands s, v < base) ∧ Defined operands (base + 1) rest))

variable {operands}

theorem defined_append {base : ℕ} {xs ys : List S} :
    Defined operands base (xs ++ ys) ↔
      Defined operands base xs ∧ Defined operands (base + xs.length) ys := by
  induction xs generalizing base with
  | nil => simp [Defined]
  | cons x xs ih =>
      simp only [List.cons_append, Defined, ih, and_assoc, List.length_cons]
      rw [show base + 1 + xs.length = base + (xs.length + 1) by omega]

theorem operands_lt_of_getElem {base i : ℕ} {stmts : List S} {s : S}
    (hd : Defined operands base stmts) (hs : stmts[i]? = some s) :
    ∀ v ∈ operands s, v < base + i := by
  induction stmts generalizing base i with
  | nil => cases hs
  | cons t rest ih =>
      cases i with
      | zero =>
          obtain rfl := Option.some.inj hs
          exact hd.1
      | succ i =>
          intro v hv
          have hlt := ih hd.2 hs v hv
          omega

end

structure Frame (V σ : Type) where
  vals : List V
  st : σ

section
variable {V : Type} [Inhabited V]

/-- A var's value; a var not yet defined reads as the default. -/
def look (vals : List V) (v : ℕ) : V := vals.getD v default

@[simp] theorem look_append_left {vals more : List V} {v : ℕ} (h : v < vals.length) :
    look (vals ++ more) v = look vals v := by
  simp [look, List.getElem?_append_left h]

@[simp] theorem look_append_length (vals : List V) (x : V) :
    look (vals ++ [x]) vals.length = x := by
  simp [look]

/-- Every live var of the source sits at `g v` in the target and holds the same value. -/
structure Tracks (live : ℕ → Prop) (g : ℕ → ℕ) (vals vals' : List V) : Prop where
  lt : ∀ v < vals.length, live v → g v < vals'.length
  look : ∀ v < vals.length, live v → look vals' (g v) = look vals v

namespace Tracks
variable {live : ℕ → Prop} {g : ℕ → ℕ} {vals vals' : List V} {x : V}

theorem congr (g' : ℕ → ℕ) (h : Tracks live g vals vals')
    (hg : ∀ v < vals.length, g' v = g v) : Tracks live g' vals vals' := by
  constructor
  · intro v hv hl
    rw [hg v hv]
    exact h.lt v hv hl
  · intro v hv hl
    rw [hg v hv]
    exact h.look v hv hl

theorem of_last (h : Tracks live g vals vals') {more : List V}
    (hlt : live vals.length → g vals.length < (vals' ++ more).length)
    (hx : live vals.length → Ssa.look (vals' ++ more) (g vals.length) = x) :
    Tracks live g (vals ++ [x]) (vals' ++ more) := by
  constructor
  · intro v hv hl
    rw [List.length_append, List.length_singleton] at hv
    rcases Nat.lt_succ_iff_lt_or_eq.mp hv with hv | rfl
    · rw [List.length_append]
      exact Nat.lt_add_right _ (h.lt v hv hl)
    · exact hlt hl
  · intro v hv hl
    rw [List.length_append, List.length_singleton] at hv
    rcases Nat.lt_succ_iff_lt_or_eq.mp hv with hv | rfl
    · rw [look_append_left (h.lt v hv hl), look_append_left hv]
      exact h.look v hv hl
    · rw [look_append_length]
      exact hx hl

theorem push (h : Tracks live g vals vals') (hg : live vals.length → g vals.length = vals'.length) :
    Tracks live g (vals ++ [x]) (vals' ++ [x]) := by
  apply h.of_last
  · intro hl
    rw [hg hl, List.length_append]
    exact Nat.lt_succ_self _
  · intro hl
    rw [hg hl, look_append_length]

/-- The target already holds what the source defines next. -/
theorem share (h : Tracks live g vals vals') (hlt : g vals.length < vals'.length)
    (hx : Ssa.look vals' (g vals.length) = x) : Tracks live g (vals ++ [x]) vals' := by
  rw [← List.append_nil vals'] at hlt hx ⊢
  exact h.of_last (fun _ => hlt) fun _ => hx

/-- The source defines something that no longer matters. -/
theorem drop (h : Tracks live g vals vals') (hdead : ¬ live vals.length) :
    Tracks live g (vals ++ [x]) vals' := by
  rw [← List.append_nil vals']
  exact h.of_last (fun hl => absurd hl hdead) fun hl => absurd hl hdead

end Tracks

end

namespace Language
variable {S V σ : Type} [Inhabited V] (L : Language S V σ)

def step (f : Frame V σ) (s : S) : Frame V σ :=
  ⟨f.vals ++ [(L.eval f.st (look f.vals) s).1], (L.eval f.st (look f.vals) s).2⟩

def run (f : Frame V σ) (stmts : List S) : Frame V σ := stmts.foldl L.step f

@[simp] theorem run_nil (f : Frame V σ) : L.run f [] = f := rfl

@[simp] theorem run_cons (f : Frame V σ) (s : S) (rest : List S) :
    L.run f (s :: rest) = L.run (L.step f s) rest := rfl

theorem run_append (f : Frame V σ) (xs ys : List S) :
    L.run f (xs ++ ys) = L.run (L.run f xs) ys := by
  simp [run]

@[simp] theorem step_length (f : Frame V σ) (s : S) :
    (L.step f s).vals.length = f.vals.length + 1 := by
  simp [step]

@[simp] theorem run_length (f : Frame V σ) (stmts : List S) :
    (L.run f stmts).vals.length = f.vals.length + stmts.length := by
  induction stmts generalizing f with
  | nil => rfl
  | cons s rest ih =>
      rw [run_cons, ih, step_length, List.length_cons]
      omega

theorem step_look {f : Frame V σ} {s : S} {v : ℕ} (h : v < f.vals.length) :
    look (L.step f s).vals v = look f.vals v := look_append_left h

/-- Later statements never change a var that is already defined. -/
theorem run_look {f : Frame V σ} {stmts : List S} {v : ℕ} (h : v < f.vals.length) :
    look (L.run f stmts).vals v = look f.vals v := by
  induction stmts generalizing f with
  | nil => rfl
  | cons s rest ih =>
      rw [run_cons, ih (by rw [step_length]; exact Nat.lt_succ_of_lt h), L.step_look h]

theorem eval_tracks {live : ℕ → Prop} {g : ℕ → ℕ} {vals vals' : List V}
    (h : Tracks live g vals vals') {s : S} (hd : ∀ v ∈ L.operands s, v < vals.length)
    (hl : ∀ v ∈ L.operands s, live v) (st : σ) :
    L.eval st (fun v => look vals' (g v)) s = L.eval st (look vals) s :=
  L.eval_congr s st fun v hv => h.look v (hd v hv) (hl v hv)

end Language

end Ssa
