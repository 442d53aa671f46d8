import VolarIR.Library.Ssa
import Mathlib.Data.List.Nodup
import Mathlib.Data.List.Perm.Basic
import Mathlib.Data.List.Range
import Mathlib.Tactic.Common
import Mathlib.Data.List.Basic

/-!
# Reordered statement lists

Statements put in another order under new numbers compute what they computed, provided that
each comes after its operands and that those that see the state keep their order.
-/
namespace Ssa
variable {S V σ : Type}

theorem defined_of_getElem {operands : S → List ℕ} {base : ℕ} {stmts : List S}
    (h : ∀ i s, stmts[i]? = some s → ∀ v ∈ operands s, v < base + i) :
    Defined operands base stmts := by
  induction stmts generalizing base with
  | nil => trivial
  | cons s rest ih =>
      constructor
      · exact h 0 s rfl
      · apply ih
        intro i t ht v hv
        have hlt := h (i + 1) t ht v hv
        omega

/-- `target` holds the statements of `source` in the order `order`, each under `rename`, and `g`
gives the new number of each var. -/
structure Reordered (base : ℕ) (source target : List S) (order : List ℕ) (rename : S → S)
    (g : ℕ → ℕ) : Prop where
  perm : order.Perm (List.range source.length)
  length : target.length = order.length
  stmt : ∀ k i : ℕ, order[k]? = some i → target[k]? = source[i]?.map rename
  param : ∀ v < base, g v = v
  moved : ∀ k i : ℕ, order[k]? = some i → g (base + i) = base + k

section
variable {base : ℕ} {source target : List S} {order : List ℕ} {rename : S → S} {g : ℕ → ℕ}

/-- Where a statement of the source goes. -/
theorem Reordered.exists_place (h : Reordered base source target order rename g) {i : ℕ}
    (hi : i < source.length) : ∃ k : ℕ, order[k]? = some i := by
  apply List.mem_iff_getElem?.mp
  rw [h.perm.mem_iff]
  exact List.mem_range.mpr hi

theorem Reordered.lt_length (h : Reordered base source target order rename g) {k i : ℕ}
    (hk : order[k]? = some i) : i < source.length := by
  have hmem := List.mem_of_getElem? hk
  rw [h.perm.mem_iff] at hmem
  exact List.mem_range.mp hmem

theorem Reordered.place_inj (h : Reordered base source target order rename g) {k l i : ℕ}
    (hk : order[k]? = some i) (hl : order[l]? = some i) : k = l := by
  have hnodup : order.Nodup := h.perm.nodup_iff.mpr List.nodup_range
  exact (List.getElem?_inj (List.getElem?_eq_some_iff.mp hk).1 hnodup).mp (hk.trans hl.symm)

theorem Reordered.defined {operands : S → List ℕ}
    (h : Reordered base source target order rename g)
    (hrename : ∀ s ∈ source, ∀ u ∈ operands (rename s), ∃ v ∈ operands s, g v = u)
    (hbefore : ∀ i s, source[i]? = some s → ∀ v ∈ operands s, base ≤ v → g v < g (base + i)) :
    Defined operands base target := by
  apply defined_of_getElem
  intro k t ht u hu
  have hk : k < order.length := h.length ▸ (List.getElem?_eq_some_iff.mp ht).1
  have hplace := List.getElem?_eq_getElem hk
  rw [h.stmt k _ hplace] at ht
  obtain ⟨s, hs, rfl⟩ := Option.map_eq_some_iff.mp ht
  obtain ⟨v, hv, rfl⟩ := hrename s (List.mem_of_getElem? hs) u hu
  by_cases hparam : v < base
  · rw [h.param v hparam]
    omega
  · have hlt := hbefore _ s hs v hv (Nat.le_of_not_lt hparam)
    rw [h.moved k _ hplace] at hlt
    exact hlt

end

namespace Language
variable [Inhabited V] (L : Language S V σ)

def Pure (s : S) : Prop := ∀ st st' look, L.eval st look s = ((L.eval st' look s).1, st)

theorem run_take_succ {f : Frame V σ} {stmts : List S} {i : ℕ} {s : S}
    (hs : stmts[i]? = some s) :
    L.run f (stmts.take (i + 1)) = L.step (L.run f (stmts.take i)) s := by
  rw [List.take_add_one, hs, run_append]
  rfl

theorem run_st_of_pure (f : Frame V σ) (stmts : List S) {q i : ℕ} (hqi : q ≤ i)
    (hi : i ≤ stmts.length)
    (hpure : ∀ j s, q ≤ j → j < i → stmts[j]? = some s → L.Pure s) :
    (L.run f (stmts.take i)).st = (L.run f (stmts.take q)).st := by
  induction i with
  | zero => rw [Nat.le_zero.mp hqi]
  | succ i ih =>
      rcases Nat.lt_or_eq_of_le hqi with hlt | rfl
      · have hs : stmts[i]? = some stmts[i] := List.getElem?_eq_getElem (by omega)
        have hstep := hpure i stmts[i] (by omega) (Nat.lt_succ_self i) hs
        rw [L.run_take_succ hs, ← ih (by omega) (by omega) fun j s hj hji =>
          hpure j s hj (Nat.lt_succ_of_lt hji)]
        exact congrArg Prod.snd (hstep _ (L.run f (stmts.take i)).st _)
      · rfl

theorem look_run_take {f : Frame V σ} (stmts : List S) {i v : ℕ}
    (hv : v < f.vals.length + i) (hi : i ≤ stmts.length) :
    look (L.run f (stmts.take i)).vals v = look (L.run f stmts).vals v := by
  have hlen : (L.run f (stmts.take i)).vals.length = f.vals.length + i := by
    rw [run_length, List.length_take, Nat.min_eq_left hi]
  have hrest : look (L.run (L.run f (stmts.take i)) (stmts.drop i)).vals v =
      look (L.run f (stmts.take i)).vals v := L.run_look (hlen ▸ hv)
  rw [← run_append, List.take_append_drop] at hrest
  exact hrest.symm

variable {base : ℕ} {source target : List S} {order : List ℕ} {rename : S → S} {g : ℕ → ℕ}
  {f : Frame V σ}

/-- What holds after the first `m` statements of the target: the vars have their values, and the
state is the one that the source has after those of its statements that are not pure. -/
structure Caught (f : Frame V σ) (source target : List S) (order : List ℕ) (base m : ℕ) :
    Prop where
  param : ∀ v < base, look (L.run f (target.take m)).vals v = look f.vals v
  moved : ∀ k i, k < m → order[k]? = some i →
    look (L.run f (target.take m)).vals (base + k) = look (L.run f source).vals (base + i)
  state : ∃ q ≤ source.length, (L.run f (target.take m)).st = (L.run f (source.take q)).st ∧
    (∀ i s, i < q → source[i]? = some s → ¬ L.Pure s → ∃ k < m, order[k]? = some i) ∧
    ∀ k i s, k < m → order[k]? = some i → source[i]? = some s → ¬ L.Pure s → i < q

/-- The hypotheses on a reordering: it comes after its operands, statements that see the state
keep their order, and a renamed statement computes what it computed. -/
structure Sound (f : Frame V σ) (source : List S) (rename : S → S) (g : ℕ → ℕ)
    (base : ℕ) : Prop where
  before : ∀ i s, source[i]? = some s → ∀ v ∈ L.operands s, base ≤ v → g v < g (base + i)
  effects : ∀ i j s t, i < j → source[i]? = some s → source[j]? = some t → ¬ L.Pure s →
    ¬ L.Pure t → g (base + i) < g (base + j)
  eval : ∀ i s, source[i]? = some s → ∀ st look',
    (∀ v ∈ L.operands s, look' (g v) = look (L.run f (source.take i)).vals v) →
      L.eval st look' (rename s) = L.eval st (look (L.run f (source.take i)).vals) s

theorem Caught.step {m i : ℕ} {s : S} (hbase : f.vals.length = base)
    (h : Reordered base source target order rename g) (hsound : L.Sound f source rename g base)
    (hdefined : Defined L.operands base source) (hm : L.Caught f source target order base m)
    (hplace : order[m]? = some i) (hs : source[i]? = some s) :
    L.Caught f source target order base (m + 1) := by
  have hi := h.lt_length hplace
  have hmlen : m < order.length := (List.getElem?_eq_some_iff.mp hplace).1
  have htarget : target[m]? = some (rename s) := by
    rw [h.stmt m i hplace, hs]
    rfl
  have hlen : (L.run f (target.take m)).vals.length = base + m := by
    rw [run_length, List.length_take, Nat.min_eq_left (by rw [h.length]; omega), hbase]
  have hoperands : ∀ v ∈ L.operands s, look (L.run f (target.take m)).vals (g v) =
      look (L.run f (source.take i)).vals v := by
    intro v hv
    have hvi := operands_lt_of_getElem hdefined hs v hv
    rw [L.look_run_take source (by omega) hi.le]
    by_cases hparam : v < base
    · rw [h.param v hparam, hm.param v hparam, L.run_look (by omega)]
    · obtain ⟨j, rfl⟩ : ∃ j, v = base + j := ⟨v - base, by omega⟩
      obtain ⟨k, hk⟩ := h.exists_place (i := j) (by omega)
      have hbefore := hsound.before i s hs (base + j) hv (Nat.le_add_right _ _)
      rw [h.moved k j hk, h.moved m i hplace] at hbefore
      rw [h.moved k j hk]
      exact hm.moved k j (by omega) hk
  have heval := hsound.eval i s hs (L.run f (target.take m)).st _ hoperands
  have hvalue : (L.eval (L.run f (source.take i)).st (look (L.run f (source.take i)).vals) s).1 =
      look (L.run f source).vals (base + i) := by
    have hlast := L.look_run_take (f := f) (v := base + i) (i := i + 1) source (by omega) hi
    have hvals : (L.run f (source.take i)).vals.length = base + i := by
      rw [run_length, List.length_take, Nat.min_eq_left hi.le, hbase]
    rw [← hlast, L.run_take_succ hs, Language.step, ← hvals, look_append_length]
  obtain ⟨q, hq, hst, hdone, hbelow⟩ := hm.state
  rw [hst] at heval
  -- the value is that of the source, whether or not the statement sees the state
  have hstep : (∃ q' ≤ source.length,
      (L.eval (L.run f (source.take q)).st (look (L.run f (source.take i)).vals) s).2 =
        (L.run f (source.take q')).st ∧
      (∀ j t, j < q' → source[j]? = some t → ¬ L.Pure t → ∃ k < m + 1, order[k]? = some j) ∧
      ∀ k j t, k < m + 1 → order[k]? = some j → source[j]? = some t → ¬ L.Pure t → j < q') ∧
      (L.eval (L.run f (source.take q)).st (look (L.run f (source.take i)).vals) s).1 =
        look (L.run f source).vals (base + i) := by
    by_cases hpure : L.Pure s
    · have hany := hpure (L.run f (source.take q)).st (L.run f (source.take i)).st
        (look (L.run f (source.take i)).vals)
      rw [hany]
      refine ⟨⟨q, hq, rfl, ?_, ?_⟩, hvalue⟩
      · intro j t hj ht himpure
        obtain ⟨k, hk, hkj⟩ := hdone j t hj ht himpure
        exact ⟨k, Nat.lt_succ_of_lt hk, hkj⟩
      · intro k j t hk hkj ht himpure
        rcases Nat.lt_succ_iff_lt_or_eq.mp hk with hlt | rfl
        · exact hbelow k j t hlt hkj ht himpure
        · rw [hplace] at hkj
          cases hkj
          rw [hs] at ht
          cases ht
          exact absurd hpure himpure
    · have hqi : q ≤ i := by
        by_contra hlt
        obtain ⟨k, hk, hki⟩ := hdone i s (Nat.lt_of_not_le hlt) hs hpure
        exact absurd (h.place_inj hki hplace) (Nat.ne_of_lt hk)
      have hskip : (L.run f (source.take i)).st = (L.run f (source.take q)).st := by
        apply L.run_st_of_pure f source hqi hi.le
        intro j t hj hji ht
        by_contra himpure
        obtain ⟨k, hk⟩ := h.exists_place (i := j) (by omega)
        have horder := hsound.effects j i t s hji ht hs himpure hpure
        rw [h.moved k j hk, h.moved m i hplace] at horder
        have hlt := hbelow k j t (by omega) hk ht himpure
        omega
      rw [← hskip]
      refine ⟨⟨i + 1, hi, ?_, ?_, ?_⟩, hvalue⟩
      · rw [L.run_take_succ hs]
        rfl
      · intro j t hj ht himpure
        rcases Nat.lt_succ_iff_lt_or_eq.mp hj with hlt | rfl
        · obtain ⟨k, hk⟩ := h.exists_place (i := j) (by omega)
          have horder := hsound.effects j i t s hlt ht hs himpure hpure
          rw [h.moved k j hk, h.moved m i hplace] at horder
          exact ⟨k, by omega, hk⟩
        · exact ⟨m, Nat.lt_succ_self m, hplace⟩
      · intro k j t hk hkj ht himpure
        rcases Nat.lt_succ_iff_lt_or_eq.mp hk with hlt | rfl
        · exact (hbelow k j t hlt hkj ht himpure).trans_le (hqi.trans (Nat.le_succ i))
        · rw [hplace] at hkj
          cases hkj
          exact Nat.lt_succ_self i
  have hrun : L.run f (target.take (m + 1)) =
      ⟨(L.run f (target.take m)).vals ++ [look (L.run f source).vals (base + i)],
        (L.eval (L.run f (source.take q)).st (look (L.run f (source.take i)).vals) s).2⟩ := by
    rw [L.run_take_succ htarget, Language.step, hst, heval, hstep.2]
  constructor
  · intro v hv
    rw [hrun, look_append_left (by omega)]
    exact hm.param v hv
  · intro k j hk hkj
    rw [hrun]
    rcases Nat.lt_succ_iff_lt_or_eq.mp hk with hlt | rfl
    · rw [look_append_left (by omega)]
      exact hm.moved k j hlt hkj
    · rw [hplace] at hkj
      cases hkj
      rw [← hlen, look_append_length]
  · rw [hrun]
    exact hstep.1

/-- A sound reordering ends in the state of the source, each var with its value. -/
theorem run_reordered (hbase : f.vals.length = base)
    (h : Reordered base source target order rename g) (hsound : L.Sound f source rename g base)
    (hdefined : Defined L.operands base source) :
    (L.run f target).st = (L.run f source).st ∧
      ∀ v < base + source.length,
        look (L.run f target).vals (g v) = look (L.run f source).vals v := by
  have hall : ∀ m ≤ order.length, L.Caught f source target order base m := by
    intro m
    induction m with
    | zero =>
        intro _
        refine ⟨fun v _ => rfl, fun k i hk => absurd hk (Nat.not_lt_zero k), 0, Nat.zero_le _, rfl,
          fun i s hi => absurd hi (Nat.not_lt_zero i), fun k i s hk =>
            absurd hk (Nat.not_lt_zero k)⟩
    | succ m ih =>
        intro hm
        have hplace := List.getElem?_eq_getElem (l := order) (i := m) (by omega)
        have hs := List.getElem?_eq_getElem (l := source) (h.lt_length hplace)
        exact Caught.step L hbase h hsound hdefined (ih (by omega)) hplace hs
  have hend := hall order.length le_rfl
  have htake : target.take order.length = target := by rw [← h.length, List.take_length]
  obtain ⟨hparam, hmoved, q, hq, hst, -, hbelow⟩ := hend
  rw [htake] at hparam hmoved hst
  constructor
  · rw [hst]
    have hrest := L.run_st_of_pure f source hq le_rfl (by
      intro j s hj hjl hs
      by_contra himpure
      obtain ⟨k, hk⟩ := h.exists_place hjl
      have hklt := (List.getElem?_eq_some_iff.mp hk).1
      exact absurd (hbelow k j s hklt hk hs himpure) (Nat.not_lt.mpr hj))
    rw [← hrest, List.take_length]
  · intro v hv
    by_cases hlt : v < base
    · rw [h.param v hlt, hparam v hlt, L.run_look (by omega)]
    · obtain ⟨i, rfl⟩ : ∃ i, v = base + i := ⟨v - base, by omega⟩
      obtain ⟨k, hk⟩ := h.exists_place (i := i) (by omega)
      rw [h.moved k i hk]
      exact hmoved k i (List.getElem?_eq_some_iff.mp hk).1 hk

end Language
end Ssa

/-!
## Executions that differ in the order of commuting steps

Two orders of the same steps lead to the same state when every two steps either commute or
stand in the same order in both. The proof moves the first step of one order to the front of
the other, over steps it commutes with.
-/
namespace Commutation

variable {α σ : Type*} {f : σ → α → σ}

def Commutes (f : σ → α → σ) (a b : α) : Prop := ∀ s, f (f s a) b = f (f s b) a

theorem Commutes.symm {a b : α} (h : Commutes f a b) : Commutes f b a := fun s => (h s).symm

theorem foldl_moveFront {front back : List α} {a : α} (h : ∀ b ∈ front, Commutes f b a) (s : σ) :
    (front ++ a :: back).foldl f s = (a :: (front ++ back)).foldl f s := by
  induction front generalizing s with
  | nil => rfl
  | cons b front ih =>
      rw [List.cons_append, List.foldl_cons, ih fun c hc => h c (List.mem_cons_of_mem b hc)]
      rw [List.foldl_cons, h b List.mem_cons_self s]
      rfl

/-- Orders that agree on every pair of steps that do not commute lead to the same state.
`before a b` says that `a` has to come first. -/
theorem foldl_eq_of_perm {before : α → α → Prop} {xs ys : List α} (hperm : xs.Perm ys)
    (hxs : xs.Pairwise fun a b => ¬ before b a) (hys : ys.Pairwise fun a b => ¬ before b a)
    (hcomm : ∀ a ∈ xs, ∀ b ∈ xs, a ≠ b → before a b ∨ before b a ∨ Commutes f a b) (s : σ) :
    xs.foldl f s = ys.foldl f s := by
  induction xs generalizing ys s with
  | nil => rw [hperm.nil_eq]
  | cons a xs ih =>
      obtain ⟨front, back, rfl, hfront⟩ :=
        List.eq_append_cons_of_mem (hperm.subset List.mem_cons_self)
      have hrest : xs.Perm (front ++ back) :=
        List.Perm.cons_inv (hperm.trans List.perm_middle)
      have hmove : ∀ b ∈ front, Commutes f b a := by
        intro b hb
        have hne : a ≠ b := fun h => hfront (h ▸ hb)
        have hbx : b ∈ xs := hrest.symm.subset (List.mem_append_left _ hb)
        have hba : ¬ before b a := (List.pairwise_cons.mp hxs).1 b hbx
        have hab : ¬ before a b := (List.pairwise_append.mp hys).2.2 b hb a List.mem_cons_self
        rcases hcomm a List.mem_cons_self b (List.mem_cons_of_mem a hbx) hne with h | h | h
        · exact absurd h hab
        · exact absurd h hba
        · exact h.symm
      have hys' : (front ++ back).Pairwise fun a b => ¬ before b a :=
        hys.sublist (List.Sublist.append_left (List.sublist_cons_self a back) front)
      rw [foldl_moveFront hmove, List.foldl_cons, List.foldl_cons]
      exact ih hrest (List.pairwise_cons.mp hxs).2 hys'
        (fun b hb c hc => hcomm b (List.mem_cons_of_mem a hb) c (List.mem_cons_of_mem a hc)) _

theorem foldlM_eq_of_perm {step : σ → α → Option σ} {I : σ → Prop}
    (hinv : ∀ s a t, I s → step s a = some t → I t)
    (hcomm : ∀ s a b, I s → (step s a).bind (step · b) = (step s b).bind (step · a))
    {xs ys : List α} (h : xs.Perm ys) {s : σ} (hs : I s) : xs.foldlM step s = ys.foldlM step s := by
  induction h generalizing s with
  | nil => rfl
  | cons a _ ih =>
      rw [List.foldlM_cons, List.foldlM_cons]
      cases ha : step s a with
      | none => rfl
      | some t => exact ih (hinv s a t hs ha)
  | swap a b xs =>
      have hswap := congrArg (fun o => o.bind fun t => xs.foldlM step t) (hcomm s b a hs)
      simpa [List.foldlM_cons, Option.bind_assoc] using hswap
  | trans _ _ ih₁ ih₂ => exact (ih₁ hs).trans (ih₂ hs)

theorem mapM_perm {β : Type*} {part : α → Option β} {xs ys : List α} (h : xs.Perm ys) :
    (xs.mapM part = none ∧ ys.mapM part = none) ∨
      ∃ us us', xs.mapM part = some us ∧ ys.mapM part = some us' ∧ us.Perm us' := by
  induction h with
  | nil => exact Or.inr ⟨[], [], rfl, rfl, .refl []⟩
  | cons a _ ih =>
      rw [List.mapM_cons, List.mapM_cons]
      cases ha : part a with
      | none => exact Or.inl ⟨rfl, rfl⟩
      | some u =>
          rcases ih with ⟨hxs, hys⟩ | ⟨us, us', hxs, hys, hus⟩
          · rw [hxs, hys]
            exact Or.inl ⟨rfl, rfl⟩
          · rw [hxs, hys]
            exact Or.inr ⟨u :: us, u :: us', rfl, rfl, hus.cons u⟩
  | swap a b xs =>
      simp only [List.mapM_cons]
      cases part a <;> cases part b <;> cases xs.mapM part
      case some.some.some u v us => exact Or.inr ⟨_, _, rfl, rfl, .swap u v us⟩
      all_goals exact Or.inl ⟨rfl, rfl⟩
  | trans _ _ ih₁ ih₂ =>
      rcases ih₁ with ⟨hxs, hys⟩ | ⟨us, us', hxs, hys, hus⟩
      · rcases ih₂ with ⟨-, hzs⟩ | ⟨vs, vs', hys', -, -⟩
        · exact Or.inl ⟨hxs, hzs⟩
        · rw [hys] at hys'
          cases hys'
      · rcases ih₂ with ⟨hys', -⟩ | ⟨vs, vs', hys', hzs, hvs⟩
        · rw [hys] at hys'
          cases hys'
        · obtain rfl := Option.some.inj (hys.symm.trans hys')
          exact Or.inr ⟨us, vs', hxs, hzs, hus.trans hvs⟩

theorem mapM_bind_perm {β γ : Type*} {part : α → Option β} {f : List β → Option γ}
    (hf : ∀ us us', us.Perm us' → f us = f us') {xs ys : List α} (h : xs.Perm ys) :
    (xs.mapM part).bind f = (ys.mapM part).bind f := by
  rcases mapM_perm h with ⟨hxs, hys⟩ | ⟨us, us', hxs, hys, hus⟩
  · rw [hxs, hys]
  · rw [hxs, hys]
    exact hf us us' hus

end Commutation
