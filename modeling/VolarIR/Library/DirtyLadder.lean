import VolarIR.Library.Toggle

/-!
# A conjunction through borrowed bits

The linear-size ladder of Toffoli letters that toggles a target by the conjunction
of `n + 2` controls with `n` borrowed bits in any state. One pass climbs the ladder,
toggles the target by the last rung and climbs down again; a second pass without the
first rung cancels what the borrowed bits' own values contributed.
-/
namespace BitStore
open Words

section
variable {ι : Type*}

/-- Toggle `target` when both controls are set. -/
structure Toffoli (ι : Type*) where
  c1 : ι
  c2 : ι
  target : ι

def Toffoli.Apart (g : Toffoli ι) : Prop := g.target ≠ g.c1 ∧ g.target ≠ g.c2

/-- Step `i` of the ladder over controls `c` and borrowed bits `d`. -/
def rung (c d : ℕ → ι) (i : ℕ) : Toffoli ι :=
  if i = 0 then ⟨c 0, c 1, d 0⟩ else ⟨d (i - 1), c (i + 1), d i⟩

structure LadderApart (c d : ℕ → ι) (t : ι) (n : ℕ) : Prop where
  control : ∀ i < n + 2, ∀ j < n, c i ≠ d j
  borrowed : ∀ i < n, ∀ j < n, d i = d j → i = j
  target_control : ∀ i < n + 2, c i ≠ t
  target_borrowed : ∀ i < n, d i ≠ t

namespace LadderApart
variable {c d : ℕ → ι} {t : ι} {n : ℕ}

theorem rung_apart (h : LadderApart c d t n) {i : ℕ} (hi : i < n) : (rung c d i).Apart := by
  unfold rung Toffoli.Apart
  split_ifs with h₀
  · exact ⟨(h.control 0 (by omega) 0 (by omega)).symm, (h.control 1 (by omega) 0 (by omega)).symm⟩
  · exact ⟨fun e => by have := h.borrowed i hi (i - 1) (by omega) e; omega,
      (h.control (i + 1) (by omega) i hi).symm⟩

theorem rung_ne_target (h : LadderApart c d t n) {i : ℕ} (hi : i < n) :
    (rung c d i).c1 ≠ t ∧ (rung c d i).c2 ≠ t ∧ (rung c d i).target ≠ t := by
  unfold rung
  split_ifs with h₀
  · exact ⟨h.target_control 0 (by omega), h.target_control 1 (by omega),
      h.target_borrowed 0 (by omega)⟩
  · exact ⟨h.target_borrowed (i - 1) (by omega), h.target_control (i + 1) (by omega),
      h.target_borrowed i hi⟩

end LadderApart
end

section
variable {ι : Type*} [DecidableEq ι]

theorem toggle_comm {t u : ι} (h : t ≠ u) (a b : Bool) (w : ι → Bool) :
    toggle t a (toggle u b w) = toggle u b (toggle t a w) := by
  funext i
  by_cases ht : i = t
  · subst ht
    simp [h]
  · by_cases hu : i = u
    · subst hu
      simp [ht]
    · simp [ht, hu]

theorem toggle_xor (t : ι) (a b : Bool) (w : ι → Bool) :
    toggle t a (toggle t b w) = toggle t (b ^^ a) w := by
  funext i
  by_cases h : i = t
  · subst h
    simp
  · simp [h]

namespace Toffoli

def act (g : Toffoli ι) (w : ι → Bool) : ι → Bool := toggle g.target (w g.c1 && w g.c2) w

theorem act_involutive {g : Toffoli ι} (h : g.Apart) : Function.Involutive g.act := by
  intro w
  simp [act, Ne.symm h.1, Ne.symm h.2]

/-- A letter that does not mention `t` commutes with toggling `t`. -/
theorem act_toggle {g : Toffoli ι} {t : ι} (h₁ : g.c1 ≠ t) (h₂ : g.c2 ≠ t) (h : g.target ≠ t)
    (b : Bool) (w : ι → Bool) : g.act (toggle t b w) = toggle t b (g.act w) := by
  simp [act, h₁, h₂, toggle_comm h]

theorem run_toggle {gs : List (Toffoli ι)} {t : ι}
    (h : ∀ g ∈ gs, g.c1 ≠ t ∧ g.c2 ≠ t ∧ g.target ≠ t) (b : Bool) (w : ι → Bool) :
    run act gs (toggle t b w) = toggle t b (run act gs w) := by
  induction gs generalizing w with
  | nil => rfl
  | cons g gs ih =>
      obtain ⟨h₁, h₂, h₃⟩ := h g List.mem_cons_self
      rw [run_cons, act_toggle h₁ h₂ h₃, ih fun a ha => h a (List.mem_cons_of_mem g ha)]
      rfl

theorem run_conjugate {gs : List (Toffoli ι)} {k : Toffoli ι} (ha : ∀ g ∈ gs, g.Apart)
    (h : ∀ g ∈ gs, g.c1 ≠ k.target ∧ g.c2 ≠ k.target ∧ g.target ≠ k.target) (w : ι → Bool) :
    run act (gs ++ k :: gs.reverse) w =
      toggle k.target (run act gs w k.c1 && run act gs w k.c2) w := by
  have hr : ∀ g ∈ gs.reverse, g.c1 ≠ k.target ∧ g.c2 ≠ k.target ∧ g.target ≠ k.target :=
    fun g hg => h g (List.mem_reverse.mp hg)
  rw [run_append, run_cons, act, run_toggle hr,
    run_reverse_run fun g hg => act_involutive (ha g hg)]

end Toffoli

/-- The rungs from `first` up to `n`. -/
def climb (c d : ℕ → ι) (first n : ℕ) : List (Toffoli ι) :=
  (List.range' first (n - first)).map (rung c d)

def ladderPass (c d : ℕ → ι) (t : ι) (first n : ℕ) : List (Toffoli ι) :=
  climb c d first n ++ ⟨d (n - 1), c (n + 1), t⟩ :: (climb c d first n).reverse

/-- What the climb leaves on borrowed bit `i`, with or without the first rung. -/
def rungValue (full : Bool) (c d : ℕ → Bool) : ℕ → Bool
  | 0 => d 0 ^^ (full && (c 0 && c 1))
  | i + 1 => d (i + 1) ^^ (rungValue full c d i && c (i + 2))

theorem rungValue_xor (c d : ℕ → Bool) (i : ℕ) :
    (rungValue true c d i ^^ rungValue false c d i) = (List.range (i + 2)).all c := by
  induction i with
  | zero => cases h : d 0 <;> simp [rungValue, h, List.range_succ]
  | succ i ih =>
      rw [List.range_succ, List.all_append, ← ih]
      simp only [rungValue, List.all_cons, List.all_nil, Bool.and_true]
      cases d (i + 1) <;> cases c (i + 2) <;> simp

section Member
variable {c d : ℕ → ι} {t : ι} {n : ℕ}

def OnLadder (c d : ℕ → ι) (t : ι) (n : ℕ) (v : ι) : Prop :=
  (∃ i < n + 2, v = c i) ∨ (∃ i < n, v = d i) ∨ v = t

omit [DecidableEq ι] in
theorem LadderApart.mem_pass (h : LadderApart c d t n) (hn : 0 < n) {first : ℕ}
    {g : Toffoli ι} (hg : g ∈ ladderPass c d t first n) :
    g.Apart ∧ OnLadder c d t n g.c1 ∧ OnLadder c d t n g.c2 ∧ OnLadder c d t n g.target := by
  have hrung : ∀ g ∈ climb c d first n, g.Apart ∧ OnLadder c d t n g.c1 ∧ OnLadder c d t n g.c2 ∧
      OnLadder c d t n g.target := by
    intro g hg
    obtain ⟨i, hi, rfl⟩ := List.mem_map.mp hg
    rw [List.mem_range'_1] at hi
    refine ⟨h.rung_apart (by omega), ?_⟩
    unfold rung
    split_ifs
    · exact ⟨.inl ⟨0, by omega, rfl⟩, .inl ⟨1, by omega, rfl⟩, .inr (.inl ⟨0, hn, rfl⟩)⟩
    · exact ⟨.inr (.inl ⟨i - 1, by omega, rfl⟩), .inl ⟨i + 1, by omega, rfl⟩,
        .inr (.inl ⟨i, by omega, rfl⟩)⟩
  rcases List.mem_append.mp hg with hg | hg
  · exact hrung g hg
  rcases List.mem_cons.mp hg with rfl | hg
  · exact ⟨⟨(h.target_borrowed (n - 1) (by omega)).symm,
      (h.target_control (n + 1) (by omega)).symm⟩,
      .inr (.inl ⟨n - 1, by omega, rfl⟩), .inl ⟨n + 1, by omega, rfl⟩, .inr (.inr rfl)⟩
  · exact hrung g (List.mem_reverse.mp hg)

end Member

section Ladder
variable {c d : ℕ → ι} {t : ι} {n : ℕ} (h : LadderApart c d t n)
include h

/-- Climbing `k` rungs sets the first `k` borrowed bits and nothing else. -/
theorem LadderApart.run_climb (full : Bool) {k : ℕ} (hk : k ≤ n) (w : ι → Bool) :
    (∀ j < k, run Toffoli.act (climb c d (if full then 0 else 1) k) w (d j) =
      rungValue full (w ∘ c) (w ∘ d) j) ∧
    ∀ v, (∀ j < k, v ≠ d j) → run Toffoli.act (climb c d (if full then 0 else 1) k) w v = w v := by
  induction k with
  | zero => exact ⟨by simp, by simp [climb]⟩
  | succ k ih =>
      obtain ⟨hset, hkeep⟩ := ih (by omega)
      -- without the first rung, the step to `k = 1` appends nothing
      by_cases hfirst : full = false ∧ k = 0
      · obtain ⟨rfl, rfl⟩ := hfirst
        refine ⟨fun j hj => ?_, fun v _ => rfl⟩
        obtain rfl : j = 0 := by omega
        simp [climb, rungValue]
      have hsplit : climb c d (if full then 0 else 1) (k + 1) =
          climb c d (if full then 0 else 1) k ++ [rung c d k] := by
        unfold climb
        have hle : (if full then 0 else 1) ≤ k := by
          cases full
          · simp at hfirst ⊢
            omega
          · simp
        rw [show k + 1 - (if full then 0 else 1) = k - (if full then 0 else 1) + 1 by omega,
          List.range'_concat, List.map_append]
        simp [show (if full then 0 else 1) + (k - (if full then 0 else 1)) = k by omega]
      rw [hsplit]
      simp only [run_append, run_cons, run_nil]
      have hd : ∀ j < k, d j ≠ d k := fun j hj e => by
        have := h.borrowed j (by omega) k (by omega) e
        omega
      have htarget : (rung c d k).target = d k := by
        unfold rung
        split_ifs with h₀
        · rw [h₀]
        · rfl
      have hother : ∀ v, v ≠ d k → Toffoli.act (rung c d k)
          (run Toffoli.act (climb c d (if full then 0 else 1) k) w) v =
          run Toffoli.act (climb c d (if full then 0 else 1) k) w v := fun v hv => by
        rw [Toffoli.act, htarget, toggle_of_ne hv]
      refine ⟨fun j hj => ?_, fun v hv => ?_⟩
      · by_cases hjk : j < k
        · rw [hother _ (hd j hjk)]
          exact hset j hjk
        · obtain rfl : j = k := by omega
          rw [Toffoli.act, htarget, toggle_same, hkeep (d j) fun i hi => (hd i hi).symm]
          rcases j with _ | j
          · obtain rfl : full = true := by simpa using hfirst
            simp [climb, rung, rungValue]
          · have hc := hkeep (c (j + 2)) fun i hi => h.control (j + 2) (by omega) i (by omega)
            simp only [rung, Nat.add_one_ne_zero, if_false, Nat.add_sub_cancel, rungValue]
            rw [hset j (Nat.lt_succ_self j), hc]
            rfl
      · rw [hother v (hv k (Nat.lt_succ_self k))]
        exact hkeep v fun j hj => hv j (Nat.lt_succ_of_lt hj)

theorem LadderApart.run_pass (hn : 0 < n) (full : Bool) (w : ι → Bool) :
    run Toffoli.act (ladderPass c d t (if full then 0 else 1) n) w =
      toggle t (rungValue full (w ∘ c) (w ∘ d) (n - 1) && w (c (n + 1))) w := by
  have hmem : ∀ g ∈ climb c d (if full then 0 else 1) n, ∃ i < n, g = rung c d i := by
    intro g hg
    obtain ⟨i, hi, rfl⟩ := List.mem_map.mp hg
    rw [List.mem_range'_1] at hi
    exact ⟨i, by omega, rfl⟩
  obtain ⟨hset, hkeep⟩ := h.run_climb full (Nat.le_refl n) w
  rw [ladderPass, Toffoli.run_conjugate]
  · dsimp only
    rw [hset (n - 1) (by omega), hkeep (c (n + 1)) fun j hj => h.control (n + 1) (by omega) j hj]
  · intro g hg
    obtain ⟨i, hi, rfl⟩ := hmem g hg
    exact h.rung_apart hi
  · intro g hg
    obtain ⟨i, hi, rfl⟩ := hmem g hg
    exact h.rung_ne_target hi

theorem LadderApart.run_passes (hn : 0 < n) (w : ι → Bool) :
    run Toffoli.act (ladderPass c d t 0 n ++ ladderPass c d t 1 n) w =
      toggle t ((List.range (n + 2)).all (w ∘ c)) w := by
  have h₁ := h.run_pass hn true w
  have h₂ := h.run_pass hn false (run Toffoli.act (ladderPass c d t 0 n) w)
  simp only [if_true, Bool.false_eq_true, if_false] at h₁ h₂
  -- the first pass left controls and borrowed bits alone
  have hc : ∀ b, ∀ i < n + 2, toggle t b w (c i) = w (c i) := fun b i hi =>
    toggle_of_ne (h.target_control i hi) ..
  have hval : ∀ b, ∀ i < n, rungValue false (toggle t b w ∘ c) (toggle t b w ∘ d) i =
      rungValue false (w ∘ c) (w ∘ d) i := by
    intro b i hi
    induction i with
    | zero => simp [rungValue, toggle_of_ne (h.target_borrowed 0 hi)]
    | succ i ih =>
        have hdi : toggle t b w (d (i + 1)) = w (d (i + 1)) :=
          toggle_of_ne (h.target_borrowed _ hi) ..
        simp only [rungValue, Function.comp_apply, ih (by omega), hc b (i + 2) (by omega), hdi]
  rw [run_append, h₂, h₁, hval _ _ (by omega), hc _ (n + 1) (by omega), toggle_xor,
    ← Bool.and_xor_distrib_right, rungValue_xor, show n - 1 + 2 = n + 1 by omega]
  simp [List.range_succ, Bool.and_assoc]

end Ladder

end
end BitStore
