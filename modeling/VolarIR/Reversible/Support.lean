import VolarIR.Reversible.ToReversible

/-!
# What a gate reads and writes

Every wire a gate mentions, the wires it writes, and the part of validation that
does not depend on the circuit's size. A gate's action depends on the wires it
mentions only, changes the wires it writes only, and commutes with an injective
renaming of the wires it mentions.
-/
namespace VolarIR.Rev
open Boolar Words BitStore

namespace RGate

/-- Every wire a gate mentions. -/
def wires : RGate → List ℕ
  | x w => [w]
  | cnot ctrl target => [ctrl, target]
  | ccnot c1 c2 target => [c1, c2, target]
  | xorLut2 c0 c1 target _ => [c0, c1, target]
  | storageSwap _ _ addr target => target :: addr
  | externalXor _ _ args target _ _ => target :: args
  | externalStorageXor _ guard args fallback _ _ addr _ _ => guard :: fallback :: (args ++ addr)

def targets : RGate → List ℕ
  | x w => [w]
  | cnot _ target | ccnot _ _ target | xorLut2 _ _ target _ | storageSwap _ _ _ target
  | externalXor _ _ _ target _ _ => [target]
  | externalStorageXor .. => []

/-- The target is none of the wires the gate reads. -/
def Apart : RGate → Prop
  | x _ | externalStorageXor .. => True
  | cnot ctrl target => ctrl ≠ target
  | ccnot c1 c2 target => target ≠ c1 ∧ target ≠ c2
  | xorLut2 c0 c1 target table =>
      target ≠ c0 ∧ target ≠ c1 ∧ c0 ≠ c1 ∧ table &&& ~~~0x0f#8 = 0#8
  | storageSwap _ _ addr target => target ∉ addr
  | externalXor _ _ args target _ _ => target ∉ args

theorem valid_iff {n : ℕ} {g : RGate} : g.Valid n ↔ (∀ w ∈ g.wires, w < n) ∧ g.Apart := by
  have apart : ∀ {ws : List ℕ} {t : ℕ},
      (∀ w ∈ ws, w < n ∧ w ≠ t) ↔ (∀ w ∈ ws, w < n) ∧ t ∉ ws := fun {ws t} =>
    ⟨fun h => ⟨fun w hw => (h w hw).1, fun ht => (h t ht).2 rfl⟩,
      fun h w hw => ⟨h.1 w hw, fun e => h.2 (e ▸ hw)⟩⟩
  cases g <;> simp [Valid, wires, Apart, apart, and_assoc]

theorem targets_subset {g : RGate} {w : ℕ} (h : w ∈ g.targets) : w ∈ g.wires := by
  cases g <;> simp_all [targets, wires]

@[simp] theorem wires_mapWires (f : ℕ → ℕ) (g : RGate) : (g.mapWires f).wires = g.wires.map f := by
  cases g <;> simp [mapWires, wires]

@[simp] theorem targets_mapWires (f : ℕ → ℕ) (g : RGate) :
    (g.mapWires f).targets = g.targets.map f := by
  cases g <;> simp [mapWires, targets]

@[simp] theorem mapWires_id (g : RGate) : g.mapWires id = g := by
  cases g <;> simp [mapWires]

@[simp] theorem usesStorage_mapWires (f : ℕ → ℕ) (g : RGate) :
    (g.mapWires f).usesStorage = g.usesStorage := by
  cases g <;> rfl

@[simp] theorem usesExternals_mapWires (f : ℕ → ℕ) (g : RGate) :
    (g.mapWires f).usesExternals = g.usesExternals := by
  cases g <;> rfl

theorem Apart.mapWires {f : ℕ → ℕ} {g : RGate} (h : g.Apart)
    (hf : ∀ v ∈ g.wires, ∀ w ∈ g.wires, f v = f w → v = w) : (g.mapWires f).Apart := by
  cases g with
  | x w => trivial
  | cnot ctrl target => exact fun e => h (hf _ (by simp [wires]) _ (by simp [wires]) e)
  | ccnot c1 c2 target =>
      exact ⟨fun e => h.1 (hf _ (by simp [wires]) _ (by simp [wires]) e),
        fun e => h.2 (hf _ (by simp [wires]) _ (by simp [wires]) e)⟩
  | xorLut2 c0 c1 target table =>
      exact ⟨fun e => h.1 (hf _ (by simp [wires]) _ (by simp [wires]) e),
        fun e => h.2.1 (hf _ (by simp [wires]) _ (by simp [wires]) e),
        fun e => h.2.2.1 (hf _ (by simp [wires]) _ (by simp [wires]) e), h.2.2.2⟩
  | storageSwap storage lane addr target =>
      intro hm
      obtain ⟨w, hw, e⟩ := List.mem_map.mp hm
      exact h (hf w (by simp [wires, hw]) target (by simp [wires]) e ▸ hw)
  | externalXor kind name args target bit occ =>
      intro hm
      obtain ⟨w, hw, e⟩ := List.mem_map.mp hm
      exact h (hf w (by simp [wires, hw]) target (by simp [wires]) e ▸ hw)
  | externalStorageXor name guard args fallback storage lane addr bit occ => trivial

end RGate

/-- Two states agree on the wires of `A`, seen through the renaming `ρ`, and on every cell. -/
def AgreeOn (A : ℕ → Prop) (ρ : ℕ → ℕ) (s t : RState) : Prop :=
  (∀ j, A j → s.wires j = t.wires (ρ j)) ∧ s.cells = t.cells

section Frame
variable {reg : Registry} {A : ℕ → Prop} {ρ : ℕ → ℕ}

theorem RGate.act_wires_of_not_target {g : RGate} {s : RState} {j : ℕ} (h : j ∉ g.targets) :
    (g.act reg s).wires j = s.wires j := by
  cases g <;> simp_all [act, targets]

theorem run_wires_of_not_target {gs : List RGate} {s : RState} {j : ℕ}
    (h : ∀ g ∈ gs, j ∉ g.targets) : (run (RGate.act reg) gs s).wires j = s.wires j :=
  run_invariant (p := fun t : RState => t.wires j = s.wires j)
    (fun g hg _ ht => (RGate.act_wires_of_not_target (h g hg)).trans ht) rfl

theorem RGate.act_rename {g : RGate} (hg : ∀ w ∈ g.wires, A w)
    (hρ : ∀ v w, A v → A w → ρ v = ρ w → v = w) {s t : RState} (h : AgreeOn A ρ s t) :
    AgreeOn A ρ (g.act reg s) ((g.mapWires ρ).act reg t) := by
  have tog : ∀ {w : ℕ} (b : Bool), A w → ∀ j, A j →
      toggle w b s.wires j = toggle (ρ w) b t.wires (ρ j) := by
    intro w b hw j hj
    by_cases hjw : j = w
    · subst hjw
      simp [h.1 j hj]
    · have : ρ j ≠ ρ w := fun e => hjw (hρ j w hj hw e)
      simp [hjw, this, h.1 j hj]
  have read : ∀ ws : List ℕ, (∀ w ∈ ws, A w) → (ws.map ρ).map t.wires = ws.map s.wires := by
    intro ws hws
    rw [List.map_map]
    exact List.map_congr_left fun w hw => (h.1 w (hws w hw)).symm
  cases g with
  | x w => exact ⟨tog true (hg w (by simp [wires])), h.2⟩
  | cnot ctrl target =>
      have hc := h.1 ctrl (hg ctrl (by simp [wires]))
      refine ⟨fun j hj => ?_, h.2⟩
      simp only [act, mapWires, ← hc]
      exact tog _ (hg target (by simp [wires])) j hj
  | ccnot c1 c2 target =>
      have h1 := h.1 c1 (hg c1 (by simp [wires]))
      have h2 := h.1 c2 (hg c2 (by simp [wires]))
      refine ⟨fun j hj => ?_, h.2⟩
      simp only [act, mapWires, ← h1, ← h2]
      exact tog _ (hg target (by simp [wires])) j hj
  | xorLut2 c0 c1 target table =>
      have h0 := h.1 c0 (hg c0 (by simp [wires]))
      have h1 := h.1 c1 (hg c1 (by simp [wires]))
      refine ⟨fun j hj => ?_, h.2⟩
      simp only [act, mapWires, ← h0, ← h1]
      exact tog _ (hg target (by simp [wires])) j hj
  | storageSwap storage lane addr target =>
      have ht := hg target (by simp [wires])
      have ha := read addr fun w hw => hg w (by simp [wires, hw])
      refine ⟨fun j hj => ?_, ?_⟩
      · simp only [act, mapWires, RState.cell, ha, ← h.2]
        by_cases hjt : j = target
        · subst hjt
          simp
        · have : ρ j ≠ ρ target := fun e => hjt (hρ j target hj ht e)
          simp [Function.update_of_ne hjt, Function.update_of_ne this, h.1 j hj]
      · simp only [act, mapWires, RState.cell, ha, ← h.2, h.1 target ht]
  | externalXor kind name args target bit occ =>
      have ha := read args fun w hw => hg w (by simp [wires, hw])
      refine ⟨fun j hj => ?_, h.2⟩
      simp only [act, mapWires, ha]
      exact tog _ (hg target (by simp [wires])) j hj
  | externalStorageXor name guard args fallback storage lane addr bit occ =>
      have hgd := h.1 guard (hg guard (by simp [wires]))
      have hf := h.1 fallback (hg fallback (by simp [wires]))
      have ha := read args fun w hw => hg w (by simp [wires, hw])
      have hc := read addr fun w hw => hg w (by simp [wires, hw])
      refine ⟨h.1, ?_⟩
      simp only [act, mapWires, RState.cell, ha, hc, ← hgd, ← hf, ← h.2]

variable (reg)

theorem run_rename {gs : List RGate} (hg : ∀ g ∈ gs, ∀ w ∈ g.wires, A w)
    (hρ : ∀ v w, A v → A w → ρ v = ρ w → v = w) {s t : RState} (h : AgreeOn A ρ s t) :
    AgreeOn A ρ (run (RGate.act reg) gs s)
      (run (RGate.act reg) (gs.map (RGate.mapWires ρ)) t) := by
  induction gs generalizing s t with
  | nil => exact h
  | cons g gs ih =>
      exact ih (fun a ha => hg a (List.mem_cons_of_mem g ha))
        (RGate.act_rename (hg g List.mem_cons_self) hρ h)

/-- Gates confined to `A` act alike on states that agree on `A`. -/
theorem run_agree {gs : List RGate} (hg : ∀ g ∈ gs, ∀ w ∈ g.wires, A w) {s t : RState}
    (h : AgreeOn A id s t) :
    AgreeOn A id (run (RGate.act reg) gs s) (run (RGate.act reg) gs t) := by
  have hm : gs.map (RGate.mapWires id) = gs := by
    rw [List.map_congr_left (g := id) fun g _ => g.mapWires_id, List.map_id]
  have hr := run_rename reg (ρ := id) hg (fun _ _ _ _ e => e) h
  rwa [hm] at hr

/-- A word, a middle that changes nothing in the word's region, and the word undone:
the region is restored and the rest is as the middle left it. -/
theorem run_sandwich (mid : List RGate) {gs : List RGate} {n : ℕ} (hv : ∀ g ∈ gs, g.Valid n)
    (hA : ∀ g ∈ gs, ∀ w ∈ g.wires, A w) {s : RState}
    (hmid : AgreeOn A id (run (RGate.act reg) mid (run (RGate.act reg) gs s))
      (run (RGate.act reg) gs s)) :
    AgreeOn A id (run (RGate.act reg) (gs ++ mid ++ gs.reverse) s) s ∧
      ∀ w, ¬A w → (run (RGate.act reg) (gs ++ mid ++ gs.reverse) s).wires w =
        (run (RGate.act reg) mid (run (RGate.act reg) gs s)).wires w := by
  have hA' : ∀ g ∈ gs.reverse, ∀ w ∈ g.wires, A w := fun g hg => hA g (List.mem_reverse.mp hg)
  rw [run_append, run_append]
  constructor
  · have h := run_agree reg hA' hmid
    rwa [run_reverse_run fun g hg => RGate.act_involutive (hv g hg) reg] at h
  · exact fun w hw => run_wires_of_not_target fun g hg ht =>
      hw (hA' g hg w (RGate.targets_subset ht))

end Frame

end VolarIR.Rev
