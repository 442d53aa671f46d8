import VolarIR.Reversible.Support
import VolarIR.Library.DirtyLadder
import Mathlib.Data.List.GetD
import Mathlib.Data.List.Nodup

/-!
# The zero test

The gates of the multiple-controlled NOT are the letters of the dirty ladder, so
`appendZeroTest`'s word toggles its target exactly when every control is zero.
-/
namespace VolarIR.Rev
open Boolar Words BitStore

section
variable {reg : Registry} {controls dirty : List ℕ} {target : ℕ}

/-- A word of `ccnot` gates acts on the wires as the Toffoli letters it stands for. -/
theorem run_ccnot {gs : List RGate} {ts : List (Toffoli ℕ)}
    (h : gs = ts.map fun g => .ccnot g.c1 g.c2 g.target) (s : RState) :
    run (RGate.act reg) gs s = { s with wires := run Toffoli.act ts s.wires } := by
  subst h
  induction ts generalizing s with
  | nil => rfl
  | cons g ts ih =>
      rw [List.map_cons, run_cons, ih]
      rfl

theorem ladderRung_eq (i : ℕ) : ladderRung controls dirty i =
    .ccnot (rung (controls.getD · 0) (dirty.getD · 0) i).c1
      (rung (controls.getD · 0) (dirty.getD · 0) i).c2
      (rung (controls.getD · 0) (dirty.getD · 0) i).target := by
  unfold ladderRung rung
  split_ifs <;> rfl

/-- The pass of the source is the ladder's. -/
theorem dirtyLadder_eq (controls : List ℕ) (target : ℕ) (dirty : List ℕ) (hd : 0 < dirty.length)
    (hc : controls.length = dirty.length + 2)
    (full : Bool) : dirtyLadder controls target dirty full =
      (ladderPass (controls.getD · 0) (dirty.getD · 0) target (if full then 0 else 1)
        dirty.length).map fun g => .ccnot g.c1 g.c2 g.target := by
  have hlast : ∀ {l : List ℕ} {n : ℕ}, l.length = n + 1 → l.getLastD 0 = l.getD n 0 := by
    intro l n hl
    rw [List.getLastD_eq_getLast?, List.getLast?_eq_getElem?, hl, List.getD_eq_getElem?_getD]
    simp
  unfold dirtyLadder ladderPass climb
  simp only [List.map_append, List.map_cons, List.map_map, List.map_reverse]
  rw [hlast (l := dirty) (n := dirty.length - 1) (by omega),
    hlast (l := controls) (n := dirty.length + 1) (by omega)]
  have hrung : ladderRung controls dirty =
      (fun g : Toffoli ℕ => RGate.ccnot g.c1 g.c2 g.target) ∘
        rung (controls.getD · 0) (dirty.getD · 0) := funext ladderRung_eq
  rw [hrung]

theorem getD_mem {l : List ℕ} {i : ℕ} (h : i < l.length) : l.getD i 0 ∈ l := by
  rw [List.getD_eq_getElem _ _ h]
  exact List.getElem_mem h

theorem ladderApart_of_nodup {n : ℕ} (hn : (controls ++ target :: dirty).Nodup)
    (hc : controls.length = n + 2) (hd : n ≤ dirty.length) :
    LadderApart (controls.getD · 0) (dirty.getD · 0) target n := by
  obtain ⟨hnc, hnd, hdis⟩ := List.nodup_append'.mp hn
  obtain ⟨ht, hnd⟩ := List.nodup_cons.mp hnd
  have hcm : ∀ i < n + 2, controls.getD i 0 ∈ controls := fun i hi => getD_mem (by omega)
  have hdm : ∀ i < n, dirty.getD i 0 ∈ dirty := fun i hi => getD_mem (by omega)
  constructor
  · exact fun i hi j hj e => hdis (hcm i hi) (e ▸ List.mem_cons_of_mem _ (hdm j hj))
  · intro i hi j hj e
    rw [List.getD_eq_getElem _ _ (by omega), List.getD_eq_getElem _ _ (by omega)] at e
    exact (List.Nodup.getElem_inj_iff hnd).mp e
  · exact fun i hi e => hdis (hcm i hi) (e ▸ List.mem_cons_self)
  · exact fun i hi e => ht (e ▸ hdm i hi)

theorem all_range_getD (l : List ℕ) (f : ℕ → Bool) :
    (List.range l.length).all (f ∘ (l.getD · 0)) = l.all f := by
  have hl : (List.range l.length).map (l.getD · 0) = l :=
    List.ext_getElem (by simp) fun i h₁ h₂ => by simp [h₂]
  rw [← List.all_map, hl]

/-- With three controls or more, the gates are the two passes of an apart ladder. -/
theorem mcxWithDirty_eq (hn : (controls ++ target :: dirty).Nodup) {n : ℕ}
    (hc : controls.length = n + 2) (h0 : 0 < n) (hd : n ≤ dirty.length) :
    LadderApart (controls.getD · 0) ((dirty.take n).getD · 0) target n ∧
      mcxWithDirty controls target dirty =
        (ladderPass (controls.getD · 0) ((dirty.take n).getD · 0) target 0 n ++
          ladderPass (controls.getD · 0) ((dirty.take n).getD · 0) target 1 n).map
          fun g => .ccnot g.c1 g.c2 g.target := by
  have hl : (dirty.take n).length = n := by simpa using hd
  have hsub : (controls ++ target :: dirty.take n).Nodup :=
    hn.sublist ((List.take_sublist _ _).cons_cons _ |>.append_left _)
  refine ⟨ladderApart_of_nodup hsub hc hl.ge, ?_⟩
  have hpass := dirtyLadder_eq controls target (dirty.take n) (by omega) (by omega)
  have ht := hpass true
  have hf := hpass false
  rw [hl] at ht hf
  simp only [if_true, Bool.false_eq_true, if_false] at ht hf
  rw [List.map_append, ← ht, ← hf]
  unfold mcxWithDirty
  split
  · simp at hc
  · simp at hc
    omega
  · rw [show controls.length - 2 = n by omega]

theorem run_mcxWithDirty (hn : (controls ++ target :: dirty).Nodup) (hc : controls ≠ [])
    (hd : controls.length - 2 ≤ dirty.length) (s : RState) :
    run (RGate.act reg) (mcxWithDirty controls target dirty) s =
      { s with wires := toggle target (controls.all s.wires) s.wires } := by
  match controls, hc with
  | [c], _ => simp [mcxWithDirty, RGate.act]
  | [c1, c2], _ => simp [mcxWithDirty, RGate.act]
  | c1 :: c2 :: c3 :: rest, _ =>
      obtain ⟨hapart, hword⟩ := mcxWithDirty_eq (n := rest.length + 1) hn rfl (by omega) hd
      rw [run_ccnot hword, hapart.run_passes (by omega),
        ← all_range_getD (c1 :: c2 :: c3 :: rest)]
      rfl

theorem mem_zeroTest (hn : (controls ++ target :: dirty).Nodup) (hc : controls ≠ [])
    (hd : controls.length - 2 ≤ dirty.length) {g : RGate}
    (hg : g ∈ zeroTest controls target dirty) :
    g.Apart ∧ (∀ w ∈ g.wires, w ∈ controls ++ target :: dirty) ∧ g.usesStorage = false ∧
      g.usesExternals = false := by
  have hx : ∀ g ∈ controls.map RGate.x, g.Apart ∧ (∀ w ∈ g.wires, w ∈ controls ++ target :: dirty) ∧
      g.usesStorage = false ∧ g.usesExternals = false := by
    intro g hg
    obtain ⟨w, hw, rfl⟩ := List.mem_map.mp hg
    simp [RGate.Apart, RGate.wires, RGate.usesStorage, RGate.usesExternals, hw]
  simp only [zeroTest, List.mem_append] at hg
  rcases hg with (hg | hg) | hg
  · exact hx g hg
  · rcases controls with - | ⟨c, - | ⟨c2, - | ⟨c3, rest⟩⟩⟩
    · exact absurd rfl hc
    · obtain rfl : g = .cnot c target := by simpa [mcxWithDirty] using hg
      simp at hn
      simp [RGate.Apart, RGate.wires, RGate.usesStorage, RGate.usesExternals, hn.1.1]
    · obtain rfl : g = .ccnot c c2 target := by simpa [mcxWithDirty] using hg
      simp at hn
      simp [RGate.Apart, RGate.wires, RGate.usesStorage, RGate.usesExternals,
        Ne.symm hn.1.2.1, Ne.symm hn.2.1.1]
    · obtain ⟨hapart, hword⟩ := mcxWithDirty_eq (n := rest.length + 1) hn rfl (by omega) hd
      rw [hword] at hg
      obtain ⟨t, ht, rfl⟩ := List.mem_map.mp hg
      have hmem : ∀ v, OnLadder ((c :: c2 :: c3 :: rest).getD · 0)
          ((dirty.take (rest.length + 1)).getD · 0) target (rest.length + 1) v →
          v ∈ (c :: c2 :: c3 :: rest) ++ target :: dirty := by
        rintro v (⟨i, hi, rfl⟩ | ⟨i, hi, rfl⟩ | rfl)
        · exact List.mem_append_left _ (getD_mem (by simp only [List.length_cons]; omega))
        · have hlt : i < (dirty.take (rest.length + 1)).length := by
            simp at hd
            simp
            omega
          exact List.mem_append_right _ (List.mem_cons_of_mem _
            (List.mem_of_mem_take (getD_mem hlt)))
        · simp
      obtain ⟨ha, h₁, h₂, h₃⟩ : t.Apart ∧ _ ∧ _ ∧ _ := by
        rcases List.mem_append.mp ht with ht | ht <;> exact hapart.mem_pass (by omega) ht
      refine ⟨ha, fun w hw => ?_, rfl, rfl⟩
      simp only [RGate.wires, List.mem_cons, List.not_mem_nil, or_false] at hw
      rcases hw with rfl | rfl | rfl
      · exact hmem _ h₁
      · exact hmem _ h₂
      · exact hmem _ h₃
  · exact hx g hg

theorem run_x {ws : List ℕ} (hn : ws.Nodup) (s : RState) :
    run (RGate.act reg) (ws.map .x) s =
      { s with wires := fun w => if w ∈ ws then !s.wires w else s.wires w } := by
  induction ws generalizing s with
  | nil => simp
  | cons v ws ih =>
      obtain ⟨hv, hn⟩ := List.nodup_cons.mp hn
      rw [List.map_cons, run_cons, ih hn]
      refine RState.ext (funext fun w => ?_) rfl
      by_cases hw : w = v
      · subst hw
        simp [RGate.act, hv]
      · simp [RGate.act, hw]

/-- The zero test toggles its target exactly when every control is zero, whatever the
borrowed wires hold, and restores everything else. -/
theorem run_zeroTest (hn : (controls ++ target :: dirty).Nodup) (hc : controls ≠ [])
    (hd : controls.length - 2 ≤ dirty.length) (s : RState) :
    run (RGate.act reg) (zeroTest controls target dirty) s =
      { s with wires := toggle target (controls.all fun w => !s.wires w) s.wires } := by
  have hnc : controls.Nodup := (List.nodup_append'.mp hn).1
  have ht : target ∉ controls := fun h =>
    (List.nodup_append'.mp hn).2.2 h List.mem_cons_self
  have hall : (controls.all fun w => if w ∈ controls then !s.wires w else s.wires w) =
      controls.all fun w => !s.wires w := by
    rw [Bool.eq_iff_iff, List.all_eq_true, List.all_eq_true]
    exact forall₂_congr fun w hw => by rw [if_pos hw]
  rw [zeroTest, run_append, run_append, run_x hnc, run_mcxWithDirty hn hc hd, run_x hnc]
  refine RState.ext (funext fun w => ?_) rfl
  dsimp only
  rw [hall]
  by_cases hw : w ∈ controls
  · have hwt : w ≠ target := fun e => ht (e ▸ hw)
    simp [hw, hwt]
  · by_cases hwt : w = target
    · subst hwt
      simp [ht]
    · simp [hw, hwt]

/-- On enough wires the gates of the zero test are a circuit that needs no storage and asks
nobody outside. -/
theorem new_zeroTest {n : ℕ} (hn : (controls ++ target :: dirty).Nodup) (hc : controls ≠ [])
    (hd : controls.length - 2 ≤ dirty.length) (hwires : ∀ w ∈ controls ++ target :: dirty, w < n) :
    RCircuit.new n (zeroTest controls target dirty) =
        .ok ⟨n, zeroTest controls target dirty⟩ ∧
      (⟨n, zeroTest controls target dirty⟩ : RCircuit).usesStorage = false ∧
      (⟨n, zeroTest controls target dirty⟩ : RCircuit).usesExternals = false := by
  refine ⟨?_, ?_, ?_⟩
  · refine RCircuit.new_ok.mpr ⟨rfl, ?_⟩
    intro g hg
    have hgate := mem_zeroTest hn hc hd hg
    exact RGate.valid_iff.mpr ⟨fun w hw => hwires w (hgate.2.1 w hw), hgate.1⟩
  · rw [RCircuit.usesStorage, List.any_eq_false]
    intro g hg
    rw [(mem_zeroTest hn hc hd hg).2.2.1]
    decide
  · rw [RCircuit.usesExternals, List.any_eq_false]
    intro g hg
    rw [(mem_zeroTest hn hc hd hg).2.2.2]
    decide

/-- The appended gates flip the target when every control is zero, and no other wire changes. -/
theorem zeroTest_exact (controls : List ℕ) (target : ℕ) (dirty : List ℕ) (n : ℕ)
    (hn : (controls ++ target :: dirty).Nodup) (hc : controls ≠ [])
    (hd : controls.length - 2 ≤ dirty.length) (hwires : ∀ w ∈ controls ++ target :: dirty, w < n)
    (ws : List Bool) (hws : ws.length = n) :
    ∃ c out, RCircuit.new n (zeroTest controls target dirty) = .ok c ∧
      c.applyPure ws = .ok (some out) ∧ out.length = n ∧
      readWire out target = (readWire ws target ^^ controls.all fun w => !readWire ws w) ∧
      ∀ w, w ≠ target → readWire out w = readWire ws w := by
  obtain ⟨hnew, hstorage, hexternals⟩ := new_zeroTest hn hc hd hwires
  have hvalid : (⟨n, zeroTest controls target dirty⟩ : RCircuit).Valid :=
    (RCircuit.new_ok.mp hnew).2
  obtain ⟨out, hout, hlength, hview⟩ := hvalid.applyWithExternals .unused hws .empty
  have hwiresOut : readWire out.1 =
      toggle target (controls.all fun w => !readWire ws w) (readWire ws) := by
    have hrun := congrArg RState.wires hview
    rw [run_zeroTest hn hc hd] at hrun
    exact hrun
  refine ⟨_, out.1, hnew, ?_, hlength, ?_, ?_⟩
  · rw [RCircuit.applyPure, hexternals, hstorage, RCircuit.apply, hexternals]
    simp [hout]
  · rw [hwiresOut, toggle_same]
  · intro w hw
    rw [hwiresOut, toggle_of_ne hw]

/-- Seven controls and the target, with five borrowed wires that are on. -/
theorem zeroTest_exact_seven :
    ∃ c out, RCircuit.new 13 (zeroTest [0, 1, 2, 3, 4, 5, 6] 7 [8, 9, 10, 11, 12]) = .ok c ∧
      c.applyPure (List.replicate 8 false ++ List.replicate 5 true) = .ok (some out) ∧
      out.length = 13 ∧ readWire out 7 = true ∧
      ∀ w, w ≠ 7 → readWire out w =
        readWire (List.replicate 8 false ++ List.replicate 5 true) w :=
  zeroTest_exact [0, 1, 2, 3, 4, 5, 6] 7 [8, 9, 10, 11, 12] 13 (by decide) (by decide) (by decide)
    (by decide) _ rfl

end

end VolarIR.Rev
