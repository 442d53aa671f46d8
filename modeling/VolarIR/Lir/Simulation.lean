import VolarIR.Lir.Circuits
import Mathlib.Data.List.Forall2

/-!
# Circuits on two builders

An algorithm asks every builder for the same gates. When two builders answer each gate with
related wires, they answer the whole algorithm with related wires.
-/
namespace VolarIR.Lir

/-- Two builders whose gates correspond. Only the states of both together decide which wires
do, and related wires stay related. -/
structure Simulation (B₁ Bit₁ B₂ Bit₂ : Type) [BitCircuitBuilder B₁ Bit₁]
    [BitCircuitBuilder B₂ Bit₂] where
  Inv : B₁ × B₂ → Prop
  Wire : B₁ × B₂ → Bit₁ → Bit₂ → Prop

namespace Simulation
variable {B₁ Bit₁ B₂ Bit₂ : Type} [BitCircuitBuilder B₁ Bit₁] [BitCircuitBuilder B₂ Bit₂]
variable (S : Simulation B₁ Bit₁ B₂ Bit₂)

structure Later (w w' : B₁ × B₂) : Prop where
  inv : S.Inv w'
  wire : ∀ {x y}, S.Wire w x y → S.Wire w' x y

structure Runs {α β : Type} (w : B₁ × B₂) (p : StateM B₁ α) (q : StateM B₂ β)
    (R : B₁ × B₂ → α → β → Prop) : Prop where
  later : S.Later w ((p w.1).2, (q w.2).2)
  result : R ((p w.1).2, (q w.2).2) (p w.1).1 (q w.2).1

/-- Every gate answers related wires with a related wire. -/
structure Sound : Prop where
  const {w} (hw : S.Inv w) (val : Bool) : S.Runs w (bcConst val) (bcConst val) S.Wire
  xor {w a a' b b'} (hw : S.Inv w) (ha : S.Wire w a a') (hb : S.Wire w b b') :
    S.Runs w (bcXor a b) (bcXor a' b') S.Wire
  and {w a a' b b'} (hw : S.Inv w) (ha : S.Wire w a a') (hb : S.Wire w b b') :
    S.Runs w (bcAnd a b) (bcAnd a' b') S.Wire
  not {w a a'} (hw : S.Inv w) (ha : S.Wire w a a') : S.Runs w (bcNot a) (bcNot a') S.Wire
  carry3 {w a a' b b' c c'} (hw : S.Inv w) (ha : S.Wire w a a') (hb : S.Wire w b b')
    (hc : S.Wire w c c') : S.Runs w (bcCarry3 a b c) (bcCarry3 a' b' c') S.Wire

def Wires (w : B₁ × B₂) : List Bit₁ → List Bit₂ → Prop := List.Forall₂ (S.Wire w)

variable {S} {α β γ δ : Type} {w w' : B₁ × B₂}

theorem Later.refl (hw : S.Inv w) : S.Later w w := ⟨hw, id⟩

theorem Later.trans {w'' : B₁ × B₂} (h : S.Later w w') (h' : S.Later w' w'') : S.Later w w'' :=
  ⟨h'.inv, fun hx => h'.wire (h.wire hx)⟩

theorem Later.wires (h : S.Later w w') {xs : List Bit₁} {ys : List Bit₂} (hxs : S.Wires w xs ys) :
    S.Wires w' xs ys := List.Forall₂.imp (fun _ _ => h.wire) hxs

section Rules
variable {R : B₁ × B₂ → α → β → Prop} {Q : B₁ × B₂ → γ → δ → Prop}

theorem Runs.pure {a : α} {b : β} (hw : S.Inv w) (h : R w a b) :
    S.Runs w (Pure.pure a) (Pure.pure b) R := ⟨.refl hw, h⟩

theorem Runs.bind {p : StateM B₁ α} {q : StateM B₂ β} {f : α → StateM B₁ γ} {g : β → StateM B₂ δ}
    (h : S.Runs w p q R)
    (hf : ∀ w' a b, S.Later w w' → R w' a b → S.Runs w' (f a) (g b) Q) :
    S.Runs w (p >>= f) (q >>= g) Q := by
  have hnext := hf _ _ _ h.later h.result
  exact ⟨h.later.trans hnext.later, hnext.result⟩

theorem Runs.mono {R' : B₁ × B₂ → α → β → Prop} {p : StateM B₁ α} {q : StateM B₂ β}
    (h : S.Runs w p q R) (hR : ∀ w' a b, S.Later w w' → R w' a b → R' w' a b) :
    S.Runs w p q R' := ⟨h.later, hR _ _ _ h.later h.result⟩

theorem Runs.mapM_length {X : α → β → Prop} {xs : List α} {ys : List β} {f : α → StateM B₁ Bit₁}
    {g : β → StateM B₂ Bit₂} (hw : S.Inv w) (h : List.Forall₂ X xs ys)
    (hstep : ∀ w' x y, S.Later w w' → X x y → S.Runs w' (f x) (g y) S.Wire) :
    S.Runs w (xs.mapM f) (ys.mapM g) fun w us vs => S.Wires w us vs ∧ us.length = xs.length := by
  induction h generalizing w with
  | nil => exact .pure hw ⟨.nil, rfl⟩
  | cons hx _ ih =>
      rw [List.mapM_cons, List.mapM_cons]
      apply (hstep w _ _ (.refl hw) hx).bind
      intro w₁ x' y' h₁ hxy
      apply (ih h₁.inv fun w' x y hl => hstep w' x y (h₁.trans hl)).bind
      rintro w₂ xs' ys' h₂ ⟨hxys, hlen⟩
      exact .pure h₂.inv ⟨.cons (h₂.wire hxy) hxys, congrArg Nat.succ hlen⟩

theorem Runs.mapM {X : α → β → Prop} {xs : List α} {ys : List β} {f : α → StateM B₁ Bit₁}
    {g : β → StateM B₂ Bit₂} (hw : S.Inv w) (h : List.Forall₂ X xs ys)
    (hstep : ∀ w' x y, S.Later w w' → X x y → S.Runs w' (f x) (g y) S.Wire) :
    S.Runs w (xs.mapM f) (ys.mapM g) S.Wires :=
  (mapM_length hw h hstep).mono fun _ _ _ _ h => h.1

theorem Runs.foldlM {ι : Type} {l : List ι} {f : α → ι → StateM B₁ α} {g : β → ι → StateM B₂ β}
    {a : α} {b : β} (hw : S.Inv w) (hinit : R w a b)
    (hstep : ∀ w' a b, ∀ i ∈ l, S.Later w w' → R w' a b → S.Runs w' (f a i) (g b i) R) :
    S.Runs w (l.foldlM f a) (l.foldlM g b) R := by
  induction l generalizing w a b with
  | nil => exact .pure hw hinit
  | cons i l ih =>
      rw [List.foldlM_cons, List.foldlM_cons]
      apply (hstep w a b i List.mem_cons_self (.refl hw) hinit).bind
      intro w₁ a' b' h₁ hab
      exact ih h₁.inv hab fun w' a b j hj hl =>
        hstep w' a b j (List.mem_cons_of_mem i hj) (h₁.trans hl)

end Rules

theorem Wires.length {xs : List Bit₁} {ys : List Bit₂} (h : S.Wires w xs ys) :
    xs.length = ys.length := List.Forall₂.length_eq h

theorem Wires.getD [Inhabited Bit₁] [Inhabited Bit₂] {xs : List Bit₁} {ys : List Bit₂}
    (h : S.Wires w xs ys) {i : ℕ} (hi : i < xs.length) :
    S.Wire w (xs.getD i default) (ys.getD i default) := by
  have hlen := h.length
  rw [List.getD_eq_getElem _ _ hi, List.getD_eq_getElem _ _ (hlen ▸ hi)]
  exact (List.forall₂_iff_get.mp h).2 i hi (hlen ▸ hi)

theorem Wires.signOf [Inhabited Bit₁] [Inhabited Bit₂] {xs : List Bit₁} {ys : List Bit₂}
    (h : S.Wires w xs ys) (hne : xs ≠ []) : S.Wire w (signOf xs) (signOf ys) := by
  have hpos := List.length_pos_iff.mpr hne
  have hlast := h.getD (i := xs.length - 1) (by omega)
  have hne' : ys ≠ [] := by
    intro hys
    rw [hys] at h
    exact hne (List.forall₂_nil_right_iff.mp h)
  have hx : Lir.signOf xs = xs.getD (xs.length - 1) default := by
    rw [Lir.signOf, List.getLastD_eq_getLast?, List.getLast?_eq_getElem?,
        List.getD_eq_getElem?_getD]
  have hy : Lir.signOf ys = ys.getD (xs.length - 1) default := by
    rw [Lir.signOf, List.getLastD_eq_getLast?, List.getLast?_eq_getElem?, ← h.length,
      List.getD_eq_getElem?_getD]
  rw [hx, hy]
  exact hlast

theorem Wires.replicate {z : Bit₁} {z' : Bit₂} (hz : S.Wire w z z') (n : ℕ) :
    S.Wires w (List.replicate n z) (List.replicate n z') := by
  induction n with
  | zero => exact .nil
  | succ n ih => exact .cons hz ih

theorem Wires.take {xs : List Bit₁} {ys : List Bit₂} (h : S.Wires w xs ys) (n : ℕ) :
    S.Wires w (xs.take n) (ys.take n) := List.forall₂_take n h

theorem Wires.drop {xs : List Bit₁} {ys : List Bit₂} (h : S.Wires w xs ys) (n : ℕ) :
    S.Wires w (xs.drop n) (ys.drop n) := List.forall₂_drop n h

theorem Wires.resize {xs : List Bit₁} {ys : List Bit₂} {z : Bit₁} {z' : Bit₂}
    (h : S.Wires w xs ys) (hz : S.Wire w z z') (n : ℕ) :
    S.Wires w (Lir.resize xs n z) (Lir.resize ys n z') := by
  unfold Lir.resize
  rw [h.length]
  exact List.rel_append (h.take n) (Wires.replicate hz _)

theorem Wires.zip {xs us : List Bit₁} {ys vs : List Bit₂} (h : S.Wires w xs ys)
    (h' : S.Wires w us vs) :
    List.Forall₂ (fun p q => S.Wire w p.1 q.1 ∧ S.Wire w p.2 q.2) (xs.zip us) (ys.zip vs) := by
  induction h generalizing us vs with
  | nil => simp
  | cons hx _ ih =>
      cases h' with
      | nil => simp
      | cons hu hus => exact .cons ⟨hx, hu⟩ (ih hus)

theorem Wires.set {xs : List Bit₁} {ys : List Bit₂} {z : Bit₁} {z' : Bit₂}
    (h : S.Wires w xs ys) (hz : S.Wire w z z') (i : ℕ) :
    S.Wires w (xs.set i z) (ys.set i z') := by
  induction h generalizing i with
  | nil => exact .nil
  | cons hx hxs ih =>
      cases i with
      | zero => exact .cons hz hxs
      | succ i => exact .cons hx (ih i)

theorem Wires.overlay {base bits : List Bit₁} {base' bits' : List Bit₂}
    (h : S.Wires w base base') (hbits : S.Wires w bits bits') (start : ℕ) :
    S.Wires w (Lir.overlay base start bits) (Lir.overlay base' start bits') := by
  have hlen := h.length
  have hlen' := hbits.length
  apply List.forall₂_iff_get.mpr
  constructor
  · simp [Lir.overlay, hlen]
  · intro k hk hk'
    simp only [Lir.overlay, List.length_mapIdx] at hk hk'
    have hbase : S.Wire w base[k] base'[k] := (List.forall₂_iff_get.mp h).2 k hk hk'
    simp only [Lir.overlay, List.get_eq_getElem, List.getElem_mapIdx]
    split
    case isTrue hstart =>
      by_cases hin : k - start < bits.length
      · rw [List.getD_eq_getElem _ _ hin, List.getD_eq_getElem _ _ (hlen' ▸ hin)]
        exact (List.forall₂_iff_get.mp hbits).2 _ hin (hlen' ▸ hin)
      · rw [List.getD_eq_default _ _ (Nat.le_of_not_lt hin),
          List.getD_eq_default _ _ (hlen' ▸ Nat.le_of_not_lt hin)]
        exact hbase
    case isFalse => exact hbase

section Circuits
variable (sound : S.Sound)
include sound

theorem Sound.or {a b : Bit₁} {a' b' : Bit₂} (hw : S.Inv w) (ha : S.Wire w a a')
    (hb : S.Wire w b b') : S.Runs w (bcOr a b) (bcOr a' b') S.Wire := by
  apply (sound.not hw ha).bind
  intro w₁ na na' h₁ hna
  apply (sound.not h₁.inv (h₁.wire hb)).bind
  intro w₂ nb nb' h₂ hnb
  apply (sound.and h₂.inv (h₂.wire hna) hnb).bind
  intro w₃ nand nand' h₃ hnand
  exact sound.not h₃.inv hnand

theorem Sound.select {c a b : Bit₁} {c' a' b' : Bit₂} (hw : S.Inv w) (hc : S.Wire w c c')
    (ha : S.Wire w a a') (hb : S.Wire w b b') :
    S.Runs w (bcSelect c a b) (bcSelect c' a' b') S.Wire := by
  apply (sound.xor hw ha hb).bind
  intro w₁ x x' h₁ hx
  apply (sound.and h₁.inv (h₁.wire hc) hx).bind
  intro w₂ sel sel' h₂ hsel
  exact sound.xor h₂.inv hsel (h₂.wire (h₁.wire hb))

theorem Sound.consts (hw : S.Inv w) (n : ℕ) (val : Bool) :
    S.Runs w (bcConsts n val) (bcConsts n val) S.Wires :=
  .mapM hw (List.forall₂_same.mpr fun _ _ => rfl) fun _ _ _ hl (_ : _ = _) =>
    sound.const hl.inv val

variable {a x : List Bit₁} {a' x' : List Bit₂}

theorem Sound.notVec (hw : S.Inv w) (ha : S.Wires w a a') :
    S.Runs w (bcNotVec a) (bcNotVec a') S.Wires :=
  .mapM hw ha fun _ _ _ hl hx => sound.not hl.inv (hl.wire hx)

theorem Sound.selectVec {c : Bit₁} {c' : Bit₂} (hw : S.Inv w) (hc : S.Wire w c c')
    (ha : S.Wires w a a') (hx : S.Wires w x x') :
    S.Runs w (bcSelectVec c a x) (bcSelectVec c' a' x') S.Wires :=
  .mapM hw (ha.zip hx) fun _ _ _ hl hp =>
    sound.select hl.inv (hl.wire hc) (hl.wire hp.1) (hl.wire hp.2)

theorem Sound.xorVec (hw : S.Inv w) (ha : S.Wires w a a') (hx : S.Wires w x x') :
    S.Runs w (bcXorVec a x) (bcXorVec a' x') S.Wires :=
  .mapM hw (ha.zip hx) fun _ _ _ hl hp => sound.xor hl.inv (hl.wire hp.1) (hl.wire hp.2)

theorem Sound.andVec (hw : S.Inv w) (ha : S.Wires w a a') (hx : S.Wires w x x') :
    S.Runs w (bcAndVec a x) (bcAndVec a' x') S.Wires :=
  .mapM hw (ha.zip hx) fun _ _ _ hl hp => sound.and hl.inv (hl.wire hp.1) (hl.wire hp.2)

theorem Sound.orVec (hw : S.Inv w) (ha : S.Wires w a a') (hx : S.Wires w x x') :
    S.Runs w (bcOrVec a x) (bcOrVec a' x') S.Wires :=
  .mapM hw (ha.zip hx) fun _ _ _ hl hp => sound.or hl.inv (hl.wire hp.1) (hl.wire hp.2)

theorem Sound.addFrom {c : Bit₁} {c' : Bit₂} (hw : S.Inv w) (hc : S.Wire w c c')
    (ha : S.Wires w a a') (hx : S.Wires w x x') :
    S.Runs w (bcAddFrom c a x) (bcAddFrom c' a' x') S.Wires := by
  induction a generalizing w c c' a' x x' with
  | nil =>
      cases ha
      exact .pure hw .nil
  | cons b bs ih =>
      cases ha with
      | cons hb hbs => ?_
      cases hx with
      | nil => exact .pure hw .nil
      | cons hy hys =>
          apply (sound.xor hw hb hy).bind
          intro w₁ t t' h₁ ht
          apply (sound.xor h₁.inv ht (h₁.wire hc)).bind
          intro w₂ sum sum' h₂ hsum
          have h₁₂ := h₁.trans h₂
          apply (sound.carry3 h₂.inv (h₁₂.wire hb) (h₁₂.wire hy) (h₁₂.wire hc)).bind
          intro w₃ carry carry' h₃ hcarry
          have h₁₃ := h₁₂.trans h₃
          apply (ih h₃.inv hcarry (h₁₃.wires hbs) (h₁₃.wires hys)).bind
          intro w₄ rest rest' h₄ hrest
          exact .pure h₄.inv (.cons (h₄.wire (h₃.wire hsum)) hrest)

theorem Sound.add (hw : S.Inv w) (ha : S.Wires w a a') (hx : S.Wires w x x') (carryIn : Bool) :
    S.Runs w (bcAdd a x carryIn) (bcAdd a' x' carryIn) S.Wires := by
  apply (sound.const hw carryIn).bind
  intro w₁ c c' h₁ hc
  exact sound.addFrom h₁.inv hc (h₁.wires ha) (h₁.wires hx)

theorem Sound.sub (hw : S.Inv w) (ha : S.Wires w a a') (hx : S.Wires w x x') :
    S.Runs w (bcSub a x) (bcSub a' x') S.Wires := by
  apply (sound.notVec hw hx).bind
  intro w₁ nx nx' h₁ hnx
  exact sound.add h₁.inv (h₁.wires ha) hnx true

theorem Sound.neg (hw : S.Inv w) (ha : S.Wires w a a') :
    S.Runs w (bcNeg a) (bcNeg a') S.Wires := by
  unfold bcNeg
  rw [ha.length]
  apply (sound.consts hw a'.length false).bind
  intro w₁ zs zs' h₁ hzs
  apply (sound.notVec h₁.inv (h₁.wires ha)).bind
  intro w₂ na na' h₂ hna
  exact sound.add h₂.inv hna (h₂.wires hzs) true

theorem Sound.extBits (hw : S.Inv w) (ha : S.Wires w a a') (n : ℕ) :
    S.Runs w (Lir.extBits a n) (Lir.extBits a' n) S.Wires := by
  apply (sound.const hw false).bind
  intro w₁ z z' h₁ hz
  exact .pure h₁.inv ((h₁.wires ha).resize hz n)

section
variable [Inhabited Bit₁] [Inhabited Bit₂]

theorem Sound.abs (hw : S.Inv w) (ha : S.Wires w a a') (hne : a ≠ []) :
    S.Runs w (bcAbs a) (bcAbs a') S.Wires := by
  apply (sound.neg hw ha).bind
  intro w₁ neg neg' h₁ hneg
  exact sound.selectVec h₁.inv (h₁.wire (ha.signOf hne)) hneg (h₁.wires ha)

theorem Sound.mulRows (hw : S.Inv w) (ha : S.Wires w a a') (hx : S.Wires w x x') (want : ℕ) :
    S.Runs w (bcMulRows a x want) (bcMulRows a' x' want) S.Wires := by
  unfold bcMulRows
  rw [← ha.length]
  apply (sound.consts hw _ false).bind
  intro w₁ acc acc' h₁ hacc
  apply Runs.foldlM h₁.inv hacc
  intro w₂ acc acc' i hi h₂ hacc
  rw [List.mem_range] at hi
  have hrow : S.Runs w₂ (partialProduct a x (min want (2 * a.length)) i)
      (partialProduct a' x' (min want (2 * a.length)) i) S.Wires := by
    apply Runs.mapM (X := Eq) h₂.inv (List.forall₂_same.mpr fun _ _ => rfl)
    rintro w₃ k _ h₃ rfl
    have h₁₃ := h₁.trans (h₂.trans h₃)
    rw [hx.length]
    split
    · exact sound.const h₃.inv false
    · apply sound.and h₃.inv ((h₁₃.wires ha).getD (by omega))
      apply (h₁₃.wires hx).getD
      have hlen := hx.length
      omega
  apply hrow.bind
  intro w₃ row row' h₃ hrow
  exact sound.add h₃.inv (h₃.wires hacc) hrow false

theorem Sound.mulLowFrom (n : ℕ) (hw : S.Inv w) (ha : S.Wires w a a') (hx : S.Wires w x x')
    (want : ℕ) :
    S.Runs w (bcMulLowFrom n a x want) (bcMulLowFrom n a' x' want) S.Wires := by
  induction n using Nat.strongRecOn generalizing w a a' x x' want with
  | ind n ih =>
      rw [bcMulLowFrom, bcMulLowFrom]
      split
      case isTrue => exact sound.mulRows hw ha hx want
      case isFalse hn =>
        have hm : n / 2 < n := by omega
        have hh : n - n / 2 < n := by omega
        have hh' : n - n / 2 + 1 < n := by omega
        apply (ih _ hm hw (ha.take _) (hx.take _) _).bind
        intro w₁ acc acc' h₁ hacc
        split
        case isFalse => exact .pure h₁.inv hacc
        case isTrue hwant =>
          apply (sound.extBits h₁.inv (h₁.wires (ha.take _)) _).bind
          intro w₂ a0 a0' h₂ ha0
          have l₂ := h₁.trans h₂
          apply (sound.extBits h₂.inv (l₂.wires (ha.drop _)) _).bind
          intro w₃ a1 a1' h₃ ha1
          apply (sound.add h₃.inv (h₃.wires ha0) ha1 false).bind
          intro w₄ sa sa' h₄ hsa
          have l₄ := (l₂.trans h₃).trans h₄
          apply (sound.extBits h₄.inv (l₄.wires (hx.take _)) _).bind
          intro w₅ x0 x0' h₅ hx0
          have l₅ := l₄.trans h₅
          apply (sound.extBits h₅.inv (l₅.wires (hx.drop _)) _).bind
          intro w₆ x1 x1' h₆ hx1
          apply (sound.add h₆.inv (h₆.wires hx0) hx1 false).bind
          intro w₇ sx sx' h₇ hsx
          have r₇ := (h₅.trans h₆).trans h₇
          apply (ih _ hh' h₇.inv (r₇.wires hsa) hsx _).bind
          intro w₈ z1 z1' h₈ hz1
          have l₈ := (l₄.trans r₇).trans h₈
          rw [← hz1.length]
          apply (ih _ hm h₈.inv (l₈.wires (ha.take _)) (l₈.wires (hx.take _)) _).bind
          intro w₉ z0 z0' h₉ hz0
          apply (sound.extBits h₉.inv hz0 _).bind
          intro w₁₀ z0e z0e' h₁₀ hz0e
          have l₁₀ := (l₈.trans h₉).trans h₁₀
          apply (ih _ hh h₁₀.inv (l₁₀.wires (ha.drop _)) (l₁₀.wires (hx.drop _)) _).bind
          intro w₁₁ z2 z2' h₁₁ hz2
          apply (sound.extBits h₁₁.inv hz2 _).bind
          intro w₁₂ z2e z2e' h₁₂ hz2e
          have r₁₂ := h₁₁.trans h₁₂
          have hz1' := (h₉.trans (h₁₀.trans r₁₂)).wires hz1
          apply (sound.sub h₁₂.inv hz1' (r₁₂.wires hz0e)).bind
          intro w₁₃ mid mid' h₁₃ hmid
          apply (sound.sub h₁₃.inv hmid (h₁₃.wires hz2e)).bind
          intro w₁₄ mid mid' h₁₄ hmid
          apply (sound.consts h₁₄.inv want false).bind
          intro w₁₅ zs zs' h₁₅ hzs
          have hmidS := hzs.overlay (h₁₅.wires hmid) (n / 2)
          have r₁₅ := r₁₂.trans ((h₁₃.trans h₁₄).trans h₁₅)
          have l₁₅ := l₁₀.trans r₁₅
          have hacc' := ((h₂.trans h₃).trans h₄).trans r₇
          have hacc'' := ((hacc'.trans h₈).trans (h₉.trans h₁₀)).trans r₁₅
          apply (sound.extBits h₁₅.inv (hacc''.wires hacc) want).bind
          intro w₁₆ acce acce' h₁₆ hacce
          apply (sound.add h₁₆.inv hacce (h₁₆.wires hmidS) false).bind
          intro w₁₇ acc acc' h₁₇ hacc
          have l₁₇ := (l₁₅.trans h₁₆).trans h₁₇
          split
          case isFalse => exact .pure h₁₇.inv hacc
          case isTrue =>
            apply (ih _ hh h₁₇.inv (l₁₇.wires (ha.drop _)) (l₁₇.wires (hx.drop _)) _).bind
            intro w₁₈ z2 z2' h₁₈ hz2
            apply (sound.consts h₁₈.inv want false).bind
            intro w₁₉ zs zs' h₁₉ hzs
            have r₁₉ := h₁₈.trans h₁₉
            exact sound.add h₁₉.inv (r₁₉.wires hacc) (hzs.overlay (h₁₉.wires hz2) _) false

theorem Sound.mul (hw : S.Inv w) (ha : S.Wires w a a') (hx : S.Wires w x x') :
    S.Runs w (bcMul a x) (bcMul a' x') S.Wires := by
  unfold bcMul bcMulLow
  rw [ha.length]
  exact sound.mulLowFrom _ hw ha hx _

omit [Inhabited Bit₁] [Inhabited Bit₂] in
theorem Sound.subBorrow {c : Bit₁} {c' : Bit₂} (hw : S.Inv w) (hc : S.Wire w c c')
    (ha : S.Wires w a a') (hx : S.Wires w x x') :
    S.Runs w (bcSubBorrow c a x) (bcSubBorrow c' a' x')
      fun w p q => S.Wires w p.1 q.1 ∧ S.Wire w p.2 q.2 := by
  induction a generalizing w c c' a' x x' with
  | nil =>
      cases ha
      exact .pure hw ⟨.nil, hc⟩
  | cons b bs ih =>
      cases ha with
      | cons hb hbs => ?_
      cases hx with
      | nil => exact .pure hw ⟨.nil, hc⟩
      | cons hy hys =>
          apply (sound.not hw hb).bind
          intro w₁ nr nr' h₁ hnr
          apply (sound.xor h₁.inv (h₁.wire hb) (h₁.wire hy)).bind
          intro w₂ t t' h₂ ht
          have l₂ := h₁.trans h₂
          apply (sound.xor h₂.inv ht (l₂.wire hc)).bind
          intro w₃ d d' h₃ hd
          have l₃ := l₂.trans h₃
          apply (sound.carry3 h₃.inv (h₃.wire (h₂.wire hnr)) (l₃.wire hy) (l₃.wire hc)).bind
          intro w₄ borrow borrow' h₄ hborrow
          have l₄ := l₃.trans h₄
          apply (ih h₄.inv hborrow (l₄.wires hbs) (l₄.wires hys)).bind
          rintro w₅ ⟨ds, out⟩ ⟨ds', out'⟩ h₅ ⟨hds, hout⟩
          exact .pure h₅.inv ⟨.cons ((h₄.trans h₅).wire hd) hds, hout⟩

theorem Sound.divStep {rq : List Bit₁ × List Bit₁} {rq' : List Bit₂ × List Bit₂} {i : ℕ}
    (hw : S.Inv w) (ha : S.Wires w a a') (hx : S.Wires w x x') (hi : i < a.length)
    (hrq : S.Wires w rq.1 rq'.1 ∧ S.Wires w rq.2 rq'.2) :
    S.Runs w (divStep a x rq i) (divStep a' x' rq' i)
      fun w p q => S.Wires w p.1 q.1 ∧ S.Wires w p.2 q.2 := by
  unfold Lir.divStep
  have hr : S.Wires w (a.getD i default :: rq.1.take (a.length - 1))
      (a'.getD i default :: rq'.1.take (a'.length - 1)) := by
    rw [← ha.length]
    exact .cons (ha.getD hi) (hrq.1.take _)
  apply (sound.const hw false).bind
  intro w₁ z z' h₁ hz
  apply (sound.subBorrow h₁.inv hz (h₁.wires hr) (h₁.wires hx)).bind
  rintro w₂ ⟨diff, borrow⟩ ⟨diff', borrow'⟩ h₂ ⟨hdiff, hborrow⟩
  apply (sound.not h₂.inv hborrow).bind
  intro w₃ nb nb' h₃ hnb
  have l₃ := (h₁.trans h₂).trans h₃
  apply (sound.selectVec h₃.inv hnb (h₃.wires hdiff) (l₃.wires hr)).bind
  intro w₄ r r' h₄ hr'
  exact .pure h₄.inv ⟨hr', ((l₃.trans h₄).wires hrq.2).set (h₄.wire hnb) i⟩

theorem Sound.udivrem (hw : S.Inv w) (ha : S.Wires w a a') (hx : S.Wires w x x') :
    S.Runs w (bcUdivrem a x) (bcUdivrem a' x')
      fun w p q => S.Wires w p.1 q.1 ∧ S.Wires w p.2 q.2 := by
  unfold bcUdivrem
  rw [← ha.length]
  apply (sound.consts hw _ false).bind
  intro w₁ r r' h₁ hr
  apply (sound.consts h₁.inv _ false).bind
  intro w₂ q q' h₂ hq
  have hloop : S.Runs w₂ ((List.range a.length).reverse.foldlM (Lir.divStep a x) (r, q))
      ((List.range a.length).reverse.foldlM (Lir.divStep a' x') (r', q'))
      fun w p q => S.Wires w p.1 q.1 ∧ S.Wires w p.2 q.2 := by
    apply Runs.foldlM h₂.inv ⟨h₂.wires hr, hq⟩
    intro w₃ rq rq' i hi h₃ hrq
    have l₃ := (h₁.trans h₂).trans h₃
    rw [List.mem_reverse, List.mem_range] at hi
    exact sound.divStep h₃.inv (l₃.wires ha) (l₃.wires hx) hi hrq
  apply hloop.bind
  intro w₃ rq rq' h₃ hrq
  exact .pure h₃.inv ⟨hrq.2, hrq.1⟩

theorem Sound.udiv (hw : S.Inv w) (ha : S.Wires w a a') (hx : S.Wires w x x') :
    S.Runs w (bcUdiv a x) (bcUdiv a' x') S.Wires := by
  apply (sound.udivrem hw ha hx).bind
  intro w₁ p q h₁ hpq
  exact .pure h₁.inv hpq.1

theorem Sound.sdivrem (hw : S.Inv w) (ha : S.Wires w a a') (hx : S.Wires w x x')
    (hane : a ≠ []) (hxne : x ≠ []) :
    S.Runs w (bcSdivrem a x) (bcSdivrem a' x')
      fun w p q => S.Wires w p.1 q.1 ∧ S.Wires w p.2 q.2 := by
  have hsa := ha.signOf hane
  have hsx := hx.signOf hxne
  apply (sound.abs hw ha hane).bind
  intro w₁ absA absA' h₁ habsA
  apply (sound.abs h₁.inv (h₁.wires hx) hxne).bind
  intro w₂ absX absX' h₂ habsX
  apply (sound.udivrem h₂.inv (h₂.wires habsA) habsX).bind
  rintro w₃ ⟨q, r⟩ ⟨q', r'⟩ h₃ ⟨hq, hr⟩
  have l₃ := (h₁.trans h₂).trans h₃
  apply (sound.xor h₃.inv (l₃.wire hsa) (l₃.wire hsx)).bind
  intro w₄ d d' h₄ hd
  apply (sound.neg h₄.inv (h₄.wires hq)).bind
  intro w₅ nq nq' h₅ hnq
  have r₅ := h₄.trans h₅
  apply (sound.selectVec h₅.inv (h₅.wire hd) hnq (r₅.wires hq)).bind
  intro w₆ q₂ q₂' h₆ hq₂
  have r₆ := r₅.trans h₆
  apply (sound.neg h₆.inv (r₆.wires hr)).bind
  intro w₇ nr nr' h₇ hnr
  have r₇ := r₆.trans h₇
  apply (sound.selectVec h₇.inv ((l₃.trans r₇).wire hsa) hnr (r₇.wires hr)).bind
  intro w₈ r₂ r₂' h₈ hr₂
  exact .pure h₈.inv ⟨(h₇.trans h₈).wires hq₂, hr₂⟩

theorem Sound.sdiv (hw : S.Inv w) (ha : S.Wires w a a') (hx : S.Wires w x x') (hane : a ≠ [])
    (hxne : x ≠ []) : S.Runs w (bcSdiv a x) (bcSdiv a' x') S.Wires := by
  apply (sound.sdivrem hw ha hx hane hxne).bind
  intro w₁ p q h₁ hpq
  exact .pure h₁.inv hpq.1

theorem Sound.barrelShift {source : List Bit₁ → ℕ → ℕ → StateM B₁ Bit₁}
    {source' : List Bit₂ → ℕ → ℕ → StateM B₂ Bit₂} (hw : S.Inv w) (ha : S.Wires w a a')
    (hx : S.Wires w x x') (hxne : x ≠ [])
    (hsource : ∀ w' cur cur' step j, S.Later w w' → S.Wires w' cur cur' → j < cur.length →
      S.Runs w' (source cur step j) (source' cur' step j) S.Wire) :
    S.Runs w (Lir.barrelShift source a x) (Lir.barrelShift source' a' x') S.Wires := by
  unfold Lir.barrelShift
  rw [← ha.length, ← hx.length]
  have hpos := List.length_pos_iff.mpr hxne
  apply Runs.foldlM hw ha
  intro w₁ cur cur' k hk h₁ hcur
  have hlt : k < x.length := Nat.lt_of_lt_of_le (List.mem_range.mp hk) (barrelStages_le hpos)
  unfold shiftStage
  rw [← hcur.length]
  apply Runs.mapM (X := fun i j => i = j ∧ i < cur.length) h₁.inv
  · apply List.forall₂_same.mpr
    intro j hj
    exact ⟨rfl, List.mem_range.mp hj⟩
  · rintro w₂ j _ h₂ ⟨rfl, hj⟩
    apply (hsource w₂ cur cur' _ j (h₁.trans h₂) (h₂.wires hcur) hj).bind
    intro w₃ moved moved' h₃ hmoved
    have l₃ := (h₁.trans h₂).trans h₃
    exact sound.select h₃.inv ((l₃.wires hx).getD hlt) hmoved
      (((h₂.trans h₃).wires hcur).getD hj)

theorem Sound.shl (hw : S.Inv w) (ha : S.Wires w a a') (hx : S.Wires w x x') (hxne : x ≠ []) :
    S.Runs w (bcShl a x) (bcShl a' x') S.Wires := by
  apply sound.barrelShift hw ha hx hxne
  intro w₁ cur cur' step j h₁ hcur hj
  split
  · exact sound.const h₁.inv false
  · exact .pure h₁.inv (hcur.getD (by omega))

theorem Sound.lshr (hw : S.Inv w) (ha : S.Wires w a a') (hx : S.Wires w x x') (hxne : x ≠ []) :
    S.Runs w (bcLshr a x) (bcLshr a' x') S.Wires := by
  apply sound.barrelShift hw ha hx hxne
  intro w₁ cur cur' step j h₁ hcur hj
  rw [← hcur.length]
  split
  · exact sound.const h₁.inv false
  · exact .pure h₁.inv (hcur.getD (by omega))

theorem Sound.ashr (hw : S.Inv w) (ha : S.Wires w a a') (hx : S.Wires w x x') (hane : a ≠ [])
    (hxne : x ≠ []) : S.Runs w (bcAshr a x) (bcAshr a' x') S.Wires := by
  apply sound.barrelShift hw ha hx hxne
  intro w₁ cur cur' step j h₁ hcur hj
  apply Runs.pure h₁.inv
  rw [← hcur.length]
  split
  · exact h₁.wire (ha.signOf hane)
  · exact hcur.getD (by omega)

omit [Inhabited Bit₁] [Inhabited Bit₂] in
theorem Sound.andAll {c : Bit₁} {c' : Bit₂} (hw : S.Inv w) (hc : S.Wire w c c')
    (ha : S.Wires w a a') : S.Runs w (bcAndAll c a) (bcAndAll c' a') S.Wire := by
  induction a generalizing w c c' a' with
  | nil =>
      cases ha
      exact .pure hw hc
  | cons b bs ih =>
      cases ha with
      | cons hb hbs => ?_
      apply (sound.and hw hc hb).bind
      intro w₁ acc acc' h₁ hacc
      exact ih h₁.inv hacc (h₁.wires hbs)

omit [Inhabited Bit₁] [Inhabited Bit₂] in
theorem Sound.eq (hw : S.Inv w) (ha : S.Wires w a a') (hx : S.Wires w x x') :
    S.Runs w (bcEq a x) (bcEq a' x') S.Wire := by
  have hxors : S.Runs w ((a.zip x).mapM fun p => do
      let t ← bcXor p.1 p.2
      bcNot t) ((a'.zip x').mapM fun p => do
      let t ← bcXor p.1 p.2
      bcNot t) S.Wires := by
    apply Runs.mapM hw (ha.zip hx)
    intro w₁ p q h₁ hpq
    apply (sound.xor h₁.inv (h₁.wire hpq.1) (h₁.wire hpq.2)).bind
    intro w₂ t t' h₂ ht
    exact sound.not h₂.inv ht
  apply hxors.bind
  intro w₁ bits bits' h₁ hbits
  cases hbits with
  | nil => exact sound.const h₁.inv true
  | cons hb hbs => exact sound.andAll h₁.inv hb hbs

omit [Inhabited Bit₁] [Inhabited Bit₂] in
theorem Sound.ne (hw : S.Inv w) (ha : S.Wires w a a') (hx : S.Wires w x x') :
    S.Runs w (bcNe a x) (bcNe a' x') S.Wire := by
  apply (sound.eq hw ha hx).bind
  intro w₁ e e' h₁ he
  exact sound.not h₁.inv he

omit [Inhabited Bit₁] [Inhabited Bit₂] in
theorem Sound.ultFrom {c : Bit₁} {c' : Bit₂} (hw : S.Inv w) (hc : S.Wire w c c')
    (ha : S.Wires w a a') (hx : S.Wires w x x') :
    S.Runs w (bcUltFrom c a x) (bcUltFrom c' a' x') S.Wire := by
  induction a generalizing w c c' a' x x' with
  | nil =>
      cases ha
      exact .pure hw hc
  | cons b bs ih =>
      cases ha with
      | cons hb hbs => ?_
      cases hx with
      | nil => exact .pure hw hc
      | cons hy hys =>
          apply (sound.not hw hb).bind
          intro w₁ nb nb' h₁ hnb
          apply (sound.carry3 h₁.inv hnb (h₁.wire hy) (h₁.wire hc)).bind
          intro w₂ borrow borrow' h₂ hborrow
          have l₂ := h₁.trans h₂
          exact ih h₂.inv hborrow (l₂.wires hbs) (l₂.wires hys)

omit [Inhabited Bit₁] [Inhabited Bit₂] in
theorem Sound.ult (hw : S.Inv w) (ha : S.Wires w a a') (hx : S.Wires w x x') :
    S.Runs w (bcUlt a x) (bcUlt a' x') S.Wire := by
  apply (sound.const hw false).bind
  intro w₁ z z' h₁ hz
  exact sound.ultFrom h₁.inv hz (h₁.wires ha) (h₁.wires hx)

omit [Inhabited Bit₁] [Inhabited Bit₂] in
theorem Sound.ule (hw : S.Inv w) (ha : S.Wires w a a') (hx : S.Wires w x x') :
    S.Runs w (bcUle a x) (bcUle a' x') S.Wire := by
  apply (sound.ult hw hx ha).bind
  intro w₁ gt gt' h₁ hgt
  exact sound.not h₁.inv hgt

theorem Sound.slt (hw : S.Inv w) (ha : S.Wires w a a') (hx : S.Wires w x x') (hane : a ≠ [])
    (hxne : x ≠ []) : S.Runs w (bcSlt a x) (bcSlt a' x') S.Wire := by
  have hsa := ha.signOf hane
  have hsx := hx.signOf hxne
  apply (sound.not hw hsx).bind
  intro w₁ nsx nsx' h₁ hnsx
  apply (sound.and h₁.inv (h₁.wire hsa) hnsx).bind
  intro w₂ neg neg' h₂ hneg
  have l₂ := h₁.trans h₂
  apply (sound.ult h₂.inv (l₂.wires ha) (l₂.wires hx)).bind
  intro w₃ lt lt' h₃ hlt
  have l₃ := l₂.trans h₃
  apply (sound.xor h₃.inv (l₃.wire hsa) (l₃.wire hsx)).bind
  intro w₄ d d' h₄ hd
  apply (sound.not h₄.inv hd).bind
  intro w₅ e e' h₅ he
  apply (sound.and h₅.inv he ((h₄.trans h₅).wire hlt)).bind
  intro w₆ same same' h₆ hsame
  have r₆ := ((h₃.trans h₄).trans h₅).trans h₆
  exact sound.or h₆.inv (r₆.wire hneg) hsame

theorem Sound.sle (hw : S.Inv w) (ha : S.Wires w a a') (hx : S.Wires w x x') (hane : a ≠ [])
    (hxne : x ≠ []) : S.Runs w (bcSle a x) (bcSle a' x') S.Wire := by
  apply (sound.slt hw hx ha hxne hane).bind
  intro w₁ gt gt' h₁ hgt
  exact sound.not h₁.inv hgt

end
end Circuits

end Simulation
end VolarIR.Lir
