import VolarIR.Lir.DefaultGates

/-!
# The integer circuits on every builder

Each algorithm asks a recorded builder and the builder of bits for the same gates, so a run
without a collapsing gate computes what the algorithm computes on bits. That is the exact
operation, except for a rotation whose amount has too few bits or too many.
-/
namespace VolarIR.Lir

section Lengths
variable {B Bit α : Type}

theorem length_mapM (f : α → StateM B Bit) (xs : List α) (b : B) :
    (xs.mapM f b).1.length = xs.length := by
  induction xs generalizing b with
  | nil => rfl
  | cons x xs ih =>
      rw [List.mapM_cons, List.length_cons, ← ih (f x b).2]
      rfl

variable [BitCircuitBuilder B Bit]

theorem length_addFrom (c : Bit) {a x : List Bit} (h : a.length = x.length) (b : B) :
    (bcAddFrom c a x b).1.length = a.length := by
  induction a generalizing c x b with
  | nil =>
      cases x with
      | nil => rfl
      | cons => cases h
  | cons u us ih =>
      cases x with
      | nil => cases h
      | cons v vs => exact congrArg Nat.succ (ih _ (Nat.succ.inj h) _)

theorem length_complementShift (n : ℕ) (shift : List Bit) (b : B) :
    (complementShift n shift b).1.length = shift.length := by
  have hbits := length_mapM (fun i => bcConst (n.testBit (i % 64))) (List.range shift.length) b
  rw [List.length_range] at hbits
  have hnot := length_mapM bcNot shift
    ((List.range shift.length).mapM (fun i => bcConst (n.testBit (i % 64))) b).2
  exact (length_addFrom _ (hbits.trans hnot.symm) _).trans hbits

end Lengths

namespace Simulation
variable {B₁ Bit₁ B₂ Bit₂ : Type} [BitCircuitBuilder B₁ Bit₁] [BitCircuitBuilder B₂ Bit₂]
variable {S : Simulation B₁ Bit₁ B₂ Bit₂} {w : B₁ × B₂}

/-- A loop over related wires. -/
theorem Runs.foldlM_wires {α β : Type} {R : B₁ × B₂ → α → β → Prop} {l : List Bit₁}
    {l' : List Bit₂} {f : α → Bit₁ → StateM B₁ α} {g : β → Bit₂ → StateM B₂ β} {a : α} {b : β}
    (hw : S.Inv w) (hl : S.Wires w l l') (hinit : R w a b)
    (hstep : ∀ w' a b x y, S.Later w w' → S.Wire w' x y → R w' a b →
      S.Runs w' (f a x) (g b y) R) :
    S.Runs w (l.foldlM f a) (l'.foldlM g b) R := by
  induction l generalizing w l' a b with
  | nil =>
      cases hl
      exact .pure hw hinit
  | cons x xs ih =>
      cases hl with
      | cons hx hxs => ?_
      rw [List.foldlM_cons, List.foldlM_cons]
      apply (hstep w a b x _ (.refl hw) hx hinit).bind
      intro w₁ a' b' h₁ hab
      exact ih h₁.inv (h₁.wires hxs) hab fun w' a b x y hlater =>
        hstep w' a b x y (h₁.trans hlater)

section Circuits
variable (sound : S.Sound) {a x : List Bit₁} {a' x' : List Bit₂}
include sound

theorem Sound.constBits (hw : S.Inv w) (n : ℕ) (c : ℕ → Bool) :
    S.Runs w (Lir.constBits n c) (Lir.constBits n c) S.Wires := by
  apply Runs.mapM (X := Eq) hw (List.forall₂_same.mpr fun _ _ => rfl)
  rintro w₁ i _ h₁ rfl
  exact sound.const h₁.inv (c i)

/-- The two gates of a constant adder answer related wires with related wires. -/
structure AddsConstants (S : Simulation B₁ Bit₁ B₂ Bit₂) [ConstantAdder B₁ Bit₁]
    [ConstantAdder B₂ Bit₂] : Prop where
  sumBit {w a a' c c'} (hw : S.Inv w) (ci : Bool) (ha : S.Wire w a a') (hc : S.Wire w c c') :
    S.Runs w (bcSumBit ci a c) (bcSumBit ci a' c') S.Wire
  orSum {w a a' c c'} (hw : S.Inv w) (ha : S.Wire w a a') (hc : S.Wire w c c') :
    S.Runs w (bcOrSum a c) (bcOrSum a' c') S.Wire

theorem Sound.addConstFrom [ConstantAdder B₁ Bit₁] [ConstantAdder B₂ Bit₂]
    (adds : S.AddsConstants) (hw : S.Inv w) (c : BitVec 64) (i : ℕ) {carry : Bit₁} {carry' : Bit₂}
    (hcarry : S.Wire w carry carry') (ha : S.Wires w a a') :
    S.Runs w (bcAddConstFrom c i carry a) (bcAddConstFrom c i carry' a') S.Wires := by
  induction a generalizing w i carry carry' a' with
  | nil =>
      cases ha
      exact .pure hw .nil
  | cons b bs ih =>
      cases ha with
      | @cons _ b' _ bs' hb hbs => ?_
      apply (adds.sumBit hw _ hb hcarry).bind
      intro w₁ sum sum' h₁ hsum
      have hnext : S.Runs w₁ (constCarry (c.getLsbD i) b carry)
          (constCarry (c.getLsbD i) b' carry') S.Wire := by
        unfold constCarry
        split
        · exact adds.orSum h₁.inv (h₁.wire hb) (h₁.wire hcarry)
        · exact sound.and h₁.inv (h₁.wire hb) (h₁.wire hcarry)
      apply hnext.bind
      intro w₂ next next' h₂ hnext
      apply (ih h₂.inv (i + 1) hnext ((h₁.trans h₂).wires hbs)).bind
      intro w₃ rest rest' h₃ hrest
      exact .pure h₃.inv (.cons ((h₂.trans h₃).wire hsum) hrest)

theorem Sound.addConst [ConstantAdder B₁ Bit₁] [ConstantAdder B₂ Bit₂] (adds : S.AddsConstants)
    (hw : S.Inv w) (ha : S.Wires w a a') (c : BitVec 64) :
    S.Runs w (bcAddConst a c) (bcAddConst a' c) S.Wires := by
  apply (sound.const hw false).bind
  intro w₁ z z' h₁ hz
  exact sound.addConstFrom adds h₁.inv c 0 hz (h₁.wires ha)

theorem Sound.countBit {b : Bit₁} {b' : Bit₂} (hw : S.Inv w) (ha : S.Wires w a a')
    (hb : S.Wire w b b') : S.Runs w (Lir.countBit a b) (Lir.countBit a' b') S.Wires := by
  unfold Lir.countBit
  rw [← ha.length]
  apply (sound.consts hw _ false).bind
  intro w₁ zs zs' h₁ hzs
  exact sound.add h₁.inv (h₁.wires ha) (.cons (h₁.wire hb) hzs) false

theorem Sound.countOff (hw : S.Inv w) (ha : S.Wires w a a') (hx : S.Wires w x x') :
    S.Runs w (Lir.countOff a x) (Lir.countOff a' x') S.Wires := by
  apply Runs.foldlM_wires hw hx ha
  intro w₁ acc acc' b b' h₁ hb hacc
  apply (sound.not h₁.inv hb).bind
  intro w₂ nb nb' h₂ hnb
  exact sound.countBit h₂.inv (h₂.wires hacc) hnb

theorem Sound.popcnt (hw : S.Inv w) (ha : S.Wires w a a') :
    S.Runs w (bcPopcnt a) (bcPopcnt a') S.Wires := by
  cases ha with
  | nil => exact .pure hw .nil
  | @cons b b' bs bs' hb hbs =>
      have ha : S.Wires w (b :: bs) (b' :: bs') := .cons hb hbs
      simp only [bcPopcnt]
      rw [← ha.length]
      apply (sound.consts hw _ false).bind
      intro w₁ acc acc' h₁ hacc
      apply Runs.foldlM_wires h₁.inv (h₁.wires ha) hacc
      intro w₂ acc acc' b b' h₂ hb hacc
      exact sound.countBit h₂.inv hacc hb

theorem Sound.orPrefixes {b : Bit₁} {b' : Bit₂} (hw : S.Inv w) (hb : S.Wire w b b')
    (ha : S.Wires w a a') : S.Runs w (Lir.orPrefixes b a) (Lir.orPrefixes b' a') S.Wires := by
  induction a generalizing w b b' a' with
  | nil =>
      cases ha
      exact .pure hw .nil
  | cons c cs ih =>
      cases ha with
      | cons hc hcs => ?_
      apply (sound.or hw hb hc).bind
      intro w₁ any any' h₁ hany
      apply (ih h₁.inv hany (h₁.wires hcs)).bind
      intro w₂ rest rest' h₂ hrest
      exact .pure h₂.inv (.cons (h₂.wire hany) hrest)

theorem Sound.ctz (hw : S.Inv w) (ha : S.Wires w a a') :
    S.Runs w (bcCtz a) (bcCtz a') S.Wires := by
  cases ha with
  | nil => exact .pure hw .nil
  | @cons b b' bs bs' hb hbs =>
      have hlen : (b :: bs).length = (b' :: bs').length := Wires.length (.cons hb hbs)
      simp only [bcCtz]
      rw [← hlen]
      apply (sound.const hw false).bind
      intro w₁ z z' h₁ _
      apply (sound.orPrefixes h₁.inv (h₁.wire hb) (h₁.wires hbs)).bind
      intro w₂ any any' h₂ hany
      apply (sound.consts h₂.inv _ false).bind
      intro w₃ acc acc' h₃ hacc
      exact sound.countOff h₃.inv hacc (.cons (((h₁.trans h₂).trans h₃).wire hb) (h₃.wires hany))

section
variable [Inhabited Bit₁] [Inhabited Bit₂]

theorem Sound.addScaledConst {base : List Bit₁} {base' : List Bit₂} (hw : S.Inv w)
    (hbase : S.Wires w base base') (hx : S.Wires w x x') (factor : BitVec 64) :
    S.Runs w (bcAddScaledConst base x factor) (bcAddScaledConst base' x' factor) S.Wires := by
  unfold bcAddScaledConst
  dsimp only
  rw [← hbase.length, ← hx.length]
  split_ifs
  · exact .pure hw hbase
  · apply (sound.const hw false).bind
    intro w₁ z z' h₁ hz
    exact sound.add h₁.inv (h₁.wires hbase) (((h₁.wires hx).take _).resize hz _) false
  · apply (sound.const hw false).bind
    intro w₁ z z' h₁ hz
    have hhigh := ((h₁.wires hx).take (min (min x.length base.length)
      (base.length - min (Nat.log2 factor.toNat) base.length))).resize hz
      (base.length - min (Nat.log2 factor.toNat) base.length)
    apply (sound.add h₁.inv ((h₁.wires hbase).drop _) hhigh false).bind
    intro w₂ hi hi' h₂ hhi
    exact .pure h₂.inv (List.rel_append ((h₁.trans h₂).wires hbase |>.take _) hhi)
  · exact .pure hw (hbase.take _)
  · apply (sound.constBits hw _ _).bind
    intro w₁ bits bits' h₁ hbits
    apply (sound.mul h₁.inv ((h₁.wires hx).take _) hbits).bind
    intro w₂ scaled scaled' h₂ hscaled
    apply (sound.const h₂.inv false).bind
    intro w₃ z z' h₃ hz
    exact sound.add h₃.inv (((h₁.trans h₂).trans h₃).wires hbase)
      ((h₃.wires hscaled).resize hz _) false

omit [Inhabited Bit₁] [Inhabited Bit₂] in
theorem Sound.complementShift (hw : S.Inv w) (n : ℕ) (hx : S.Wires w x x') (hne : x ≠ []) :
    S.Runs w (Lir.complementShift n x) (Lir.complementShift n x')
      fun w us vs => S.Wires w us vs ∧ us ≠ [] := by
  have hrun : S.Runs w (Lir.complementShift n x) (Lir.complementShift n x') S.Wires := by
    unfold Lir.complementShift
    rw [← hx.length]
    apply (sound.constBits hw _ _).bind
    intro w₁ bits bits' h₁ hbits
    exact sound.sub h₁.inv hbits (h₁.wires hx)
  refine ⟨hrun.later, hrun.result, ?_⟩
  apply List.length_pos_iff.mp
  rw [length_complementShift]
  exact List.length_pos_iff.mpr hne

theorem Sound.rotlRun (hw : S.Inv w) (ha : S.Wires w a a') (hx : S.Wires w x x') (hne : x ≠ []) :
    S.Runs w (Lir.rotlRun a x) (Lir.rotlRun a' x') S.Wires := by
  unfold Lir.rotlRun
  rw [← ha.length]
  apply (sound.shl hw ha hx hne).bind
  intro w₁ left left' h₁ hleft
  apply (sound.complementShift h₁.inv _ (h₁.wires hx) hne).bind
  rintro w₂ nm nm' h₂ ⟨hnm, hnmne⟩
  apply (sound.lshr h₂.inv ((h₁.trans h₂).wires ha) hnm hnmne).bind
  intro w₃ right right' h₃ hright
  exact sound.orVec h₃.inv ((h₂.trans h₃).wires hleft) hright

theorem Sound.rotrRun (hw : S.Inv w) (ha : S.Wires w a a') (hx : S.Wires w x x') (hne : x ≠ []) :
    S.Runs w (Lir.rotrRun a x) (Lir.rotrRun a' x') S.Wires := by
  unfold Lir.rotrRun
  rw [← ha.length]
  apply (sound.lshr hw ha hx hne).bind
  intro w₁ right right' h₁ hright
  apply (sound.complementShift h₁.inv _ (h₁.wires hx) hne).bind
  rintro w₂ nm nm' h₂ ⟨hnm, hnmne⟩
  apply (sound.shl h₂.inv ((h₁.trans h₂).wires ha) hnm hnmne).bind
  intro w₃ left left' h₃ hleft
  exact sound.orVec h₃.inv ((h₂.trans h₃).wires hright) hleft

theorem Sound.orSuffixes (hw : S.Inv w) (ha : S.Wires w a a') :
    S.Runs w (Lir.orSuffixes a) (Lir.orSuffixes a')
      fun w us vs => S.Wires w us vs ∧ us.length = a.length := by
  induction a generalizing w a' with
  | nil =>
      cases ha
      exact .pure hw ⟨.nil, rfl⟩
  | cons b rest ih =>
      cases ha with
      | cons hb hrest => ?_
      cases rest with
      | nil =>
          cases hrest
          exact .pure hw ⟨.cons hb .nil, rfl⟩
      | cons c rest =>
          have hrun := ih hw hrest
          cases hrest with
          | cons hc hrest => ?_
          apply hrun.bind
          rintro w₁ above above' h₁ ⟨habove, hlen⟩
          cases habove with
          | nil => cases hlen
          | cons hu hus => ?_
          apply (sound.or h₁.inv hu (h₁.wire hb)).bind
          intro w₂ any any' h₂ hany
          exact .pure h₂.inv ⟨.cons hany (h₂.wires (.cons hu hus)), congrArg Nat.succ hlen⟩

theorem Sound.clz (hw : S.Inv w) (ha : S.Wires w a a') :
    S.Runs w (bcClz a) (bcClz a') S.Wires := by
  cases ha with
  | nil => exact .pure hw .nil
  | @cons b b' bs bs' hb hbs =>
      have ha : S.Wires w (b :: bs) (b' :: bs') := .cons hb hbs
      simp only [bcClz]
      rw [← ha.length]
      apply (sound.const hw false).bind
      intro w₁ z z' h₁ _
      apply (sound.orSuffixes h₁.inv (h₁.wires ha)).bind
      rintro w₂ any any' h₂ ⟨hany, -⟩
      apply (sound.consts h₂.inv _ false).bind
      intro w₃ acc acc' h₃ hacc
      exact sound.countOff h₃.inv hacc (h₃.wires hany)

end
end Circuits
end Simulation

namespace Recorded
variable {B Bit : Type} [SumBuilder B Bit] [LinearOrder Bit]

theorem unrecorded_adds : (unrecorded : Simulation (Recorded B Bit) Bit B Bit).AddsConstants := by
  constructor
  case sumBit =>
    rintro w a _ c _ hw ci rfl rfl
    exact unrecorded_sum hw _ _
  case orSum =>
    rintro w a _ c _ hw rfl rfl
    exact unrecorded_sum hw _ _

theorem wires_self (b : B) (ws : List Bit) :
    (unrecorded : Simulation (Recorded B Bit) Bit B Bit).Wires (⟨b, []⟩, b) ws ws :=
  List.forall₂_same.mpr fun _ _ => rfl

end Recorded

namespace Evaluation
variable {B Bit : Type} [PolyBuilder B Bit] [LinearOrder Bit] {E : Evaluation B Bit} {b : B}
open Recorded

theorem onBits_adds : E.onBits.AddsConstants := by
  constructor
  case sumBit =>
    rintro w a u c v hw ci ha hc
    apply onBits_sum hw
    · simp [ha.1, hc.1]
    · intro hclean
      simp [xorAll, product, on_eq (ha.2 hclean), on_eq (hc.2 hclean)]
  case orSum =>
    rintro w a u c v hw ha hc
    apply onBits_sum hw
    · simp [ha.1, hc.1]
    · intro hclean
      simp [xorAll, product, on_eq (ha.2 hclean), on_eq (hc.2 hclean)]

theorem inv_self (b : B) : (unrecorded : Simulation (Recorded B Bit) Bit B Bit).Inv (⟨b, []⟩, b) :=
  rfl

variable (E) in
/-- No gate of a run from `b` collapses. -/
def CleanRun {α : Type} (b : B) (p : StateM (Recorded B Bit) α) : Prop := E.Clean (p ⟨b, []⟩).2

theorem inv_start (b : B) : E.onBits.Inv (⟨b, []⟩, ()) := fun _ h => absurd h List.not_mem_nil

theorem wires_start {ws : List Bit} {bits : List Bool} (h : E.HoldsBits b ws bits) :
    E.onBits.Wires (⟨b, []⟩, ()) ws bits :=
  List.Forall₂.imp (fun _ u hw => ⟨⟨u, hw⟩, fun _ => hw⟩) h

theorem holds_of_runs {pr : StateM (Recorded B Bit) (List Bit)} {p : StateM B (List Bit)}
    {q : StateM Unit (List Bool)} (hbits : E.onBits.Runs (⟨b, []⟩, ()) pr q E.onBits.Wires)
    (hplain : unrecorded.Runs (⟨b, []⟩, b) pr p unrecorded.Wires) (hclean : E.CleanRun b pr) :
    E.HoldsBits (p b).2 (p b).1 (Lir.onBits q) := by
  have hstate : (pr ⟨b, []⟩).2.base = (p b).2 := hplain.later.inv
  have hwires : (pr ⟨b, []⟩).1 = (p b).1 := List.forall₂_eq_eq_eq ▸ hplain.result
  rw [← hstate, ← hwires]
  exact List.Forall₂.imp (fun _ _ hw => hw.2 hclean) hbits.result

theorem holds_of_runs_pair {pr : StateM (Recorded B Bit) (List Bit × List Bit)}
    {p : StateM B (List Bit × List Bit)} {q : StateM Unit (List Bool × List Bool)}
    (hbits : E.onBits.Runs (⟨b, []⟩, ()) pr q
      fun w u v => E.onBits.Wires w u.1 v.1 ∧ E.onBits.Wires w u.2 v.2)
    (hplain : unrecorded.Runs (⟨b, []⟩, b) pr p
      fun w u v => unrecorded.Wires w u.1 v.1 ∧ unrecorded.Wires w u.2 v.2)
    (hclean : E.CleanRun b pr) :
    E.HoldsBits (p b).2 (p b).1.1 (Lir.onBits q).1 ∧
      E.HoldsBits (p b).2 (p b).1.2 (Lir.onBits q).2 := by
  have hstate : (pr ⟨b, []⟩).2.base = (p b).2 := hplain.later.inv
  have hfst : (pr ⟨b, []⟩).1.1 = (p b).1.1 := List.forall₂_eq_eq_eq ▸ hplain.result.1
  have hsnd : (pr ⟨b, []⟩).1.2 = (p b).1.2 := List.forall₂_eq_eq_eq ▸ hplain.result.2
  rw [← hstate, ← hfst, ← hsnd]
  exact ⟨List.Forall₂.imp (fun _ _ hw => hw.2 hclean) hbits.result.1,
    List.Forall₂.imp (fun _ _ hw => hw.2 hclean) hbits.result.2⟩

omit [LinearOrder Bit] in
theorem HoldsBits.unique {ws : List Bit} {bits bits' : List Bool} (h : E.HoldsBits b ws bits)
    (h' : E.HoldsBits b ws bits') : bits = bits' := by
  induction h generalizing bits' with
  | nil =>
      cases h'
      rfl
  | cons hu _ ih =>
      cases h' with
      | cons hv hrest => rw [E.unique hu hv, ih hrest]

variable (E) in
def HoldsWord (b : B) (ws : List Bit) {n : ℕ} (v : BitVec n) : Prop :=
  E.HoldsBits b ws (Bits.ofWord v)

end Evaluation

section
variable {B Bit : Type} [PolyBuilder B Bit] [LinearOrder Bit] [Inhabited Bit]
open Bits

/-- The operands of the circuits: wires and what they hold, and the compile-time operands. -/
structure Operands (E : Evaluation B Bit) (b : B) (n : ℕ) where
  pos : 1 ≤ n
  a : List Bit
  x : List Bit
  va : BitVec n
  vx : BitVec n
  holdsA : E.HoldsWord b a va
  holdsX : E.HoldsWord b x vx
  shift : List Bit
  amount : List Bool
  holdsShift : E.HoldsBits b shift amount
  amount_ne : amount ≠ []
  want : ℕ
  want_le : want ≤ 2 * n
  factor : BitVec 64
  c : BitVec 64

variable {E : Evaluation B Bit} {b : B} {n : ℕ}

/-- Every circuit of these operands denotes its operation. -/
structure CircuitsExact (overflowChecks : Bool) (o : Operands E b n) : Prop where
  mulLow : E.HoldsWord (bcMulLow o.a o.x o.want b).2 (bcMulLow o.a o.x o.want b).1
    (BitVec.ofNat o.want (o.va.toNat * o.vx.toNat))
  udivrem : o.vx ≠ 0 → ∃ q r : BitVec n,
    E.HoldsWord (bcUdivrem o.a o.x b).2 (bcUdivrem o.a o.x b).1.1 q ∧
    E.HoldsWord (bcUdivrem o.a o.x b).2 (bcUdivrem o.a o.x b).1.2 r ∧
    o.va.toNat = q.toNat * o.vx.toNat + r.toNat ∧ r.toNat < o.vx.toNat
  /-- Except for the overflow, the quotient rounds toward zero and the remainder has the sign of
  the dividend. -/
  sdivrem : o.vx ≠ 0 → (o.va ≠ BitVec.intMin n ∨ o.vx ≠ -1) → ∃ q r : BitVec n,
    E.HoldsWord (bcSdivrem o.a o.x b).2 (bcSdivrem o.a o.x b).1.1 q ∧
    E.HoldsWord (bcSdivrem o.a o.x b).2 (bcSdivrem o.a o.x b).1.2 r ∧
    o.va.toInt = q.toInt * o.vx.toInt + r.toInt ∧ |r.toInt| < |o.vx.toInt| ∧
    0 ≤ r.toInt * o.va.toInt ∧ 0 ≤ q.toInt * (o.va.toInt * o.vx.toInt)
  addScaledConst : E.HoldsWord (bcAddScaledConst o.a o.x o.factor b).2
    (bcAddScaledConst o.a o.x o.factor b).1 (o.va + o.vx * BitVec.ofNat n o.factor.toNat)
  addConst : E.HoldsWord (bcAddConst o.a o.c b).2 (bcAddConst o.a o.c b).1
    (o.va + BitVec.ofNat n o.c.toNat)
  rotl : ∀ k, n = 2 ^ k → ∃ p : StateM B (List Bit), bcRotl overflowChecks o.a o.shift = some p ∧
    E.HoldsWord (p b).2 (p b).1 (o.va.rotateLeft (value o.amount))
  rotr : ∀ k, n = 2 ^ k → ∃ p : StateM B (List Bit), bcRotr overflowChecks o.a o.shift = some p ∧
    E.HoldsWord (p b).2 (p b).1 (o.va.rotateRight (value o.amount))
  clz : E.HoldsWord (bcClz o.a b).2 (bcClz o.a b).1 (BitVec.ofNat n (leadingZeros (ofWord o.va)))
  ctz : E.HoldsWord (bcCtz o.a b).2 (bcCtz o.a b).1 (BitVec.ofNat n (trailingZeros (ofWord o.va)))
  popcnt : E.HoldsWord (bcPopcnt o.a b).2 (bcPopcnt o.a b).1
    (BitVec.ofNat n ((ofWord o.va).count true))

/-- No circuit of these operands asks for a gate with equal monomials that are on. -/
structure CircuitsClean (o : Operands E b n) : Prop where
  mulLow : E.CleanRun b (bcMulLow o.a o.x o.want)
  udivrem : o.vx ≠ 0 → E.CleanRun b (bcUdivrem o.a o.x)
  sdivrem : o.vx ≠ 0 → (o.va ≠ BitVec.intMin n ∨ o.vx ≠ -1) → E.CleanRun b (bcSdivrem o.a o.x)
  addScaledConst : E.CleanRun b (bcAddScaledConst o.a o.x o.factor)
  addConst : E.CleanRun b (bcAddConst o.a o.c)
  rotl : ∀ k, n = 2 ^ k → E.CleanRun b (rotlRun o.a o.shift)
  rotr : ∀ k, n = 2 ^ k → E.CleanRun b (rotrRun o.a o.shift)
  clz : E.CleanRun b (bcClz o.a)
  ctz : E.CleanRun b (bcCtz o.a)
  popcnt : E.CleanRun b (bcPopcnt o.a)

/-- When the width is a power of two, the amount has at most 64 bits if overflow is checked; and
it has enough, or is zero, or the word wraps by less than its width without a difference. -/
def RotationsCovered (overflowChecks : Bool) (o : Operands E b n) : Prop :=
  ∀ k, n = 2 ^ k → ¬(overflowChecks ∧ 64 < o.amount.length) ∧
    (k ≤ o.amount.length ∨ value o.amount = 0 ∨
    WrapsLeft n (2 ^ o.amount.length) (value o.amount) (ofWord o.va) ∧
    WrapsRight n (2 ^ o.amount.length) (value o.amount) (ofWord o.va))

namespace Operands
variable (o : Operands E b n)
open Evaluation Recorded

omit [LinearOrder Bit] [Inhabited Bit] in
theorem a_ne : o.a ≠ [] := by
  apply List.length_pos_iff.mp
  rw [o.holdsA.length_eq, length_ofWord]
  exact o.pos

omit [LinearOrder Bit] [Inhabited Bit] in
theorem x_ne : o.x ≠ [] := by
  apply List.length_pos_iff.mp
  rw [o.holdsX.length_eq, length_ofWord]
  exact o.pos

omit [LinearOrder Bit] [Inhabited Bit] in
theorem shift_ne : o.shift ≠ [] := by
  apply List.length_pos_iff.mp
  rw [o.holdsShift.length_eq]
  exact List.length_pos_iff.mpr o.amount_ne

omit [LinearOrder Bit] [Inhabited Bit] in
theorem bits_ne : ofWord o.va ≠ [] := by
  apply List.length_pos_iff.mp
  rw [length_ofWord]
  exact o.pos

theorem mulLow_exact (h : E.CleanRun b (bcMulLow o.a o.x o.want)) :
    E.HoldsWord (bcMulLow o.a o.x o.want b).2 (bcMulLow o.a o.x o.want b).1
      (BitVec.ofNat o.want (o.va.toNat * o.vx.toNat)) := by
  have hlen : o.a.length = n := o.holdsA.length_eq.trans (length_ofWord o.va)
  have hspec := mulLowFrom_spec n (length_ofWord o.va) (length_ofWord o.vx) o.want_le
  have hword : onBits (bcMulLowFrom n (ofWord o.va) (ofWord o.vx) o.want) =
      ofWord (BitVec.ofNat o.want (o.va.toNat * o.vx.toNat)) := by
    apply eq_ofWord hspec.length
    rw [hspec.val, value_ofWord, value_ofWord, BitVec.toNat_ofNat]
  rw [Evaluation.HoldsWord, ← hword]
  unfold bcMulLow at h ⊢
  rw [hlen] at h ⊢
  exact holds_of_runs
    (onBits_sound.mulLowFrom n (inv_start b) (wires_start o.holdsA) (wires_start o.holdsX) _)
    (unrecorded_sound.mulLowFrom n (inv_self b) (wires_self b _) (wires_self b _) _) h

theorem udivrem_exact (hpos : o.vx ≠ 0) (h : E.CleanRun b (bcUdivrem o.a o.x)) :
    ∃ q r : BitVec n,
      E.HoldsWord (bcUdivrem o.a o.x b).2 (bcUdivrem o.a o.x b).1.1 q ∧
      E.HoldsWord (bcUdivrem o.a o.x b).2 (bcUdivrem o.a o.x b).1.2 r ∧
      o.va.toNat = q.toNat * o.vx.toNat + r.toNat ∧ r.toNat < o.vx.toNat := by
  have hx : 0 < o.vx.toNat := by
    have hne : o.vx.toNat ≠ 0 := fun hz => hpos (BitVec.eq_of_toNat_eq hz)
    omega
  have hruns := holds_of_runs_pair
    (onBits_sound.udivrem (inv_start b) (wires_start o.holdsA) (wires_start o.holdsX))
    (unrecorded_sound.udivrem (inv_self b) (wires_self b o.a) (wires_self b o.x)) h
  rw [onBits_udivrem (length_ofWord o.va) (length_ofWord o.vx) (by rwa [value_ofWord]),
    word_ofWord, word_ofWord] at hruns
  refine ⟨_, _, hruns.1, hruns.2, ?_, ?_⟩
  · rw [BitVec.udiv_eq, BitVec.umod_eq, BitVec.toNat_udiv, BitVec.toNat_umod, Nat.mul_comm,
      Nat.div_add_mod]
  · rw [BitVec.umod_eq, BitVec.toNat_umod]
    exact Nat.mod_lt _ hx

theorem tdiv_sign (a x : ℤ) : 0 ≤ a.tdiv x * (a * x) := by
  rcases le_total 0 a with ha | ha <;> rcases le_total 0 x with hx | hx
  · exact mul_nonneg (Int.tdiv_nonneg ha hx) (mul_nonneg ha hx)
  · exact mul_nonneg_of_nonpos_of_nonpos (Int.tdiv_nonpos_of_nonneg_of_nonpos ha hx)
      (mul_nonpos_of_nonneg_of_nonpos ha hx)
  · have hneg : a.tdiv x ≤ 0 := by
      have hflip := Int.tdiv_nonneg (neg_nonneg.mpr ha) hx
      rw [Int.neg_tdiv] at hflip
      exact neg_nonneg.mp hflip
    exact mul_nonneg_of_nonpos_of_nonpos hneg (mul_nonpos_of_nonpos_of_nonneg ha hx)
  · exact mul_nonneg (Int.tdiv_nonneg_of_nonpos_of_nonpos ha hx)
      (mul_nonneg_of_nonpos_of_nonpos ha hx)

theorem tmod_sign (a x : ℤ) : 0 ≤ a.tmod x * a := by
  rcases le_total 0 a with ha | ha
  · exact mul_nonneg (Int.tmod_nonneg x ha) ha
  · have hflip := Int.tmod_nonneg x (neg_nonneg.mpr ha)
    rw [Int.neg_tmod] at hflip
    exact mul_nonneg_of_nonpos_of_nonpos (neg_nonneg.mp hflip) ha

theorem sdivrem_exact (hpos : o.vx ≠ 0) (hover : o.va ≠ BitVec.intMin n ∨ o.vx ≠ -1)
    (h : E.CleanRun b (bcSdivrem o.a o.x)) :
    ∃ q r : BitVec n,
      E.HoldsWord (bcSdivrem o.a o.x b).2 (bcSdivrem o.a o.x b).1.1 q ∧
      E.HoldsWord (bcSdivrem o.a o.x b).2 (bcSdivrem o.a o.x b).1.2 r ∧
      o.va.toInt = q.toInt * o.vx.toInt + r.toInt ∧ |r.toInt| < |o.vx.toInt| ∧
      0 ≤ r.toInt * o.va.toInt ∧ 0 ≤ q.toInt * (o.va.toInt * o.vx.toInt) := by
  have hx : 0 < o.vx.toNat := by
    have hne : o.vx.toNat ≠ 0 := fun hz => hpos (BitVec.eq_of_toNat_eq hz)
    omega
  have hint : o.vx.toInt ≠ 0 := fun hz => hpos (BitVec.eq_of_toInt_eq (by rw [hz]; simp))
  have hruns := holds_of_runs_pair
    (onBits_sound.sdivrem (inv_start b) (wires_start o.holdsA) (wires_start o.holdsX) o.a_ne o.x_ne)
    (unrecorded_sound.sdivrem (inv_self b) (wires_self b o.a) (wires_self b o.x) o.a_ne o.x_ne) h
  rw [onBits_sdivrem (length_ofWord o.va) (length_ofWord o.vx) (by rwa [value_ofWord]),
    word_ofWord, word_ofWord] at hruns
  refine ⟨_, _, hruns.1, hruns.2, ?_, ?_, ?_, ?_⟩
  · rw [BitVec.toInt_sdiv_of_ne_or_ne _ _ hover, BitVec.toInt_srem, mul_comm,
      Int.mul_tdiv_add_tmod]
  · rw [BitVec.toInt_srem, Int.abs_eq_natAbs, Int.abs_eq_natAbs, Int.natAbs_tmod]
    exact_mod_cast Nat.mod_lt _ (Int.natAbs_pos.mpr hint)
  · rw [BitVec.toInt_srem]
    exact tmod_sign _ _
  · rw [BitVec.toInt_sdiv_of_ne_or_ne _ _ hover]
    exact tdiv_sign _ _

theorem addScaledConst_exact (h : E.CleanRun b (bcAddScaledConst o.a o.x o.factor)) :
    E.HoldsWord (bcAddScaledConst o.a o.x o.factor b).2 (bcAddScaledConst o.a o.x o.factor b).1
      (o.va + o.vx * BitVec.ofNat n o.factor.toNat) := by
  have hspec := addScaledConst_spec o.factor (length_ofWord o.va) (length_ofWord o.vx)
  have hword : onBits (bcAddScaledConst (ofWord o.va) (ofWord o.vx) o.factor) =
      ofWord (o.va + o.vx * BitVec.ofNat n o.factor.toNat) := by
    apply eq_ofWord hspec.1
    rw [hspec.2, value_ofWord, value_ofWord, BitVec.toNat_add, BitVec.toNat_mul,
      BitVec.toNat_ofNat, Nat.add_mod_mod, Nat.add_mod, Nat.mul_mod]
    simp [Nat.add_mod, Nat.mul_mod]
  rw [Evaluation.HoldsWord, ← hword]
  exact holds_of_runs
    (onBits_sound.addScaledConst (inv_start b) (wires_start o.holdsA) (wires_start o.holdsX) _)
    (unrecorded_sound.addScaledConst (inv_self b) (wires_self b _) (wires_self b _) _) h

omit [Inhabited Bit] in
theorem addConst_exact (h : E.CleanRun b (bcAddConst o.a o.c)) :
    E.HoldsWord (bcAddConst o.a o.c b).2 (bcAddConst o.a o.c b).1
      (o.va + BitVec.ofNat n o.c.toNat) := by
  have hspec := addConst_spec (a := ofWord o.va) o.c
  rw [length_ofWord] at hspec
  have hword : onBits (bcAddConst (ofWord o.va) o.c) =
      ofWord (o.va + BitVec.ofNat n o.c.toNat) := by
    apply eq_ofWord hspec.1
    rw [hspec.2, value_ofWord, BitVec.toNat_add, BitVec.toNat_ofNat, Nat.add_mod_mod]
  rw [Evaluation.HoldsWord, ← hword]
  exact holds_of_runs (onBits_sound.addConst onBits_adds (inv_start b) (wires_start o.holdsA) _)
    (unrecorded_sound.addConst unrecorded_adds (inv_self b) (wires_self b _) _) h

theorem word_of_count {bits : List Bool} {m : ℕ} (hlen : bits.length = n) (hval : value bits = m)
    (hle : m ≤ n) : bits = ofWord (BitVec.ofNat n m) := by
  apply eq_ofWord hlen
  rw [hval, BitVec.toNat_ofNat, Nat.mod_eq_of_lt (hle.trans_lt Nat.lt_two_pow_self)]

theorem trailingZeros_le (bits : List Bool) : trailingZeros bits ≤ bits.length :=
  (List.takeWhile_prefix _).length_le

theorem clz_exact (h : E.CleanRun b (bcClz o.a)) :
    E.HoldsWord (bcClz o.a b).2 (bcClz o.a b).1 (BitVec.ofNat n (leadingZeros (ofWord o.va))) := by
  have hspec := clz_spec o.bits_ne
  rw [length_ofWord] at hspec
  have hle := trailingZeros_le (ofWord o.va).reverse
  rw [List.length_reverse, length_ofWord] at hle
  rw [Evaluation.HoldsWord, ← word_of_count hspec.1 hspec.2 hle]
  exact holds_of_runs (onBits_sound.clz (inv_start b) (wires_start o.holdsA))
    (unrecorded_sound.clz (inv_self b) (wires_self b _)) h

omit [Inhabited Bit] in
theorem ctz_exact (h : E.CleanRun b (bcCtz o.a)) :
    E.HoldsWord (bcCtz o.a b).2 (bcCtz o.a b).1
      (BitVec.ofNat n (trailingZeros (ofWord o.va))) := by
  have hspec := ctz_spec o.bits_ne
  rw [length_ofWord] at hspec
  have hle := trailingZeros_le (ofWord o.va)
  rw [length_ofWord] at hle
  rw [Evaluation.HoldsWord, ← word_of_count hspec.1 hspec.2 hle]
  exact holds_of_runs (onBits_sound.ctz (inv_start b) (wires_start o.holdsA))
    (unrecorded_sound.ctz (inv_self b) (wires_self b _)) h

omit [Inhabited Bit] in
theorem popcnt_exact (h : E.CleanRun b (bcPopcnt o.a)) :
    E.HoldsWord (bcPopcnt o.a b).2 (bcPopcnt o.a b).1
      (BitVec.ofNat n ((ofWord o.va).count true)) := by
  have hspec := popcnt_spec o.bits_ne
  rw [length_ofWord] at hspec
  have hle := List.count_le_length (a := true) (l := ofWord o.va)
  rw [length_ofWord] at hle
  rw [Evaluation.HoldsWord, ← word_of_count hspec.1 hspec.2 hle]
  exact holds_of_runs (onBits_sound.popcnt (inv_start b) (wires_start o.holdsA))
    (unrecorded_sound.popcnt (inv_self b) (wires_self b _)) h

theorem rotl_holds (h : E.CleanRun b (rotlRun o.a o.shift)) :
    E.HoldsBits (rotlRun o.a o.shift b).2 (rotlRun o.a o.shift b).1
      (onBits (rotlRun (ofWord o.va) o.amount)) :=
  holds_of_runs
    (onBits_sound.rotlRun (inv_start b) (wires_start o.holdsA) (wires_start o.holdsShift)
      o.shift_ne)
    (unrecorded_sound.rotlRun (inv_self b) (wires_self b _) (wires_self b _) o.shift_ne) h

theorem rotr_holds (h : E.CleanRun b (rotrRun o.a o.shift)) :
    E.HoldsBits (rotrRun o.a o.shift b).2 (rotrRun o.a o.shift b).1
      (onBits (rotrRun (ofWord o.va) o.amount)) :=
  holds_of_runs
    (onBits_sound.rotrRun (inv_start b) (wires_start o.holdsA) (wires_start o.holdsShift)
      o.shift_ne)
    (unrecorded_sound.rotrRun (inv_self b) (wires_self b _) (wires_self b _) o.shift_ne) h

omit [LinearOrder Bit] [Inhabited Bit] in
/-- A rotation is exact when its run on bits is, and its amount is not too long. -/
theorem rotation_iff {overflowChecks : Bool} {run : StateM B (List Bit)} {bits : List Bool}
    {v : BitVec n} (hholds : E.HoldsBits (run b).2 (run b).1 bits) :
    (∃ p : StateM B (List Bit),
        (if overflowChecks ∧ 64 < o.shift.length then none else some run) = some p ∧
          E.HoldsWord (p b).2 (p b).1 v) ↔
      ¬(overflowChecks ∧ 64 < o.amount.length) ∧ bits = ofWord v := by
  rw [o.holdsShift.length_eq]
  constructor
  · rintro ⟨p, hp, hword⟩
    rcases Option.ite_none_left_eq_some.mp hp with ⟨hlong, hrun⟩
    cases hrun
    exact ⟨hlong, hholds.unique hword⟩
  · rintro ⟨hlong, heq⟩
    refine ⟨run, if_neg hlong, ?_⟩
    rw [Evaluation.HoldsWord, ← heq]
    exact hholds

/-- The rotations are exact for the amounts that are covered, and for no others. -/
theorem rotations_iff {overflowChecks : Bool} (hl : E.CleanRun b (rotlRun o.a o.shift))
    (hr : E.CleanRun b (rotrRun o.a o.shift)) {k : ℕ} (hk : n = 2 ^ k) :
    ((∃ p : StateM B (List Bit), bcRotl overflowChecks o.a o.shift = some p ∧
          E.HoldsWord (p b).2 (p b).1 (o.va.rotateLeft (value o.amount))) ∧
        ∃ p : StateM B (List Bit), bcRotr overflowChecks o.a o.shift = some p ∧
          E.HoldsWord (p b).2 (p b).1 (o.va.rotateRight (value o.amount))) ↔
      ¬(overflowChecks ∧ 64 < o.amount.length) ∧ (k ≤ o.amount.length ∨ value o.amount = 0 ∨
        WrapsLeft n (2 ^ o.amount.length) (value o.amount) (ofWord o.va) ∧
        WrapsRight n (2 ^ o.amount.length) (value o.amount) (ofWord o.va)) := by
  unfold bcRotl bcRotr
  rw [o.rotation_iff (o.rotl_holds hl), o.rotation_iff (o.rotr_holds hr)]
  subst hk
  have hval : (ofWord o.va).length = 2 ^ k := length_ofWord o.va
  rcases Nat.lt_or_ge o.amount.length k with hlt | hge
  · have hleft := rotlRun_short hval o.amount_ne hlt
    have hright := rotrRun_short hval o.amount_ne hlt
    rw [word_ofWord] at hleft hright
    rw [hleft, hright]
    have hfew : ¬k ≤ o.amount.length := Nat.not_le.mpr hlt
    rw [← and_and_left, ← or_and_left, or_iff_right hfew]
  · have hleft := rotlRun_full hval o.amount_ne hge
    have hright := rotrRun_full hval o.amount_ne hge
    rw [word_ofWord] at hleft hright
    simp [hleft, hright, hge]

end Operands

/-- Without a gate that collapses, the circuits are exact where the rotations are covered. -/
theorem circuitsExact_iff (overflowChecks : Bool) (o : Operands E b n) (h : CircuitsClean o) :
    CircuitsExact overflowChecks o ↔ RotationsCovered overflowChecks o := by
  constructor
  · intro hexact k hk
    exact (o.rotations_iff (h.rotl k hk) (h.rotr k hk) hk).mp
      ⟨hexact.rotl k hk, hexact.rotr k hk⟩
  · intro hcovered
    constructor
    case mulLow => exact o.mulLow_exact h.mulLow
    case udivrem => exact fun hpos => o.udivrem_exact hpos (h.udivrem hpos)
    case sdivrem =>
      exact fun hpos hover => o.sdivrem_exact hpos hover (h.sdivrem hpos hover)
    case addScaledConst => exact o.addScaledConst_exact h.addScaledConst
    case addConst => exact o.addConst_exact h.addConst
    case rotl =>
      exact fun k hk =>
        ((o.rotations_iff (h.rotl k hk) (h.rotr k hk) hk).mpr (hcovered k hk)).1
    case rotr =>
      exact fun k hk =>
        ((o.rotations_iff (h.rotl k hk) (h.rotr k hk) hk).mpr (hcovered k hk)).2
    case clz => exact o.clz_exact h.clz
    case ctz => exact o.ctz_exact h.ctz
    case popcnt => exact o.popcnt_exact h.popcnt

end

structure Tape where
  bits : List Bool

namespace Tape

def on (t : Tape) (w : ℕ) : Bool := t.bits.getD w false

def push (t : Tape) (u : Bool) : ℕ × Tape := (t.bits.length, ⟨t.bits ++ [u]⟩)

instance : PolyBuilder Tape ℕ where
  bcConst val t := t.push val
  bcPoly coeffs constant t := t.push (polyValue t.on coeffs constant)

theorem push_holds (t : Tape) (u : Bool) :
    (t.push u).2.bits[(t.push u).1]? = some u ∧
      ∀ {w : ℕ} {v : Bool}, t.bits[w]? = some v → (t.push u).2.bits[w]? = some v := by
  constructor
  · exact List.getElem?_concat_length
  · intro w v h
    rw [← h]
    exact List.getElem?_append_left (List.getElem?_eq_some_iff.mp h).1

theorem on_of_holds {t : Tape} {w : ℕ} {u : Bool} (h : t.bits[w]? = some u) : t.on w = u := by
  rw [on, List.getD_eq_getElem?_getD, h, Option.getD_some]

theorem polyValue_congr {on on' : ℕ → Bool} {coeffs : Common.PolyCoeffs ℕ} (constant : BitVec 128)
    (h : ∀ e ∈ coeffs.iter, ∀ w ∈ e.1, on w = on' w) :
    polyValue on coeffs constant = polyValue on' coeffs constant := by
  rw [polyValue, polyValue]
  congr 2
  apply List.map_congr_left
  intro e he
  rw [product_congr (h e he)]

end Tape

/-- A wire of a tape holds its bit. -/
def tape : Evaluation Tape ℕ where
  Holds t w u := t.bits[w]? = some u
  unique h h' := Option.some.inj (h.symm.trans h')
  bcConst t val := t.push_holds val
  bcPoly t coeffs constant on h := by
    have hval := Tape.polyValue_congr constant fun e he w hw => Tape.on_of_holds (h e he w hw)
    rw [← hval]
    exact t.push_holds _

namespace Tape
open Evaluation

theorem holdsBits_iff {t : Tape} {ws : List ℕ} {bits : List Bool} :
    tape.HoldsBits t ws bits ↔ ws.map (t.bits[·]?) = bits.map some := by
  constructor
  · intro h
    induction h with
    | nil => rfl
    | cons hu _ ih => rw [List.map_cons, List.map_cons, ih, show t.bits[_]? = _ from hu]
  · intro h
    induction ws generalizing bits with
    | nil =>
        cases bits with
        | nil => exact .nil
        | cons => cases h
    | cons w ws ih =>
        cases bits with
        | nil => cases h
        | cons u us =>
            rw [List.map_cons, List.map_cons, List.cons.injEq] at h
            exact .cons h.1 (ih h.2)

theorem on_eq_on (t : Tape) (w : ℕ) (h : w < t.bits.length) : tape.on t w = t.on w :=
  Evaluation.on_eq (show t.bits[w]? = _ by
    rw [on, List.getD_eq_getElem _ _ h, List.getElem?_eq_getElem h])

theorem clean_of {r : Recorded Tape ℕ}
    (h : ∀ ms ∈ r.sums, (∀ key ∈ ms, ∀ w ∈ key, w < r.base.bits.length) ∧
      ¬KeysCollapse r.base.on ms) : tape.Clean r := by
  intro ms hms hcol
  apply (h ms hms).2
  exact hcol.congr fun key hkey w hw => on_eq_on _ _ ((h ms hms).1 key hkey w hw)

end Tape

/-- One wire as both operands. -/
def sameWire : Operands tape ⟨[true]⟩ 1 where
  pos := le_rfl
  a := [0]
  x := [0]
  va := 1
  vx := 1
  holdsA := Tape.holdsBits_iff.mpr rfl
  holdsX := Tape.holdsBits_iff.mpr rfl
  shift := [0]
  amount := [true]
  holdsShift := Tape.holdsBits_iff.mpr rfl
  amount_ne := by decide
  want := 1
  want_le := by decide
  factor := 0
  c := 0

/-- A wire by itself leaves a remainder of one: the first gate of the divider is the exclusive
or of the wire and itself. -/
theorem sameWire_not_exact : ¬∃ overflowChecks, CircuitsExact overflowChecks sameWire := by
  rintro ⟨overflowChecks, h⟩
  obtain ⟨q, r, -, hr, -, hlt⟩ := h.udivrem (by decide)
  have hrem : (bcUdivrem [0] [0] (⟨[true]⟩ : Tape)).1.2.map
      ((bcUdivrem [0] [0] (⟨[true]⟩ : Tape)).2.bits[·]?) = [some true] := by
    decide +kernel
  have hzero : r = 0 := BitVec.eq_of_toNat_eq (Nat.lt_one_iff.mp hlt)
  have hbits := Tape.holdsBits_iff.mp hr
  rw [hzero] at hbits
  exact absurd (hrem.symm.trans hbits) (by decide)

/-- Five wires, each used once. -/
def fiveWires : Operands tape ⟨[true, true, false, true, true]⟩ 2 where
  pos := by decide
  a := [0, 1]
  x := [2, 3]
  va := 3
  vx := 2
  holdsA := Tape.holdsBits_iff.mpr rfl
  holdsX := Tape.holdsBits_iff.mpr rfl
  shift := [4]
  amount := [true]
  holdsShift := Tape.holdsBits_iff.mpr rfl
  amount_ne := by decide
  want := 3
  want_le := by decide
  factor := 3
  c := 2

theorem fiveWires_clean : CircuitsClean fiveWires := by
  constructor
  case mulLow => exact Tape.clean_of (by decide +kernel)
  case udivrem => exact fun _ => Tape.clean_of (by decide +kernel)
  case sdivrem => exact fun _ _ => Tape.clean_of (by decide +kernel)
  case rotl => exact fun _ _ => Tape.clean_of (by decide +kernel)
  case rotr => exact fun _ _ => Tape.clean_of (by decide +kernel)
  all_goals exact Tape.clean_of (by decide +kernel)

theorem fiveWires_covered (overflowChecks : Bool) : RotationsCovered overflowChecks fiveWires := by
  intro k hk
  have hone : k = 1 := (Nat.pow_right_injective le_rfl hk).symm
  exact ⟨fun hlong => absurd hlong.2 (by decide), .inl hone.le⟩

theorem fiveWires_exact : CircuitsExact true fiveWires ∧ CircuitsExact false fiveWires :=
  ⟨(circuitsExact_iff true fiveWires fiveWires_clean).mpr (fiveWires_covered true),
    (circuitsExact_iff false fiveWires fiveWires_clean).mpr (fiveWires_covered false)⟩

end VolarIR.Lir
