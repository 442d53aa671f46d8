import VolarIR.Field.Solinas
import Mathlib.Data.List.Forall2

/-!
# The Solinas circuits over any field

Every gate acts on wires that hold bits as it acts on the bits, so a circuit over any field
follows the same circuit over `Bit`.
-/
namespace VolarIR

/-- The wire is the `0` or the `1` of the field. -/
def Holds {W F : Type} [Field F] (den : W → F) (w : W) (b : Bool) : Prop :=
  den w = if b then 1 else 0

section
variable {W F : Type} [Field F] {sink : FieldSink W} {den : W → F} (hs : sink.IsField den)
  {x y z : W} {a b c : Bool} {xs ys : List W} {as bs : List Bool}
include hs

theorem holds_zero : Holds den sink.zero false := hs.zero

theorem holds_one : Holds den sink.one true := hs.one

theorem holds_and (hx : Holds den x a) (hy : Holds den y b) :
    Holds den (embedAnd sink x y) (embedAnd boolRing a b) := by
  simp only [Holds] at hx hy ⊢
  rw [embedAnd, hs.mul, hx, hy]
  cases a <;> cases b <;> simp [embedAnd, boolRing]

/-- `a + b` where `1 + 1 = 0`, and `a + b - 2ab` elsewhere, is exclusive or. -/
theorem holds_xor (hx : Holds den x a) (hy : Holds den y b) :
    Holds den (embedXor sink x y) (embedXor boolRing a b) := by
  simp only [Holds] at hx hy ⊢
  unfold embedXor
  by_cases htwo : sink.charTwo = true
  · have hzero := hs.charTwo.mp htwo
    rw [if_pos htwo, hs.add, hx, hy]
    cases a <;> cases b <;> simp [boolRing, hzero]
  · rw [if_neg htwo]
    simp only [hs.sub, hs.add, hs.mul, hx, hy]
    cases a <;> cases b <;> simp [boolRing]

theorem holds_or (hx : Holds den x a) (hy : Holds den y b) :
    Holds den (orGate sink x y) (orGate boolRing a b) :=
  holds_xor hs (holds_xor hs hx hy) (holds_and hs hx hy)

theorem holds_not (hx : Holds den x a) : Holds den (notGate sink x) (notGate boolRing a) :=
  holds_xor hs hx (holds_one hs)

theorem holds_mux (hx : Holds den x a) (hy : Holds den y b) (hz : Holds den z c) :
    Holds den (mux sink x y z) (mux boolRing a b c) :=
  holds_or hs (holds_and hs hx hy) (holds_and hs (holds_not hs hx) hz)

theorem holds_digit (h : List.Forall₂ (Holds den) xs as) (i : ℕ) :
    Holds den (digit sink xs i) (digit boolRing as i) := by
  induction h generalizing i with
  | nil => exact holds_zero hs
  | cons hhead _ ih =>
      cases i with
      | zero => exact hhead
      | succ i => exact ih i

theorem holds_zeros (n : ℕ) :
    List.Forall₂ (Holds den) (List.replicate n sink.zero) (List.replicate n boolRing.zero) := by
  induction n with
  | zero => exact .nil
  | succ n ih => exact .cons (holds_zero hs) ih

theorem holds_resize (h : List.Forall₂ (Holds den) xs as) (n : ℕ) :
    List.Forall₂ (Holds den) (resize sink xs n) (resize boolRing as n) := by
  unfold resize
  rw [h.length_eq]
  exact List.rel_append (List.forall₂_take n h) (holds_zeros hs _)

theorem holds_nDigits (spec : PrimeSpec) :
    List.Forall₂ (Holds den) (nDigits sink spec) (nDigits boolRing spec) := by
  unfold nDigits
  rw [List.forall₂_map_left_iff, List.forall₂_map_right_iff, List.forall₂_same]
  intro bit _
  split_ifs
  · exact holds_one hs
  · exact holds_zero hs

theorem holds_addDigitsFrom (hxs : List.Forall₂ (Holds den) xs as)
    (hys : List.Forall₂ (Holds den) ys bs) (left index : ℕ) (hz : Holds den z c) :
    List.Forall₂ (Holds den) (addDigitsFrom sink xs ys left index z)
      (addDigitsFrom boolRing as bs left index c) := by
  induction left generalizing index z c with
  | zero => exact .cons hz .nil
  | succ left ih =>
      have ha := holds_digit hs hxs index
      have hb := holds_digit hs hys index
      have hxor := holds_xor hs ha hb
      exact .cons (holds_xor hs hxor hz)
        (ih _ (holds_or hs (holds_and hs ha hb) (holds_and hs hz hxor)))

theorem holds_addDigits (hxs : List.Forall₂ (Holds den) xs as)
    (hys : List.Forall₂ (Holds den) ys bs) :
    List.Forall₂ (Holds den) (addDigits sink xs ys) (addDigits boolRing as bs) := by
  unfold addDigits
  rw [hxs.length_eq, hys.length_eq]
  exact holds_addDigitsFrom hs hxs hys _ _ (holds_zero hs)

theorem holds_schoolbookFrom (hxs : List.Forall₂ (Holds den) xs as) (len i : ℕ)
    (hys : List.Forall₂ (Holds den) ys bs) {zs : List W} {cs : List Bool}
    (hzs : List.Forall₂ (Holds den) zs cs) :
    List.Forall₂ (Holds den) (schoolbookFrom sink xs len i ys zs)
      (schoolbookFrom boolRing as len i bs cs) := by
  induction hys generalizing i zs cs with
  | nil => exact hzs
  | cons hbit _ ih =>
      have hrow := List.rel_map (fun _ _ h => holds_and hs h hbit) hxs
      have hshifted := List.rel_append (holds_zeros hs i) hrow
      exact ih (i + 1) (List.forall₂_take len (holds_addDigits hs hzs hshifted))

theorem holds_schoolbookMul (hxs : List.Forall₂ (Holds den) xs as)
    (hys : List.Forall₂ (Holds den) ys bs) :
    List.Forall₂ (Holds den) (schoolbookMul sink xs ys) (schoolbookMul boolRing as bs) := by
  unfold schoolbookMul
  rw [hxs.length_eq, hys.length_eq]
  exact holds_schoolbookFrom hs hxs _ _ hys (holds_zeros hs _)

theorem holds_decrementFrom (hxs : List.Forall₂ (Holds den) xs as) (hz : Holds den z c) :
    List.Forall₂ (Holds den) (decrementFrom sink xs z) (decrementFrom boolRing as c) := by
  induction hxs generalizing z c with
  | nil => exact .nil
  | cons hbit _ ih =>
      exact .cons (holds_xor hs hbit hz) (ih (holds_and hs (holds_not hs hbit) hz))

theorem holds_modulusDigits (spec : PrimeSpec) :
    List.Forall₂ (Holds den) (modulusDigits sink spec) (modulusDigits boolRing spec) :=
  List.rel_map (fun _ _ h => holds_not hs h)
    (holds_decrementFrom hs (holds_nDigits hs spec) (holds_one hs))

theorem holds_subDigitsFrom (hxs : List.Forall₂ (Holds den) xs as)
    (hys : List.Forall₂ (Holds den) ys bs) (left index : ℕ) (hz : Holds den z c) :
    List.Forall₂ (Holds den) (subDigitsFrom sink xs ys left index z).1
        (subDigitsFrom boolRing as bs left index c).1 ∧
      Holds den (subDigitsFrom sink xs ys left index z).2
        (subDigitsFrom boolRing as bs left index c).2 := by
  induction left generalizing index z c with
  | zero => exact ⟨.nil, hz⟩
  | succ left ih =>
      have hv := holds_digit hs hxs index
      have hp := holds_digit hs hys index
      have hxor := holds_xor hs hv hp
      have hrest := ih (index + 1) (holds_or hs (holds_and hs (holds_not hs hv) hp)
        (holds_and hs hz (holds_not hs hxor)))
      exact ⟨.cons (holds_xor hs hxor hz) hrest.1, hrest.2⟩

omit hs in
theorem holds_range {f : ℕ → W} {g : ℕ → Bool} (k : ℕ) (h : ∀ i, Holds den (f i) (g i)) :
    List.Forall₂ (Holds den) ((List.range k).map f) ((List.range k).map g) := by
  rw [List.forall₂_map_left_iff, List.forall₂_map_right_iff, List.forall₂_same]
  exact fun i _ => h i

theorem holds_subPIfGe (hxs : List.Forall₂ (Holds den) xs as) (spec : PrimeSpec) :
    List.Forall₂ (Holds den) (subPIfGe sink xs spec) (subPIfGe boolRing as spec) := by
  have hsub := holds_subDigitsFrom hs hxs (holds_modulusDigits hs spec) spec.k 0 (holds_zero hs)
  have hbig := holds_or hs (holds_digit hs hxs spec.k) (holds_not hs hsub.2)
  exact holds_range spec.k fun i =>
    holds_mux hs hbig (holds_digit hs hsub.1 i) (holds_digit hs hxs i)

theorem holds_reduceSum (hxs : List.Forall₂ (Holds den) xs as) (spec : PrimeSpec) :
    List.Forall₂ (Holds den) (reduceSum sink xs spec) (reduceSum boolRing as spec) := by
  have hlo := holds_range spec.k (holds_digit hs hxs)
  have hcorrection := List.rel_map
    (fun _ _ h => holds_and hs h (holds_digit hs hxs spec.k)) (holds_nDigits hs spec)
  exact holds_subPIfGe hs (holds_addDigits hs hlo hcorrection) spec

theorem holds_foldProduct (hxs : List.Forall₂ (Holds den) xs as) (spec : PrimeSpec) :
    List.Forall₂ (Holds den) (foldProduct sink spec xs) (foldProduct boolRing spec as) := by
  have hhi := List.forall₂_take spec.k (List.forall₂_drop spec.k hxs)
  have hhiN := holds_resize hs (holds_schoolbookMul hs hhi (holds_nDigits hs spec)) (spec.k * 2)
  have hlo := holds_resize hs (List.forall₂_take spec.k hxs) (spec.k * 2)
  exact List.forall₂_take _ (holds_addDigits hs hlo hhiN)

theorem holds_reduceProduct (hxs : List.Forall₂ (Holds den) xs as) (spec : PrimeSpec) :
    List.Forall₂ (Holds den) (reduceProduct sink xs spec) (reduceProduct boolRing as spec) := by
  have hfolds : ∀ (m : ℕ) {ys : List W} {bs : List Bool}, List.Forall₂ (Holds den) ys bs →
      List.Forall₂ (Holds den) ((foldProduct sink spec)^[m] ys)
        ((foldProduct boolRing spec)^[m] bs) := by
    intro m
    induction m with
    | zero => exact fun h => h
    | succ m ih => exact fun h => ih (holds_foldProduct hs h spec)
  exact holds_subPIfGe hs (hfolds _ (holds_resize hs hxs _)) spec

theorem holds_solinasAdd (hxs : List.Forall₂ (Holds den) xs as)
    (hys : List.Forall₂ (Holds den) ys bs) (spec : PrimeSpec) :
    List.Forall₂ (Holds den) (solinasAdd sink xs ys spec) (solinasAdd boolRing as bs spec) :=
  holds_reduceSum hs (holds_addDigits hs hxs hys) spec

theorem holds_solinasMul (hxs : List.Forall₂ (Holds den) xs as)
    (hys : List.Forall₂ (Holds den) ys bs) (spec : PrimeSpec) :
    List.Forall₂ (Holds den) (solinasMul sink xs ys spec) (solinasMul boolRing as bs spec) :=
  holds_reduceProduct hs
    (holds_schoolbookMul hs (holds_resize hs hxs _) (holds_resize hs hys _)) spec

end

end VolarIR
