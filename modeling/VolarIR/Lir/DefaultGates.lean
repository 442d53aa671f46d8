import VolarIR.Basic
import VolarIR.Lir.WordCircuits
import VolarIR.Lir.Simulation
import VolarIR.Common.PolyCoeffsSound
import Mathlib.Data.List.Sort
import Mathlib.Data.List.Dedup

/-!
# Builders with the default gates

The trait asks a builder for constants and for polynomials. Its default gates, and the gates
that `bc_add_const` makes by itself, collect monomials of coefficient one, and a collection
keeps one of several equal keys.
-/
namespace VolarIR.Lir
open Common

/-- The two methods a builder must have. -/
class PolyBuilder (B : Type) (Bit : outParam Type) where
  bcConst : Bool → StateM B Bit
  bcPoly : PolyCoeffs Bit → (constant : BitVec 128) → StateM B Bit

/-- A builder that is handed the monomials of a gate, each of coefficient one. -/
class SumBuilder (B : Type) (Bit : outParam Type) where
  bcConst : Bool → StateM B Bit
  bcSum : (monomials : List (List Bit)) → (constant : Bool) → StateM B Bit

def collected {Bit : Type} [LinearOrder Bit] (monomials : List (List Bit)) : PolyCoeffs Bit :=
  .fromIter (monomials.map fun key => (key, 1))

section
variable {B Bit : Type} [LinearOrder Bit]

instance [PolyBuilder B Bit] : SumBuilder B Bit where
  bcConst := PolyBuilder.bcConst
  bcSum monomials constant :=
    PolyBuilder.bcPoly (collected monomials) (if constant then 1 else 0)

instance [SumBuilder B Bit] : BitCircuitBuilder B Bit where
  bcConst := SumBuilder.bcConst
  bcXor a b := SumBuilder.bcSum [[a], [b]] false
  bcAnd a b := SumBuilder.bcSum [sortPair a b] false
  bcNot a := SumBuilder.bcSum [[a]] true
  bcCarry3 a b c := SumBuilder.bcSum [sortPair a b, sortPair a c, sortPair b c] false

instance [SumBuilder B Bit] : ConstantAdder B Bit where
  bcSumBit ci a c := SumBuilder.bcSum [[a], [c]] ci
  bcOrSum a c := SumBuilder.bcSum [[a], [c], [a, c]] false

end

def xorAll (bits : List Bool) : Bool := bits.foldr (· ^^ ·) false

theorem xorAll_perm {l l' : List Bool} (h : l.Perm l') : xorAll l = xorAll l' := by
  have hcomm : LeftCommutative (fun a b : Bool => a ^^ b) := ⟨Bool.xor_left_comm⟩
  exact h.foldr_eq false

section
variable {Bit : Type}

def product (on : Bit → Bool) (key : List Bit) : Bool := key.all on

theorem product_congr {on on' : Bit → Bool} {key : List Bit} (h : ∀ w ∈ key, on w = on' w) :
    product on key = product on' key := by
  apply Bool.eq_iff_iff.mpr
  rw [product, product, List.all_eq_true, List.all_eq_true]
  exact forall₂_congr fun w hw => by rw [h w hw]

def polyValue (on : Bit → Bool) (coeffs : PolyCoeffs Bit) (constant : BitVec 128) : Bool :=
  constant.getLsbD 0 ^^ xorAll (coeffs.iter.map fun e => e.2.getLsbD 0 && product on e.1)

/-- Counted once each, the monomials have another sum; `Gate.Collapses` for any monomials. -/
def KeysCollapse [DecidableEq Bit] (on : Bit → Bool) (monomials : List (List Bit)) : Prop :=
  xorAll (monomials.dedup.map (product on)) ≠ xorAll (monomials.map (product on))

instance [DecidableEq Bit] (on : Bit → Bool) (monomials : List (List Bit)) :
    Decidable (KeysCollapse on monomials) := inferInstanceAs (Decidable (_ ≠ _))

theorem KeysCollapse.congr [DecidableEq Bit] {on on' : Bit → Bool} {monomials : List (List Bit)}
    (h : KeysCollapse on monomials) (heq : ∀ key ∈ monomials, ∀ w ∈ key, on w = on' w) :
    KeysCollapse on' monomials := by
  have hkey : ∀ key ∈ monomials, product on key = product on' key :=
    fun key hkey => product_congr (heq key hkey)
  have hall : monomials.map (product on) = monomials.map (product on') :=
    List.map_congr_left hkey
  have honce : monomials.dedup.map (product on) = monomials.dedup.map (product on') :=
    List.map_congr_left fun key hk => hkey key (List.mem_dedup.mp hk)
  rw [KeysCollapse, ← hall, ← honce]
  exact h

variable [LinearOrder Bit]

open SortedMap PolyKey PolyCoeffs in
theorem mem_collected (monomials : List (List Bit)) {e : PolyKey Bit × BitVec 8} :
    e ∈ (collected monomials).entries ↔ ∃ key ∈ monomials, (fromVec key, 1) = e := by
  have hentries : (collected monomials).entries =
      (ofList (monomials.map fun key => (fromVec key, (1 : BitVec 8)))).entries := by
    rw [collected, fromIter, canonicalize, compact_sortByKey, List.map_map]
    rfl
  have hvalue : ∀ e ∈ (collected monomials).entries, e.2 = 1 := by
    intro e he
    rw [hentries] at he
    have hlook := lookup_of_mem (ofList _).sorted he
    rw [lookup_ofList] at hlook
    have hmem := mem_valuesAt.mp (List.mem_of_getLast? hlook)
    obtain ⟨key, -, hpair⟩ := List.mem_map.mp hmem
    exact (congrArg Prod.snd hpair).symm
  constructor
  · intro he
    have hkey : e.1 ∈ (collected monomials).entries.map Prod.fst := List.mem_map_of_mem he
    rw [hentries, mem_keys_ofList, List.map_map] at hkey
    obtain ⟨key, hmem, hkey⟩ := List.mem_map.mp hkey
    exact ⟨key, hmem, Prod.ext hkey (hvalue e he).symm⟩
  · rintro ⟨key, hmem, rfl⟩
    have hkey : fromVec key ∈ (collected monomials).entries.map Prod.fst := by
      rw [hentries, mem_keys_ofList, List.map_map]
      exact List.mem_map_of_mem hmem
    obtain ⟨e, he, hfst⟩ := List.mem_map.mp hkey
    have heq : e = (fromVec key, 1) := Prod.ext hfst (hvalue e he)
    exact heq ▸ he

open SortedMap PolyKey PolyCoeffs in
theorem iter_collected (monomials : List (List Bit)) :
    (collected monomials).iter.Perm (monomials.dedup.map fun key => (key, 1)) := by
  have hsorted : Sorted (collected monomials).entries := by
    rw [collected, fromIter, canonicalize, compact_sortByKey]
    exact (ofList _).sorted
  have hnodup : (collected monomials).entries.Nodup := by
    apply List.Pairwise.imp _ hsorted
    rintro a _ hlt rfl
    exact lt_irrefl _ hlt
  have hinj : Function.Injective fun key : List Bit => (fromVec key, (1 : BitVec 8)) :=
    fun k k' h => fromVec_injective (congrArg Prod.fst h)
  have hperm : (collected monomials).entries.Perm
      (monomials.dedup.map fun key => (fromVec key, 1)) := by
    apply (List.perm_ext_iff_of_nodup hnodup ((List.nodup_dedup monomials).map hinj)).mpr
    intro e
    rw [mem_collected, List.mem_map]
    simp only [List.mem_dedup]
  have hiter := hperm.map fun e : PolyKey Bit × BitVec 8 => (e.1.asSlice, e.2)
  rw [List.map_map] at hiter
  simpa [iter, Function.comp_def] using hiter

theorem polyValue_collected (on : Bit → Bool) (monomials : List (List Bit))
    (constant : BitVec 128) :
    polyValue on (collected monomials) constant =
      (constant.getLsbD 0 ^^ xorAll (monomials.dedup.map (product on))) := by
  rw [polyValue, xorAll_perm ((iter_collected monomials).map _), List.map_map]
  congr 2
  apply List.map_congr_left
  intro key _
  simp

@[simp] theorem product_sortPair (on : Bit → Bool) (a b : Bit) :
    product on (sortPair a b) = (on a && on b) := all_sortPair on a b

end

structure Recorded (B Bit : Type) where
  base : B
  sums : List (List (List Bit))

namespace Recorded
variable {B Bit : Type} [SumBuilder B Bit]

instance : SumBuilder (Recorded B Bit) Bit where
  bcConst val r :=
    ((SumBuilder.bcConst val r.base).1, { r with base := (SumBuilder.bcConst val r.base).2 })
  bcSum monomials constant r :=
    ((SumBuilder.bcSum monomials constant r.base).1,
      ⟨(SumBuilder.bcSum monomials constant r.base).2, r.sums ++ [monomials]⟩)

variable [LinearOrder Bit]

def unrecorded : Simulation (Recorded B Bit) Bit B Bit where
  Inv w := w.1.base = w.2
  Wire _ := Eq

theorem unrecorded_sum {w : Recorded B Bit × B} (hw : w.1.base = w.2) (monomials : List (List Bit))
    (constant : Bool) : unrecorded.Runs w (SumBuilder.bcSum monomials constant)
      (SumBuilder.bcSum monomials constant) unrecorded.Wire := by
  obtain ⟨⟨b, sums⟩, b'⟩ := w
  obtain rfl : b = b' := hw
  exact ⟨⟨rfl, id⟩, rfl⟩

theorem unrecorded_sound : (unrecorded : Simulation (Recorded B Bit) Bit B Bit).Sound := by
  constructor
  case const =>
    rintro ⟨⟨b, sums⟩, b'⟩ (rfl : b = b') val
    exact ⟨⟨rfl, id⟩, rfl⟩
  case xor =>
    rintro w a _ x _ hw rfl rfl
    exact unrecorded_sum hw _ _
  case and =>
    rintro w a _ x _ hw rfl rfl
    exact unrecorded_sum hw _ _
  case not =>
    rintro w a _ hw rfl
    exact unrecorded_sum hw _ _
  case carry3 =>
    rintro w a _ x _ c _ hw rfl rfl rfl
    exact unrecorded_sum hw _ _

end Recorded

/-- What the wires of a builder hold under one assignment of its inputs. The two methods
evaluate as they say, and a wire keeps its value. -/
structure Evaluation (B Bit : Type) [PolyBuilder B Bit] where
  Holds : B → Bit → Bool → Prop
  unique {b w u v} (h : Holds b w u) (h' : Holds b w v) : u = v
  bcConst (b : B) (val : Bool) :
    Holds (PolyBuilder.bcConst val b).2 (PolyBuilder.bcConst val b).1 val ∧
      ∀ {w u}, Holds b w u → Holds (PolyBuilder.bcConst val b).2 w u
  bcPoly (b : B) (coeffs : PolyCoeffs Bit) (constant : BitVec 128) (on : Bit → Bool)
    (h : ∀ e ∈ coeffs.iter, ∀ w ∈ e.1, Holds b w (on w)) :
    Holds (PolyBuilder.bcPoly coeffs constant b).2 (PolyBuilder.bcPoly coeffs constant b).1
        (polyValue on coeffs constant) ∧
      ∀ {w u}, Holds b w u → Holds (PolyBuilder.bcPoly coeffs constant b).2 w u

namespace Evaluation
variable {B Bit : Type} [PolyBuilder B Bit] (E : Evaluation B Bit)

def Defined (b : B) (w : Bit) : Prop := ∃ u, E.Holds b w u

open Classical in
noncomputable def on (b : B) (w : Bit) : Bool := decide (E.Holds b w true)

def HoldsBits (b : B) : List Bit → List Bool → Prop := List.Forall₂ (E.Holds b)

variable {E}

theorem on_eq {b : B} {w : Bit} {u : Bool} (h : E.Holds b w u) : E.on b w = u := by
  cases u with
  | true => simpa [on] using h
  | false =>
      have hoff : ¬E.Holds b w true := fun hon => Bool.false_ne_true (E.unique h hon)
      simpa [on] using hoff

theorem Defined.holds {b : B} {w : Bit} (h : E.Defined b w) : E.Holds b w (E.on b w) := by
  obtain ⟨u, hu⟩ := h
  rw [on_eq hu]
  exact hu

variable [LinearOrder Bit]

variable (E) in
def Clean (r : Recorded B Bit) : Prop := ∀ ms ∈ r.sums, ¬KeysCollapse (E.on r.base) ms

variable (E) in
def onBits : Simulation (Recorded B Bit) Bit Unit Bool where
  Inv w := ∀ ms ∈ w.1.sums, ∀ key ∈ ms, ∀ x ∈ key, E.Defined w.1.base x
  Wire w x bit := E.Defined w.1.base x ∧ (E.Clean w.1 → E.Holds w.1.base x bit)

theorem collected_defined {b : B} {monomials : List (List Bit)}
    (h : ∀ key ∈ monomials, ∀ x ∈ key, E.Defined b x) :
    ∀ e ∈ (collected monomials).iter, ∀ x ∈ e.1, E.Holds b x (E.on b x) := by
  intro e he x hx
  obtain ⟨key, hkey, rfl⟩ := List.mem_map.mp ((iter_collected monomials).mem_iff.mp he)
  exact (h key (List.mem_dedup.mp hkey) x hx).holds

theorem onBits_sum {w : Recorded B Bit × Unit} (hw : E.onBits.Inv w) {monomials : List (List Bit)}
    (hin : ∀ key ∈ monomials, ∀ x ∈ key, E.Defined w.1.base x) (constant : Bool) {v : Bool}
    (hv : E.Clean w.1 → v = (constant ^^ xorAll (monomials.map (product (E.on w.1.base))))) :
    E.onBits.Runs w (SumBuilder.bcSum monomials constant) (pure v) E.onBits.Wire := by
  obtain ⟨⟨b, sums⟩, u⟩ := w
  have hpoly := E.bcPoly b (collected monomials) (if constant then 1 else 0) (E.on b)
    (collected_defined hin)
  have hlow : (if constant then (1 : BitVec 128) else 0).getLsbD 0 = constant := by
    cases constant <;> rfl
  rw [polyValue_collected, hlow] at hpoly
  generalize hnext : (PolyBuilder.bcPoly (collected monomials)
    (if constant then (1 : BitVec 128) else 0) b).2 = b' at hpoly
  obtain ⟨hres, hkept⟩ := hpoly
  have hkeep : ∀ {x}, E.Defined b x → E.Defined b' x ∧ E.on b' x = E.on b x := by
    intro x hx
    have hlater := hkept hx.holds
    exact ⟨⟨_, hlater⟩, on_eq hlater⟩
  -- a gate that collapses does so in every later state
  have hclean : E.Clean (⟨b', sums ++ [monomials]⟩ : Recorded B Bit) →
      E.Clean (⟨b, sums⟩ : Recorded B Bit) ∧ ¬KeysCollapse (E.on b) monomials := by
    intro h
    constructor
    · intro ms hms hcol
      apply h ms (List.mem_append_left _ hms)
      exact hcol.congr fun key hkey x hx => (hkeep (hw ms hms key hkey x hx)).2.symm
    · intro hcol
      apply h monomials (List.mem_append_right _ List.mem_cons_self)
      exact hcol.congr fun key hkey x hx => (hkeep (hin key hkey x hx)).2.symm
  have hrun : (SumBuilder.bcSum monomials constant : StateM (Recorded B Bit) Bit) ⟨b, sums⟩ =
      ((PolyBuilder.bcPoly (collected monomials) (if constant then 1 else 0) b).1,
        ⟨b', sums ++ [monomials]⟩) := by
    rw [← hnext]
    rfl
  refine ⟨⟨?_, ?_⟩, ?_⟩
  · rw [hrun]
    intro ms hms key hkey x hx
    rcases List.mem_append.mp hms with hms | hms
    · exact (hkeep (hw ms hms key hkey x hx)).1
    · obtain rfl := List.mem_singleton.mp hms
      exact (hkeep (hin key hkey x hx)).1
  · rw [hrun]
    rintro x bit ⟨hdef, hval⟩
    exact ⟨(hkeep hdef).1, fun h => hkept (hval (hclean h).1)⟩
  · rw [hrun]
    refine ⟨⟨_, hres⟩, fun h => ?_⟩
    have hsame := not_not.mp (hclean h).2
    change E.Holds b' _ v
    rw [hv (hclean h).1, ← hsame]
    exact hres

theorem onBits_sound : E.onBits.Sound := by
  constructor
  case const =>
    rintro ⟨⟨b, sums⟩, u⟩ hw val
    have hconst := E.bcConst b val
    have hkeep : ∀ {x}, E.Defined b x →
        E.Defined (PolyBuilder.bcConst val b).2 x ∧
          E.on (PolyBuilder.bcConst val b).2 x = E.on b x := by
      intro x hx
      have hlater := hconst.2 hx.holds
      exact ⟨⟨_, hlater⟩, on_eq hlater⟩
    refine ⟨⟨fun ms hms key hkey x hx => (hkeep (hw ms hms key hkey x hx)).1, ?_⟩, ?_⟩
    · rintro x bit ⟨hdef, hval⟩
      refine ⟨(hkeep hdef).1, fun h => hconst.2 (hval fun ms hms hcol => ?_)⟩
      apply h ms hms
      exact hcol.congr fun key hkey x hx => (hkeep (hw ms hms key hkey x hx)).2.symm
    · exact ⟨⟨_, hconst.1⟩, fun _ => hconst.1⟩
  case xor =>
    rintro w a u x v hw ha hx
    apply onBits_sum hw
    · simp [ha.1, hx.1]
    · intro hclean
      simp [xorAll, product, on_eq (ha.2 hclean), on_eq (hx.2 hclean)]
  case and =>
    rintro w a u x v hw ha hx
    apply onBits_sum hw
    · simp [ha.1, hx.1, mem_sortPair, or_imp, forall_and]
    · intro hclean
      simp [xorAll, on_eq (ha.2 hclean), on_eq (hx.2 hclean)]
  case not =>
    rintro w a u hw ha
    apply onBits_sum hw
    · simp [ha.1]
    · intro hclean
      simp [xorAll, product, on_eq (ha.2 hclean)]
  case carry3 =>
    rintro w a u x v c t hw ha hx hc
    apply onBits_sum hw
    · simp [ha.1, hx.1, hc.1, mem_sortPair, or_imp, forall_and]
    · intro hclean
      simp [xorAll, on_eq (ha.2 hclean), on_eq (hx.2 hclean), on_eq (hc.2 hclean)]

end Evaluation
end VolarIR.Lir
