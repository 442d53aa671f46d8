import VolarIR.Vaffle.FieldElements
import VolarIR.Vaffle.InlineSound
import VolarIR.Vaffle.HelperSound

/-!
# Operations on field elements

What the field operations of the target evaluate to, as a function of what their operands hold.
-/
namespace VolarIR.Vaffle
open Common Lir Bits

def PlainGates {α : Type} (p : StateM (Watched VaffleTarget ℕ) α) : Prop :=
  ∀ w, ∀ g ∈ (p w).2.gates, g ∈ w.gates ∨ ∃ a b, g = .xor a b

namespace PlainGates
variable {α β : Type} {p : StateM (Watched VaffleTarget ℕ) α}

theorem pure (a : α) : PlainGates (Pure.pure a) := fun _ _ hg => .inl hg

theorem bind {f : α → StateM (Watched VaffleTarget ℕ) β} (hp : PlainGates p)
    (hf : ∀ a, PlainGates (f a)) : PlainGates (p >>= f) := by
  intro w g hg
  rcases hf (p w).1 (p w).2 g hg with hold | hnew
  · exact hp w g hold
  · exact .inr hnew

theorem mapM {f : α → StateM (Watched VaffleTarget ℕ) β} (hf : ∀ a, PlainGates (f a))
    (l : List α) : PlainGates (l.mapM f) := by
  induction l with
  | nil => exact pure []
  | cons a l ih =>
      rw [List.mapM_cons]
      exact (hf a).bind fun b => ih.bind fun bs => pure (b :: bs)

theorem const (b : Bool) : PlainGates (bcConst b) := fun _ _ hg => .inl hg

theorem not (a : ℕ) : PlainGates (bcNot a) := fun _ _ hg => .inl hg

theorem and (a b : ℕ) : PlainGates (bcAnd a b) := fun _ _ hg => .inl hg

theorem xor (a b : ℕ) : PlainGates (bcXor a b) := by
  intro w g hg
  rcases List.mem_append.mp hg with hold | hnew
  · exact .inl hold
  · exact .inr ⟨a, b, List.mem_singleton.mp hnew⟩

theorem andAll (acc : ℕ) (bits : List ℕ) : PlainGates (bcAndAll acc bits) := by
  induction bits generalizing acc with
  | nil => exact pure acc
  | cons b bits ih =>
      show PlainGates (bcAnd acc b >>= fun acc => bcAndAll acc bits)
      exact (and acc b).bind ih

theorem eq (lhs rhs : List ℕ) : PlainGates (bcEq lhs rhs) := by
  have hxors := mapM (fun p : ℕ × ℕ => (xor p.1 p.2).bind not) (lhs.zip rhs)
  apply hxors.bind
  intro bits
  cases bits with
  | nil => exact const true
  | cons b bits => exact andAll b bits

theorem ne (lhs rhs : List ℕ) : PlainGates (bcNe lhs rhs) := (eq lhs rhs).bind not

end PlainGates

def IcmpPred.IsEquality (pred : IcmpPred) : Prop := pred = .eq ∨ pred = .ne

instance (pred : IcmpPred) : Decidable pred.IsEquality := inferInstanceAs (Decidable (_ ∨ _))

namespace VaffleTarget
variable {reading : OutputReading} {answer : ℕ → List (List Bool) → Option (List (List Bool))}
  {start : Table} {t : VaffleTarget} {table : Table} {lhs rhs : List ℕ} {l r : List Bool}

theorem kinds_mapM_emitValue {α : Type} (xs : List α) (val : α → Value) (t : VaffleTarget) :
    ((xs.mapM fun x => emitValue (val x)) t).2.kinds = t.kinds ++ xs.map val := by
  induction xs generalizing t with
  | nil => exact (List.append_nil _).symm
  | cons x xs ih =>
      rw [List.mapM_cons]
      refine (ih (emitValue (val x) t).2).trans ?_
      rw [kinds_emitValue, List.append_assoc, List.map_cons, List.singleton_append]

/-- Equality gates are never faulty. -/
theorem equality_holds (h : Holding reading answer start t table)
    (hl : table.holdings.HoldsBits lhs l) (hr : table.holdings.HoldsBits rhs r)
    (hlen : r.length = l.length) (hne : l ≠ []) {pred : IcmpPred} (hpred : pred.IsEquality) :
    ∃ table', Holding reading answer start (evalOp pred.helper.1 [lhs, rhs] t).2 table' ∧
      table'.holdings.HoldsBits (evalOp pred.helper.1 [lhs, rhs] t).1
        [pred.holds (word l.length l) (word l.length r)] := by
  have sound : (arena reading answer start).Sound := arena_sound
  have htab : (arena reading answer start).Tab t table.holdings := ⟨table, h, rfl⟩
  have hinv : (arena reading answer start).onBits.Inv (⟨t, []⟩, ()) :=
    ⟨table.holdings, htab, fun g hg => absurd hg List.not_mem_nil⟩
  have hself : (Watched.unwatched : Simulation (Watched VaffleTarget ℕ) ℕ VaffleTarget ℕ).Inv
    (⟨t, []⟩, t) := rfl
  have hlhs : lhs ≠ [] := by
    rintro rfl
    cases hl
    exact hne rfl
  have hrhs : rhs ≠ [] := by
    rintro rfl
    cases hr
    exact hne (List.length_eq_zero_iff.mp hlen.symm)
  have hbits := (Arena.onBits_sound sound).evalOp hinv pred.helper.1
    (.cons (Arena.wires_start sound htab hl) (.cons (Arena.wires_start sound htab hr) .nil))
    hlhs (fun _ => hrhs)
  have hplain := Watched.unwatched_sound.evalOp hself pred.helper.1
    (.cons (Arena.wires_self t lhs) (.cons (Arena.wires_self t rhs) .nil)) hlhs (fun _ => hrhs)
  obtain ⟨_, ⟨table', h', rfl⟩, hgood⟩ := Arena.holds_of_runs hbits hplain
  have hgates : PlainGates (evalOp pred.helper.1 [lhs, rhs]) := by
    rcases hpred with rfl | rfl
    · exact (PlainGates.eq lhs rhs).bind fun b => .pure [b]
    · exact (PlainGates.ne lhs rhs).bind fun b => .pure [b]
  have hholds := hgood fun g hg => by
    rcases hgates ⟨t, []⟩ g hg with hnone | ⟨a, b, rfl⟩
    · cases hnone
    · exact fun hfaulty => hfaulty.1 a b rfl
  have hcircuit := IntOp.onBits_icmp pred (n := l.length) rfl hlen
  have hswap : pred.helper.2 = false := by rcases hpred with rfl | rfl <;> rfl
  rw [hswap] at hcircuit
  exact ⟨table', h', by rwa [← hcircuit]⟩

end VaffleTarget

namespace FieldTarget
variable {reading : OutputReading} {depth : ℕ} {tys : ℕ → Option TypeId} {t : FieldTarget}
  {table : Table} {T : LirType} {id : TypeId} {E : Elements}

section
variable (reading : OutputReading) (depth : ℕ) (tys : ℕ → Option TypeId) (table : Table)

def Yields (r : Option (VaffleValue × FieldTarget)) (bits : List Bool) : Prop :=
  ∃ v t', r = some (v, t') ∧ ∃ table', t'.evaluate tys reading depth table = some table' ∧
    (v.bits.flatMap fun w => (table'.look w).bits) = bits

def YieldsIn (r : Option (VaffleValue × FieldTarget)) (P : List Bool → Prop) : Prop :=
  ∃ bits, Yields reading depth tys table r bits ∧ P bits

end

theorem Yields.unique {r : Option (VaffleValue × FieldTarget)} {bits bits' : List Bool}
    (h : Yields reading depth tys table r bits) (h' : Yields reading depth tys table r bits') :
    bits = bits' := by
  obtain ⟨v, t₁, rfl, table₁, heval, rfl⟩ := h
  obtain ⟨v', t₂, heq, table₂, heval', rfl⟩ := h'
  cases heq
  cases heval.symm.trans heval'
  rfl

theorem Yields.yieldsIn_iff {r : Option (VaffleValue × FieldTarget)} {bits : List Bool}
    {P : List Bool → Prop} (h : Yields reading depth tys table r bits) :
    YieldsIn reading depth tys table r P ↔ P bits := by
  constructor
  · rintro ⟨bits', h', hP⟩
    rwa [h.unique h']
  · exact fun hP => ⟨bits, h, hP⟩

theorem not_yieldsIn_none {P : List Bool → Prop} : ¬YieldsIn reading depth tys table none P := by
  rintro ⟨bits, ⟨v, t', heq, -⟩, -⟩
  cases heq

structure Ready (t : FieldTarget) (table : Table) : Prop where
  assigns : t.target.Assigns table
  placed : ∀ v, t.target.values.length ≤ v → t.fields v = none

/-- A cell of the type, with the bits of an element. -/
structure HoldsElement (t : FieldTarget) (tys : ℕ → Option TypeId) (table : Table) (id : TypeId)
    (E : Elements) (v : ℕ) (bits : List Bool) : Prop where
  lt : v < table.length
  holds : (table.look v).bits = bits
  typed : ∃ ty, t.tyOf tys v = some ty ∧ t.types.sameType ty id = true
  len : bits.length = E.width

structure HoldsGate (t : FieldTarget) (tys : ℕ → Option TypeId) (table : Table) (v : ℕ)
    (b : Bool) : Prop where
  lt : v < table.length
  holds : (table.look v).bits = [b]
  typed : ∃ ty, t.tyOf tys v = some ty ∧ t.types.isBit ty = true

theorem evalFrom_range' (reading : OutputReading) (tys : ℕ → Option TypeId)
    (answer : ℕ → List (List Bool) → Option (List (List Bool))) (table : Table) {n k : ℕ}
    (hkinds : k + n = t.target.kinds.length) (hfields : ∀ v, k ≤ v → t.fields v = none) :
    t.evalFrom tys reading answer table (List.range' k n) =
      evalValues reading answer table (t.target.kinds.drop k) := by
  induction n generalizing k table with
  | zero =>
      rw [List.drop_eq_nil_of_le (by omega)]
      rfl
  | succ n ih =>
      have hlt : k < t.target.kinds.length := by omega
      have hat : t.evalAt tys reading answer table k =
          evalValue reading answer table t.target.kinds[k] := by
        rw [evalAt, hfields k le_rfl, VaffleTarget.kind_eq, List.getD_eq_getElem _ _ hlt]
      have hrest := fun table => ih table (k := k + 1) (by omega) fun v hv => hfields v (by omega)
      rw [List.range'_succ, List.drop_eq_getElem_cons hlt]
      simp only [evalFrom, evalValues, List.foldlM_cons] at hrest ⊢
      simp only [hrest, hat]

variable (reading depth tys) in
theorem evaluate_of_bits (hlen : table.length ≤ t.target.values.length)
    (hfields : ∀ v, table.length ≤ v → t.fields v = none) :
    t.evaluate tys reading depth table = t.target.evaluate reading depth table := by
  apply evalFrom_range' _ _ _ _ _ hfields
  rw [VaffleTarget.length_kinds]
  omega

def withField (t : FieldTarget) (val : FieldValue) : FieldTarget :=
  { t with
    target := (VaffleTarget.emitValue .other t.target).2
    fields := Function.update t.fields t.target.values.length (some val) }

theorem fields_withField (val : FieldValue) (v : ℕ) : (t.withField val).fields v =
    if v = t.target.values.length then some val else t.fields v := Function.update_apply _ _ _ _

theorem operand_withField {val : FieldValue} {v : ℕ} (hv : v < t.target.values.length) :
    (t.withField val).operand tys table v = t.operand tys table v := by
  rw [operand, operand, tyOf, tyOf, fields_withField, if_neg (by omega)]

theorem field_yields (h : Ready t table) {val : FieldValue} {bits : List Bool}
    (hval : (t.withField val).evalField tys table val = some (.ofBits bits)) :
    Yields reading depth tys table
        (some (⟨[t.target.values.length], T⟩, t.withField val)) bits := by
  have hlen := h.assigns.length
  have hnew : (t.withField val).target.values.length = t.target.values.length + 1 := by
    simp [withField, VaffleTarget.emitValue]
  have hat : (t.withField val).fields table.length = some val := by
    rw [fields_withField, if_pos hlen]
  refine ⟨_, _, rfl, table ++ [.ofBits bits], ?_, ?_⟩
  · rw [evaluate, hnew, ← hlen, Nat.add_sub_cancel_left, List.range'_one, evalFrom,
      List.foldlM_cons, evalAt, hat]
    simp only [hval]
    rfl
  · rw [List.flatMap_singleton, ← hlen, Table.look_length]
    rfl

theorem represents_inserted (entries : List (List ℕ × U8)) :
    (inserted entries).Represents (SortedMap.ofList entries) := by
  induction entries using List.reverseRecOn with
  | nil => rfl
  | append_singleton entries e ih =>
      rw [SortedMap.ofList_concat, inserted, List.foldl_append]
      exact (ih.insert e.1 e.2).2

def elementAt (t : FieldTarget) (tys : ℕ → Option TypeId) (table : Table) (E : Elements) (v : ℕ) :
    E.R := E.read t.types (t.operand tys table v)

theorem HoldsElement.isCell {v : ℕ} {bits : List Bool}
    (h : t.HoldsElement tys table id E v bits) :
    IsCell t.types id E (t.operand tys table v) := by
  obtain ⟨ty, hty, hsame⟩ := h.typed
  rw [operand, hty, h.holds]
  exact .element hsame h.len

theorem HoldsGate.isCell {v : ℕ} {b : Bool} (h : t.HoldsGate tys table v b) :
    IsCell t.types id E (t.operand tys table v) := by
  obtain ⟨ty, hty, hbit⟩ := h.typed
  rw [operand, hty, h.holds]
  exact .gate hbit

theorem HoldsElement.elementAt_eq (hE : ElementsOf t.types T id E) {v : ℕ} {bits : List Bool}
    (h : t.HoldsElement tys table id E v bits) : t.elementAt tys table E v = E.decode bits := by
  obtain ⟨ty, hty, hsame⟩ := h.typed
  rw [elementAt, operand, hty, h.holds, hE.read_element hsame]

theorem HoldsGate.elementAt_eq {v : ℕ} {b : Bool} (h : t.HoldsGate tys table v b) :
    t.elementAt tys table E v = if b then 1 else 0 := by
  obtain ⟨ty, hty, hbit⟩ := h.typed
  rw [elementAt, operand, hty, h.holds, ElementsOf.read_gate hbit]

theorem HoldsGate.ne (hE : ElementsOf t.types T id E) {c v : ℕ} {b : Bool} {bits : List Bool}
    (hc : t.HoldsGate tys table c b) (hv : t.HoldsElement tys table id E v bits) : c ≠ v := by
  rintro rfl
  obtain ⟨ty, hty, hbit⟩ := hc.typed
  obtain ⟨ty', hty', hsame⟩ := hv.typed
  cases hty.symm.trans hty'
  rw [hE.isBit_eq_false hsame] at hbit
  cases hbit

structure Accepts (t : FieldTarget) (T : LirType) (id : TypeId) (E : Elements) : Prop where
  interned : T.toTid t.layout t.types = some (id, t.types)
  elements : ElementsOf t.types T id E

theorem emitFieldPoly_eq (hT : T.toTid t.layout t.types = some (id, t.types))
    (coeffs : PolyCoeffs ℕ) : emitFieldPoly T coeffs t =
      some (⟨[t.target.values.length], T⟩, t.withField (.poly id coeffs .zero)) := by
  show (lirTypeToTid T t).bind _ = _
  rw [lirTypeToTid, hT]
  rfl

variable (reading depth tys) in
/-- Monomials of cells add up. -/
theorem poly_yields (h : Ready t table) (hA : t.Accepts T id E)
    {entries terms : List (List ℕ × U8)} (hperm : (SortedMap.ofList entries).entries.Perm terms)
    (hcells : ∀ e ∈ terms, ∀ v ∈ e.1,
      v < table.length ∧ IsCell t.types id E (t.operand tys table v)) :
    ∃ bits, Yields reading depth tys table (emitFieldPoly T (inserted entries) t) bits ∧
      E.Is bits (Ir.sumAt (t.elementAt tys table E) terms) := by
  have hiter := (represents_inserted entries).iter
  have hmem : ∀ e ∈ (inserted entries).iter, e ∈ terms := by
    intro e he
    rw [hiter] at he
    exact hperm.mem_iff.mp he
  have hlen := h.assigns.length
  have hcell : ∀ u ∈ (inserted entries).iter.map (fun e =>
      (e.1.map (t.operand tys table), e.2)), ∀ x ∈ u.1, IsCell t.types id E x := by
    intro u hu x hx
    obtain ⟨e, he, rfl⟩ := List.mem_map.mp hu
    obtain ⟨v, hv, rfl⟩ := List.mem_map.mp hx
    exact (hcells e (hmem e he) v hv).2
  obtain ⟨bits, hbits, his⟩ := hA.elements.evalTerms hcell
  refine ⟨bits, ?_, ?_⟩
  · rw [emitFieldPoly_eq hA.interned]
    apply field_yields h
    have hoperands : ((inserted entries).iter.map fun e =>
          (e.1.map ((t.withField (.poly id (inserted entries) .zero)).operand tys table), e.2)) =
        (inserted entries).iter.map fun e => (e.1.map (t.operand tys table), e.2) := by
      apply List.map_congr_left
      intro e he
      have hmap : e.1.map ((t.withField (.poly id (inserted entries) .zero)).operand tys table) =
          e.1.map (t.operand tys table) := by
        apply List.map_congr_left
        intro v hv
        exact operand_withField (hlen ▸ (hcells e (hmem e he) v hv).1)
      rw [hmap]
    rw [evalField, hoperands]
    exact congrArg (Option.map Entry.ofBits) hbits
  · rw [Ir.sumAt_map, hiter] at his
    rwa [Ir.sumAt_perm _ hperm] at his

end FieldTarget

namespace ElementsOf
variable {table : TypeTable} {T : LirType} {id : TypeId} {E : Elements}

theorem isFieldTyped (h : ElementsOf table T id E) : T.isFieldTyped = true := by
  cases h <;> rfl

theorem add_self (h : ElementsOf table T id E) (hT : T.isPrimeField = false) (x : E.R) :
    x + x = 0 := by
  cases h with
  | @ext _ _ _ _ _ _ F => exact F.add_self x
  | prime => cases hT

theorem eq_zero_of_add_self (h : ElementsOf table T id E) (hT : T.isPrimeField = true) {x : E.R}
    (hx : x + x = 0) : x = 0 := by
  cases h with
  | ext => cases hT
  | @prime k n _ _ _ _ _ odd =>
      have hunit : IsUnit ((2 : ℕ) : ZMod (2 ^ k.toNat - Limbs.value n)) :=
        (ZMod.isUnit_iff_coprime _ _).mpr (Nat.coprime_two_left.mpr odd)
      have hdouble : ∀ x : ZMod (2 ^ k.toNat - Limbs.value n), x + x = 0 → x = 0 := by
        intro x hx
        apply hunit.mul_right_eq_zero.mp
        rw [Nat.cast_two, two_mul, hx]
      exact hdouble x hx

theorem zero_is (h : ElementsOf table T id E) :
    ∃ bits, Ir.constBits .zero (table.bitWidth id) = bits ∧ E.Is bits 0 := by
  refine ⟨_, rfl, ?_, ?_⟩
  · rw [h.bitWidth_eq]
    have hlen : (Ir.constBits .zero E.width).length = E.width := by simp [Ir.constBits]
    cases h with
    | ext => exact hlen
    | prime get value canonical odd =>
        refine ⟨hlen, ?_⟩
        rw [constBits_zero, Bits.value_replicate_false]
        exact odd.pos
  · rw [h.bitWidth_eq, h.decode_zero]

theorem negativeOne (h : ElementsOf table T id E) {c : U8} (hc : T.negativeOne = some c) :
    ((c.toNat : ℕ) : E.R) = -1 := by
  cases h with
  | @ext _ _ _ _ _ _ F =>
      cases hc
      have hone : (1 : F.K) + 1 = 0 := F.add_self 1
      exact (Nat.cast_one (R := F.K)).trans (eq_neg_of_add_eq_zero_left hone)
  | @prime k n _ _ _ _ canonical _ =>
      simp only [LirType.negativeOne] at hc
      split_ifs at hc with hk hfit
      have hvalue : (n.headD 0).toNat = Limbs.value n := by
        match n, hk.2 with
        | [], _ => rfl
        | [x], _ => simp
      have hlt : Limbs.value n < 2 ^ k.toNat :=
        canonical.lt.trans_le (Nat.pow_le_pow_right (by decide) (Nat.sub_le _ _))
      have hpow : 2 ^ k.toNat ≤ 2 ^ 8 := Nat.pow_le_pow_right (by decide) hk.1
      have hshift : (1#16 <<< k.toNat).toNat = 2 ^ k.toNat := by
        rw [BitVec.toNat_shiftLeft, BitVec.toNat_ofNat, Nat.shiftLeft_eq]
        omega
      have hlow : ((n.headD 0).setWidth 16).toNat = Limbs.value n := by
        rw [BitVec.toNat_setWidth, hvalue]
        omega
      have hmod : (1#16 <<< k.toNat - (n.headD 0).setWidth 16 - 1).toNat =
          2 ^ k.toNat - Limbs.value n - 1 := by
        rw [BitVec.toNat_sub, BitVec.toNat_sub, hshift, hlow]
        simp
        omega
      have hc' : c.toNat = 2 ^ k.toNat - Limbs.value n - 1 := by
        rw [← Option.some.inj hc, BitVec.toNat_setWidth, hmod]
        omega
      have hminus : ∀ p : ℕ, 0 < p → ((p - 1 : ℕ) : ZMod p) = -1 := by
        intro p hp
        rw [Nat.cast_sub hp, ZMod.natCast_self, Nat.cast_one, zero_sub]
      rw [hc']
      exact hminus _ (by omega)

end ElementsOf

namespace FieldTarget
variable {reading : OutputReading} {depth : ℕ} {tys : ℕ → Option TypeId} {t : FieldTarget}
  {table : Table} {T : LirType} {id : TypeId} {E : Elements} {a b c : ℕ} {l r : List Bool}
  {cond : Bool}

theorem prod_sortPair {R : Type} [CommRing R] (x : ℕ → R) (a b : ℕ) :
    ((sortPair a b).map x).prod = x a * x b := by
  unfold sortPair
  split
  · simp
  · simp [mul_comm]

theorem add_eq (hT : T.isFieldTyped = true) (a b : ℕ) :
    add ⟨[a], T⟩ ⟨[b], T⟩ t = emitFieldPoly T (inserted (sumOf T a b)) t := by
  unfold add
  rw [if_pos hT, check, if_pos rfl]
  rfl

theorem sub_eq (hT : T.isFieldTyped = true) (a b : ℕ) :
    sub ⟨[a], T⟩ ⟨[b], T⟩ t = subCells T a b t := by
  unfold sub
  rw [if_pos hT, check, if_pos rfl]
  rfl

theorem mul_eq (hT : T.isFieldTyped = true) (a b : ℕ) :
    mul ⟨[a], T⟩ ⟨[b], T⟩ t = emitFieldPoly T (inserted [(sortPair a b, 1)]) t := by
  unfold mul
  rw [if_pos hT, check, if_pos rfl]
  rfl

theorem select_eq (hT : T.isFieldTyped = true) (c a b : ℕ) :
    select ⟨[c], .bool⟩ ⟨[a], T⟩ ⟨[b], T⟩ t =
      emitFieldPoly T (inserted (selection c a b)) t := by
  unfold select
  rw [if_pos hT, check, if_pos rfl]
  rfl

section
variable (h : Ready t table) (hA : t.Accepts T id E) (ha : t.HoldsElement tys table id E a l)
  (hb : t.HoldsElement tys table id E b r)
include h hA ha hb

theorem add_yields : ∃ bits, Yields reading depth tys table (add ⟨[a], T⟩ ⟨[b], T⟩ t) bits ∧
    E.Is bits (E.decode l + E.decode r) := by
  rw [add_eq hA.elements.isFieldTyped]
  have hx := ha.elementAt_eq hA.elements
  have hy := hb.elementAt_eq hA.elements
  have hcells : ∀ v, v = a ∨ v = b →
      v < table.length ∧ IsCell t.types id E (t.operand tys table v) := by
    rintro v (rfl | rfl)
    · exact ⟨ha.lt, ha.isCell⟩
    · exact ⟨hb.lt, hb.isCell⟩
  by_cases hab : a = b
  · subst hab
    have hsame : l = r := ha.holds.symm.trans hb.holds
    subst hsame
    by_cases hprime : T.isPrimeField = true
    · rw [sumOf, if_pos ⟨hprime, rfl⟩]
      obtain ⟨bits, hbits, his⟩ := poly_yields reading depth tys h hA
        (SortedMap.perm_ofList (l := [([a], 2)]) (by simp)) (by simpa using hcells a (.inl rfl))
      refine ⟨bits, hbits, ?_⟩
      simpa [hx, two_mul] using his
    · rw [sumOf, if_neg (fun h => hprime h.1), if_neg (not_not.mpr rfl)]
      obtain ⟨bits, hbits, his⟩ := poly_yields reading depth tys h hA
        (SortedMap.perm_ofList (l := []) (by simp)) (by simp)
      refine ⟨bits, hbits, ?_⟩
      rw [hA.elements.add_self (Bool.eq_false_iff.mpr hprime)]
      simpa using his
  · rw [sumOf, if_neg (fun h => hab h.2), if_pos hab]
    obtain ⟨bits, hbits, his⟩ := poly_yields reading depth tys h hA
      (SortedMap.perm_ofList (l := [([a], 1), ([b], 1)]) (by simp [hab]))
      (by simpa using ⟨hcells a (.inl rfl), hcells b (.inr rfl)⟩)
    refine ⟨bits, hbits, ?_⟩
    simpa [hx, hy] using his

theorem sub_yields {n : U8} (hn : T.negativeOne = some n) :
    ∃ bits, Yields reading depth tys table (sub ⟨[a], T⟩ ⟨[b], T⟩ t) bits ∧
      E.Is bits (E.decode l - E.decode r) := by
  rw [sub_eq hA.elements.isFieldTyped]
  have hx := ha.elementAt_eq hA.elements
  have hy := hb.elementAt_eq hA.elements
  by_cases hab : a = b
  · subst hab
    have hsame : l = r := ha.holds.symm.trans hb.holds
    subst hsame
    obtain ⟨bits, hbits, his⟩ := hA.elements.zero_is
    refine ⟨bits, ?_, by rwa [sub_self]⟩
    have hzero : fieldZero T t = some (⟨[t.target.values.length], T⟩,
        t.withField (.const .zero id)) := by
      show (lirTypeToTid T t).bind _ = _
      rw [lirTypeToTid, hA.interned]
      rfl
    rw [subCells, if_pos rfl, hzero]
    apply field_yields h
    rw [evalField]
    exact congrArg (some ∘ Entry.ofBits) hbits
  · have hrun : subCells T a b t = emitFieldPoly T (inserted [([a], 1), ([b], n)]) t := by
      rw [subCells, if_neg hab, hn]
      rfl
    rw [hrun]
    obtain ⟨bits, hbits, his⟩ := poly_yields reading depth tys h hA
      (SortedMap.perm_ofList (l := [([a], 1), ([b], n)]) (by simp [hab]))
      (by simpa using ⟨⟨ha.lt, ha.isCell⟩, hb.lt, hb.isCell⟩)
    refine ⟨bits, hbits, ?_⟩
    simpa [hx, hy, hA.elements.negativeOne hn, sub_eq_add_neg] using his

theorem mul_yields : ∃ bits, Yields reading depth tys table (mul ⟨[a], T⟩ ⟨[b], T⟩ t) bits ∧
    E.Is bits (E.decode l * E.decode r) := by
  rw [mul_eq hA.elements.isFieldTyped]
  obtain ⟨bits, hbits, his⟩ := poly_yields reading depth tys h hA
    (SortedMap.perm_ofList (l := [(sortPair a b, 1)]) (by simp)) (by
      intro e he v hv
      obtain rfl := List.mem_singleton.mp he
      rcases mem_sortPair.mp hv with rfl | rfl
      · exact ⟨ha.lt, ha.isCell⟩
      · exact ⟨hb.lt, hb.isCell⟩)
  refine ⟨bits, hbits, ?_⟩
  rw [Ir.sumAt_cons, Ir.sumAt_nil, prod_sortPair, ha.elementAt_eq hA.elements,
    hb.elementAt_eq hA.elements] at his
  simpa using his

variable (reading depth) in
theorem select_yields (hc : t.HoldsGate tys table c cond) :
    ∃ bits, Yields reading depth tys table (select ⟨[c], .bool⟩ ⟨[a], T⟩ ⟨[b], T⟩ t) bits ∧
      E.Is bits (E.decode r + (if cond then 1 else 0) *
        if a = b then E.decode r else E.decode l + E.decode r) := by
  rw [select_eq hA.elements.isFieldTyped, selection]
  have hca := hc.ne hA.elements ha
  have hcb := hc.ne hA.elements hb
  have hsingle : ∀ x y : ℕ, sortPair x y ≠ [b] := by
    intro x y heq
    have hlen := length_sortPair x y
    rw [heq] at hlen
    cases hlen
  have hcells : ∀ v, v = a ∨ v = b ∨ v = c →
      v < table.length ∧ IsCell t.types id E (t.operand tys table v) := by
    rintro v (rfl | rfl | rfl)
    · exact ⟨ha.lt, ha.isCell⟩
    · exact ⟨hb.lt, hb.isCell⟩
    · exact ⟨hc.lt, hc.isCell⟩
  have hall : ∀ e ∈ [([b], (1 : U8)), (sortPair c a, 1), (sortPair c b, 1)], ∀ v ∈ e.1,
      v = a ∨ v = b ∨ v = c := by
    simp [mem_sortPair]
  by_cases hab : a = b
  · subst hab
    have hsame : l = r := ha.holds.symm.trans hb.holds
    subst hsame
    have hperm : (SortedMap.ofList [([a], (1 : U8)), (sortPair c a, 1),
        (sortPair c a, 1)]).entries.Perm
        [([a], 1), (sortPair c a, 1)] := by
      rw [show [([a], (1 : U8)), (sortPair c a, 1), (sortPair c a, 1)] =
        [([a], 1)] ++ [(sortPair c a, 1), (sortPair c a, 1)] from rfl,
        SortedMap.ofList_concat_twice]
      exact SortedMap.perm_ofList (by simp [Ne.symm (hsingle c a)])
    obtain ⟨bits, hbits, his⟩ := poly_yields reading depth tys h hA hperm (by
      intro e he v hv
      exact hcells v (hall e (by simp at he ⊢; tauto) v hv))
    refine ⟨bits, hbits, ?_⟩
    simp only [Ir.sumAt_cons, Ir.sumAt_nil, prod_sortPair, hc.elementAt_eq,
      ha.elementAt_eq hA.elements] at his
    simpa [ha.elementAt_eq hA.elements] using his
  · have hpair : sortPair c a ≠ sortPair c b := by
      rw [Ne, sortPair_eq_iff]
      rintro (⟨-, heq⟩ | ⟨heq, -⟩)
      · exact hab heq
      · exact hcb heq
    obtain ⟨bits, hbits, his⟩ := poly_yields reading depth tys h hA
      (SortedMap.perm_ofList (l := [([b], 1), (sortPair c a, 1), (sortPair c b, 1)])
        (by simp [Ne.symm (hsingle c a), Ne.symm (hsingle c b), hpair]))
      fun e he v hv => hcells v (hall e he v hv)
    refine ⟨bits, hbits, ?_⟩
    simp only [Ir.sumAt_cons, Ir.sumAt_nil, prod_sortPair, hc.elementAt_eq,
      ha.elementAt_eq hA.elements, hb.elementAt_eq hA.elements] at his
    rw [if_neg hab, mul_add]
    simpa [hb.elementAt_eq hA.elements] using his

end

variable {W : ℕ} {pred : IcmpPred}

theorem scalarBits_eq (hT : T.isFieldTyped = true) (hW : T.fieldWidth t.layout = some W)
    (hle : W ≤ 256) (v : ℕ) : scalarBits ⟨[v], T⟩ t =
      onTarget ((List.range W).mapM (VaffleTarget.extractBit v)) t := by
  unfold scalarBits
  rw [if_pos hT]
  simp only [List.length_singleton, check, if_pos, bind, StateT.bind, emit_pure, Option.pure_def,
    get, getThe, MonadStateOf.get, StateT.get, Option.bind_some, hW, StateT.lift, hle]
  rfl

def NoBitView (W : Option ℕ) : Prop := ∀ w ∈ W, 256 < w

theorem scalarBits_none (hT : T.isFieldTyped = true) (hW : NoBitView (T.fieldWidth t.layout))
    (v : ℕ) : scalarBits ⟨[v], T⟩ t = none := by
  unfold scalarBits
  rw [if_pos hT]
  simp only [List.length_singleton, check, if_pos, bind, StateT.bind, emit_pure, Option.pure_def,
    get, getThe, MonadStateOf.get, StateT.get, Option.bind_some, StateT.lift]
  cases hwidth : T.fieldWidth t.layout with
  | none => rfl
  | some w =>
      have hlt := hW w hwidth
      simp only [Option.bind_some, if_neg (Nat.not_le.mpr hlt)]
      rfl

def compareCells (pred : IcmpPred) (W a b : ℕ) : StateM VaffleTarget ℕ := do
  let lhsBits ← (List.range W).mapM (VaffleTarget.extractBit a)
  let rhsBits ← (List.range W).mapM (VaffleTarget.extractBit b)
  if pred = .eq then bcEq lhsBits rhsBits else bcNe lhsBits rhsBits

theorem icmp_eq (hT : T.isFieldTyped = true) (hpred : pred.IsEquality)
    (hW : T.fieldWidth t.layout = some W) (hle : W ≤ 256) (a b : ℕ) :
    icmp pred ⟨[a], T⟩ ⟨[b], T⟩ t =
      some (⟨[(compareCells pred W a b t.target).1], .bool⟩,
        { t with target := (compareCells pred W a b t.target).2 }) := by
  have hleft := scalarBits_eq hT hW hle a
  have hright : ∀ target, scalarBits ⟨[b], T⟩ { t with target } =
      onTarget ((List.range W).mapM (VaffleTarget.extractBit b)) { t with target } :=
    fun target => scalarBits_eq (t := { t with target }) hT hW hle b
  have hdefined : pred = .eq ∨ pred = .ne := hpred
  unfold icmp
  rw [if_pos (.inl hT), check, if_pos rfl, check, if_pos hdefined]
  simp only [bind, StateT.bind, emit_pure, hleft, onTarget, Option.bind_some, hright]
  rfl

theorem icmp_none (hT : T.isFieldTyped = true) (hW : NoBitView (T.fieldWidth t.layout))
    (a b : ℕ) : icmp pred ⟨[a], T⟩ ⟨[b], T⟩ t = none := by
  have hleft := scalarBits_none hT hW a
  unfold icmp
  rw [if_pos (.inl hT), check, if_pos rfl]
  by_cases hpred : pred = .eq ∨ pred = .ne
  · rw [check, if_pos hpred]
    simp only [bind, StateT.bind, emit_pure, hleft, Option.bind_some, Option.bind_none]
  · rw [check, if_neg hpred]
    rfl

variable (reading depth tys) in
/-- The comparison is that of the first bits, as many as the bit view takes. -/
theorem icmp_yields (h : Ready t table) (hT : T.isFieldTyped = true)
    (hW : T.fieldWidth t.layout = some W) (hpos : 0 < W) (hle : W ≤ 256)
    (hpred : pred.IsEquality) (ha : a < table.length) (hb : b < table.length) :
    Yields reading depth tys table (icmp pred ⟨[a], T⟩ ⟨[b], T⟩ t)
      [pred.holds (word W (fit (table.look a).bits W)) (word W (fit (table.look b).bits W))] := by
  rw [icmp_eq hT hpred hW hle]
  obtain ⟨answer, hanswer⟩ : ∃ answer,
    answer = evalFunc reading (compareCells pred W a b t.target).2.funcs depth := ⟨_, rfl⟩
  have h₀ : VaffleTarget.Holding reading answer table t.target table := .initial h.assigns
  obtain ⟨table₁, h₁, hprefix₁, hl⟩ := VaffleTarget.extractBits_fit h₀ ha hle
  have hb₁ : b < table₁.length := by
    have hlen := hprefix₁.length_le
    rw [Table.length_holdings, Table.length_holdings] at hlen
    omega
  obtain ⟨table₂, h₂, hprefix₂, hr⟩ := VaffleTarget.extractBits_fit h₁ hb₁ hle
  have hkeep : (table₁.look b).bits = (table.look b).bits := by
    rw [← Table.getD_holdings, ← Table.getD_holdings]
    exact Holdings.getD_mono hprefix₁ (by rwa [Table.length_holdings])
  rw [hkeep] at hr
  have hl₂ := List.Forall₂.imp (fun _ _ hw => Holdings.Holds.mono hw hprefix₂) hl
  have hfit : ∀ bits : List Bool, (fit bits W).length = W := by simp [fit]
  obtain ⟨table₃, h₃, hbit⟩ := VaffleTarget.equality_holds h₂ hl₂ hr
    ((hfit _).trans (hfit _).symm)
    (by rw [← List.length_pos_iff, hfit]; exact hpos) hpred
  have hrun : evalOp pred.helper.1
      [(List.mapM (VaffleTarget.extractBit a) (List.range W) t.target).1,
        (List.mapM (VaffleTarget.extractBit b) (List.range W)
          (List.mapM (VaffleTarget.extractBit a) (List.range W) t.target).2).1]
      (List.mapM (VaffleTarget.extractBit b) (List.range W)
        (List.mapM (VaffleTarget.extractBit a) (List.range W) t.target).2).2 =
      ([(compareCells pred W a b t.target).1], (compareCells pred W a b t.target).2) := by
    rcases hpred with rfl | rfl <;> rfl
  rw [hrun] at h₃ hbit
  rw [hfit] at hbit
  have hlen : table.length ≤ (compareCells pred W a b t.target).2.values.length := by
    rw [← VaffleTarget.length_kinds]
    exact h₃.evaluated.start_le
  refine ⟨_, _, rfl, table₃, ?_, ?_⟩
  · have hbits := evaluate_of_bits reading depth tys
      (t := { t with target := (compareCells pred W a b t.target).2 }) hlen
      fun v hv => h.placed v (h.assigns.length ▸ hv)
    rw [hbits, ← h₃.evaluated.run, hanswer]
    rfl
  · rw [Table.flatMap_bits hbit]

variable {types : TypeTable}

def roundTrip (value : VaffleValue) (field : LirType) : Emit VaffleValue := do
  let element ← intToField value field
  fieldToBits element

def merged (t : FieldTarget) (ws : List ℕ) : FieldTarget :=
  { t with
    target := (VaffleTarget.emitValue (.merge ws (widthType ws.length)) t.target).2
    types := (LirType.internBits ws.length t.types).2 }

def transmuted (t : FieldTarget) (ws : List ℕ) (id : TypeId) : FieldValue :=
  .transmute t.target.values.length (LirType.internBits ws.length t.types).1 id

def element (t : FieldTarget) (ws : List ℕ) (id : TypeId) (types : TypeTable) : FieldTarget :=
  FieldTarget.withField { t.merged ws with types := types } (t.transmuted ws id)

def viewed (t : FieldTarget) (ws : List ℕ) (id : TypeId) (types : TypeTable) (W v : ℕ) :
    FieldTarget :=
  { t.element ws id types with
    target := ((List.range W).mapM (VaffleTarget.extractBit v) (t.element ws id types).target).2 }

structure Converts (t : FieldTarget) (ws : List ℕ) (T : LirType) (id : TypeId)
    (types : TypeTable) (E : Elements) : Prop where
  interned : T.toTid t.layout (LirType.internBits ws.length t.types).2 = some (id, types)
  elements : ElementsOf types T id E

theorem Accepts.converts (hA : t.Accepts T id E) (ws : List ℕ) :
    t.Converts ws T id (t.merged ws).types E where
  interned := LirType.toTid_grows (LirType.grows_of_internBits rfl) hA.interned
  elements := hA.elements.grows (LirType.grows_of_internBits rfl)

theorem length_merged (h : Ready t table) (ws : List ℕ) :
    (t.merged ws).target.values.length = table.length + 1 := by
  simp [merged, VaffleTarget.emitValue, h.assigns.length]

theorem fields_viewed (h : Ready t table) (ws : List ℕ) (id : TypeId) (types : TypeTable)
    (W v u : ℕ) : (t.viewed ws id types W v).fields u =
      if u = table.length + 1 then some (t.transmuted ws id) else t.fields u := by
  have hfields := fields_withField (t := { t.merged ws with types := types })
    (t.transmuted ws id) u
  rwa [length_merged h] at hfields

theorem kinds_viewed (ws : List ℕ) (id : TypeId) (types : TypeTable) (W v : ℕ) :
    (t.viewed ws id types W v).target.kinds = t.target.kinds ++
      .merge ws (widthType ws.length) :: .other :: (List.range W).map fun i =>
        .shuffle [(BitVec.ofNat 8 i, v)] .bit := by
  have hkinds := VaffleTarget.kinds_mapM_emitValue (List.range W)
    (fun i => .shuffle [(BitVec.ofNat 8 i, v)] .bit) (t.element ws id types).target
  refine hkinds.trans ?_
  simp [element, withField, merged]

theorem evalAt_merged (reading : OutputReading)
    (answer : ℕ → List (List Bool) → Option (List (List Bool))) (tys : ℕ → Option TypeId)
    (h : Ready t table) {ws : List ℕ} {payload : List Bool}
    (hws : table.holdings.HoldsBits ws payload) (id : TypeId) (types : TypeTable) (W v : ℕ) :
    (t.viewed ws id types W v).evalAt tys reading answer table table.length =
      some (.ofBits payload) := by
  have hkind : (t.viewed ws id types W v).target.kind table.length =
      .merge ws (widthType ws.length) := by
    rw [VaffleTarget.kind_eq, kinds_viewed, h.assigns.length, ← VaffleTarget.length_kinds,
      List.getD_append_right _ _ _ _ le_rfl, Nat.sub_self]
    rfl
  rw [evalAt, fields_viewed h, if_neg (by omega), h.placed _ h.assigns.length.ge]
  dsimp only
  rw [hkind]
  apply VaffleTarget.evalValue_merge hws
  rw [width_widthType, hws.length_eq]

theorem evalAt_element (reading : OutputReading)
    (answer : ℕ → List (List Bool) → Option (List (List Bool))) (tys : ℕ → Option TypeId)
    (h : Ready t table) (hE : ElementsOf types T id E) (ws : List ℕ) (payload : List Bool)
    (W v : ℕ) :
    (t.viewed ws id types W v).evalAt tys reading answer (table ++ [.ofBits payload])
      (table.length + 1) = some (.ofBits (fit payload E.width)) := by
  have hwidth : (t.viewed ws id types W v).types.bitWidth id = E.width := hE.bitWidth_eq
  have hlook := Table.look_length table (.ofBits payload) []
  rw [evalAt, fields_viewed h, if_pos rfl, transmuted]
  dsimp only [evalField]
  rw [hwidth, ← h.assigns.length, hlook]
  rfl

theorem intToField_eq {ws : List ℕ} (hC : t.Converts ws T id types E)
    {ty : LirType} (hW : T.fieldWidth t.layout = some ws.length) (hlen : 1 < ws.length) :
    intToField ⟨ws, ty⟩ T t = some (⟨[(t.merged ws).target.values.length], T⟩,
      t.element ws id types) := by
  have hmerge : VaffleTarget.mergeOperand ws =
      VaffleTarget.emitValue (.merge ws (widthType ws.length)) := if_neg (by omega)
  unfold intToField
  simp only [bind, StateT.bind, get, getThe, MonadStateOf.get, StateT.get, Option.pure_def,
      Option.bind_some,
    StateT.lift, hW, check, if_pos, emit_pure, onTarget, hmerge, internVec, lirTypeToTid]
  show (Option.map _ (T.toTid t.layout (LirType.internBits ws.length t.types).2)).bind _ = _
  rw [hC.interned]
  rfl

theorem intToField_none {ws : List ℕ} {ty : LirType}
    (hW : T.fieldWidth t.layout ≠ some ws.length) : intToField ⟨ws, ty⟩ T t = none := by
  unfold intToField
  simp only [bind, StateT.bind, get, getThe, MonadStateOf.get, StateT.get, Option.pure_def,
      Option.bind_some,
    StateT.lift]
  cases hwidth : T.fieldWidth t.layout with
  | none => rfl
  | some w =>
      have hne : ws.length ≠ w := by
        rintro rfl
        exact hW hwidth
      simp only [Option.bind_some, check, if_neg hne]
      rfl

theorem le_of_intOfWidth {w : ℕ} {ty : LirType} (h : LirType.intOfWidth w = some ty) :
    1 < w ∧ w ≤ 256 := by
  unfold LirType.intOfWidth at h
  split at h <;> first | omega | cases h

theorem fieldToBits_eq (hT : T.isFieldTyped = true) (hW : T.fieldWidth t.layout = some W)
    {ty : LirType} (hty : LirType.intOfWidth W = some ty) (v : ℕ) :
    fieldToBits ⟨[v], T⟩ t =
      some (⟨((List.range W).mapM (VaffleTarget.extractBit v) t.target).1, ty⟩,
        { t with target := ((List.range W).mapM (VaffleTarget.extractBit v) t.target).2 }) := by
  have hbits := scalarBits_eq hT hW (le_of_intOfWidth hty).2 v
  unfold fieldToBits
  rw [if_pos hT]
  simp only [bind, StateT.bind, get, getThe, MonadStateOf.get, StateT.get, Option.pure_def,
      Option.bind_some,
    StateT.lift, hW, hbits, onTarget, hty, emit_pure]

theorem fieldToBits_none (hT : T.isFieldTyped = true) (hW : T.fieldWidth t.layout = some W)
    (hty : LirType.intOfWidth W = none) (v : ℕ) : fieldToBits ⟨[v], T⟩ t = none := by
  unfold fieldToBits
  rw [if_pos hT]
  simp only [bind, StateT.bind, get, getThe, MonadStateOf.get, StateT.get, Option.pure_def,
      Option.bind_some,
    StateT.lift, hW, hty]
  cases scalarBits ⟨[v], T⟩ t <;> rfl

variable (reading depth tys) in
/-- The integer comes back cut to the width of the element. -/
theorem roundTrip_yields (h : Ready t table) {ws : List ℕ} (hC : t.Converts ws T id types E)
    {payload : List Bool} (hws : table.holdings.HoldsBits ws payload) {ty intTy : LirType}
    (hW : T.fieldWidth t.layout = some payload.length)
    (hint : LirType.intOfWidth payload.length = some intTy) :
    Yields reading depth tys table (roundTrip ⟨ws, ty⟩ T t)
      (fit (fit payload E.width) payload.length) := by
  have hws_len : ws.length = payload.length := hws.length_eq
  have hwidth := le_of_intOfWidth hint
  have hT := hC.elements.isFieldTyped
  have hplace := length_merged h ws
  have hrun : roundTrip ⟨ws, ty⟩ T t = some
      (⟨((List.range payload.length).mapM (VaffleTarget.extractBit (table.length + 1))
        (t.element ws id types).target).1, intTy⟩,
        t.viewed ws id types payload.length (table.length + 1)) := by
    show (intToField ⟨ws, ty⟩ T t).bind (fun r => fieldToBits r.1 r.2) = _
    rw [intToField_eq hC (hws_len.symm ▸ hW) (by omega), hplace]
    exact fieldToBits_eq (t := t.element ws id types) hT hW hint _
  obtain ⟨answer, hanswer⟩ : ∃ answer, answer = evalFunc reading
    (t.viewed ws id types payload.length (table.length + 1)).target.funcs depth := ⟨_, rfl⟩
  -- the merged word, then the element
  obtain ⟨word, hword⟩ : ∃ word, word = Entry.ofBits payload := ⟨_, rfl⟩
  obtain ⟨element, helement⟩ : ∃ e, e = Entry.ofBits (fit payload E.width) := ⟨_, rfl⟩
  have hassigns₁ : (t.merged ws).target.Assigns (table ++ [word]) := h.assigns.emit nofun
  have hassigns₂ : (t.element ws id types).target.Assigns (table ++ [word] ++ [element]) :=
    hassigns₁.emit nofun
  have h₀ : VaffleTarget.Holding reading answer _ (t.element ws id types).target _ :=
    .initial hassigns₂
  have hlt : table.length + 1 < (table ++ [word] ++ [element]).length := by simp
  obtain ⟨table', h', -, hbits⟩ := VaffleTarget.extractBits_fit h₀ hlt hwidth.2
  have hlook : Table.look (table ++ [word] ++ [element]) (table.length + 1) = element := by
    have hlast := Table.look_length (table ++ [word]) element []
    rwa [List.length_append, List.length_singleton] at hlast
  rw [hlook, helement] at hbits
  refine ⟨_, _, hrun, table', ?_, Table.flatMap_bits hbits⟩
  have hlast : (table ++ [word] ++ [element]).length = table.length + 2 := by simp
  have hrestRun := h'.evaluated.run
  have hle := h'.evaluated.start_le
  rw [hlast] at hle hrestRun
  obtain ⟨m, hm⟩ := Nat.exists_eq_add_of_le hle
  have hsteps : (t.viewed ws id types payload.length (table.length + 1)).target.values.length -
      table.length = m + 2 := by
    rw [← VaffleTarget.length_kinds]
    show (VaffleTarget.kinds ((List.range payload.length).mapM (VaffleTarget.extractBit
      (table.length + 1)) (t.element ws id types).target).2).length - table.length = m + 2
    omega
  have hat := evalAt_merged reading answer tys h hws id types payload.length (table.length + 1)
  have hat' := evalAt_element reading answer tys h hC.elements ws payload payload.length
    (table.length + 1)
  rw [← hword] at hat hat'
  rw [← helement] at hat'
  have hrest := evalFrom_range' reading tys answer (table ++ [word] ++ [element])
    (t := t.viewed ws id types payload.length (table.length + 1)) (n := m) (k := table.length + 2)
    hm.symm fun v hv => by
      rw [fields_viewed h, if_neg (by omega)]
      exact h.placed v (by rw [← h.assigns.length]; omega)
  rw [evaluate, ← hanswer, hsteps, List.range'_succ, List.range'_succ, evalFrom, List.foldlM_cons,
    hat]
  simp only [bind, Option.bind_some, pure, List.foldlM_cons, hat']
  exact hrest.trans hrestRun

end FieldTarget
end VolarIR.Vaffle
