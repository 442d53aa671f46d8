import VolarIR.Library.Stateful
import VolarIR.Library.Bits

/-!
# The shared dispatch gates

The emission helpers of `dispatch_accumulator.rs`: a decoder for one block index, the bits
of a constant index, and the two multiplexers, over any context that can emit the
primitive gates. A `Reading` says what the vars of a context hold; over a lawful one each
helper has a lemma of its own, and the two circuit languages are two readings.
-/
namespace VolarIR.Movfuscate
open Stateful

/-- Statements are emitted into a context; `none` is a panic. -/
abbrev Emit (C : Type) := StateT C Option

/-- Unwrap what the source indexes or `expect`s. -/
def orPanic {C α : Type} : Option α → Emit C α
  | some a => pure a
  | none => failure

@[simp] theorem orPanic_some {C α : Type} (a : α) : (orPanic (some a) : Emit C α) = pure a := rfl

class DispatchBitPrimitives (C : Type) where
  emitZeroBit : Emit C ℕ
  emitOneBit : Emit C ℕ
  emitAndBit (a b : ℕ) : Emit C ℕ
  emitXorBit (a b : ℕ) : Emit C ℕ
  emitNot (a : ℕ) : Emit C ℕ

class DispatchSlotPrimitives (C : Type) (SlotTy : outParam Type) extends
    DispatchBitPrimitives C where
  emitZeroSlot (ty : SlotTy) : Emit C ℕ
  emitGate (isActive val : ℕ) (ty : SlotTy) : Emit C ℕ
  emitFieldAdd (a b : ℕ) (ty : SlotTy) : Emit C ℕ

open DispatchBitPrimitives DispatchSlotPrimitives

section
variable {C SlotTy : Type}

/-- `select(cond, a, b) = AND(cond, XOR(a, b)) XOR b`. -/
def emitSelectBit [DispatchBitPrimitives C] (cond a b : ℕ) : Emit C ℕ := do
  let xab ← emitXorBit a b
  let sel ← emitAndBit cond xab
  emitXorBit sel b

/-- `select(cond, a, b) = gate(cond, a + b) + b`. -/
def emitSelectSlot [DispatchSlotPrimitives C SlotTy] (cond a b : ℕ) (ty : SlotTy) : Emit C ℕ := do
  let xab ← emitFieldAdd a b ty
  let sel ← emitGate cond xab ty
  emitFieldAdd sel b ty

/-- The bit of the PC when the block's own bit is one, its complement otherwise. -/
def emitPcBit [DispatchBitPrimitives C] (pcVar blockIdx j : ℕ) : Emit C ℕ :=
  if blockIdx.testBit j then pure pcVar else emitNot pcVar

/-- The conjunction of the remaining PC bits, from bit `j` on. -/
def emitIsBlockFrom [DispatchBitPrimitives C] (blockIdx : ℕ) : ℕ → ℕ → List ℕ → Emit C ℕ
  | _, acc, [] => pure acc
  | j, acc, pcVar :: pcVars => do
      let bit ← emitPcBit pcVar blockIdx j
      let acc ← emitAndBit acc bit
      emitIsBlockFrom blockIdx (j + 1) acc pcVars

/-- `emit_is_block`: one exactly when the PC vars hold the block's index. -/
def emitIsBlock [DispatchBitPrimitives C] (pcVars : List ℕ) (blockIdx : ℕ) : Emit C ℕ :=
  match pcVars with
  | [] => emitOneBit
  | pcVar :: pcVars => do
      let bit ← emitPcBit pcVar blockIdx 0
      emitIsBlockFrom blockIdx 1 bit pcVars

/-- Constant vars for the low `pcWidth` bits of a block index, low bit first. -/
def encodePcBits [DispatchBitPrimitives C] (blockIdx pcWidth : ℕ) : Emit C (List ℕ) :=
  (List.range pcWidth).mapM fun j => if blockIdx.testBit j then emitOneBit else emitZeroBit

end

/-- What the vars of a context hold, which contexts come after which, and the sums of
the slot values. -/
structure Reading (C SlotTy V : Type) where
  /-- The context is fit to emit into. -/
  ok : C → Prop
  bit : C → ℕ → Bool → Prop
  slot : C → SlotTy → ℕ → V → Prop
  /-- Slots of the type can be gated and added. -/
  fits : SlotTy → Prop
  /-- Every var holds what it held. -/
  grows : C → C → Prop
  /-- Gates alone have been emitted. -/
  quiet : C → C → Prop
  zero : SlotTy → V
  add : SlotTy → V → V → V

/-- The primitives compute what they are for. Slot values add as in characteristic two. -/
structure Reading.Lawful {C SlotTy V : Type} [DispatchSlotPrimitives C SlotTy]
    (R : Reading C SlotTy V) : Prop where
  grows_refl : ∀ c, R.grows c c
  grows_trans : ∀ {a b c}, R.grows a b → R.grows b c → R.grows a c
  quiet_refl : ∀ {c}, R.ok c → R.quiet c c
  quiet_trans : ∀ {a b c}, R.quiet a b → R.quiet b c → R.quiet a c
  quiet_grows : ∀ {c d}, R.quiet c d → R.grows c d
  quiet_ok : ∀ {c d}, R.quiet c d → R.ok d
  bit_mono : ∀ {c d v b}, R.grows c d → R.bit c v b → R.bit d v b
  slot_mono : ∀ {c d ty v x}, R.grows c d → R.slot c ty v x → R.slot d ty v x
  slot_unique : ∀ {c ty v x y}, R.slot c ty v x → R.slot c ty v y → x = y
  add_zero : ∀ {c ty v x}, R.slot c ty v x → R.add ty x (R.zero ty) = x
  zero_add : ∀ {c ty v x}, R.slot c ty v x → R.add ty (R.zero ty) x = x
  add_cancel : ∀ {c ty u v x y}, R.slot c ty u x → R.slot c ty v y →
    R.add ty (R.add ty x y) y = x
  cancel_add : ∀ {c ty u v x y}, R.slot c ty u x → R.slot c ty v y →
    R.add ty x (R.add ty y x) = y
  zeroBit : ∀ {c}, R.ok c → Ensures emitZeroBit c fun v d => R.quiet c d ∧ R.bit d v false
  oneBit : ∀ {c}, R.ok c → Ensures emitOneBit c fun v d => R.quiet c d ∧ R.bit d v true
  andBit : ∀ {c a b x y}, R.ok c → R.bit c a x → R.bit c b y →
    Ensures (emitAndBit a b) c fun v d => R.quiet c d ∧ R.bit d v (x && y)
  xorBit : ∀ {c a b x y}, R.ok c → R.bit c a x → R.bit c b y →
    Ensures (emitXorBit a b) c fun v d => R.quiet c d ∧ R.bit d v (x ^^ y)
  notBit : ∀ {c a x}, R.ok c → R.bit c a x →
    Ensures (emitNot a) c fun v d => R.quiet c d ∧ R.bit d v (!x)
  zeroSlot : ∀ {c ty}, R.fits ty → R.ok c →
    Ensures (emitZeroSlot ty) c fun v d => R.quiet c d ∧ R.slot d ty v (R.zero ty)
  gate : ∀ {c a v ty x y}, R.ok c → R.bit c a x → R.slot c ty v y →
    Ensures (emitGate a v ty) c fun u d =>
      R.quiet c d ∧ R.slot d ty u (if x then y else R.zero ty)
  fieldAdd : ∀ {c a b ty x y}, R.ok c → R.slot c ty a x → R.slot c ty b y →
    Ensures (emitFieldAdd a b ty) c fun v d => R.quiet c d ∧ R.slot d ty v (R.add ty x y)

namespace Reading.Lawful
variable {C SlotTy V : Type} [DispatchSlotPrimitives C SlotTy] {R : Reading C SlotTy V} {c : C}

theorem bit_quiet (h : R.Lawful) {d : C} {v : ℕ} {b : Bool} (hq : R.quiet c d)
    (hv : R.bit c v b) : R.bit d v b := h.bit_mono (h.quiet_grows hq) hv

theorem slot_quiet (h : R.Lawful) {d : C} {ty : SlotTy} {v : ℕ} {x : V} (hq : R.quiet c d)
    (hv : R.slot c ty v x) : R.slot d ty v x := h.slot_mono (h.quiet_grows hq) hv

theorem selectBit (h : R.Lawful) {cond a b : ℕ} {x y z : Bool} (hc : R.ok c)
    (hcond : R.bit c cond x) (ha : R.bit c a y) (hb : R.bit c b z) :
    Ensures (emitSelectBit cond a b) c fun v d =>
      R.quiet c d ∧ R.bit d v (if x then y else z) := by
  unfold emitSelectBit
  apply (h.xorBit hc ha hb).bind
  intro xab d ⟨hqd, hxab⟩
  apply (h.andBit (h.quiet_ok hqd) (h.bit_quiet hqd hcond) hxab).bind
  intro sel e ⟨hqe, hsel⟩
  have hq := h.quiet_trans hqd hqe
  apply (h.xorBit (h.quiet_ok hqe) hsel (h.bit_quiet hq hb)).mono
  intro v f ⟨hqf, hv⟩
  have hmux : ((x && (y ^^ z)) ^^ z) = if x then y else z := by
    cases x <;> cases y <;> cases z <;> rfl
  rw [hmux] at hv
  exact ⟨h.quiet_trans hq hqf, hv⟩

theorem selectSlot (h : R.Lawful) {cond a b : ℕ} {ty : SlotTy} {x : Bool} {y z : V} (hc : R.ok c)
    (hcond : R.bit c cond x) (ha : R.slot c ty a y) (hb : R.slot c ty b z) :
    Ensures (emitSelectSlot cond a b ty) c fun v d =>
      R.quiet c d ∧ R.slot d ty v (if x then y else z) := by
  unfold emitSelectSlot
  apply (h.fieldAdd hc ha hb).bind
  intro xab d ⟨hqd, hxab⟩
  apply (h.gate (h.quiet_ok hqd) (h.bit_quiet hqd hcond) hxab).bind
  intro sel e ⟨hqe, hsel⟩
  have hq := h.quiet_trans hqd hqe
  apply (h.fieldAdd (h.quiet_ok hqe) hsel (h.slot_quiet hq hb)).mono
  intro v f ⟨hqf, hv⟩
  have hmux : R.add ty (if x then R.add ty y z else R.zero ty) z = if x then y else z := by
    cases x with
    | true => exact h.add_cancel ha hb
    | false => exact h.zero_add hb
  rw [hmux] at hv
  exact ⟨h.quiet_trans hq hqf, hv⟩

theorem pcBit (h : R.Lawful) {pcVar : ℕ} {b : Bool} (hc : R.ok c) (hb : R.bit c pcVar b)
    (blockIdx j : ℕ) :
    Ensures (emitPcBit pcVar blockIdx j) c fun v d =>
      R.quiet c d ∧ R.bit d v (b == blockIdx.testBit j) := by
  unfold emitPcBit
  split
  · next hj =>
      rw [ensures_pure, hj]
      exact ⟨h.quiet_refl hc, by simpa using hb⟩
  · next hj =>
      apply (h.notBit hc hb).mono
      intro v d ⟨hq, hv⟩
      rw [Bool.eq_false_iff.mpr hj]
      exact ⟨hq, by simpa using hv⟩

/-- The conjunction picks out the PCs that agree with the index from bit `j` on. -/
theorem isBlockFrom (h : R.Lawful) {blockIdx j acc : ℕ} {pcVars : List ℕ} {x : Bool}
    {bits : List Bool} (hc : R.ok c) (hacc : R.bit c acc x)
    (hbits : List.Forall₂ (R.bit c) pcVars bits) :
    Ensures (emitIsBlockFrom blockIdx j acc pcVars) c fun v d =>
      R.quiet c d ∧
        R.bit d v (x && bits == (List.range' j bits.length).map blockIdx.testBit) := by
  induction pcVars generalizing c j acc x bits with
  | nil =>
      cases hbits
      rw [emitIsBlockFrom, ensures_pure]
      exact ⟨h.quiet_refl hc, by simpa using hacc⟩
  | cons pcVar pcVars ih =>
      cases hbits with
      | @cons _ b _ bits hb hbits =>
          rw [emitIsBlockFrom]
          apply (h.pcBit hc hb blockIdx j).bind
          intro bit d ⟨hqd, hbit⟩
          apply (h.andBit (h.quiet_ok hqd) (h.bit_quiet hqd hacc) hbit).bind
          intro acc' e ⟨hqe, hacc'⟩
          have hq := h.quiet_trans hqd hqe
          have hrest := hbits.imp fun _ _ hv => h.bit_quiet hq hv
          apply (ih (h.quiet_ok hqe) hacc' hrest).mono
          intro v f ⟨hqf, hv⟩
          refine ⟨h.quiet_trans hq hqf, ?_⟩
          rw [List.length_cons, List.range'_succ, List.map_cons, List.cons_beq_cons]
          rwa [Bool.and_assoc] at hv

theorem isBlock (h : R.Lawful) {blockIdx cur width : ℕ} {pcVars : List ℕ} (hc : R.ok c)
    (hpc : List.Forall₂ (R.bit c) pcVars ((List.range width).map cur.testBit))
    (hblock : blockIdx < 2 ^ width) (hcur : cur < 2 ^ width) :
    Ensures (emitIsBlock pcVars blockIdx) c fun v d =>
      R.quiet c d ∧ R.bit d v (decide (blockIdx = cur)) := by
  have hsame : ((List.range width).map cur.testBit == (List.range width).map blockIdx.testBit) =
      decide (blockIdx = cur) := by
    rw [Bool.beq_eq_decide_eq]
    congr 1
    rw [eq_iff_iff]
    constructor
    · intro heq
      rw [← Bits.value_map_testBit hblock, ← heq, Bits.value_map_testBit hcur]
    · intro heq
      rw [heq]
  cases width with
  | zero =>
      cases hpc
      have hboth : blockIdx = cur := by
        rw [pow_zero] at hblock hcur
        omega
      rw [hboth, emitIsBlock]
      simpa using h.oneBit hc
  | succ width =>
      rw [List.range_eq_range', List.range'_succ, List.map_cons] at hpc hsame
      cases hpc with
      | @cons pcVar b pcVars bits hb hbits =>
          rw [emitIsBlock]
          apply (h.pcBit hc hb blockIdx 0).bind
          intro bit d ⟨hqd, hbit⟩
          have hrest := hbits.imp fun _ _ hv => h.bit_quiet hqd hv
          apply (h.isBlockFrom (h.quiet_ok hqd) hbit hrest).mono
          intro v e ⟨hqe, hv⟩
          refine ⟨h.quiet_trans hqd hqe, ?_⟩
          rw [List.length_map, List.length_range'] at hv
          rw [List.map_cons, List.cons_beq_cons] at hsame
          rwa [← hsame]

theorem encode (h : R.Lawful) (hc : R.ok c) (blockIdx pcWidth : ℕ) :
    Ensures (encodePcBits blockIdx pcWidth) c fun vs d =>
      R.quiet c d ∧
        List.Forall₂ (R.bit d) vs ((List.range pcWidth).map blockIdx.testBit) := by
  apply ensures_mapM_range fun n vs d =>
    R.quiet c d ∧ List.Forall₂ (R.bit d) vs ((List.range n).map blockIdx.testBit)
  · exact ⟨h.quiet_refl hc, .nil⟩
  · intro j _ vs d ⟨hq, hvs⟩
    have hbit : Ensures (if blockIdx.testBit j then emitOneBit else emitZeroBit : Emit C ℕ) d
        fun v e => R.quiet d e ∧ R.bit e v (blockIdx.testBit j) := by
      split
      · next hj =>
          rw [hj]
          exact h.oneBit (h.quiet_ok hq)
      · next hj =>
          rw [Bool.eq_false_iff.mpr hj]
          exact h.zeroBit (h.quiet_ok hq)
    apply hbit.mono
    intro v e ⟨hqe, hv⟩
    refine ⟨h.quiet_trans hq hqe, ?_⟩
    rw [List.range_succ, List.map_append]
    exact List.rel_append (hvs.imp fun _ _ hw => h.bit_quiet hqe hw) (.cons hv .nil)

end Reading.Lawful
end VolarIR.Movfuscate
