import VolarIR.Vaffle.Target
import VolarIR.Lir.BitDivision
import VolarIR.Lir.BitShifts
import VolarIR.Lir.Simulation

/-!
# Integer operations

What the integer operations of the target are to compute, on words, and that the circuits
they are built from compute it on bits.
-/
namespace VolarIR.Lir
open Vaffle

namespace Simulation
variable {B₁ Bit₁ B₂ Bit₂ : Type} [BitCircuitBuilder B₁ Bit₁] [BitCircuitBuilder B₂ Bit₂]
variable [Inhabited Bit₁] [Inhabited Bit₂] {S : Simulation B₁ Bit₁ B₂ Bit₂}

omit [Inhabited Bit₁] [Inhabited Bit₂] in
theorem operand {w : B₁ × B₂} {ops : List (List Bit₁)} {ops' : List (List Bit₂)}
    (h : List.Forall₂ (S.Wires w) ops ops') (i : ℕ) :
    S.Wires w (ops.getD i []) (ops'.getD i []) := by
  induction h generalizing i with
  | nil => exact .nil
  | cons hhead _ ih =>
      cases i with
      | zero => exact hhead
      | succ i => exact ih i

theorem Sound.evalOp (sound : S.Sound) {w : B₁ × B₂} (hw : S.Inv w) (op : HelperOp)
    {ops : List (List Bit₁)} {ops' : List (List Bit₂)} (h : List.Forall₂ (S.Wires w) ops ops')
    (hane : ops.getD 0 [] ≠ []) (hxne : op ≠ .not → ops.getD 1 [] ≠ []) :
    S.Runs w (evalOp op ops) (evalOp op ops') S.Wires := by
  have ha := operand h 0
  have hx := operand h 1
  have one {p : StateM B₁ Bit₁} {q : StateM B₂ Bit₂} (h : S.Runs w p q S.Wire) :
      S.Runs w (do return [← p]) (do return [← q]) S.Wires := by
    apply h.bind
    intro w' a b hl hab
    exact .pure hl.inv (.cons hab .nil)
  have both {p : StateM B₁ (List Bit₁ × List Bit₁)} {q : StateM B₂ (List Bit₂ × List Bit₂)}
      (h : S.Runs w p q fun w p q => S.Wires w p.1 q.1 ∧ S.Wires w p.2 q.2) :
      S.Runs w (do let qr ← p; return qr.1 ++ qr.2)
          (do let qr ← q; return qr.1 ++ qr.2) S.Wires := by
    apply h.bind
    intro w' p q hl hpq
    exact .pure hl.inv (List.rel_append hpq.1 hpq.2)
  have second {p : StateM B₁ (List Bit₁ × List Bit₁)} {q : StateM B₂ (List Bit₂ × List Bit₂)}
      (h : S.Runs w p q fun w p q => S.Wires w p.1 q.1 ∧ S.Wires w p.2 q.2) :
      S.Runs w (do return (← p).2) (do return (← q).2) S.Wires := by
    apply h.bind
    intro w' p q hl hpq
    exact .pure hl.inv hpq.2
  cases op with
  | add => exact sound.add hw ha hx false
  | sub => exact sound.sub hw ha hx
  | mul => exact sound.mul hw ha hx
  | udiv => exact sound.udiv hw ha hx
  | sdiv => exact sound.sdiv hw ha hx hane (hxne (by simp))
  | urem => exact second (sound.udivrem hw ha hx)
  | srem => exact second (sound.sdivrem hw ha hx hane (hxne (by simp)))
  | udivRem => exact both (sound.udivrem hw ha hx)
  | sdivRem => exact both (sound.sdivrem hw ha hx hane (hxne (by simp)))
  | shl => exact sound.shl hw ha hx (hxne (by simp))
  | lshr => exact sound.lshr hw ha hx (hxne (by simp))
  | ashr => exact sound.ashr hw ha hx hane (hxne (by simp))
  | and => exact sound.andVec hw ha hx
  | or => exact sound.orVec hw ha hx
  | xor => exact sound.xorVec hw ha hx
  | not => exact sound.notVec hw ha
  | eq => exact one (sound.eq hw ha hx)
  | ne => exact one (sound.ne hw ha hx)
  | ult => exact one (sound.ult hw ha hx)
  | ule => exact one (sound.ule hw ha hx)
  | slt => exact one (sound.slt hw ha hx hane (hxne (by simp)))
  | sle => exact one (sound.sle hw ha hx hane (hxne (by simp)))

end Simulation
end VolarIR.Lir

namespace VolarIR.Vaffle
open Common Lir Bits

inductive IntOp where
  | add | sub | mul | udiv | sdiv
  | and | or | xor | not
  | shl | lshr | ashr
  | icmp (pred : IcmpPred)
  deriving DecidableEq, Repr

namespace IcmpPred

def holds {n : ℕ} (pred : IcmpPred) (a x : BitVec n) : Bool :=
  match pred with
  | eq => a = x
  | ne => a ≠ x
  | ult => a.ult x
  | ule => a.ule x
  | ugt => x.ult a
  | uge => x.ule a
  | slt => a.slt x
  | sle => a.sle x
  | sgt => x.slt a
  | sge => x.sle a

end IcmpPred

namespace IntOp

/-- The call of the target; `not` has one operand. -/
def run (op : IntOp) (lhs rhs : List ℕ) : StateM VaffleTarget (List ℕ) :=
  match op with
  | add => VaffleTarget.add lhs rhs
  | sub => VaffleTarget.sub lhs rhs
  | mul => VaffleTarget.mul lhs rhs
  | udiv => VaffleTarget.udiv lhs rhs
  | sdiv => VaffleTarget.sdiv lhs rhs
  | and => VaffleTarget.and lhs rhs
  | or => VaffleTarget.or lhs rhs
  | xor => VaffleTarget.xor lhs rhs
  | not => VaffleTarget.not lhs
  | shl => VaffleTarget.shl lhs rhs
  | lshr => VaffleTarget.lshr lhs rhs
  | ashr => VaffleTarget.ashr lhs rhs
  | icmp pred => VaffleTarget.icmp pred lhs rhs

/-- The result, in two's complement modulo `2 ^ n`. -/
def result (op : IntOp) (lhs rhs : List Bool) : List Bool :=
  let a := word lhs.length lhs
  let x := word lhs.length rhs
  match op with
  | add => ofWord (a + x)
  | sub => ofWord (a - x)
  | mul => ofWord (a * x)
  | udiv => ofWord (a.udiv x)
  | sdiv => ofWord (a.sdiv x)
  | and => ofWord (a &&& x)
  | or => ofWord (a ||| x)
  | xor => ofWord (a ^^^ x)
  | not => ofWord (~~~a)
  | shl => ofWord (a <<< value rhs)
  | lshr => ofWord (a >>> value rhs)
  | ashr => ofWord (a.sshiftRight (value rhs))
  | icmp pred => [pred.holds a x]

/-- Operands that the operation is defined on: of one width, with a divisor that is not zero and
a shift below the width. -/
def Defined (op : IntOp) (lhs rhs : List Bool) : Prop :=
  lhs ≠ [] ∧
    match op with
    | not => True
    | udiv | sdiv => rhs.length = lhs.length ∧ 0 < value rhs
    | shl | lshr | ashr => rhs ≠ [] ∧ value rhs < lhs.length
    | _ => rhs.length = lhs.length

instance (op : IntOp) (lhs rhs : List Bool) : Decidable (op.Defined lhs rhs) := by
  cases op <;> exact inferInstanceAs (Decidable (_ ∧ _))

def operands {α : Type} (op : IntOp) (lhs rhs : List α) : List (List α) :=
  match op with
  | not => [lhs]
  | icmp pred => if pred.helper.2 then [rhs, lhs] else [lhs, rhs]
  | _ => [lhs, rhs]

def circuit : IntOp → HelperOp
  | add => .add
  | sub => .sub
  | mul => .mul
  | udiv => .udiv
  | sdiv => .sdiv
  | and => .and
  | or => .or
  | xor => .xor
  | not => .not
  | shl => .shl
  | lshr => .lshr
  | ashr => .ashr
  | icmp pred => pred.helper.1

def helper : IntOp → HelperOp
  | udiv => .udivRem
  | sdiv => .sdivRem
  | op => op.circuit

variable {op : IntOp} {lhs rhs : List Bool}

theorem onBits_icmp {n : ℕ} (pred : IcmpPred) {a x : List Bool} (ha : a.length = n)
    (hx : x.length = n) :
    onBits (evalOp pred.helper.1 (if pred.helper.2 then [x, a] else [a, x])) =
      [pred.holds (word n a) (word n x)] := by
  have hne : onBits (bcNe a x) = decide (word n a ≠ word n x) := by
    rw [bcNe, onBits_bind, onBits_eq ha hx, onBits_not, decide_not]
  cases pred with
  | eq => exact congrArg (fun b => [b]) (onBits_eq ha hx)
  | ne => exact congrArg (fun b => [b]) hne
  | ult => exact congrArg (fun b => [b]) (onBits_ult ha hx)
  | ule => exact congrArg (fun b => [b]) (onBits_ule ha hx)
  | ugt => exact congrArg (fun b => [b]) (onBits_ult hx ha)
  | uge => exact congrArg (fun b => [b]) (onBits_ule hx ha)
  | slt => exact congrArg (fun b => [b]) (onBits_slt ha hx)
  | sle => exact congrArg (fun b => [b]) (onBits_sle ha hx)
  | sgt => exact congrArg (fun b => [b]) (onBits_slt hx ha)
  | sge => exact congrArg (fun b => [b]) (onBits_sle hx ha)

theorem onBits_circuit (h : op.Defined lhs rhs) :
    onBits (evalOp op.circuit (op.operands lhs rhs)) = op.result lhs rhs := by
  have hargs := h.2
  cases op with
  | add => exact onBits_add rfl hargs
  | sub => exact onBits_sub rfl hargs
  | mul => exact onBits_mul rfl hargs
  | udiv => exact onBits_udiv rfl hargs.1 hargs.2
  | sdiv => exact onBits_sdiv rfl hargs.1 hargs.2
  | and => exact onBits_andVec rfl hargs
  | or => exact onBits_orVec rfl hargs
  | xor => exact onBits_xorVec rfl hargs
  | not => exact onBits_notVec_word rfl
  | shl => exact onBits_shl rfl hargs.2
  | lshr => exact onBits_lshr rfl hargs.2
  | ashr => exact onBits_ashr rfl hargs.2
  | icmp pred => exact onBits_icmp pred rfl hargs

theorem onBits_udivRem (a x : List Bool) : onBits (evalOp HelperOp.udivRem [a, x]) =
    (onBits (bcUdivrem a x)).1 ++ (onBits (bcUdivrem a x)).2 := by
  simp only [evalOp, onBits_bind, onBits_pure, List.getD_cons_zero, List.getD_cons_succ]

theorem onBits_sdivRem (a x : List Bool) : onBits (evalOp HelperOp.sdivRem [a, x]) =
    (onBits (bcSdivrem a x)).1 ++ (onBits (bcSdivrem a x)).2 := by
  simp only [evalOp, onBits_bind, onBits_pure, List.getD_cons_zero, List.getD_cons_succ]

def helperWidth (op : IntOp) (lhs rhs : List Bool) : ℕ :=
  helperResultWidth op.helper ((op.operands lhs rhs).map List.length)

theorem onBits_helper (h : op.Defined lhs rhs) :
    (onBits (evalOp op.helper (op.operands lhs rhs))).take (op.result lhs rhs).length =
        op.result lhs rhs ∧
      (onBits (evalOp op.helper (op.operands lhs rhs))).length = op.helperWidth lhs rhs := by
  have hargs := h.2
  have same (hhelper : op.helper = op.circuit)
      (hlen : (op.result lhs rhs).length = op.helperWidth lhs rhs) :
      (onBits (evalOp op.helper (op.operands lhs rhs))).take (op.result lhs rhs).length =
          op.result lhs rhs ∧
        (onBits (evalOp op.helper (op.operands lhs rhs))).length = op.helperWidth lhs rhs := by
    rw [hhelper, onBits_circuit h]
    exact ⟨List.take_length, hlen⟩
  have halves {v r : BitVec lhs.length} (hres : op.result lhs rhs = ofWord v)
      (hwidth : op.helperWidth lhs rhs = lhs.length * 2)
      (hrun : onBits (evalOp op.helper (op.operands lhs rhs)) = ofWord v ++ ofWord r) :
      (onBits (evalOp op.helper (op.operands lhs rhs))).take (op.result lhs rhs).length =
          op.result lhs rhs ∧
        (onBits (evalOp op.helper (op.operands lhs rhs))).length = op.helperWidth lhs rhs := by
    rw [hrun, hres, hwidth]
    constructor
    · exact List.take_left
    · rw [List.length_append, length_ofWord, length_ofWord, Nat.mul_two]
  cases op with
  | udiv =>
      apply halves rfl rfl
      exact (onBits_udivRem lhs rhs).trans (by rw [onBits_udivrem rfl hargs.1 hargs.2])
  | sdiv =>
      apply halves rfl rfl
      exact (onBits_sdivRem lhs rhs).trans (by rw [onBits_sdivrem rfl hargs.1 hargs.2])
  | icmp pred => exact same rfl (by cases pred <;> rfl)
  | _ => exact same rfl (length_ofWord _)

end IntOp
end VolarIR.Vaffle
