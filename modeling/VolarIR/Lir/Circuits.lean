import Mathlib.Data.List.GetD
import Mathlib.Data.Nat.Size
import Mathlib.Tactic.Common
import Mathlib.Algebra.Order.Ring.Nat

/-!
# Bit circuits

The integer algorithms of `volar-lir/src/circuits.rs`. They are written against the gates of
a `BitCircuitBuilder` and work on bit vectors, low bit first. Widths that an assertion of the
source compares are equal here, and a vector that is indexed from its end has a bit.
-/
namespace VolarIR.Lir

/-- The gates the algorithms ask for. A builder makes them from its own polynomials. -/
class BitCircuitBuilder (B : Type) (Bit : outParam Type) where
  bcConst : Bool → StateM B Bit
  bcXor : Bit → Bit → StateM B Bit
  bcAnd : Bit → Bit → StateM B Bit
  bcNot : Bit → StateM B Bit
  bcCarry3 : Bit → Bit → Bit → StateM B Bit

export BitCircuitBuilder (bcConst bcXor bcAnd bcNot bcCarry3)

section
variable {B Bit : Type} [BitCircuitBuilder B Bit]

def bcOr (a b : Bit) : StateM B Bit := do
  let na ← bcNot a
  let nb ← bcNot b
  let nand ← bcAnd na nb
  bcNot nand

def bcSelect (cond a b : Bit) : StateM B Bit := do
  let xab ← bcXor a b
  let sel ← bcAnd cond xab
  bcXor sel b

def bcConsts (n : ℕ) (val : Bool) : StateM B (List Bit) :=
  (List.range n).mapM fun _ => bcConst val

/-- The loop of `bc_add`; the carry out is dropped. -/
def bcAddFrom : (carry : Bit) → (a x : List Bit) → StateM B (List Bit)
  | carry, a :: as, x :: xs => do
      let t ← bcXor a x
      let sum ← bcXor t carry
      let newCarry ← bcCarry3 a x carry
      return sum :: (← bcAddFrom newCarry as xs)
  | _, _, _ => return []

def bcAdd (a x : List Bit) (carryIn : Bool) : StateM B (List Bit) := do
  bcAddFrom (← bcConst carryIn) a x

def bcNotVec (a : List Bit) : StateM B (List Bit) := a.mapM bcNot

def bcSub (a x : List Bit) : StateM B (List Bit) := do
  let notX ← bcNotVec x
  bcAdd a notX true

def bcNeg (a : List Bit) : StateM B (List Bit) := do
  let zeros ← bcConsts a.length false
  let notA ← bcNotVec a
  bcAdd notA zeros true

def bcSelectVec (cond : Bit) (a x : List Bit) : StateM B (List Bit) :=
  (a.zip x).mapM fun p => bcSelect cond p.1 p.2

section
variable [Inhabited Bit]

def signOf (a : List Bit) : Bit := a.getLastD default

def bcAbs (a : List Bit) : StateM B (List Bit) := do
  let neg ← bcNeg a
  bcSelectVec (signOf a) neg a

/-- `resize` with a constant. -/
def resize (v : List Bit) (w : ℕ) (z : Bit) : List Bit :=
  v.take w ++ List.replicate (w - v.length) z

def extBits (v : List Bit) (w : ℕ) : StateM B (List Bit) := do
  return resize v w (← bcConst false)

/-- `bits` written over `base` from a position on, as far as `base` goes. -/
def overlay (base : List Bit) (start : ℕ) (bits : List Bit) : List Bit :=
  base.mapIdx fun k b => if start ≤ k then bits.getD (k - start) b else b

def partialProduct (a x : List Bit) (cols i : ℕ) : StateM B (List Bit) :=
  (List.range cols).mapM fun k =>
    if k < i ∨ x.length ≤ k - i then bcConst false
    else bcAnd (a.getD i default) (x.getD (k - i) default)

/-- The base case of `bc_mul_low`: the rows added up, as far as they reach a column. -/
def bcMulRows (a x : List Bit) (want : ℕ) : StateM B (List Bit) := do
  let cols := min want (2 * a.length)
  let acc ← bcConsts cols false
  (List.range (min a.length cols)).foldlM (fun acc i => do
    bcAdd acc (← partialProduct a x cols i) false) acc

/-- `bc_mul_low` on operands of `n` bits. -/
def bcMulLowFrom (n : ℕ) (a x : List Bit) (want : ℕ) : StateM B (List Bit) :=
  if n ≤ 16 then bcMulRows a x want
  else do
    let m := n / 2
    let h := n - m
    let (a0, a1) := (a.take m, a.drop m)
    let (x0, x1) := (x.take m, x.drop m)
    let acc ← bcMulLowFrom m a0 x0 (min want (2 * m))
    if m < want then
      let sa ← bcAdd (← extBits a0 (h + 1)) (← extBits a1 (h + 1)) false
      let sx ← bcAdd (← extBits x0 (h + 1)) (← extBits x1 (h + 1)) false
      let z1 ← bcMulLowFrom (h + 1) sa sx (min (want - m) (2 * (h + 1)))
      let w := z1.length
      -- the low bits of the products decide the low bits of the differences
      let z0Full ← bcMulLowFrom m a0 x0 (min w (2 * m))
      let z0Ext ← extBits z0Full w
      let z2Full ← bcMulLowFrom h a1 x1 (min w (2 * h))
      let z2Ext ← extBits z2Full w
      let mid ← bcSub (← bcSub z1 z0Ext) z2Ext
      let midS := overlay (← bcConsts want false) m mid
      let accExt ← extBits acc want
      let acc ← bcAdd accExt midS false
      if 2 * m < want then
        let z2Low ← bcMulLowFrom h a1 x1 (want - 2 * m)
        let z2S := overlay (← bcConsts want false) (2 * m) z2Low
        bcAdd acc z2S false
      else return acc
    else return acc
termination_by n

def bcMulLow (a x : List Bit) (want : ℕ) : StateM B (List Bit) :=
  bcMulLowFrom a.length a x want

def bcMul (a x : List Bit) : StateM B (List Bit) := bcMulLow a x a.length

/-- The subtractor chain of one division step: the difference and the borrow out. -/
def bcSubBorrow : (borrow : Bit) → (r x : List Bit) → StateM B (List Bit × Bit)
  | borrow, r :: rs, x :: xs => do
      let notR ← bcNot r
      let t ← bcXor r x
      let d ← bcXor t borrow
      let newBorrow ← bcCarry3 notR x borrow
      let (diff, out) ← bcSubBorrow newBorrow rs xs
      return (d :: diff, out)
  | borrow, _, _ => return ([], borrow)

/-- One step of the restoring division, at bit `i` of the dividend. -/
def divStep (a x : List Bit) (rq : List Bit × List Bit) (i : ℕ) :
    StateM B (List Bit × List Bit) := do
  let r := a.getD i default :: rq.1.take (a.length - 1)
  let (diff, borrow) ← bcSubBorrow (← bcConst false) r x
  let noBorrow ← bcNot borrow
  return (← bcSelectVec noBorrow diff r, rq.2.set i noBorrow)

def bcUdivrem (a x : List Bit) : StateM B (List Bit × List Bit) := do
  let r ← bcConsts a.length false
  let q ← bcConsts a.length false
  let (r, q) ← (List.range a.length).reverse.foldlM (divStep a x) (r, q)
  return (q, r)

def bcUdiv (a x : List Bit) : StateM B (List Bit) := do return (← bcUdivrem a x).1

def bcUrem (a x : List Bit) : StateM B (List Bit) := do return (← bcUdivrem a x).2

/-- The quotient rounds toward zero and the remainder has the sign of the dividend. -/
def bcSdivrem (a x : List Bit) : StateM B (List Bit × List Bit) := do
  let absA ← bcAbs a
  let absX ← bcAbs x
  let (absQ, absR) ← bcUdivrem absA absX
  let signsDiffer ← bcXor (signOf a) (signOf x)
  let negQ ← bcNeg absQ
  let q ← bcSelectVec signsDiffer negQ absQ
  let negR ← bcNeg absR
  let r ← bcSelectVec (signOf a) negR absR
  return (q, r)

def bcSdiv (a x : List Bit) : StateM B (List Bit) := do return (← bcSdivrem a x).1

def bcSrem (a x : List Bit) : StateM B (List Bit) := do return (← bcSdivrem a x).2

def barrelStages (n shiftBits : ℕ) : ℕ :=
  if n ≤ 1 then 1 else max (min (Nat.size (n - 1)) shiftBits) 1

theorem barrelStages_le {n bits : ℕ} (h : 0 < bits) : barrelStages n bits ≤ bits := by
  unfold barrelStages
  split <;> omega

/-- Stage `k` of a barrel shifter: each bit keeps its value or takes one from `2 ^ k`
positions away. -/
def shiftStage (source : (cur : List Bit) → (step j : ℕ) → StateM B Bit) (shift : List Bit)
    (cur : List Bit) (k : ℕ) : StateM B (List Bit) :=
  (List.range cur.length).mapM fun j => do
    let moved ← source cur (2 ^ k) j
    bcSelect (shift.getD k default) moved (cur.getD j default)

def barrelShift (source : (cur : List Bit) → (step j : ℕ) → StateM B Bit)
    (val shift : List Bit) : StateM B (List Bit) :=
  (List.range (barrelStages val.length shift.length)).foldlM (shiftStage source shift) val

def bcShl (val shift : List Bit) : StateM B (List Bit) :=
  barrelShift (fun cur step j =>
    if j < step then bcConst false else return cur.getD (j - step) default) val shift

def bcLshr (val shift : List Bit) : StateM B (List Bit) :=
  barrelShift (fun cur step j =>
    if cur.length ≤ j + step then bcConst false else return cur.getD (j + step) default) val shift

def bcAshr (val shift : List Bit) : StateM B (List Bit) :=
  barrelShift (fun cur step j =>
    return if cur.length ≤ j + step then signOf val else cur.getD (j + step) default) val shift

def bcAndAll (acc : Bit) (bits : List Bit) : StateM B Bit := bits.foldlM bcAnd acc

def bcEq (a x : List Bit) : StateM B Bit := do
  let notXors ← (a.zip x).mapM fun p => do
    let t ← bcXor p.1 p.2
    bcNot t
  match notXors with
  | [] => bcConst true
  | acc :: rest => bcAndAll acc rest

def bcNe (a x : List Bit) : StateM B Bit := do
  let eq ← bcEq a x
  bcNot eq

/-- The loop of `bc_ult`. -/
def bcUltFrom : (borrow : Bit) → (a x : List Bit) → StateM B Bit
  | borrow, a :: as, x :: xs => do
      let notA ← bcNot a
      let newBorrow ← bcCarry3 notA x borrow
      bcUltFrom newBorrow as xs
  | borrow, _, _ => return borrow

def bcUlt (a x : List Bit) : StateM B Bit := do
  bcUltFrom (← bcConst false) a x

def bcUle (a x : List Bit) : StateM B Bit := do
  let gt ← bcUlt x a
  bcNot gt

def bcSlt (a x : List Bit) : StateM B Bit := do
  let notSignX ← bcNot (signOf x)
  let aNegXPos ← bcAnd (signOf a) notSignX
  let ult ← bcUlt a x
  let signsXor ← bcXor (signOf a) (signOf x)
  let signsEq ← bcNot signsXor
  let sameSignLt ← bcAnd signsEq ult
  bcOr aNegXPos sameSignLt

def bcSle (a x : List Bit) : StateM B Bit := do
  let sgt ← bcSlt x a
  bcNot sgt

end

def bcXorVec (a x : List Bit) : StateM B (List Bit) := (a.zip x).mapM fun p => bcXor p.1 p.2

def bcAndVec (a x : List Bit) : StateM B (List Bit) := (a.zip x).mapM fun p => bcAnd p.1 p.2

def bcOrVec (a x : List Bit) : StateM B (List Bit) := (a.zip x).mapM fun p => bcOr p.1 p.2

end
end VolarIR.Lir
