import VolarIR.Lir.Circuits
import VolarIR.Common.PolyCoeffs
import VolarIR.Ir.Syntax
import VolarIR.Library.Bits
import Mathlib.Data.List.Sort

/-!
# The VAFFLE target

The part of `VaffleTarget` that emits integer operations: the folding bit builder, the wide
bitwise operations, the calls of circuit helpers, and the operations of `LirTarget` at integer
types. A value is the list of its bits, low bit first.
-/
namespace VolarIR.Vaffle
open Common Lir

/-! ## Values and circuit helpers

The values the integer operations emit, and the functions that `circuit_helpers.rs` builds
for them. A type is the width of a bit vector, and a value is named by its place in the
arena. -/

/-- `Bit`, or `Vec(n, Bit)`. -/
inductive BitsType where
  | bit
  | vec (n : ℕ)
  deriving DecidableEq, Repr

namespace BitsType

def width : BitsType → ℕ
  | bit => 1
  | vec n => n

end BitsType

def widthType : ℕ → BitsType
  | 1 => .bit
  | n => .vec n

/-- A value of the arena. `other` stands for every value that these operations do not emit:
a storage read, an oracle's answer, a pointer. -/
inductive Value where
  | param (ty : BitsType) (idx : ℕ)
  | const (c : Constant) (ty : BitsType)
  | poly (ty : BitsType) (coeffs : PolyCoeffs ℕ) (constant : Constant)
  | merge (parts : List ℕ) (ty : BitsType)
  | shuffle (resultBits : List (U8 × ℕ)) (ty : BitsType)
  | call (func : ℕ) (args : List ℕ)
  | output (value idx : ℕ)
  | other
  deriving DecidableEq, Repr

def lowConstant (lo : BitVec 128) : Constant := ⟨0, lo⟩

def boolConstant (b : Bool) : Constant := lowConstant (if b then 1 else 0)

structure HelperBuilder where
  values : List Value

namespace HelperBuilder

def emit (val : Value) : StateM HelperBuilder ℕ :=
  fun b => (b.values.length, ⟨b.values ++ [val]⟩)

def bcPoly (coeffs : PolyCoeffs ℕ) (constant : BitVec 128) : StateM HelperBuilder ℕ :=
  emit (.poly .bit coeffs (lowConstant constant))

/-- The gates are the default ones of the trait. -/
instance : BitCircuitBuilder HelperBuilder ℕ where
  bcConst val := emit (.const (boolConstant val) .bit)
  bcXor a b := bcPoly (.fromIter [([a], 1), ([b], 1)]) 0
  bcAnd a b := bcPoly (.fromIter [(sortPair a b, 1)]) 0
  bcNot a := bcPoly (.fromIter [([a], 1)]) 1
  bcCarry3 a b c :=
    bcPoly (.fromIter [(sortPair a b, 1), (sortPair a c, 1), (sortPair b c, 1)]) 0

end HelperBuilder

inductive HelperOp where
  | add | sub | mul | udiv | sdiv | urem | srem
  /-- Quotient and remainder in one result. -/
  | udivRem | sdivRem
  | shl | lshr | ashr
  | and | or | xor | not
  | eq | ne | ult | ule | slt | sle
  deriving DecidableEq, Repr

structure HelperKey where
  op : HelperOp
  widths : List ℕ
  deriving DecidableEq, Repr

def helperResultWidth (op : HelperOp) (widths : List ℕ) : ℕ :=
  match op with
  | .eq | .ne | .ult | .ule | .slt | .sle => 1
  | .udivRem | .sdivRem => widths.headD 0 * 2
  | _ => widths.headD 0

structure FuncBody where
  params : List BitsType
  result : BitsType
  values : List Value
  ret : ℕ
  deriving DecidableEq, Repr

def explode (src n : ℕ) : StateM HelperBuilder (List ℕ) :=
  if n ≤ 1 then return [src]
  else (List.range n).mapM fun i =>
    HelperBuilder.emit (.shuffle [(BitVec.ofNat 8 i, src)] .bit)

section
variable {B Bit : Type} [BitCircuitBuilder B Bit] [Inhabited Bit]

/-- The circuit of an operation, on its operands. -/
def evalOp (op : HelperOp) (operands : List (List Bit)) : StateM B (List Bit) :=
  let a := operands.getD 0 []
  let x := operands.getD 1 []
  match op with
  | .add => bcAdd a x false
  | .sub => bcSub a x
  | .mul => bcMul a x
  | .udiv => bcUdiv a x
  | .sdiv => bcSdiv a x
  | .urem => bcUrem a x
  | .srem => bcSrem a x
  | .udivRem => do
      let (q, r) ← bcUdivrem a x
      return q ++ r
  | .sdivRem => do
      let (q, r) ← bcSdivrem a x
      return q ++ r
  | .shl => bcShl a x
  | .lshr => bcLshr a x
  | .ashr => bcAshr a x
  | .and => bcAndVec a x
  | .or => bcOrVec a x
  | .xor => bcXorVec a x
  | .not => bcNotVec a
  | .eq => do return [← bcEq a x]
  | .ne => do return [← bcNe a x]
  | .ult => do return [← bcUlt a x]
  | .ule => do return [← bcUle a x]
  | .slt => do return [← bcSlt a x]
  | .sle => do return [← bcSle a x]

end

/-- The statements of a helper, and the value it returns. -/
def helperBody (op : HelperOp) (widths : List ℕ) : StateM HelperBuilder ℕ := do
  let operands ← widths.zipIdx.mapM fun p => explode p.2 p.1
  let resultBits ← evalOp op operands
  if resultBits.length = 1 then return resultBits.headD 0
  else HelperBuilder.emit (.merge resultBits (widthType (helperResultWidth op widths)))

def buildHelperBody (op : HelperOp) (widths : List ℕ) : FuncBody :=
  let params := widths.map widthType
  let r := helperBody op widths ⟨params.mapIdx fun idx ty => .param ty idx⟩
  ⟨params, widthType (helperResultWidth op widths), r.2.values, r.1⟩

inductive CircuitHelperMode where
  | inline
  | extract
  deriving DecidableEq, Repr

inductive FuncDecl where
  | body (b : FuncBody)
  | other
  deriving DecidableEq, Repr

structure ArenaNode where
  kind : Value
  side : Option SideId
  deriving DecidableEq, Repr

def HelpersBuilt (funcs : List FuncDecl) (cache : HelperKey → Option ℕ) : Prop :=
  ∀ key id, cache key = some id →
    funcs[id]? = some (.body (buildHelperBody key.op key.widths))

structure VaffleTarget where
  funcs : List FuncDecl
  values : List ArenaNode
  currentSide : Option SideId
  /-- `vc_public_side`. -/
  publicSide : Option SideId
  helperMode : CircuitHelperMode
  helperCache : HelperKey → Option ℕ
  built : HelpersBuilt funcs helperCache

theorem helpersBuilt_nil : HelpersBuilt [] fun _ => none := by
  intro key id hid
  cases hid

theorem HelpersBuilt.push {funcs : List FuncDecl} {cache : HelperKey → Option ℕ}
    (h : HelpersBuilt funcs cache) (key : HelperKey) :
    HelpersBuilt (funcs ++ [.body (buildHelperBody key.op key.widths)])
      (Function.update cache key (some funcs.length)) := by
  intro key' id hid
  by_cases hkey : key' = key
  · rw [hkey, Function.update_self] at hid
    rw [hkey, ← Option.some.inj hid, List.getElem?_concat_length]
  · rw [Function.update_of_ne hkey] at hid
    have hold := h key' id hid
    rw [List.getElem?_append_left (List.getElem?_eq_some_iff.mp hold).choose]
    exact hold

namespace VaffleTarget

def emitValue (val : Value) : StateM VaffleTarget ℕ :=
  fun t => (t.values.length, { t with values := t.values ++ [⟨val, t.currentSide⟩] })

def kind (t : VaffleTarget) (id : ℕ) : Value := (t.values[id]?.map ArenaNode.kind).getD .other

def sideOf (t : VaffleTarget) (id : ℕ) : Option SideId := (t.values[id]?.map ArenaNode.side).join

def setNodeSide (side : Option SideId) (id : ℕ) : StateM VaffleTarget Unit :=
  modify fun t => { t with values := t.values.modify id fun node => { node with side } }

def emitConst (val : Constant) (ty : BitsType) : StateM VaffleTarget ℕ := emitValue (.const val ty)

def constBit (t : VaffleTarget) (id : ℕ) : Option Bool :=
  match t.kind id with
  | .const c _ => some (c.lo.getLsbD 0)
  | _ => none

/-- `const_u64`, at least; a longer vector is not read. -/
def constU64 (t : VaffleTarget) (bits : List ℕ) : Option ℕ :=
  if 64 < bits.length then none else (bits.mapM t.constBit).map Bits.value

def isPublicConst (t : VaffleTarget) (bits : List ℕ) (value : ℕ) : Bool :=
  t.constU64 bits = some value && bits.all fun id => t.sideOf id = t.publicSide

def dedup : List ℕ → List ℕ
  | a :: b :: l => if a = b then dedup (b :: l) else a :: dedup (b :: l)
  | l => l

/-- A monomial without its constant factors; `none` when one of them is zero. -/
def keptFactors (t : VaffleTarget) (mono : List ℕ) : Option (List ℕ) :=
  if mono.any fun f => t.constBit f = some false then none
  else some (dedup ((mono.filter fun f => (t.constBit f).isNone).insertionSort (· ≤ ·)))

/-- One monomial folded into the terms so far and the constant. -/
def foldTerm (t : VaffleTarget) (acc : SortedMap (List ℕ) U8 × Bool) (e : List ℕ × U8) :
    SortedMap (List ℕ) U8 × Bool :=
  if e.2.getLsbD 0 then
    match t.keptFactors e.1 with
    | none => acc
    | some [] => (acc.1, !acc.2)
    | some keep => (acc.1.upsert keep fun o => o.getD 0 ^^^ 1, acc.2)
  else acc

def collect (folded : SortedMap (List ℕ) U8) : PolyCoeffs ℕ :=
  folded.entries.foldl (fun out e => if e.2.getLsbD 0 then (out.insert e.1 1).2 else out) .new

def emitFolded (out : PolyCoeffs ℕ) (konst : Bool) : StateM VaffleTarget ℕ :=
  match out.iter, konst with
  | [], _ => emitConst (boolConstant konst) .bit
  | [([v], _)], false => return v
  | _, _ => emitValue (.poly .bit out (boolConstant konst))

def bcPoly (coeffs : PolyCoeffs ℕ) (constant : BitVec 128) : StateM VaffleTarget ℕ := do
  let t ← get
  let (folded, konst) := coeffs.iter.foldl t.foldTerm (SortedMap.ofList [], constant.getLsbD 0)
  emitFolded (collect folded) konst

/-- Monomials inserted one after another; a key that is there already takes the new
coefficient. -/
def monomials (keys : List (List ℕ)) : PolyCoeffs ℕ :=
  keys.foldl (fun c key => (c.insert key 1).2) .new

instance : BitCircuitBuilder VaffleTarget ℕ where
  bcConst val := emitConst (boolConstant val) .bit
  bcXor a b :=
    if a = b then emitConst (boolConstant false) .bit else bcPoly (monomials [[a], [b]]) 0
  bcAnd a b := if a = b then return a else bcPoly (monomials [sortPair a b]) 0
  bcNot a := bcPoly (monomials [[a]]) 1
  bcCarry3 a b c := bcPoly (monomials [sortPair a b, sortPair a c, sortPair b c]) 0

def composeAddress (bits : List ℕ) : StateM VaffleTarget ℕ :=
  match bits with
  | [b] => return b
  | bits => emitValue (.merge bits (.vec bits.length))

def extractBit (word : ℕ) (idx : ℕ) : StateM VaffleTarget ℕ :=
  emitValue (.shuffle [(BitVec.ofNat 8 idx, word)] .bit)

inductive WideBinOp where
  | and | or | xor
  deriving DecidableEq, Repr

/-- The monomials of `a & b = ab`, `a | b = a + b + ab` and `a ^ b = a + b`. -/
def WideBinOp.keys (op : WideBinOp) (lhs rhs : ℕ) : List (List ℕ) :=
  match op with
  | xor => [[lhs], [rhs]]
  | and => [sortPair lhs rhs]
  | or => [[lhs], [rhs], sortPair lhs rhs]

/-- One statement for all bits, at widths from 2 to 64. -/
def emitWideBinopPoly (lhsBits rhsBits : List ℕ) (op : WideBinOp) (width : ℕ) :
    StateM VaffleTarget (Option (List ℕ)) := do
  if width ≤ 1 ∨ 64 < width then return none
  let lhs ← composeAddress lhsBits
  let rhs ← composeAddress rhsBits
  let wide ← emitValue (.poly (.vec width) (monomials (op.keys lhs rhs)) .zero)
  return some (← (List.range width).mapM (extractBit wide))

def allOnes (width : ℕ) : Constant := lowConstant (BitVec.ofNat 128 (2 ^ width - 1))

def emitWideNotPoly (bits : List ℕ) (width : ℕ) : StateM VaffleTarget (Option (List ℕ)) := do
  if width ≤ 1 ∨ 64 < width then return none
  let wide ← composeAddress bits
  let wide ← emitValue (.poly (.vec width) (monomials [[wide]]) (allOnes width))
  return some (← (List.range width).mapM (extractBit wide))

/-- The id of a helper, which is built on its first use. -/
def internCircuitHelper (op : HelperOp) (widths : List ℕ) : StateM VaffleTarget ℕ := do
  let t ← get
  match t.helperCache ⟨op, widths⟩ with
  | some id => return id
  | none =>
      set { t with
        funcs := t.funcs ++ [FuncDecl.body (buildHelperBody op widths)],
        helperCache := Function.update t.helperCache ⟨op, widths⟩ (some t.funcs.length),
        built := t.built.push ⟨op, widths⟩ }
      return t.funcs.length

def mergeOperand (bits : List ℕ) : StateM VaffleTarget ℕ :=
  if bits.length ≤ 1 then return bits.headD 0
  else emitValue (.merge bits (widthType bits.length))

/-- The projections of a call of the helper. -/
def callHelper (op : HelperOp) (operands : List (List ℕ)) : StateM VaffleTarget (List ℕ) := do
  let widths := operands.map List.length
  let func ← internCircuitHelper op widths
  let args ← operands.mapM mergeOperand
  let call ← emitValue (.call func args)
  (List.range (helperResultWidth op widths)).mapM fun i => emitValue (.output call i)

def extractBits (op : HelperOp) (operands : List (List ℕ)) :
    StateM VaffleTarget (Option (List ℕ)) := do
  if (← get).helperMode ≠ .extract then return none
  return some (← callHelper op operands)

/-- The helper's result in extract mode, the circuit in the block otherwise. -/
def extractOr (op : HelperOp) (operands : List (List ℕ)) (circuit : StateM VaffleTarget (List ℕ)) :
    StateM VaffleTarget (List ℕ) := do
  match ← extractBits op operands with
  | some bits => return bits
  | none => circuit

def add (lhs rhs : List ℕ) : StateM VaffleTarget (List ℕ) :=
  extractOr .add [lhs, rhs] (bcAdd lhs rhs false)

def sub (lhs rhs : List ℕ) : StateM VaffleTarget (List ℕ) :=
  extractOr .sub [lhs, rhs] (bcSub lhs rhs)

/-- A constant on the public side that decides the result alone. -/
def annihilated (lhs rhs : List ℕ) (value : ℕ) (bit : Bool)
    (other : StateM VaffleTarget (List ℕ)) : StateM VaffleTarget (List ℕ) := do
  let t ← get
  if lhs.length ≤ 64 ∧ (t.isPublicConst lhs value ∨ t.isPublicConst rhs value) then
    let bits ← bcConsts lhs.length bit
    bits.forM (setNodeSide t.publicSide)
    return bits
  else other

def mul (lhs rhs : List ℕ) : StateM VaffleTarget (List ℕ) :=
  annihilated lhs rhs 0 false (extractOr .mul [lhs, rhs] (bcMul lhs rhs))

def udiv (lhs rhs : List ℕ) : StateM VaffleTarget (List ℕ) := do
  match ← extractBits .udivRem [lhs, rhs] with
  | some full => return full.take lhs.length
  | none => bcUdiv lhs rhs

def sdiv (lhs rhs : List ℕ) : StateM VaffleTarget (List ℕ) := do
  match ← extractBits .sdivRem [lhs, rhs] with
  | some full => return full.take lhs.length
  | none => bcSdiv lhs rhs

/-- A wide statement where there is one, bit by bit otherwise. -/
def wideOr (wide : StateM VaffleTarget (Option (List ℕ)))
    (bitwise : StateM VaffleTarget (List ℕ)) : StateM VaffleTarget (List ℕ) := do
  match ← wide with
  | some bits => return bits
  | none => bitwise

def and (lhs rhs : List ℕ) : StateM VaffleTarget (List ℕ) :=
  extractOr .and [lhs, rhs] <| annihilated lhs rhs 0 false <|
    wideOr (emitWideBinopPoly lhs rhs .and lhs.length) (bcAndVec lhs rhs)

def or (lhs rhs : List ℕ) : StateM VaffleTarget (List ℕ) :=
  extractOr .or [lhs, rhs] <| annihilated lhs rhs (2 ^ min lhs.length 64 - 1) true <|
    wideOr (emitWideBinopPoly lhs rhs .or lhs.length) (bcOrVec lhs rhs)

def xor (lhs rhs : List ℕ) : StateM VaffleTarget (List ℕ) :=
  extractOr .xor [lhs, rhs] <|
    wideOr (emitWideBinopPoly lhs rhs .xor lhs.length) (bcXorVec lhs rhs)

def not (val : List ℕ) : StateM VaffleTarget (List ℕ) :=
  extractOr .not [val] <| wideOr (emitWideNotPoly val val.length) (bcNotVec val)

def shl (val shift : List ℕ) : StateM VaffleTarget (List ℕ) :=
  extractOr .shl [val, shift] (bcShl val shift)

def lshr (val shift : List ℕ) : StateM VaffleTarget (List ℕ) :=
  extractOr .lshr [val, shift] (bcLshr val shift)

def ashr (val shift : List ℕ) : StateM VaffleTarget (List ℕ) :=
  extractOr .ashr [val, shift] (bcAshr val shift)

end VaffleTarget

inductive IcmpPred where
  | eq | ne | ult | ule | ugt | uge | slt | sle | sgt | sge
  deriving DecidableEq, Repr

def IcmpPred.helper : IcmpPred → HelperOp × Bool
  | eq => (.eq, false)
  | ne => (.ne, false)
  | ult => (.ult, false)
  | ule => (.ule, false)
  | ugt => (.ult, true)
  | uge => (.ule, true)
  | slt => (.slt, false)
  | sle => (.sle, false)
  | sgt => (.slt, true)
  | sge => (.sle, true)

namespace VaffleTarget

def icmpBit (pred : IcmpPred) (lhs rhs : List ℕ) : StateM VaffleTarget ℕ :=
  match pred with
  | .eq => bcEq lhs rhs
  | .ne => bcNe lhs rhs
  | .ult => bcUlt lhs rhs
  | .ule => bcUle lhs rhs
  | .ugt => bcUlt rhs lhs
  | .uge => bcUle rhs lhs
  | .slt => bcSlt lhs rhs
  | .sle => bcSle lhs rhs
  | .sgt => bcSlt rhs lhs
  | .sge => bcSle rhs lhs

def icmp (pred : IcmpPred) (lhs rhs : List ℕ) : StateM VaffleTarget (List ℕ) :=
  extractOr pred.helper.1 (if pred.helper.2 then [rhs, lhs] else [lhs, rhs]) do
    return [← icmpBit pred lhs rhs]

end VaffleTarget
end VolarIR.Vaffle
