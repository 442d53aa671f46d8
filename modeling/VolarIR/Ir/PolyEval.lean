import VolarIR.Field.Product
import VolarIR.Ir.Syntax

/-!
# The value of a polynomial statement

The three readings of a `Poly` in `volar-fuzz/src/interpreter/ir.rs`: a sum modulo a prime
(`eval_prime_poly` of `prime.rs`), a bitwise polynomial over `Bit` lanes, and a sum of
type-directed products. A panic is `none`. A constant has no bit from 256 on, as where a `Poly`
is lowered (`constant_bits` of `lower_to_native.rs`) and folded (`constant_to_bits`). The
interpreter's own reader of constants shifts the upper half by `k - 128` there, which panics, or
without overflow checks reads the upper half again.
-/
namespace VolarIR

/-- `bit_width` of the interpreter; block and function ids take 32 bits. -/
def bitWidthFrom (table : TypeTable) : (fuel : ℕ) → TypeId → ℕ
  | 0, _ => 0
  | fuel + 1, ty =>
      match table.get ty with
      | some (.primitive .bit) => 1
      | some (.vec n elem) => n * bitWidthFrom table fuel elem
      | some (.tuple parts) => (parts.map (bitWidthFrom table fuel)).sum
      | some (.block _) | some (.func ..) => 32
      | some (.extField wrapped degree _) => degree * bitWidthFrom table fuel wrapped
      | some (.primeField k _) => k
      | none => 0

def TypeTable.bitWidth (table : TypeTable) (ty : TypeId) : ℕ :=
  bitWidthFrom table table.types.length ty

/-- A prime field, or a vector or tuple with one inside. -/
def containsPrimeFieldFrom (table : TypeTable) : (fuel : ℕ) → TypeId → Bool
  | 0, _ => false
  | fuel + 1, ty =>
      match table.get ty with
      | some (.primeField ..) => true
      | some (.vec _ elem) => containsPrimeFieldFrom table fuel elem
      | some (.tuple parts) => parts.any (containsPrimeFieldFrom table fuel)
      | _ => false

def TypeTable.containsPrimeField (table : TypeTable) (ty : TypeId) : Bool :=
  containsPrimeFieldFrom table table.types.length ty

/-- Whether `v * v = v` for every value of the type. -/
def mulIsIdempotentFrom (table : TypeTable) : (fuel : ℕ) → TypeId → Bool
  | 0, _ => false
  | fuel + 1, ty =>
      match table.get ty with
      | some (.primitive _) => true
      | some (.vec _ elem) => mulIsIdempotentFrom table fuel elem
      | some (.tuple parts) => parts.all (mulIsIdempotentFrom table fuel)
      | _ => false

def TypeTable.mulIsIdempotent (table : TypeTable) (ty : TypeId) : Bool :=
  mulIsIdempotentFrom table table.types.length ty

section
variable {W : Type} (sink : FieldSink W) (table : TypeTable)

abbrev Term (W : Type) := List (Factor W) × U8

def sliceWires (bits : List W) (start width : ℕ) : List W :=
  (List.range width).map fun offset => bits.getD (start + offset) sink.zero

/-- What one part of a compound type multiplies: its slice of a whole factor, or a factor
spread over the parts. -/
def partFactor (ty part : TypeId) (start width : ℕ) (factor : Factor W) : Option (Factor W) :=
  if table.sameType factor.1 ty then some (part, sliceWires sink factor.2 start width)
  else if table.sameType factor.1 part || table.isBit factor.1 then some factor
  else none

def partTerms (ty part : TypeId) (start width : ℕ) (terms : List (Term W)) :
    Option (List (Term W)) :=
  terms.mapM fun term => do
    some (← term.1.mapM (partFactor sink table ty part start width), term.2)

def fieldDigits (ty : TypeId) (width : ℕ) (factor : Factor W) : Option (List W) :=
  if table.isBit factor.1 then
    some ((List.replicate width sink.zero).set 0 (factor.2.headD sink.zero))
  else if table.sameType factor.1 ty then some (sliceWires sink factor.2 0 width)
  else none

def fieldProduct (ty : TypeId) (spec : PrimeSpec) (factors : List (Factor W)) :
    Option (List W) :=
  factors.foldlM (fun product factor => do
      some (solinasMul sink product (← fieldDigits sink table ty spec.k factor) spec))
    ((List.replicate spec.k sink.zero).set 0 sink.one)

def addFieldTerm (ty : TypeId) (spec : PrimeSpec) (acc : List W) (term : Term W) :
    Option (List W) :=
  if repetitionResidue term.2 spec = 0 then some acc
  else do
    some (solinasRepeat sink acc (← fieldProduct sink table ty spec term.1) term.2 spec)

/-- `eval_prime_poly`: vectors and tuples unroll to their parts. -/
def evalPrimePolyFrom : (fuel : ℕ) → TypeId → (constant : List W) → List (Term W) →
    Option (List W)
  | 0, _, _, _ => none
  | fuel + 1, ty, constant, terms =>
      match table.get ty with
      | some (.vec count elem) => do
          let laneW ← table.valueBitWidth elem
          let lanes ← (List.range count).mapM fun lane => do
            evalPrimePolyFrom fuel elem (sliceWires sink constant (lane * laneW) laneW)
              (← partTerms sink table ty elem (lane * laneW) laneW terms)
          some lanes.flatten
      | some (.tuple parts) => do
          let (out, _) ← parts.foldlM (fun (out, offset) part => do
            let partW ← table.valueBitWidth part
            let bits ← evalPrimePolyFrom fuel part (sliceWires sink constant offset partW)
              (← partTerms sink table ty part offset partW terms)
            some (out ++ bits, offset + partW)) (([] : List W), 0)
          some out
      | some (.primeField k n) =>
          let zeros := List.replicate k sink.zero
          terms.foldlM (addFieldTerm sink table ty ⟨k, n⟩)
            (solinasAdd sink (sliceWires sink constant 0 k) zeros ⟨k, n⟩)
      | _ => none

def evalPrimePoly (ty : TypeId) (constant : List W) (terms : List (Term W)) : Option (List W) :=
  evalPrimePolyFrom sink table table.types.length ty constant terms

end

namespace Ir

/-- What the interpreter knows of one var: its bits, low bit first, its type unless the
statement only stores, and the results of a call. -/
structure Value where
  bits : List Bool
  ty : Option TypeId
  outputs : List (List Bool)
  deriving DecidableEq, Repr

instance : Inhabited Value := ⟨⟨[], none, []⟩⟩

namespace Value

def factor (v : Value) : Option (Factor Bool) := v.ty.map fun ty => (ty, v.bits)

/-- Bit `k`; the single bit of a scalar stands at every position. -/
def lane (v : Value) (k : ℕ) : Bool :=
  if v.bits.length = 1 then v.bits.headD false else v.bits.getD k false

end Value

/-- `constant_bits`: zeros above the 256 bits of a constant. -/
def constBits (c : Constant) (width : ℕ) : List Bool := (List.range width).map c.bit

def odd (c : U8) : Bool := c.getLsbD 0

abbrev ValueTerm := List Value × U8

/-- `eval_poly`: the polynomial over GF(2) at each bit position. -/
def evalBitPoly (constant : Constant) (width : ℕ) (terms : List ValueTerm) : List Bool :=
  (List.range width).map fun k =>
    terms.foldl (fun acc term => if odd term.2 then acc ^^ term.1.all (·.lane k) else acc)
      (constant.bit k)

def xorInto (acc product : List Bool) : List Bool :=
  acc.mapIdx fun i b => b ^^ product.getD i false

/-- `eval_typed_poly`: products in the ring of the type, summed by XOR. -/
def evalTypedPoly (table : TypeTable) (ty : TypeId) (constant : Constant)
    (terms : List ValueTerm) : Option (List Bool) :=
  terms.foldlM (fun acc term =>
      if odd term.2 then do
        let factors ← term.1.mapM Value.factor
        let product ← monomialProduct boolBits table ty factors
        some (xorInto acc product)
      else some acc)
    (constBits constant (table.bitWidth ty))

/-- The value of a polynomial, by the type of its result. -/
def evalTerms (table : TypeTable) (ty : TypeId) (constant : Constant)
    (terms : List ValueTerm) : Option (List Bool) :=
  let width := table.bitWidth ty
  if table.containsPrimeField ty then do
    let terms ← terms.mapM fun term => do some (← term.1.mapM Value.factor, term.2)
    evalPrimePoly boolRing table ty (constBits constant width) terms
  else if table.mulIsIdempotent ty then some (evalBitPoly constant width terms)
  else evalTypedPoly table ty constant terms

/-- The monomials of `coeffs` at the values of their vars. -/
def PolyCoeffs.terms (coeffs : PolyCoeffs) (look : ℕ → Value) : List ValueTerm :=
  coeffs.entries.map fun e => (e.1.map look, e.2)

end Ir
end VolarIR
