import VolarIR.Field.TypeTable
import Mathlib.Logic.Function.Iterate
import Mathlib.Algebra.Order.Ring.Nat

/-!
# Extension fields

The coefficient arithmetic of `field.rs`, generic in the ring of its bits, and the
irreducibility test that guards interning.
-/
namespace VolarIR

structure BitRing (B : Type) where
  and : B → B → B
  xor : B → B → B
  zero : B
  one : B

def boolBits : BitRing Bool := ⟨Bool.and, Bool.xor, false, true⟩

inductive WrappedDesc where
  | bit
  | field (degree : ℕ) (irreducible : List U64) (wrapped : WrappedDesc) (width : ℕ)
  deriving DecidableEq, Repr

structure FieldDesc where
  degree : ℕ
  irreducible : List U64
  wrapped : WrappedDesc
  width : ℕ
  deriving DecidableEq, Repr

def WrappedDesc.width : WrappedDesc → ℕ
  | .bit => 1
  | .field _ _ _ width => width

def FieldDesc.wrap (field : FieldDesc) : WrappedDesc :=
  .field field.degree field.irreducible field.wrapped field.width

section
variable {B : Type} (ops : BitRing B)

def zeros (n : ℕ) : List B := List.replicate n ops.zero

/-- `width` bits from `start` on, zeros past the end. -/
def sliceOrPad (bits : List B) (start width : ℕ) : List B :=
  (List.range width).map fun offset => bits.getD (start + offset) ops.zero

def splitCoeffs (bits : List B) (degree width : ℕ) : List (List B) :=
  (List.range degree).map fun index => sliceOrPad ops bits (index * width) width

def coeffAdd (lhs rhs : List B) : List B :=
  (List.range (max lhs.length rhs.length)).map fun index =>
    ops.xor (lhs.getD index ops.zero) (rhs.getD index ops.zero)

def coeffConst (value : U64) (width : ℕ) : List B :=
  (List.range width).map fun index => if value.getLsbD index then ops.one else ops.zero

/-- Multiply by the root: shift up and fold the coefficient that falls off. -/
def xtimeWith (mul : List B → List B → List B) (irreducible : List U64) (width : ℕ)
    (coeffs : List (List B)) : List (List B) :=
  let overflow := coeffs.getLastD []
  List.zipWith (fun next r => coeffAdd ops next (mul overflow (coeffConst ops r width)))
    (zeros ops width :: coeffs.dropLast) irreducible

/-- One row of the product for each coefficient of `right`. -/
def mulRows (mul : List B → List B → List B) (irreducible : List U64) (width : ℕ) :
    (right acc shifted : List (List B)) → List (List B)
  | [], acc, _ => acc
  | rightCoeff :: right, acc, shifted =>
      mulRows mul irreducible width right
        (List.zipWith (fun a s => coeffAdd ops a (mul s rightCoeff)) acc shifted)
        (xtimeWith ops mul irreducible width shifted)

/-- The product modulo the polynomial, with `mul` multiplying coefficients. -/
def fieldMulWith (mul : List B → List B → List B) (degree : ℕ) (irreducible : List U64)
    (width : ℕ) (lhs rhs : List B) : List B :=
  (mulRows ops mul irreducible width (splitCoeffs ops rhs degree width)
    (List.replicate degree (zeros ops width)) (splitCoeffs ops lhs degree width)).flatten

def coeffMul : WrappedDesc → List B → List B → List B
  | .bit, lhs, rhs => [ops.and (lhs.headD ops.zero) (rhs.headD ops.zero)]
  | .field degree irreducible wrapped _, lhs, rhs =>
      fieldMulWith ops (coeffMul wrapped) degree irreducible wrapped.width lhs rhs

def fieldMulDesc (lhs rhs : List B) (field : FieldDesc) : List B :=
  fieldMulWith ops (coeffMul ops field.wrapped) field.degree field.irreducible
    field.wrapped.width lhs rhs

def invStep (field : FieldDesc) (squareResult : List B × List B) : List B × List B :=
  let square := fieldMulDesc ops squareResult.1 squareResult.1 field
  (square, fieldMulDesc ops squareResult.2 square field)

/-- `a^(2^w - 2)` as the product of `a^(2^k)` for `k = 1 .. w-1`. -/
def fieldInv (elem : List B) (field : FieldDesc) : List B :=
  if field.width ≤ 1 then elem
  else
    let square := fieldMulDesc ops elem elem field
    ((invStep ops field)^[field.width - 2] (square, square)).2

/-- Over `Bit` the divisor is one; over a tower multiply by the inverse. -/
def coeffDiv (lhs rhs : List B) : WrappedDesc → List B
  | .bit => lhs
  | .field degree irreducible wrapped width =>
      let field : FieldDesc := ⟨degree, irreducible, wrapped, width⟩
      fieldMulDesc ops lhs (fieldInv ops rhs field) field

end

def elemIsZero (elem : List Bool) : Bool := elem.all fun bit => !bit

def u64Elem (value : U64) (width : ℕ) : List Bool := coeffConst boolBits value width

def polyDegree (poly : List (List Bool)) : Option ℕ :=
  (List.range poly.length).reverse.find? fun index => !elemIsZero (poly.getD index [])

/-- `poly[at] += term`. -/
def addAt (poly : List (List Bool)) (index : ℕ) (term : List Bool) : List (List Bool) :=
  poly.modify index fun coeff => coeffAdd boolBits coeff term

/-- Add `factor * x^shift * poly`, coefficient by coefficient. -/
def addShifted (wrapped : WrappedDesc) (factor : List Bool) (shift : ℕ)
    (poly rest : List (List Bool)) : List (List Bool) :=
  poly.zipIdx.foldl (fun rest (coeff, index) =>
    addAt rest (index + shift) (coeffMul boolBits wrapped factor coeff)) rest

def polyModFrom (wrapped : WrappedDesc) (modulus : List (List Bool)) :
    (fuel : ℕ) → (rest : List (List Bool)) → List (List Bool)
  | 0, rest => rest
  | fuel + 1, rest =>
      match polyDegree rest with
      | none => rest
      | some top =>
          if top < modulus.length - 1 then rest
          else polyModFrom wrapped modulus fuel
            (addShifted wrapped (rest.getD top []) (top - (modulus.length - 1)) modulus rest)

def polyMod (wrapped : WrappedDesc) (value modulus : List (List Bool)) : List (List Bool) :=
  let degree := modulus.length - 1
  let rest := (polyModFrom wrapped modulus value.length value).take degree
  rest ++ List.replicate (degree - rest.length) (u64Elem 0 wrapped.width)

def polyMulMod (wrapped : WrappedDesc) (lhs rhs modulus : List (List Bool)) :
    List (List Bool) :=
  let product := List.replicate (lhs.length + rhs.length) (u64Elem 0 wrapped.width)
  let product := lhs.zipIdx.foldl (fun product (left, i) =>
    if elemIsZero left then product
    else rhs.zipIdx.foldl (fun product (right, j) =>
      if elemIsZero right then product
      else addAt product (i + j) (coeffMul boolBits wrapped left right)) product) product
  polyMod wrapped product modulus

/-- `times` rounds of `qBits` squarings. -/
def frobeniusPow (wrapped : WrappedDesc) (base : List (List Bool)) (times qBits : ℕ)
    (modulus : List (List Bool)) : List (List Bool) :=
  (fun acc => (fun acc => polyMulMod wrapped acc acc modulus)^[qBits] acc)^[times] base

/-- Add the coefficients of `rhs`, those past the end of `lhs` becoming its own. -/
def polyAddAssign (lhs rhs : List (List Bool)) : List (List Bool) :=
  (List.range (max lhs.length rhs.length)).map fun index =>
    if index < rhs.length then
      if (lhs.getD index []).isEmpty then rhs.getD index []
      else coeffAdd boolBits (lhs.getD index []) (rhs.getD index [])
    else lhs.getD index []

def polyRemFrom (wrapped : WrappedDesc) (rhs : List (List Bool)) (divisorDegree : ℕ) :
    (fuel : ℕ) → (rest : List (List Bool)) → List (List Bool)
  | 0, rest => rest
  | fuel + 1, rest =>
      match polyDegree rest with
      | none => rest
      | some top =>
          if top < divisorDegree then rest
          else
            let lead := coeffDiv boolBits (rest.getD top []) (rhs.getD divisorDegree []) wrapped
            polyRemFrom wrapped rhs divisorDegree fuel
              (rhs.zipIdx.foldl (fun rest (coeff, index) =>
                if elemIsZero coeff then rest
                else addAt rest (index + (top - divisorDegree))
                  (coeffMul boolBits wrapped lead coeff)) rest)

def polyRem (wrapped : WrappedDesc) (lhs rhs : List (List Bool)) : List (List Bool) :=
  match polyDegree rhs with
  | none => lhs
  | some divisorDegree => polyRemFrom wrapped rhs divisorDegree lhs.length lhs

def polyGcdFrom (wrapped : WrappedDesc) : (fuel : ℕ) → (a b : List (List Bool)) → List (List Bool)
  | 0, a, _ => a
  | fuel + 1, a, b =>
      match polyDegree b with
      | none => a
      | some _ => polyGcdFrom wrapped fuel b (polyRem wrapped a b)

def polyGcd (wrapped : WrappedDesc) (lhs rhs : List (List Bool)) : List (List Bool) :=
  polyGcdFrom wrapped (rhs.length + 1) lhs rhs

def polyIsOne (poly : List (List Bool)) : Bool :=
  polyDegree poly == some 0 &&
    match poly.head? with
    | some coeff => coeff.headD false && coeff.tail.all fun bit => !bit
    | none => false

/-- Divide out every factor `divisor`. -/
def divideOut (divisor : ℕ) : (fuel : ℕ) → (n : ℕ) → ℕ
  | 0, n => n
  | fuel + 1, n => if n % divisor = 0 then divideOut divisor fuel (n / divisor) else n

/-- Trial division by two and the odd numbers; the square saturates at `u32::MAX`. -/
def distinctPrimesFrom : (fuel n divisor : ℕ) → List ℕ
  | 0, n, _ => if n > 1 then [n] else []
  | fuel + 1, n, divisor =>
      if min (divisor * divisor) u32Max ≤ n then
        let next := divisor + if divisor = 2 then 1 else 2
        if n % divisor = 0 then divisor :: distinctPrimesFrom fuel (divideOut divisor n n) next
        else distinctPrimesFrom fuel n next
      else if n > 1 then [n] else []

def distinctPrimes (n : ℕ) : List ℕ := distinctPrimesFrom n n 2

def modulusPoly (field : FieldDesc) : List (List Bool) :=
  (List.range (field.degree + 1)).map fun index =>
    u64Elem (field.irreducible.getD index 0) field.wrapped.width

def monomialX (field : FieldDesc) : List (List Bool) :=
  (List.range field.degree).map fun index =>
    u64Elem (if index = 1 then 1 else 0) field.wrapped.width

/-- `x^(q^n) = x` modulo the polynomial, and the gcd with `x^(q^(n/r)) + x` is one for each
prime `r` of the degree. -/
def isIrreducible (field : FieldDesc) : Bool :=
  let modulus := modulusPoly field
  let x := monomialX field
  let qBits := field.wrapped.width
  let xn := frobeniusPow field.wrapped x field.degree qBits modulus
  decide (xn = x) &&
    (distinctPrimes field.degree).all fun prime =>
      let xq := frobeniusPow field.wrapped x (field.degree / prime) qBits modulus
      polyIsOne (polyGcd field.wrapped modulus (polyAddAssign xq x))

inductive ExtFieldError where
  | wrappedNotAField
  | degreeTooSmall
  | coefficientTooWide (width : ℕ)
  | badLength (expected got : ℕ)
  | notMonic
  | coefficientOutOfRange (index : ℕ)
  | reducible
  deriving DecidableEq, Repr

/-- What `wrapped` is, `fieldDesc` describing the fields. -/
def wrappedDescWith (fieldDesc : TypeId → Option FieldDesc) (table : TypeTable) (wrapped : TypeId) :
    Option WrappedDesc :=
  match table.get wrapped with
  | some (.primitive .bit) => some .bit
  | some (.extField ..) => (fieldDesc wrapped).map FieldDesc.wrap
  | _ => none

/-- Follow `wrapped` down to `Bit`; a table has no longer chain than it has entries. -/
def fieldDescFrom (table : TypeTable) : (fuel : ℕ) → TypeId → Option FieldDesc
  | 0, _ => none
  | fuel + 1, id =>
      match table.get id with
      | some (.extField wrapped degree irreducible) =>
          (wrappedDescWith (fieldDescFrom table fuel) table wrapped).map fun wrappedDesc =>
            ⟨degree, irreducible, wrappedDesc, degree * wrappedDesc.width⟩
      | _ => none

def fieldDesc (table : TypeTable) (id : TypeId) : Option FieldDesc :=
  fieldDescFrom table table.types.length id

/-- What `wrapped` is, when it is `Bit` or an extension field. -/
def wrappedDesc (table : TypeTable) (wrapped : TypeId) : Option WrappedDesc :=
  wrappedDescWith (fieldDesc table) table wrapped

def validateExtField (table : TypeTable) (wrapped : TypeId) (degree : ℕ)
    (irreducible : List U64) : Outcome ExtFieldError Unit := do
  if degree < 2 then .error (.error .degreeTooSmall)
  else match wrappedDesc table wrapped with
  | none => .error (.error .wrappedNotAField)
  | some wrappedDesc =>
      let coeffWidth := wrappedDesc.width
      if coeffWidth = 0 ∨ coeffWidth > 64 then .error (.error (.coefficientTooWide coeffWidth))
      else if irreducible.length ≠ degree + 1 then
        .error (.error (.badLength (degree + 1) irreducible.length))
      else if irreducible.getD degree 0 ≠ 1 then .error (.error .notMonic)
      else
        let limit := if coeffWidth = 64 then 2 ^ 64 - 1 else 2 ^ coeffWidth - 1
        match (irreducible.take degree).findIdx? fun coeff => decide (limit < coeff.toNat) with
        | some index => .error (.error (.coefficientOutOfRange index))
        | none =>
            if degree * coeffWidth > usizeMax then .error .panic
            else if !isIrreducible ⟨degree, irreducible, wrappedDesc, degree * coeffWidth⟩ then
              .error (.error .reducible)
            else .ok ()

/-- Intern `ExtField { wrapped, degree, irreducible }` after the check. -/
def TypeTable.extField (table : TypeTable) (wrapped : TypeId) (degree : ℕ)
    (irreducible : List U64) : Outcome ExtFieldError (TypeId × TypeTable) := do
  validateExtField table wrapped degree irreducible
  .ok (table.intern (.extField wrapped degree irreducible))

end VolarIR
