import VolarIR.Field.ExtField

/-!
# The type-directed product

`monomial_product` of `field.rs` with the widths and identities it asks for. A panic is
`none`.
-/
namespace VolarIR

def checkedMul (a b : ℕ) : Option ℕ := if a * b ≤ usizeMax then some (a * b) else none

/-- Bit width of a type; `block` and `func` have none. -/
def valueBitWidthFrom (table : TypeTable) : (fuel : ℕ) → TypeId → Option ℕ
  | 0, _ => none
  | fuel + 1, id =>
      match table.get id with
      | some (.primitive .bit) => some 1
      | some (.vec n elem) => (valueBitWidthFrom table fuel elem).bind (checkedMul n)
      | some (.tuple parts) =>
          parts.foldlM (fun sum part => (valueBitWidthFrom table fuel part).bind (checkedAdd sum)) 0
      | some (.extField wrapped degree _) =>
          (valueBitWidthFrom table fuel wrapped).bind (checkedMul degree)
      | some (.primeField k _) => some k
      | _ => none

def TypeTable.valueBitWidth (table : TypeTable) (id : TypeId) : Option ℕ :=
  valueBitWidthFrom table table.types.length id

def TypeTable.sameType (table : TypeTable) (lhs rhs : TypeId) : Bool :=
  decide (lhs = rhs) || ((table.get lhs).isSome && decide (table.get lhs = table.get rhs))

def TypeTable.wrappedTypeMatches (table : TypeTable) (factor field : TypeId) : Bool :=
  match table.get field with
  | some (.extField wrapped _ _) => table.sameType factor wrapped
  | _ => false

section
variable {B : Type} (ops : BitRing B) (table : TypeTable)

def identityBitsFrom : (fuel : ℕ) → TypeId → Option (List B)
  | 0, _ => none
  | fuel + 1, ty =>
      match table.get ty with
      | some (.primitive .bit) => some [ops.one]
      | some (.vec n elem) =>
          (identityBitsFrom fuel elem).map fun lane => (List.replicate n lane).flatten
      | some (.extField ..) | some (.primeField ..) =>
          (table.valueBitWidth ty).map fun width =>
            if width > 0 then ops.one :: zeros ops (width - 1) else []
      | some (.tuple parts) => (parts.mapM (identityBitsFrom fuel)).map List.flatten
      | _ => none

def identityBits (ty : TypeId) : Option (List B) :=
  identityBitsFrom ops table table.types.length ty

abbrev Factor (B : Type) := TypeId × List B

def bitProduct (factors : List (Factor B)) : List B :=
  [factors.foldl (fun acc factor => ops.and acc (factor.2.headD ops.zero)) ops.one]

/-- One factor of a product in an extension field: a gate, an element, or a constant. -/
def extFactor (outTy : TypeId) (desc : FieldDesc) (acc : List B) (factor : Factor B) :
    Option (List B) :=
  if table.isBit factor.1 then some (acc.map fun bit => ops.and bit (factor.2.headD ops.zero))
  else if table.sameType factor.1 outTy then some (fieldMulDesc ops acc factor.2 desc)
  else if table.wrappedTypeMatches factor.1 outTy then
    let coeff := factor.2.take desc.wrapped.width
    some (fieldMulDesc ops acc (coeff ++ zeros ops (desc.width - coeff.length)) desc)
  else none

/-- What each lane multiplies: the slices of the vectors, then the broadcast factors. -/
def laneFactors (outTy elem : TypeId) (laneWidth lane : ℕ) (factors : List (Factor B)) :
    Option (List (Factor B)) :=
  if factors.all fun factor => table.sameType factor.1 outTy || table.sameType factor.1 elem ||
      table.isBit factor.1 then
    some (((factors.filter fun factor => table.sameType factor.1 outTy).map fun factor =>
        (elem, sliceOrPad ops factor.2 (lane * laneWidth) laneWidth)) ++
      factors.filter fun factor => !table.sameType factor.1 outTy)
  else none

/-- The product of `factors` in the ring of `outTy`; no factor at all is the identity. -/
def monomialProductFrom : (fuel : ℕ) → (outTy : TypeId) → List (Factor B) → Option (List B)
  | 0, _, _ => none
  | fuel + 1, outTy, factors =>
      match table.get outTy with
      | some (.primitive .bit) => some (bitProduct ops factors)
      | some (.vec n elem) => do
          let laneWidth ← table.valueBitWidth elem
          let lanes ← (List.range n).mapM fun lane => do
            monomialProductFrom fuel elem
                (← laneFactors ops table outTy elem laneWidth lane factors)
          some lanes.flatten
      | some (.extField ..) => do
          let desc ← fieldDesc table outTy
          let acc ← identityBits ops table outTy
          factors.foldlM (extFactor ops table outTy desc) acc
      | _ => none

def monomialProduct (outTy : TypeId) (factors : List (Factor B)) : Option (List B) :=
  monomialProductFrom ops table table.types.length outTy factors

end

def mulIdentity (table : TypeTable) (ty : TypeId) : Option (List Bool) :=
  identityBits boolBits table ty

end VolarIR
