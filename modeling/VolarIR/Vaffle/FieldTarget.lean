import VolarIR.Vaffle.Eval
import VolarIR.Field.PrimeField

/-!
# Field types of the VAFFLE target

The operations of `LirTarget` that `VaffleTarget` has for extension and prime fields. An element
is one typed value of the arena; addition, multiplication and selection are one polynomial over
the field, comparisons and conversions go over its bits. A panic is `none`.
-/
namespace VolarIR.Vaffle
open Common Lir

abbrev U32 := BitVec 32

inductive LirType where
  | bool
  | i8 | u8 | i16 | u16 | i32 | u32 | i64 | u64 | i128 | u128 | i256 | u256
  | vector (elem : LirType) (len : ℕ)
  | arr (elem : LirType) (len : ℕ)
  | struct (id : ℕ)
  | native (t : Prim)
  | extField (wrapped : LirType) (degree : U32) (irreducible : List U64)
  | primeField (k : U32) (n : List U64)
  | ptr (elem : LirType)
  deriving DecidableEq, Repr

structure VaffleValue where
  bits : List ℕ
  ty : LirType
  deriving DecidableEq, Repr

structure ModuleLayout where
  structWidths : List ℕ
  pointerBits : ℕ
  deriving DecidableEq, Repr

namespace LirType

def isFieldTyped : LirType → Bool
  | extField .. | primeField .. => true
  | _ => false

def isPrimeField : LirType → Bool
  | primeField .. => true
  | _ => false

variable (layout : ModuleLayout)

/-- `bits_for_lir_type`: how many values a LIR value consists of. -/
def bitsFor : LirType → Option ℕ
  | bool | native _ | extField .. | primeField .. => some 1
  | i8 | u8 => some 8
  | i16 | u16 => some 16
  | i32 | u32 => some 32
  | i64 | u64 => some 64
  | i128 | u128 => some 128
  | arr elem n => elem.bitsFor.map (n * ·)
  | struct id => layout.structWidths[id]?
  | ptr _ => some layout.pointerBits
  | i256 | u256 | vector .. => none

def fieldWidth : LirType → Option ℕ
  | extField wrapped degree _ => (wrapped.bitsFor layout).map (degree.toNat * ·)
  | primeField k _ => some k.toNat
  | _ => none

/-- `Vec(n, Bit)`. -/
def internBits (n : ℕ) (table : TypeTable) : TypeId × TypeTable :=
  let (bit, table) := table.intern (.primitive .bit)
  table.intern (.vec n bit)

/-- `lir_type_to_tid`. The address type is in the table from the start. -/
def toTid : LirType → TypeTable → Option (TypeId × TypeTable)
  | i8, table | u8, table => some (internBits 8 table)
  | i16, table | u16, table => some (internBits 16 table)
  | i32, table | u32, table => some (internBits 32 table)
  | i64, table | u64, table => some (internBits 64 table)
  | native t, table => some (table.intern (.primitive t))
  | arr elem n, table => do
      let (elem, table) ← elem.toTid table
      some (table.intern (.vec n elem))
  | extField wrapped degree irreducible, table => do
      let (wrapped, table) ← wrapped.toTid table
      (table.extField wrapped degree.toNat irreducible).toOption
  | primeField k n, table => (table.primeField k.toNat n).toOption
  | struct id, table => do some (internBits (← layout.structWidths[id]?) table)
  | ptr _, table => some (internBits layout.pointerBits table)
  | bool, table | i128, table | u128, table | i256, table | u256, table | vector .., table =>
      some (table.intern (.primitive .bit))

/-- The coefficient that stands for -1 in a difference; of the prime fields only those with a
modulus up to 256 have one. -/
def negativeOne : LirType → Option U8
  | primeField k n =>
      if k.toNat ≤ 8 ∧ n.length ≤ 1 then
        let modulus := (1#16 <<< k.toNat) - (n.headD 0).setWidth 16
        if (modulus - 1).toNat < 256 then some ((modulus - 1).setWidth 8) else none
      else none
  | _ => some 1

def intOfWidth : ℕ → Option LirType
  | 8 => some u8
  | 16 => some u16
  | 32 => some u32
  | 64 => some u64
  | 128 => some u128
  | 256 => some u256
  | _ => none

end LirType

inductive FieldValue where
  | const (c : Constant) (ty : TypeId)
  | poly (ty : TypeId) (coeffs : PolyCoeffs ℕ) (constant : Constant)
  | transmute (src : ℕ) (srcTy dstTy : TypeId)
  deriving DecidableEq

def FieldValue.ty : FieldValue → TypeId
  | const _ ty | poly ty _ _ | transmute _ _ ty => ty

/-- The target with the types of its module. The arena of the target itself leaves the values
of field type open; they stand in `fields`. -/
structure FieldTarget where
  target : VaffleTarget
  fields : ℕ → Option FieldValue
  types : TypeTable
  layout : ModuleLayout

/-- Emission that may panic. -/
abbrev Emit (α : Type) := StateT FieldTarget Option α

theorem emit_pure {α : Type} (a : α) (t : FieldTarget) : (pure a : Emit α) t = some (a, t) := rfl

namespace FieldTarget

def onTarget {α : Type} (run : StateM VaffleTarget α) : Emit α :=
  fun t => some ((run t.target).1, { t with target := (run t.target).2 })

def emitField (val : FieldValue) : Emit ℕ := fun t =>
  let (id, target) := VaffleTarget.emitValue .other t.target
  some (id, { t with target, fields := Function.update t.fields id (some val) })

def lirTypeToTid (ty : LirType) : Emit TypeId := fun t =>
  (ty.toTid t.layout t.types).map fun r => (r.1, { t with types := r.2 })

def internVec (n : ℕ) : Emit TypeId := fun t =>
  some ((LirType.internBits n t.types).1, { t with types := (LirType.internBits n t.types).2 })

/-- `bits[0]`. -/
def firstBit (value : VaffleValue) : Emit ℕ := StateT.lift value.bits.head?

def check (p : Prop) [Decidable p] : Emit Unit := if p then return else failure

def emitFieldPoly (ty : LirType) (coeffs : PolyCoeffs ℕ) : Emit VaffleValue := do
  let tid ← lirTypeToTid ty
  let id ← emitField (.poly tid coeffs .zero)
  return ⟨[id], ty⟩

def fieldZero (ty : LirType) : Emit VaffleValue := do
  let tid ← lirTypeToTid ty
  let id ← emitField (.const .zero tid)
  return ⟨[id], ty⟩

def inserted (entries : List (List ℕ × U8)) : PolyCoeffs ℕ :=
  entries.foldl (fun c e => (c.insert e.1 e.2).2) .new

def sumOf (ty : LirType) (a b : ℕ) : List (List ℕ × U8) :=
  if ty.isPrimeField ∧ a = b then [([a], 2)]
  else if a ≠ b then [([a], 1), ([b], 1)]
  else []

def add (lhs rhs : VaffleValue) : Emit VaffleValue := do
  if lhs.ty.isFieldTyped then
    check (lhs.ty = rhs.ty)
    let a ← firstBit lhs
    let b ← firstBit rhs
    emitFieldPoly lhs.ty (inserted (sumOf lhs.ty a b))
  else return ⟨← onTarget (VaffleTarget.add lhs.bits rhs.bits), lhs.ty⟩

def subCells (ty : LirType) (a b : ℕ) : Emit VaffleValue :=
  if a = b then fieldZero ty
  else do
    let negativeOne ← StateT.lift ty.negativeOne
    emitFieldPoly ty (inserted [([a], 1), ([b], negativeOne)])

def sub (lhs rhs : VaffleValue) : Emit VaffleValue := do
  if lhs.ty.isFieldTyped then
    check (lhs.ty = rhs.ty)
    let a ← firstBit lhs
    let b ← firstBit rhs
    subCells lhs.ty a b
  else
    check (lhs.bits.length = rhs.bits.length)
    return ⟨← onTarget (VaffleTarget.sub lhs.bits rhs.bits), lhs.ty⟩

def mul (lhs rhs : VaffleValue) : Emit VaffleValue := do
  if lhs.ty.isFieldTyped then
    check (lhs.ty = rhs.ty)
    let a ← firstBit lhs
    let b ← firstBit rhs
    emitFieldPoly lhs.ty (inserted [(sortPair a b, 1)])
  else return ⟨← onTarget (VaffleTarget.mul lhs.bits rhs.bits), lhs.ty⟩

/-- The monomials of `b + c * (a + b)`. -/
def selection (c a b : ℕ) : List (List ℕ × U8) := [([b], 1), (sortPair c a, 1), (sortPair c b, 1)]

def select (cond thenVal elseVal : VaffleValue) : Emit VaffleValue := do
  if thenVal.ty.isFieldTyped then
    check (thenVal.ty = elseVal.ty)
    let c ← firstBit cond
    let b ← firstBit elseVal
    let a ← firstBit thenVal
    emitFieldPoly thenVal.ty (inserted (selection c a b))
  else
    let c ← firstBit cond
    return ⟨← onTarget (bcSelectVec c thenVal.bits elseVal.bits), thenVal.ty⟩

/-- The bits of a value, those of a field element taken out of its cell. -/
def scalarBits (value : VaffleValue) : Emit (List ℕ) := do
  if value.ty.isFieldTyped then
    check (value.bits.length = 1)
    let width ← StateT.lift (value.ty.fieldWidth (← get).layout)
    check (width ≤ 256)
    onTarget ((List.range width).mapM (VaffleTarget.extractBit (value.bits.headD 0)))
  else return value.bits

/-- A field has no order. -/
def icmp (pred : IcmpPred) (lhs rhs : VaffleValue) : Emit VaffleValue := do
  if lhs.ty.isFieldTyped ∨ rhs.ty.isFieldTyped then
    check (lhs.ty = rhs.ty)
    check (pred = .eq ∨ pred = .ne)
    let lhsBits ← scalarBits lhs
    let rhsBits ← scalarBits rhs
    let bit ← onTarget (if pred = .eq then bcEq lhsBits rhsBits else bcNe lhsBits rhsBits)
    return ⟨[bit], .bool⟩
  else return ⟨← onTarget (VaffleTarget.icmp pred lhs.bits rhs.bits), .bool⟩

def fieldToBits (value : VaffleValue) : Emit VaffleValue := do
  if value.ty.isFieldTyped then
    let width ← StateT.lift (value.ty.fieldWidth (← get).layout)
    let bits ← scalarBits value
    let intTy ← StateT.lift (LirType.intOfWidth width)
    return ⟨bits, intTy⟩
  else return value

def intToField (value : VaffleValue) (field : LirType) : Emit VaffleValue := do
  let width ← StateT.lift (field.fieldWidth (← get).layout)
  check (value.bits.length = width)
  let src ← onTarget (VaffleTarget.mergeOperand value.bits)
  let srcTy ← internVec width
  let dstTid ← lirTypeToTid field
  let id ← emitField (.transmute src srcTy dstTid)
  return ⟨[id], field⟩

variable (t : FieldTarget) (tys : ℕ → Option TypeId)

/-- The type of a value: that of a field value, and `tys` for the others. -/
def tyOf (id : ℕ) : Option TypeId :=
  match t.fields id with
  | some val => some val.ty
  | none => tys id

def operand (table : Table) (id : ℕ) : Ir.Value := ⟨(table.look id).bits, t.tyOf tys id, []⟩

def evalField (table : Table) : FieldValue → Option Entry
  | .const c ty => some (.ofBits (Ir.constBits c (t.types.bitWidth ty)))
  | .poly ty coeffs constant =>
      (Ir.evalTerms t.types ty constant
        (coeffs.iter.map fun e => (e.1.map (t.operand tys table), e.2))).map Entry.ofBits
  | .transmute src _ dstTy =>
      some (.ofBits (fit (table.look src).bits (t.types.bitWidth dstTy)))

section
variable (reading : OutputReading) (answer : ℕ → List (List Bool) → Option (List (List Bool)))

def evalAt (table : Table) (id : ℕ) : Option Entry :=
  match t.fields id with
  | some val => t.evalField tys table val
  | none => evalValue reading answer table (t.target.kind id)

def evalFrom (table : Table) (ids : List ℕ) : Option Table :=
  ids.foldlM (fun table id => do return table ++ [← t.evalAt tys reading answer table id]) table

end

def evaluate (reading : OutputReading) (depth : ℕ) (table : Table) : Option Table :=
  t.evalFrom tys reading (evalFunc reading t.target.funcs depth) table
    (List.range' table.length (t.target.values.length - table.length))

end FieldTarget
end VolarIR.Vaffle
