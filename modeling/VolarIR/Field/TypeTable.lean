import VolarIR.Basic

/-!
# The type table

The type language of `volar-ir-common` and its interning table. Compound types refer to
others by their position in the table.
-/
namespace VolarIR

abbrev U64 := BitVec 64

structure TypeId where
  id : ℕ
  deriving DecidableEq, Repr

/-- The leaf types; wider bit vectors are `vec`s of `bit`. -/
inductive Prim where
  | bit
  deriving DecidableEq, Repr

inductive IrType where
  | primitive (t : Prim)
  | vec (len : ℕ) (elem : TypeId)
  | tuple (parts : List TypeId)
  | block (params : List TypeId)
  | func (params results : List TypeId)
  | extField (wrapped : TypeId) (degree : ℕ) (irreducible : List U64)
  | primeField (k : ℕ) (n : List U64)
  deriving DecidableEq, Repr

/-- The interning table; an id is only meaningful in the table that produced it. -/
structure TypeTable where
  types : List IrType
  deriving DecidableEq, Repr

namespace TypeTable

def empty : TypeTable := ⟨[]⟩

def get (table : TypeTable) (ty : TypeId) : Option IrType := table.types[ty.id]?

def push (table : TypeTable) (ty : IrType) : TypeId × TypeTable :=
  (⟨table.types.length⟩, ⟨table.types ++ [ty]⟩)

/-- The first entry equal to `ty`, or a new one. -/
def intern (table : TypeTable) (ty : IrType) : TypeId × TypeTable :=
  match table.types.findIdx? (· == ty) with
  | some pos => (⟨pos⟩, table)
  | none => table.push ty

def isBit (table : TypeTable) (ty : TypeId) : Bool :=
  decide (table.get ty = some (.primitive .bit))

variable (table : TypeTable) (ty : IrType)

/-- The id `intern` returns names the type. -/
theorem get_intern : (table.intern ty).2.get (table.intern ty).1 = some ty := by
  unfold intern
  cases h : table.types.findIdx? (· == ty) with
  | none => simp [push, get]
  | some pos =>
      have hpos := List.findIdx?_eq_some_iff_getElem.mp h
      have hlt := hpos.1
      have heq : table.types[pos] = ty := eq_of_beq hpos.2.1
      rw [get, List.getElem?_eq_getElem hlt, heq]

theorem get_intern_of_get {id : TypeId} {t : IrType} (h : table.get id = some t) :
    (table.intern ty).2.get id = some t := by
  unfold intern
  cases table.types.findIdx? (· == ty) with
  | none =>
      have hlt := (List.getElem?_eq_some_iff.mp h).1
      rw [push, get, List.getElem?_append_left hlt]
      exact h
  | some pos => exact h

end TypeTable

end VolarIR
