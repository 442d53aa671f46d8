import Mathlib.Tactic.Common
import Mathlib.Data.List.Basic
import Mathlib.Logic.Function.Basic
import Mathlib.Order.Lattice

/-!
# Identifiers, annotations and failure

The small vocabulary every layer shares: bounded integers, the opaque ids of
storages, lanes and sides, annotated statements, and the two ways a function of
the source can fail.
-/
namespace VolarIR

/-- `u32::MAX`. -/
def u32Max : ℕ := 4294967295

/-- `usize::MAX` on a 64-bit target. -/
def usizeMax : ℕ := 18446744073709551615

/-- `isize::MAX`, the most bytes of one allocation. -/
def isizeMax : ℕ := 9223372036854775807

/-- `checked_add`. -/
def checkedAdd (a b : ℕ) : Option ℕ := if a + b ≤ usizeMax then some (a + b) else none

theorem checkedAdd_eq_some {a b c : ℕ} : checkedAdd a b = some c ↔ a + b = c ∧ c ≤ usizeMax := by
  rw [checkedAdd, Option.ite_none_right_eq_some, Option.some.injEq]
  constructor
  · rintro ⟨hle, rfl⟩
    exact ⟨rfl, hle⟩
  · rintro ⟨rfl, hle⟩
    exact ⟨hle, rfl⟩

/-- `char::is_whitespace`. -/
def isWhitespace (c : Char) : Bool :=
  decide (9 ≤ c.toNat ∧ c.toNat ≤ 13) || c.toNat == 0x20 || c.toNat == 0x85 || c.toNat == 0xA0 ||
    c.toNat == 0x1680 || decide (0x2000 ≤ c.toNat ∧ c.toNat ≤ 0x200A) || c.toNat == 0x2028 ||
    c.toNat == 0x2029 || c.toNat == 0x202F || c.toNat == 0x205F || c.toNat == 0x3000

/-- `sort` on two keys. -/
def sortPair {α : Type} [LinearOrder α] (a b : α) : List α := if a ≤ b then [a, b] else [b, a]

section
variable {α : Type} [LinearOrder α] {a b v : α}

theorem mem_sortPair : v ∈ sortPair a b ↔ v = a ∨ v = b := by
  unfold sortPair
  split
  · simp
  · simp [or_comm]

theorem all_sortPair (on : α → Bool) (a b : α) : (sortPair a b).all on = (on a && on b) := by
  unfold sortPair
  split
  · simp
  · simp [Bool.and_comm]

theorem length_sortPair (a b : α) : (sortPair a b).length = 2 := by
  unfold sortPair
  split <;> rfl

end

structure StorageId where
  id : ℕ
  deriving DecidableEq, Repr

structure LaneId where
  id : ℕ
  deriving DecidableEq, Repr

/-- Which party a statement belongs to; carried along, never read by a pass here. -/
structure SideId where
  id : ℕ
  deriving DecidableEq, Repr

structure Node (K P : Type) where
  kind : K
  prov : P
  side : Option SideId
  deriving DecidableEq, Repr

/-- `Node::new(kind, prov, None)`. -/
def Node.new {K P : Type} (kind : K) (prov : P) : Node K P := ⟨kind, prov, none⟩

/-- Where a jump goes; `dyn` names a var holding the block id. -/
inductive IRBlockTargetId (Var : Type) where
  | block (b : ℕ)
  | ret
  | dyn (v : Var)
  deriving DecidableEq, Repr

/-- A function that does not return normally either panics or returns an `Err`. -/
inductive Fault (ε : Type) where
  | panic
  | error (e : ε)
  deriving DecidableEq, Repr

/-- The result of a function that may panic and may return an `Err`. -/
abbrev Outcome (ε α : Type) := Except (Fault ε) α

/-- Unwrap what the source indexes or `expect`s; absence is a panic. -/
def expect {ε α : Type} : Option α → Outcome ε α
  | some a => .ok a
  | none => .error .panic

@[simp] theorem expect_eq_ok {ε α : Type} {o : Option α} {a : α} :
    (expect o : Outcome ε α) = .ok a ↔ o = some a := by
  cases o <;> simp [expect]

theorem Except.bind_eq_ok {ε α β : Type} {x : Except ε α} {f : α → Except ε β} {b : β} :
    x >>= f = .ok b ↔ ∃ a, x = .ok a ∧ f a = .ok b := by
  cases x <;> simp [bind, Except.bind]

/-!
## Declared storage access

Sidecar facts about storages: which of them the producer never writes. A storage without a
declaration may be read and written.
-/

inductive StorageAccess where
  | readOnly
  | readWrite
  deriving DecidableEq, Repr

structure StorageDecl where
  storage : StorageId
  access : StorageAccess
  deriving DecidableEq, Repr

structure StorageTable where
  entries : List StorageDecl
  deriving DecidableEq, Repr

inductive StorageTableError where
  | notStrictlyOrdered (previous current : StorageId)
  deriving DecidableEq, Repr

namespace StorageTable

/-- `access_of`; the binary search of a strictly ordered table finds the only entry. -/
def accessOf (table : StorageTable) (storage : StorageId) : StorageAccess :=
  ((table.entries.find? fun entry => entry.storage = storage).map StorageDecl.access).getD
    .readWrite

def validateEntries : List StorageDecl → Except StorageTableError Unit
  | previous :: current :: rest =>
      if current.storage.id ≤ previous.storage.id then
        .error (.notStrictlyOrdered previous.storage current.storage)
      else validateEntries (current :: rest)
  | _ => .ok ()

def validate (table : StorageTable) : Except StorageTableError Unit :=
  validateEntries table.entries

end StorageTable

end VolarIR
