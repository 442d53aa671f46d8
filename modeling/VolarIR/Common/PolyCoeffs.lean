import VolarIR.Library.BinarySearch
import VolarIR.Library.SortDedup
import Mathlib.Data.Sum.Order

/-!
# The coefficient collection of a polynomial

`PolyCoeffs` of `volar-ir-common`: a flat list of monomials with their coefficients that is
meant to be a map in lexicographic key order. Lookups search it by that order; bulk
construction sorts it by the derived order of `PolyKey`, in which the key of one variable
comes before all others.
-/
namespace VolarIR.Common

inductive PolyKey (V : Type) where
  | one (v : V)
  | many (vars : List V)
  deriving DecidableEq, Repr

namespace PolyKey
variable {V : Type}

def fromVec : List V → PolyKey V
  | [v] => .one v
  | vars => .many vars

def asSlice : PolyKey V → List V
  | .one v => [v]
  | .many vars => vars

/-- A rewrite through `as_mut_slice`, which keeps the length. -/
def mapSlice (f : List V → List V) : PolyKey V → PolyKey V
  | .one v => .one ((f [v]).headD v)
  | .many vars => .many (f vars)

def toSum : PolyKey V → V ⊕ₗ List V
  | .one v => Sum.inlₗ v
  | .many vars => Sum.inrₗ vars

theorem toSum_injective : Function.Injective (toSum : PolyKey V → V ⊕ₗ List V) := by
  intro a b h
  cases a <;> cases b <;> simp_all [toSum, Sum.inlₗ, Sum.inrₗ]

variable [LinearOrder V]

instance : LinearOrder (PolyKey V) := LinearOrder.lift' toSum toSum_injective

theorem one_lt_one {a b : V} : (PolyKey.one a : PolyKey V) < .one b ↔ a < b :=
  Sum.Lex.inl_lt_inl_iff

theorem many_lt_many {a b : List V} : (PolyKey.many a : PolyKey V) < .many b ↔ a < b :=
  Sum.Lex.inr_lt_inr_iff

theorem one_lt_many (a : V) (b : List V) : (PolyKey.one a : PolyKey V) < .many b :=
  Sum.Lex.inl_lt_inr a b

/-- `cmp_slice`: lexicographic. -/
def cmpSlice (key : PolyKey V) (vars : List V) : Ordering := compareOfLessAndEq key.asSlice vars

end PolyKey

/-- `PolyCoeffs`; equality and order are derived from the entries. -/
structure PolyCoeffs (V : Type) where
  entries : List (PolyKey V × BitVec 8)
  deriving DecidableEq, Repr

namespace PolyCoeffs
variable {V : Type}

def new : PolyCoeffs V := ⟨[]⟩

def single (key : List V) (coeff : BitVec 8) : PolyCoeffs V := ⟨[(.fromVec key, coeff)]⟩

/-- What `iter` yields. -/
def iter (c : PolyCoeffs V) : List (List V × BitVec 8) := c.entries.map fun e => (e.1.asSlice, e.2)

def keys (c : PolyCoeffs V) : List (List V) := c.iter.map Prod.fst

/-- `retain`: the `i`-th call sees the `i`-th entry and may change its coefficient. -/
def retain (c : PolyCoeffs V) (f : ℕ → List V → BitVec 8 → BitVec 8 × Bool) : PolyCoeffs V :=
  ⟨(c.entries.mapIdx fun i e => ((e.1, (f i e.1.asSlice e.2).1), (f i e.1.asSlice e.2).2))
    |>.filterMap fun e => if e.2 then some e.1 else none⟩

variable [LinearOrder V]

def cmpEntry (a b : PolyKey V × BitVec 8) : Ordering :=
  (compare a.1 b.1).then (compare a.2.toNat b.2.toNat)

def cmp (a b : PolyCoeffs V) : Ordering := List.compareLex cmpEntry a.entries b.entries

def keyIndex (c : PolyCoeffs V) (key : List V) : Except ℕ ℕ :=
  BinarySearch.search (fun e => e.1.cmpSlice key) c.entries

def get (c : PolyCoeffs V) (key : List V) : Option (BitVec 8) :=
  match c.keyIndex key with
  | .ok i => c.entries[i]?.map Prod.snd
  | .error _ => none

def setCoeff (c : PolyCoeffs V) (i : ℕ) (f : BitVec 8 → BitVec 8) : PolyCoeffs V :=
  ⟨c.entries.modify i fun e => (e.1, f e.2)⟩

def insertAt (c : PolyCoeffs V) (i : ℕ) (key : List V) (coeff : BitVec 8) : PolyCoeffs V :=
  ⟨c.entries.insertIdx i (.fromVec key, coeff)⟩

/-- `insert`, with the coefficient that was there. -/
def insert (c : PolyCoeffs V) (key : List V) (coeff : BitVec 8) :
    Option (BitVec 8) × PolyCoeffs V :=
  match c.keyIndex key with
  | .ok i => (c.entries[i]?.map Prod.snd, c.setCoeff i fun _ => coeff)
  | .error i => (none, c.insertAt i key coeff)

/-- `entry(key).or_insert(default)`, and what the caller does to the coefficient it is
handed. -/
def entryOrInsert (c : PolyCoeffs V) (key : List V) (default : BitVec 8)
    (update : BitVec 8 → BitVec 8) : PolyCoeffs V :=
  match c.keyIndex key with
  | .ok i => c.setCoeff i update
  | .error i => c.insertAt i key (update default)

/-- `remove`, with the coefficient that was there. -/
def remove (c : PolyCoeffs V) (key : List V) : Option (BitVec 8) × PolyCoeffs V :=
  match c.keyIndex key with
  | .ok i => (c.entries[i]?.map Prod.snd, ⟨c.entries.eraseIdx i⟩)
  | .error _ => (none, c)

def canonicalize (entries : List (PolyKey V × BitVec 8)) : List (PolyKey V × BitVec 8) :=
  SortedMap.compact (SortByKey.sortByKey Prod.fst entries)

def fromIter (entries : List (List V × BitVec 8)) : PolyCoeffs V :=
  ⟨canonicalize (entries.map fun e => (.fromVec e.1, e.2))⟩

def outOfOrder (entries : List (PolyKey V × BitVec 8)) : Bool :=
  (entries.zip entries.tail).any fun pair => pair.2.1.asSlice ≤ pair.1.1.asSlice

/-- `remap_monomials_in_place`: the `i`-th call rewrites the `i`-th key. -/
def remapMonomialsInPlace (c : PolyCoeffs V) (f : ℕ → List V → List V) : PolyCoeffs V :=
  let entries := c.entries.mapIdx fun i e => (e.1.mapSlice (f i), e.2)
  if outOfOrder entries then ⟨canonicalize entries⟩ else ⟨entries⟩

end PolyCoeffs
end VolarIR.Common
