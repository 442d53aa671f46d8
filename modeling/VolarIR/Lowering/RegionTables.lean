import Mathlib.Data.Finset.Basic
import Mathlib.Data.List.Sort
import VolarIR.Field.Product
import VolarIR.Library.Fallible
import VolarIR.Lowering.Tables

/-!
# Lowering to bits: region tables

A region table names the regions that the bits on a program's boundary belong to. The typed
table speaks of the bits of params, outputs and storage elements; `lower_typed_region_table`
turns it into a table of wires and cells, from the tables of the lowering run.
-/
namespace VolarIR.Lowering
open Ir

structure RegionId where
  id : ℕ
  deriving DecidableEq, Repr

abbrev RegionNames := RegionId → Option String

inductive WireAnchor where
  | input (start len : ℕ)
  | output (start len : ℕ)
  | storage (storage : StorageId) (lane : LaneId) (start len : ℕ)
  deriving DecidableEq, Repr

structure RegionEntry where
  anchor : WireAnchor
  regions : Finset RegionId
  deriving DecidableEq

structure RegionTable where
  entries : List RegionEntry
  names : RegionNames

inductive BoundaryWire where
  | input (n : ℕ)
  | output (n : ℕ)
  | cell (storage : StorageId) (lane : LaneId) (addr : ℕ)
  deriving DecidableEq, Repr

namespace WireAnchor

def rank : WireAnchor → List ℕ
  | .input start len => [0, start, len]
  | .output start len => [1, start, len]
  | .storage space lane start len => [2, space.id, lane.id, start, len]

def Covers : WireAnchor → BoundaryWire → Prop
  | .input start len, .input n => start ≤ n ∧ n < start + len
  | .output start len, .output n => start ≤ n ∧ n < start + len
  | .storage space lane start len, .cell space' lane' addr =>
      space = space' ∧ lane = lane' ∧ start ≤ addr ∧ addr < start + len
  | _, _ => False

theorem rank_injective : Function.Injective rank := by
  intro a b h
  cases a <;> cases b <;> simp [rank] at h
  · simp [h]
  · simp [h]
  · rename_i s l _ _ s' l' _ _
    cases s
    cases l
    cases s'
    cases l'
    obtain ⟨rfl, rfl, rfl, rfl⟩ := h
    rfl

end WireAnchor

inductive TypedAnchor where
  | input (param start len : ℕ)
  | blockInput (block param start len : ℕ)
  | funcInput (func param start len : ℕ)
  | output (out start len : ℕ)
  | funcOutput (func result start len : ℕ)
  | storage (storage : StorageId) (ty : TypeId) (addrStart addrLen : ℕ)
  deriving DecidableEq, Repr

structure TypedRegionEntry where
  anchor : TypedAnchor
  regions : Finset RegionId
  deriving DecidableEq

structure TypedRegionTable where
  entries : List TypedRegionEntry
  names : RegionNames

inductive TypedBoundaryWire where
  | input (param bit : ℕ)
  | blockInput (block param bit : ℕ)
  | funcInput (func param bit : ℕ)
  | output (out bit : ℕ)
  | funcOutput (func result bit : ℕ)
  | cell (storage : StorageId) (ty : TypeId) (addr plane : ℕ)
  deriving DecidableEq, Repr

namespace TypedAnchor

/-- The derived order: the variant first, then the fields in turn. -/
def rank : TypedAnchor → List ℕ
  | .input param start len => [0, param, start, len]
  | .blockInput block param start len => [1, block, param, start, len]
  | .funcInput func param start len => [2, func, param, start, len]
  | .output out start len => [3, out, start, len]
  | .funcOutput func result start len => [4, func, result, start, len]
  | .storage space ty addrStart addrLen => [5, space.id, ty.id, addrStart, addrLen]

/-- Anchors overlap only if they have one key. -/
def spaceKey : TypedAnchor → ℕ × ℕ × ℕ
  | .input param _ _ => (0, param, 0)
  | .blockInput block param _ _ => (1, block, param)
  | .funcInput func param _ _ => (2, func, param)
  | .output out _ _ => (3, out, 0)
  | .funcOutput func result _ _ => (4, func, result)
  | .storage space ty _ _ => (5, space.id, ty.id)

def start : TypedAnchor → ℕ
  | .input _ start _ | .blockInput _ _ start _ | .funcInput _ _ start _ | .output _ start _
  | .funcOutput _ _ start _ => start
  | .storage _ _ addrStart _ => addrStart

def len : TypedAnchor → ℕ
  | .input _ _ len | .blockInput _ _ _ len | .funcInput _ _ _ len | .output _ _ len
  | .funcOutput _ _ _ len => len
  | .storage _ _ _ addrLen => addrLen

/-- The bits that `select` lists for an anchor, in every plane. -/
def Selects : TypedAnchor → TypedBoundaryWire → Prop
  | .input param start len, .input param' bit => param = param' ∧ start ≤ bit ∧ bit < start + len
  | .blockInput block param start len, .blockInput block' param' bit =>
      block = block' ∧ param = param' ∧ start ≤ bit ∧ bit < start + len
  | .funcInput func param start len, .funcInput func' param' bit =>
      func = func' ∧ param = param' ∧ start ≤ bit ∧ bit < start + len
  | .output out start len, .output out' bit => out = out' ∧ start ≤ bit ∧ bit < start + len
  | .funcOutput func result start len, .funcOutput func' result' bit =>
      func = func' ∧ result = result' ∧ start ≤ bit ∧ bit < start + len
  | .storage space ty addrStart addrLen, .cell space' ty' addr _ =>
      space = space' ∧ ty = ty' ∧ addrStart ≤ addr ∧ addr < addrStart + addrLen
  | _, _ => False

end TypedAnchor

inductive TypedRegionError where
  | emptyAnchor (anchor : TypedAnchor)
  | emptyRegions (anchor : TypedAnchor)
  | unsorted
  | overlappingEntries (first second : TypedAnchor)
  | storageRangeOverflow (anchor : TypedAnchor)
  deriving DecidableEq, Repr

abbrev SpaceEnds := ℕ × ℕ × ℕ → Option (ℕ × TypedAnchor)

abbrev Validated := Option TypedAnchor × SpaceEnds

def checkOrder (prev : Option TypedAnchor) (anchor : TypedAnchor) : Except TypedRegionError Unit :=
  match prev with
  | none => .ok ()
  | some p =>
      if p = anchor then .error (.overlappingEntries p anchor)
      else if anchor.rank < p.rank then .error .unsorted
      else .ok ()

def checkDisjoint (ends : SpaceEnds) (anchor : TypedAnchor) : Except TypedRegionError Unit :=
  match ends anchor.spaceKey with
  | none => .ok ()
  | some (lastEnd, first) =>
      if anchor.start < lastEnd then .error (.overlappingEntries first anchor) else .ok ()

def validateEntry (state : Validated) (entry : TypedRegionEntry) :
    Except TypedRegionError Validated :=
  if entry.regions = ∅ then .error (.emptyRegions entry.anchor)
  else do
    checkOrder state.1 entry.anchor
    if entry.anchor.len = 0 then .error (.emptyAnchor entry.anchor)
    else
      match checkedAdd entry.anchor.start entry.anchor.len with
      | none => .error (.storageRangeOverflow entry.anchor)
      | some last => do
          checkDisjoint state.2 entry.anchor
          .ok (some entry.anchor,
            Function.update state.2 entry.anchor.spaceKey (some (last, entry.anchor)))

def TypedRegionTable.validateStructure (table : TypedRegionTable) : Except TypedRegionError Unit :=
  (table.entries.foldlM validateEntry (none, fun _ => none)).map fun _ => ()

def typedBitWidthFrom (types : TypeTable) : (fuel : ℕ) → TypeId → Option ℕ
  | 0, _ => none
  | fuel + 1, ty =>
      match types.get ty with
      | some (.primitive .bit) => some 1
      | some (.vec n elem) => (typedBitWidthFrom types fuel elem).map fun w => min (n * w) usizeMax
      | some (.tuple parts) =>
          parts.foldlM (fun acc part => (typedBitWidthFrom types fuel part).map (acc + ·)) 0
      | some (.block _) | some (.func ..) => some 0
      | some (.extField ..) | some (.primeField ..) => valueBitWidthFrom types (fuel + 1) ty
      | none => none

def typedBitWidth (types : TypeTable) (ty : TypeId) : Option ℕ :=
  typedBitWidthFrom types types.types.length ty

structure LoweredTables where
  lanes : List TypeId
  varBits : (block var : ℕ) → Option (List ℕ)
  addrWidths : AddrWidths

inductive LowerTypedError where
  | region (e : TypedRegionError)
  | unknownAnchorCarrier (anchor : TypedAnchor)
  | unsupportedAnchor (anchor : TypedAnchor) (level : String)
  | rangeOutOfRange (anchor : TypedAnchor) (start len width : ℕ)
  | unknownStorageLane (storage : StorageId) (ty : TypeId)
  | missingAddrWidth (storage : StorageId) (lane : LaneId)
  | storageRangeOverflow (anchor : TypedAnchor)
  deriving DecidableEq, Repr

/-- A run that gives no table: it panics, or it returns an error. -/
inductive LowerFailure where
  | panics
  | rejects (e : LowerTypedError)
  deriving DecidableEq, Repr

def orReject {α : Type} (e : LowerTypedError) : Option α → Except LowerFailure α
  | some a => .ok a
  | none => .error (.rejects e)

def orPanic {α : Type} : Option α → Except LowerFailure α
  | some a => .ok a
  | none => .error .panics

section
variable (checks : Bool)

def wrapping (n : ℕ) : Option ℕ :=
  if n < 2 ^ 64 then some n else if checks then none else some (n % 2 ^ 64)

/-- `a << n`. Bits that are shifted out are lost in both builds. -/
def shl (a n : ℕ) : Option ℕ :=
  if n < 64 then some ((a <<< n) % 2 ^ 64)
  else if checks then none
  else some ((a <<< (n % 64)) % 2 ^ 64)

end

def checkRange (anchor : TypedAnchor) (start len width : ℕ) : Except LowerFailure Unit :=
  if width < start + len then .error
      (.rejects (.rangeOutOfRange anchor start len width)) else .ok ()

def paramBitStart (tables : LoweredTables) (block param : ℕ) (anchor : TypedAnchor)
    (start len : ℕ) : Except LowerFailure ℕ := do
  let bits ← orReject (.unknownAnchorCarrier anchor) (tables.varBits block param)
  checkRange anchor start len bits.length
  orPanic bits[start]?

section
variable (checks : Bool)

/-- The output's position: the widths before it, and its own. -/
def outputStart (widths : List ℕ) (anchor : TypedAnchor) (out start len : ℕ) :
    Except LowerFailure ℕ := do
  let before ← orReject (.unknownAnchorCarrier anchor)
    (if out ≤ widths.length then some (widths.take out) else none)
  let base ← orPanic (wrapping checks before.sum)
  let width ← orReject (.unknownAnchorCarrier anchor) widths[out]?
  checkRange anchor start len width
  let position ← orPanic (wrapping checks (base + start))
  .ok (position % 2 ^ 32)

/-- The cells of one bit plane. -/
def planeEntry (entry : TypedRegionEntry) (storage : StorageId) (lane : LaneId)
    (n addrStart addrLen plane : ℕ) : Except LowerFailure RegionEntry := do
  let shifted ← orPanic (shl checks plane n)
  let start ← orReject (.storageRangeOverflow entry.anchor) (checkedAdd addrStart shifted)
  let _ ← orReject (.storageRangeOverflow entry.anchor) (checkedAdd start addrLen)
  .ok ⟨.storage storage lane start addrLen, entry.regions⟩

def lowerEntry (tables : LoweredTables) (types : TypeTable) (outputWidths : Option (List ℕ))
    (entry : TypedRegionEntry) : Except LowerFailure (List RegionEntry) :=
  match entry.anchor with
  | .input param start len => do
      let bitStart ← paramBitStart tables 0 param entry.anchor start len
      .ok [⟨.input bitStart len, entry.regions⟩]
  | .blockInput block param start len => do
      let bitStart ← paramBitStart tables block param entry.anchor start len
      .ok [⟨.input bitStart len, entry.regions⟩]
  | .output out start len => do
      let widths ← orReject
        (.unsupportedAnchor entry.anchor "bit (no typed output widths supplied)") outputWidths
      let bitStart ← outputStart checks widths entry.anchor out start len
      .ok [⟨.output bitStart len, entry.regions⟩]
  | .storage storage ty addrStart addrLen => do
      let lane ← orReject (.unknownStorageLane storage ty) (laneOf tables.lanes ty)
      let n ← orReject (.missingAddrWidth storage lane) (tables.addrWidths (storage, lane))
      let planes ← orReject (.unknownAnchorCarrier entry.anchor) (typedBitWidth types ty)
      (List.range planes).mapM (planeEntry checks entry storage lane n addrStart addrLen)
  | .funcInput .. | .funcOutput .. =>
      .error (.rejects (.unsupportedAnchor entry.anchor
        "bit (VAFFLE anchors lower via volar-vaffle-target first)"))

/-- `typed_view`, for the error. The narrow fields are cut to 16 bits. -/
def typedView : WireAnchor → TypedAnchor
  | .input start len => .input 0 (start % 2 ^ 16) (len % 2 ^ 16)
  | .output start len => .output 0 (start % 2 ^ 16) (len % 2 ^ 16)
  | .storage storage lane start len => .storage storage ⟨lane.id⟩ start len

def checkRepeats : List RegionEntry → Except LowerFailure Unit
  | a :: b :: rest =>
      if a.anchor = b.anchor then
        .error (.rejects (.region (.overlappingEntries (typedView a.anchor) (typedView b.anchor))))
      else checkRepeats (b :: rest)
  | _ => .ok ()

def sortEntries (entries : List RegionEntry) : List RegionEntry :=
  entries.mergeSort fun a b => decide (a.anchor.rank ≤ b.anchor.rank)

def lowerTypedRegionTable (table : TypedRegionTable) (tables : LoweredTables) (types : TypeTable)
    (outputWidths : Option (List ℕ)) : Except LowerFailure RegionTable := do
  table.validateStructure.mapError (.rejects ∘ .region)
  let lowered ← table.entries.mapM (lowerEntry checks tables types outputWidths)
  let entries := sortEntries lowered.flatten
  checkRepeats entries
  .ok ⟨entries, table.names⟩

end

end VolarIR.Lowering
