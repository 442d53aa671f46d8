import Mathlib.Data.List.Sort
import Mathlib.Data.List.Destutter
import VolarIR.Basic
import VolarIR.Library.Fallible
import VolarIR.Schedule.Claims

/-!
# The schedule manifest and its validation

Iterations with their dependencies, claims and reserved ranges, grouped into epochs; the
canonical order of the nested vectors; and the check every manifest passes before it is
encoded or executed.
-/
namespace VolarIR.Schedule

structure WorkerLane where
  id : U32
  deriving DecidableEq, Repr

structure EpochId where
  id : U64
  deriving DecidableEq, Repr

structure IterationId where
  id : U64
  deriving DecidableEq, Repr

structure CommunicationGroup where
  id : U64
  deriving DecidableEq, Repr

instance : LinearOrder IterationId :=
  LinearOrder.lift' IterationId.id fun a b h => by cases a; cases b; cases h; rfl

structure OrdinalRange where
  start : U64
  len : U64
  deriving DecidableEq, Repr

structure IterationManifest where
  ordinal : IterationId
  logicalStep : U64
  workerLane : WorkerLane
  dependencies : List IterationId
  claims : List StorageClaim
  correlationRange : OrdinalRange
  communicationRange : OrdinalRange
  deriving DecidableEq, Repr

structure EpochManifest where
  ordinal : EpochId
  iterations : List IterationManifest
  communicationGroup : CommunicationGroup
  deriving DecidableEq, Repr

abbrev Digest := Vector (BitVec 8) 32

structure ScheduleManifest where
  formatVersion : Fin (2 ^ 16)
  programDigest : Digest
  storagePolicyDigest : Digest
  protocolProfile : U32
  epochSize : U32
  workerLaneCount : U32
  epochs : List EpochManifest
  deriving DecidableEq, Repr

structure ScheduleLimits where
  maxEpochs : ℕ
  maxIterations : ℕ
  maxDependencies : ℕ
  maxClaims : ℕ
  deriving DecidableEq, Repr

/-- `ScheduleLimits::default()`. -/
def ScheduleLimits.default : ScheduleLimits := ⟨2 ^ 20, 2 ^ 24, 2 ^ 16, 2 ^ 16⟩

/-- `SCHEDULE_MANIFEST_VERSION`. -/
def scheduleManifestVersion : Fin (2 ^ 16) := 1

/-- Validation and encoding failures of a schedule manifest. -/
inductive ManifestError where
  | unsupportedVersion (found : Fin (2 ^ 16))
  | zeroEpochSize
  | zeroWorkerLanes
  | tooManyEpochs (found max : ℕ)
  | epochTooLarge (epoch : EpochId) (found max : ℕ)
  | tooManyIterations (found max : ℕ)
  | tooManyDependencies (iteration : IterationId) (found max : ℕ)
  | tooManyClaims (iteration : IterationId) (found max : ℕ)
  | nonCanonicalEpoch (expected found : U64)
  | nonCanonicalIteration (expected found : U64)
  | nonCanonicalDependencies (iteration : IterationId)
  | nonCanonicalClaims (iteration : IterationId)
  | forwardDependency (iteration dependency : IterationId)
  | workerLaneOutOfRange (iteration : IterationId) (lane : WorkerLane)
  | emptyAddressRange
  | addressRangeOverflow (start len : U64)
  | ordinalRangeOverflow (start len : U64)
  | overlappingOrdinalRanges (first second : OrdinalRange)
  | readOnlyViolation (key : StorageKey)
  | ordinalOverflow
  | lengthOverflow
  deriving DecidableEq, Repr

/-- `if !condition { return Err(error) }`. -/
def ensure {ε : Type} (condition : Prop) [Decidable condition] (error : ε) : Except ε Unit :=
  if condition then .ok () else .error error

@[simp] theorem ensure_eq_ok {ε : Type} {condition : Prop} [Decidable condition] {error : ε}
    {u : Unit} : ensure condition error = .ok u ↔ condition := by
  unfold ensure
  split_ifs with h <;> simp [h]

/-- `value.ok_or(error)`. -/
def okOr {ε α : Type} (error : ε) : Option α → Except ε α
  | some value => .ok value
  | none => .error error

@[simp] theorem okOr_eq_ok {ε α : Type} {error : ε} {value : Option α} {a : α} :
    okOr error value = .ok a ↔ value = some a := by
  cases value <;> simp [okOr]

/-- A range that is not empty and does not run past the end of `u64`. -/
def AddressScope.validate : AddressScope → Except ManifestError Unit
  | .whole => .ok ()
  | .publicRange start len =>
      if len.val = 0 then .error .emptyAddressRange
      else (checkedAdd start len).elim (.error (.addressRangeOverflow start len)) fun _ => .ok ()

def StorageClaim.validate (claim : StorageClaim) : Except ManifestError Unit :=
  claim.scope.validate

namespace OrdinalRange

/-- `OrdinalRange::end`. -/
def rangeEnd (range : OrdinalRange) : Except ManifestError U64 :=
  okOr (.ordinalRangeOverflow range.start range.len) (checkedAdd range.start range.len)

def overlaps (self other : OrdinalRange) : Except ManifestError Bool := do
  let otherEnd ← other.rangeEnd
  if self.start < otherEnd then
    let selfEnd ← self.rangeEnd
    return decide (other.start < selfEnd)
  else return false

end OrdinalRange

/-- Reserve a range that meets none of the earlier ones. -/
def addRange (ranges : List OrdinalRange) (range : OrdinalRange) :
    Except ManifestError (List OrdinalRange) := do
  let _ ← range.rangeEnd
  ranges.forM fun previous => do
    let meets ← range.overlaps previous
    ensure (meets = false) (.overlappingOrdinalRanges previous range)
  return if range.len.val ≠ 0 then ranges ++ [range] else ranges

/-- `is_sorted_unique`: every adjacent pair is strictly increasing. -/
def isSortedUnique {α : Type} [LinearOrder α] : List α → Bool
  | a :: b :: rest => decide (a < b) && isSortedUnique (b :: rest)
  | _ => true

theorem isSortedUnique_iff {α : Type} [LinearOrder α] {xs : List α} :
    isSortedUnique xs = true ↔ xs.Pairwise (· < ·) := by
  rw [← List.isChain_iff_pairwise]
  induction xs with
  | nil => simp [isSortedUnique]
  | cons a rest ih =>
      cases rest with
      | nil => simp [isSortedUnique]
      | cons b rest => rw [isSortedUnique, List.isChain_cons_cons, Bool.and_eq_true, ih,
          decide_eq_true_eq]

section Canonicalize

/-- The claims canonicalization has kept so far, latest first: a claim with the key and scope
of the latest one is joined into it. -/
def coalesce : List StorageClaim → List StorageClaim → List StorageClaim
  | canonical, [] => canonical.reverse
  | [], claim :: rest => coalesce [claim] rest
  | previous :: canonical, claim :: rest =>
      if previous.key = claim.key ∧ previous.scope = claim.scope then
        coalesce ({ previous with mode := previous.mode.join claim.mode } :: canonical) rest
      else coalesce (claim :: previous :: canonical) rest

def IterationManifest.canonicalize (iteration : IterationManifest) : IterationManifest :=
  { iteration with
    dependencies := (iteration.dependencies.insertionSort (· ≤ ·)).destutter (· ≠ ·)
    claims := coalesce [] (iteration.claims.insertionSort (· ≤ ·)) }

def ScheduleManifest.canonicalize (manifest : ScheduleManifest) : ScheduleManifest :=
  { manifest with
    epochs := manifest.epochs.map fun epoch =>
      { epoch with iterations := epoch.iterations.map IterationManifest.canonicalize } }

end Canonicalize

section Validate

structure Cursor where
  expectedEpoch : U64
  expectedIteration : U64
  totalIterations : ℕ
  correlationRanges : List OrdinalRange
  communicationRanges : List OrdinalRange

/-- `expected.checked_add(1).ok_or(OrdinalOverflow)`. -/
def nextOrdinal (expected : U64) : Except ManifestError U64 :=
  okOr .ordinalOverflow (checkedAdd expected 1)

def validateIteration (manifest : ScheduleManifest) (limits : ScheduleLimits) (cursor : Cursor)
    (iteration : IterationManifest) : Except ManifestError Cursor := do
  ensure (iteration.ordinal.id = cursor.expectedIteration)
    (.nonCanonicalIteration cursor.expectedIteration iteration.ordinal.id)
  let expectedIteration ← nextOrdinal cursor.expectedIteration
  let totalIterations := cursor.totalIterations + 1
  ensure (totalIterations ≤ limits.maxIterations)
    (.tooManyIterations totalIterations limits.maxIterations)
  ensure (iteration.workerLane.id < manifest.workerLaneCount)
    (.workerLaneOutOfRange iteration.ordinal iteration.workerLane)
  ensure (iteration.dependencies.length ≤ limits.maxDependencies)
    (.tooManyDependencies iteration.ordinal iteration.dependencies.length limits.maxDependencies)
  ensure (iteration.claims.length ≤ limits.maxClaims)
    (.tooManyClaims iteration.ordinal iteration.claims.length limits.maxClaims)
  ensure (isSortedUnique iteration.dependencies = true)
    (.nonCanonicalDependencies iteration.ordinal)
  ensure (isSortedUnique iteration.claims = true) (.nonCanonicalClaims iteration.ordinal)
  iteration.dependencies.forM fun dependency =>
    ensure (dependency < iteration.ordinal) (.forwardDependency iteration.ordinal dependency)
  iteration.claims.forM StorageClaim.validate
  let correlationRanges ← addRange cursor.correlationRanges iteration.correlationRange
  let communicationRanges ← addRange cursor.communicationRanges iteration.communicationRange
  return ⟨cursor.expectedEpoch, expectedIteration, totalIterations, correlationRanges,
    communicationRanges⟩

def validateEpoch (manifest : ScheduleManifest) (limits : ScheduleLimits) (cursor : Cursor)
    (epoch : EpochManifest) : Except ManifestError Cursor := do
  ensure (epoch.ordinal.id = cursor.expectedEpoch)
    (.nonCanonicalEpoch cursor.expectedEpoch epoch.ordinal.id)
  let expectedEpoch ← nextOrdinal cursor.expectedEpoch
  ensure (epoch.iterations.length ≤ manifest.epochSize.val)
    (.epochTooLarge epoch.ordinal epoch.iterations.length manifest.epochSize.val)
  epoch.iterations.foldlM (validateIteration manifest limits)
    { cursor with expectedEpoch := expectedEpoch }

/-- Validate canonical order, bounds, dependencies and reservation ranges. -/
def ScheduleManifest.validate (manifest : ScheduleManifest) (limits : ScheduleLimits) :
    Except ManifestError Unit := do
  ensure (manifest.formatVersion = scheduleManifestVersion)
    (.unsupportedVersion manifest.formatVersion)
  ensure (manifest.epochSize.val ≠ 0) .zeroEpochSize
  ensure (manifest.workerLaneCount.val ≠ 0) .zeroWorkerLanes
  ensure (manifest.epochs.length ≤ limits.maxEpochs)
    (.tooManyEpochs manifest.epochs.length limits.maxEpochs)
  let _ ← manifest.epochs.foldlM (validateEpoch manifest limits) ⟨0, 0, 0, [], []⟩

end Validate
end VolarIR.Schedule
