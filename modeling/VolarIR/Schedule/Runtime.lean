import Mathlib.Logic.Function.Basic
import VolarIR.Library.SortedMap
import VolarIR.Schedule.Footprint

/-!
# The schedule runtime

A typed storage bank, the transactions opened against it and the state that decides which
of them may run. A transaction reads the committed bank through its own buffered writes;
its writes and its trace fragment become visible when it commits. Functions that take the
runtime by `&mut` return their result beside the runtime they leave, those that take a
transaction by `&mut` return it likewise.
-/
namespace VolarIR.Schedule

open SortByKey

inductive AccessKind where
  | read
  | write
  deriving DecidableEq, Repr

structure StorageAccessEvent where
  cell : StorageCellKey
  kind : AccessKind
  sequence : U32
  deriving DecidableEq, Repr

structure TraceFragment where
  epoch : EpochId
  iteration : IterationId
  events : List StorageAccessEvent
  deriving DecidableEq, Repr

abbrev SharedStorageBank (V : Type) := StorageCellKey → Option V

def SharedStorageBank.insert {V : Type} (bank : SharedStorageBank V) (cell : StorageCellKey)
    (value : V) : SharedStorageBank V :=
  Function.update bank cell (some value)

structure BufferedWrite (V : Type) where
  cell : StorageCellKey
  sequence : U32
  value : V

structure ScheduleTransaction (V : Type) where
  iteration : IterationId
  claims : List StorageClaim
  writes : List (BufferedWrite V)
  events : List StorageAccessEvent
  closed : Bool

/-- Runtime failures. -/
inductive SchedulerError where
  | manifest (error : ManifestError)
  | unknownIteration (iteration : IterationId)
  | duplicateCompletion (iteration : IterationId)
  | epochNotCurrent (iteration : IterationId) (epoch : EpochId)
  | dependencyNotCommitted (iteration dependency : IterationId)
  | conflictingClaims (active requested : IterationId)
  | undeclaredAccess (iteration : IterationId) (cell : StorageCellKey) (kind : AccessKind)
  | accessModeViolation (iteration : IterationId) (key : StorageKey)
  | transactionClosed (iteration : IterationId)
  | traceOverflow (iteration : IterationId)
  | incompleteEpoch (epoch : EpochId) (iteration : IterationId)
  | noRemainingEpochs
  | invalidCompletionOrder (iteration : IterationId)
  | operationFailed
  | runtimeAborted
  deriving DecidableEq, Repr

structure ScheduleRuntime (V : Type) where
  manifest : ScheduleManifest
  bank : SharedStorageBank V
  currentEpoch : ℕ
  active : List IterationId
  completed : List IterationId
  trace : List TraceFragment
  aborted : Bool

/-- `scope_contains`. -/
def scopeContains (scope : AddressScope) (address : U64) : Bool :=
  match scope with
  | .whole => true
  | .publicRange start len =>
      match checkedAdd start len with
      | some stop => decide (start ≤ address) && decide (address < stop)
      | none => false

theorem contains_of_scopeContains {scope : AddressScope} {address : U64}
    (h : scopeContains scope address = true) : scope.Contains address := by
  cases scope with
  | whole => trivial
  | publicRange start len =>
      unfold scopeContains at h
      cases hstop : checkedAdd start len with
      | none => simp [hstop] at h
      | some stop =>
          have hsum := checkedAdd_eq_some.mp hstop
          simp only [hstop, Bool.and_eq_true, decide_eq_true_eq, Fin.le_def, Fin.lt_def] at h
          simp only [AddressScope.Contains]
          omega

theorem scopeContains_of_contains {scope : AddressScope} {address : U64}
    (hvalid : scope.validate = .ok ()) (h : scope.Contains address) :
    scopeContains scope address = true := by
  cases scope with
  | whole => rfl
  | publicRange start len =>
      simp only [AddressScope.validate] at hvalid
      cases hstop : checkedAdd start len with
      | none =>
          rw [hstop] at hvalid
          split_ifs at hvalid
          cases hvalid
      | some stop =>
          have hsum := checkedAdd_eq_some.mp hstop
          simp only [AddressScope.Contains] at h
          simp only [scopeContains, hstop, Bool.and_eq_true, decide_eq_true_eq, Fin.le_def,
            Fin.lt_def]
          omega

namespace ScheduleManifest

/-- `find_iteration`: the first iteration with this ordinal and its epoch. -/
def findIteration (manifest : ScheduleManifest) (iteration : IterationId) :
    Except SchedulerError (EpochManifest × IterationManifest) :=
  okOr (.unknownIteration iteration)
    (manifest.epochs.findSome? fun epoch =>
      (epoch.iterations.find? fun candidate => candidate.ordinal = iteration).map
        fun candidate => (epoch, candidate))

end ScheduleManifest

namespace ScheduleRuntime
variable {V : Type}

def new (manifest : ScheduleManifest) (bank : SharedStorageBank V) :
    Except SchedulerError (ScheduleRuntime V) :=
  match manifest.validate .default with
  | .error error => .error (.manifest error)
  | .ok () => .ok ⟨manifest, bank, 0, [], [], [], false⟩

def isComplete (runtime : ScheduleRuntime V) : Bool :=
  decide (runtime.currentEpoch = runtime.manifest.epochs.length) && !runtime.aborted

/-- `abort_with`: poison the runtime and fail. -/
def abortWith {α : Type} (runtime : ScheduleRuntime V) (error : SchedulerError) :
    Except SchedulerError α × ScheduleRuntime V :=
  (.error error, { runtime with aborted := true })

def currentEpochId (runtime : ScheduleRuntime V) : Except SchedulerError EpochId :=
  okOr .noRemainingEpochs (runtime.manifest.epochs[runtime.currentEpoch]?.map EpochManifest.ordinal)

/-- The first active iteration whose claims conflict with the descriptor's. An active
iteration the manifest does not know fails without poisoning. -/
def firstConflict (runtime : ScheduleRuntime V) (descriptor : IterationManifest) :
    List IterationId → Except SchedulerError (Option IterationId)
  | [] => .ok none
  | active :: rest =>
      match runtime.manifest.findIteration active with
      | .error error => .error error
      | .ok (_, activeDescriptor) =>
          if activeDescriptor.conflictsWith descriptor = true then .ok (some active)
          else runtime.firstConflict descriptor rest

/-- Open a transaction and reserve every claim. -/
def begin (runtime : ScheduleRuntime V) (iteration : IterationId) :
    Except SchedulerError (ScheduleTransaction V) × ScheduleRuntime V :=
  if runtime.aborted = true then (.error .runtimeAborted, runtime)
  else match runtime.manifest.findIteration iteration with
  | .error error => runtime.abortWith error
  | .ok (epoch, descriptor) =>
  match runtime.currentEpochId with
  | .error error => (.error error, runtime)
  | .ok current =>
  if epoch.ordinal ≠ current then runtime.abortWith (.epochNotCurrent iteration epoch.ordinal)
  else if iteration ∈ runtime.completed then runtime.abortWith (.duplicateCompletion iteration)
  else if iteration ∈ runtime.active then runtime.abortWith (.duplicateCompletion iteration)
  else match descriptor.dependencies.find? fun dependency => dependency ∉ runtime.completed with
  | some dependency => runtime.abortWith (.dependencyNotCommitted iteration dependency)
  | none =>
  match runtime.firstConflict descriptor runtime.active with
  | .error error => (.error error, runtime)
  | .ok (some active) => runtime.abortWith (.conflictingClaims active iteration)
  | .ok none =>
      (.ok ⟨iteration, descriptor.claims, [], [], false⟩,
        { runtime with active := runtime.active ++ [iteration] })

/-- `ensure_transaction_active`. -/
def ensureTransactionActive (runtime : ScheduleRuntime V) (transaction : ScheduleTransaction V) :
    Except SchedulerError Unit :=
  if transaction.closed = true ∨ transaction.iteration ∉ runtime.active then
    .error (.transactionClosed transaction.iteration)
  else .ok ()

/-- `validate_transaction_access`. -/
def validateTransactionAccess (runtime : ScheduleRuntime V)
    (transaction : ScheduleTransaction V) (cell : StorageCellKey) (kind : AccessKind) :
    Except SchedulerError Unit := do
  ensure (runtime.aborted = false) .runtimeAborted
  runtime.ensureTransactionActive transaction
  let matching := transaction.claims.filter fun claim =>
    decide (claim.key = cell.key) && scopeContains claim.scope cell.address
  ensure (matching ≠ []) (.undeclaredAccess transaction.iteration cell kind)
  ensure (kind = .read ∨ (matching.any fun claim => !claim.mode.isRead) = true)
    (.accessModeViolation transaction.iteration cell.key)

def nextSequence (transaction : ScheduleTransaction V) : Except SchedulerError U32 :=
  if h : transaction.events.length < 2 ^ 32 then .ok ⟨transaction.events.length, h⟩
  else .error (.traceOverflow transaction.iteration)

/-- `record_event`: number the access and append it to the trace. -/
def recordEvent (runtime : ScheduleRuntime V) (transaction : ScheduleTransaction V)
    (cell : StorageCellKey) (kind : AccessKind) :
    Except SchedulerError (U32 × ScheduleTransaction V) := do
  runtime.ensureTransactionActive transaction
  let sequence ← nextSequence transaction
  return (sequence,
    { transaction with events := transaction.events ++ [⟨cell, kind, sequence⟩] })

def authorize (runtime : ScheduleRuntime V) (transaction : ScheduleTransaction V)
    (cell : StorageCellKey) (kind : AccessKind) :
    Except SchedulerError (U32 × ScheduleTransaction V) := do
  runtime.validateTransactionAccess transaction cell kind
  runtime.recordEvent transaction cell kind

def observed (runtime : ScheduleRuntime V) (transaction : ScheduleTransaction V)
    (cell : StorageCellKey) : Option V :=
  match transaction.writes.reverse.find? fun write => write.cell = cell with
  | some write => some write.value
  | none => runtime.bank cell

/-- Read a cell, observing this transaction's buffered writes first. -/
def read (runtime : ScheduleRuntime V) (transaction : ScheduleTransaction V)
    (cell : StorageCellKey) :
    Except SchedulerError (Option V) × ScheduleTransaction V :=
  match runtime.authorize transaction cell .read with
  | .error error => (.error error, transaction)
  | .ok (_, recorded) => (.ok (runtime.observed transaction cell), recorded)

/-- Buffer a cell write. -/
def write (runtime : ScheduleRuntime V) (transaction : ScheduleTransaction V)
    (cell : StorageCellKey) (value : V) :
    Except SchedulerError Unit × ScheduleTransaction V :=
  match runtime.authorize transaction cell .write with
  | .error error => (.error error, transaction)
  | .ok (sequence, recorded) =>
      (.ok (), { recorded with writes := recorded.writes ++ [⟨cell, sequence, value⟩] })

def writeKey (write : BufferedWrite V) : List ℕ :=
  [write.cell.key.storage.val, write.cell.key.typeId.val, write.cell.address.val,
    write.sequence.val]

def fragmentKey (fragment : TraceFragment) : List ℕ :=
  [fragment.epoch.id.val, fragment.iteration.id.val]

def applyWrites (bank : SharedStorageBank V) (writes : List (BufferedWrite V)) :
    SharedStorageBank V :=
  writes.foldl (fun bank write => bank.insert write.cell write.value) bank

/-- Commit all buffered writes and append a logical trace fragment. -/
def commit (runtime : ScheduleRuntime V) (transaction : ScheduleTransaction V) :
    Except SchedulerError TraceFragment × ScheduleRuntime V :=
  if runtime.aborted = true then (.error .runtimeAborted, runtime)
  else match runtime.ensureTransactionActive transaction with
  | .error error => (.error error, runtime)
  | .ok () =>
  match runtime.currentEpochId with
  | .error error => (.error error, runtime)
  | .ok epoch =>
  let fragment : TraceFragment := ⟨epoch, transaction.iteration, transaction.events⟩
  (.ok fragment,
    { runtime with
      bank := applyWrites runtime.bank (sortByKey writeKey transaction.writes)
      active := runtime.active.erase transaction.iteration
      completed := runtime.completed ++ [transaction.iteration]
      trace := sortByKey fragmentKey (runtime.trace ++ [fragment]) })

def abort (runtime : ScheduleRuntime V) (transaction : ScheduleTransaction V) :
    ScheduleRuntime V :=
  { runtime with active := runtime.active.erase transaction.iteration, aborted := true }

/-- Finish the current epoch and return its fragments in logical order. -/
def finishEpoch (runtime : ScheduleRuntime V) :
    Except SchedulerError (List TraceFragment) × ScheduleRuntime V :=
  if runtime.aborted = true then (.error .runtimeAborted, runtime)
  else match runtime.manifest.epochs[runtime.currentEpoch]? with
  | none => (.error .noRemainingEpochs, runtime)
  | some epoch =>
  match runtime.active with
  | active :: _ => runtime.abortWith (.incompleteEpoch epoch.ordinal active)
  | [] =>
  match epoch.iterations.find? fun iteration => iteration.ordinal ∉ runtime.completed with
  | some iteration => runtime.abortWith (.incompleteEpoch epoch.ordinal iteration.ordinal)
  | none =>
      (.ok (sortByKey (fun fragment => fragment.iteration)
          (runtime.trace.filter fun fragment => fragment.epoch = epoch.ordinal)),
        { runtime with currentEpoch := runtime.currentEpoch + 1 })

end ScheduleRuntime

/-- What an operation does with its transaction: it reads and writes cells, goes on with what
each access returned, and succeeds or fails. -/
inductive Script (V : Type) where
  | done
  | fail (error : SchedulerError)
  | read (cell : StorageCellKey) (next : Except SchedulerError (Option V) → Script V)
  | write (cell : StorageCellKey) (value : V) (next : Except SchedulerError Unit → Script V)

/-- Run an operation on an open transaction. -/
def Script.run {V : Type} (runtime : ScheduleRuntime V) :
    Script V → ScheduleTransaction V → Except SchedulerError Unit × ScheduleTransaction V
  | .done, transaction => (.ok (), transaction)
  | .fail error, transaction => (.error error, transaction)
  | .read cell next, transaction =>
      (next (runtime.read transaction cell).1).run runtime (runtime.read transaction cell).2
  | .write cell value next, transaction =>
      (next (runtime.write transaction cell value).1).run runtime
        (runtime.write transaction cell value).2

namespace ScheduleRuntime
variable {V : Type}

/-- The loop of `execute_epoch`. -/
def executeIterations (operation : IterationManifest → Script V) :
    ScheduleRuntime V → List IterationId → Except SchedulerError Unit × ScheduleRuntime V
  | runtime, [] => (.ok (), runtime)
  | runtime, iteration :: rest =>
      match runtime.manifest.findIteration iteration with
      | .error error => runtime.abortWith error
      | .ok (_, descriptor) =>
      match runtime.begin iteration with
      | (.error error, runtime) => (.error error, runtime)
      | (.ok transaction, runtime) =>
      match (operation descriptor).run runtime transaction with
      | (.error error, transaction) => (.error error, runtime.abort transaction)
      | (.ok (), transaction) =>
      match runtime.commit transaction with
      | (.error error, runtime) => (.error error, runtime)
      | (.ok _, runtime) => executeIterations operation runtime rest

/-- Execute one epoch in an arbitrary physical completion order. -/
def executeEpoch (runtime : ScheduleRuntime V) (physicalOrder : List IterationId)
    (operation : IterationManifest → Script V) :
    Except SchedulerError (List TraceFragment) × ScheduleRuntime V :=
  if runtime.aborted = true then (.error .runtimeAborted, runtime)
  else match runtime.manifest.epochs[runtime.currentEpoch]? with
  | none => (.error .noRemainingEpochs, runtime)
  | some epoch =>
  if physicalOrder.length ≠ epoch.iterations.length then
    runtime.abortWith (.incompleteEpoch epoch.ordinal
      ((epoch.iterations.head?.map IterationManifest.ordinal).getD ⟨0⟩))
  else match runtime.executeIterations operation physicalOrder with
  | (.error error, runtime) => (.error error, runtime)
  | (.ok (), runtime) => runtime.finishEpoch

end ScheduleRuntime
end VolarIR.Schedule
