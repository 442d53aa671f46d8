import VolarIR.Schedule.Invariant

/-!
# Which failures poison a runtime

A run is watched call by call, the accesses and commits inside `execute_epoch` included.
Failures found by the `&mut` calls poison the runtime, and a poisoned runtime is inert. The
accessors `read` and `write` take the runtime by shared reference and cannot poison it, and
`commit` refuses a closed transaction with a bare `?`; a run without such refusals is fail
closed.
-/
namespace VolarIR.Schedule

open ScheduleRuntime

variable {V : Type}

/-- The calls on a runtime. A transaction is any value of its type: one the runtime issued,
a clone of it, or another runtime's. -/
inductive Call (V : Type) where
  | begin (iteration : IterationId)
  | read (transaction : ScheduleTransaction V) (cell : StorageCellKey)
  | write (transaction : ScheduleTransaction V) (cell : StorageCellKey) (value : V)
  | commit (transaction : ScheduleTransaction V)
  | abort (transaction : ScheduleTransaction V)
  | finishEpoch
  | executeEpoch (physicalOrder : List IterationId) (operation : IterationManifest → Script V)

/-- The error a call returned, if any, and the runtime it left. -/
structure Observation (V : Type) where
  error : Option SchedulerError
  runtime : ScheduleRuntime V

/-- The error of a result. -/
def errorOf {α : Type} : Except SchedulerError α → Option SchedulerError
  | .ok _ => none
  | .error error => some error

@[simp] theorem errorOf_ok {α : Type} (a : α) : errorOf (.ok a) = none := rfl

@[simp] theorem errorOf_error {α : Type} (error : SchedulerError) :
    errorOf (.error error : Except SchedulerError α) = some error := rfl

theorem errorOf_eq_some {α : Type} {result : Except SchedulerError α} {error : SchedulerError} :
    errorOf result = some error ↔ result = .error error := by
  cases result <;> simp

def Observation.of {α : Type} (outcome : Except SchedulerError α × ScheduleRuntime V) :
    Observation V :=
  ⟨errorOf outcome.1, outcome.2⟩

/-- The accesses of an operation. They leave the runtime alone. -/
def Script.observe (runtime : ScheduleRuntime V) :
    Script V → ScheduleTransaction V → List (Observation V)
  | .done, _ => []
  | .fail _, _ => []
  | .read cell next, transaction =>
      ⟨errorOf (runtime.read transaction cell).1, runtime⟩ ::
        (next (runtime.read transaction cell).1).observe runtime
          (runtime.read transaction cell).2
  | .write cell value next, transaction =>
      ⟨errorOf (runtime.write transaction cell value).1, runtime⟩ ::
        (next (runtime.write transaction cell value).1).observe runtime
          (runtime.write transaction cell value).2

/-- The calls the loop of `execute_epoch` makes. -/
def observeIterations (operation : IterationManifest → Script V) :
    ScheduleRuntime V → List IterationId → List (Observation V)
  | _, [] => []
  | runtime, iteration :: rest =>
      match runtime.manifest.findIteration iteration with
      | .error _ => []
      | .ok (_, descriptor) =>
      Observation.of (runtime.begin iteration) ::
      match runtime.begin iteration with
      | (.error _, _) => []
      | (.ok transaction, runtime) =>
      (operation descriptor).observe runtime transaction ++
      match (operation descriptor).run runtime transaction with
      | (.error _, transaction) => [⟨none, runtime.abort transaction⟩]
      | (.ok (), transaction) =>
      Observation.of (runtime.commit transaction) ::
      match runtime.commit transaction with
      | (.error _, _) => []
      | (.ok _, runtime) => observeIterations operation runtime rest

/-- The calls `execute_epoch` makes. -/
def observeEpoch (runtime : ScheduleRuntime V) (physicalOrder : List IterationId)
    (operation : IterationManifest → Script V) : List (Observation V) :=
  if runtime.aborted = true then []
  else match runtime.manifest.epochs[runtime.currentEpoch]? with
  | none => []
  | some epoch =>
  if physicalOrder.length ≠ epoch.iterations.length then []
  else observeIterations operation runtime physicalOrder ++
    match runtime.executeIterations operation physicalOrder with
    | (.error _, _) => []
    | (.ok (), runtime) => [Observation.of runtime.finishEpoch]

/-- The runtime a call leaves. -/
def Call.perform (runtime : ScheduleRuntime V) : Call V → ScheduleRuntime V
  | .begin iteration => (runtime.begin iteration).2
  | .read _ _ => runtime
  | .write _ _ _ => runtime
  | .commit transaction => (runtime.commit transaction).2
  | .abort transaction => runtime.abort transaction
  | .finishEpoch => runtime.finishEpoch.2
  | .executeEpoch physicalOrder operation => (runtime.executeEpoch physicalOrder operation).2

/-- What is seen of a call: the calls made inside it and then its own result. -/
def Call.observe (runtime : ScheduleRuntime V) : Call V → List (Observation V)
  | .begin iteration => [Observation.of (runtime.begin iteration)]
  | .read transaction cell => [⟨errorOf (runtime.read transaction cell).1, runtime⟩]
  | .write transaction cell value => [⟨errorOf (runtime.write transaction cell value).1, runtime⟩]
  | .commit transaction => [Observation.of (runtime.commit transaction)]
  | .abort transaction => [⟨none, runtime.abort transaction⟩]
  | .finishEpoch => [Observation.of runtime.finishEpoch]
  | .executeEpoch physicalOrder operation =>
      observeEpoch runtime physicalOrder operation ++
        [Observation.of (runtime.executeEpoch physicalOrder operation)]

def observeRun : ScheduleRuntime V → List (Call V) → List (Observation V)
  | _, [] => []
  | runtime, call :: calls => call.observe runtime ++ observeRun (call.perform runtime) calls

/-- The call returned an error other than `NoRemainingEpochs`. -/
def Observation.Failed (observation : Observation V) : Prop :=
  ∃ error, observation.error = some error ∧ error ≠ .noRemainingEpochs

structure Settled (before after : ScheduleRuntime V) : Prop where
  bank : after.bank = before.bank
  completed : after.completed = before.completed
  trace : after.trace = before.trace
  incomplete : after.isComplete = false

/-- After a failed call the runtime is not complete, and every later call leaves it so and
leaves what is committed alone. -/
structure FailClosed (observations : List (Observation V)) : Prop where
  incomplete : ∀ observation ∈ observations, observation.Failed →
    observation.runtime.isComplete = false
  settled : observations.Pairwise fun earlier later =>
    earlier.Failed → Settled earlier.runtime later.runtime

section Passes

/-- Every access of the operation is admitted, or the operation goes on to fail. -/
def Script.Passes (runtime : ScheduleRuntime V) : Script V → ScheduleTransaction V → Prop
  | .done, _ => True
  | .fail _, _ => True
  | .read cell next, transaction =>
      ((∃ recorded, runtime.authorize transaction cell .read = .ok recorded) ∨
        ∃ error, ((next (runtime.read transaction cell).1).run runtime
          (runtime.read transaction cell).2).1 = .error error) ∧
      (next (runtime.read transaction cell).1).Passes runtime (runtime.read transaction cell).2
  | .write cell value next, transaction =>
      ((∃ recorded, runtime.authorize transaction cell .write = .ok recorded) ∨
        ∃ error, ((next (runtime.write transaction cell value).1).run runtime
          (runtime.write transaction cell value).2).1 = .error error) ∧
      (next (runtime.write transaction cell value).1).Passes runtime
        (runtime.write transaction cell value).2

/-- Every operation the loop of `execute_epoch` runs passes. -/
def IterationsPass (operation : IterationManifest → Script V) :
    ScheduleRuntime V → List IterationId → Prop
  | _, [] => True
  | runtime, iteration :: rest =>
      match runtime.manifest.findIteration iteration with
      | .error _ => True
      | .ok (_, descriptor) =>
      match runtime.begin iteration with
      | (.error _, _) => True
      | (.ok transaction, runtime) =>
      (operation descriptor).Passes runtime transaction ∧
      match (operation descriptor).run runtime transaction with
      | (.error _, _) => True
      | (.ok (), transaction) =>
      match runtime.commit transaction with
      | (.error _, _) => True
      | (.ok _, runtime) => IterationsPass operation runtime rest

/-- On a live runtime, accesses are admitted and committed transactions are active. -/
def Call.Passes (runtime : ScheduleRuntime V) : Call V → Prop
  | .begin _ => True
  | .read transaction cell => runtime.aborted = true ∨
      ∃ recorded, runtime.authorize transaction cell .read = .ok recorded
  | .write transaction cell _ => runtime.aborted = true ∨
      ∃ recorded, runtime.authorize transaction cell .write = .ok recorded
  | .commit transaction => runtime.aborted = true ∨
      runtime.ensureTransactionActive transaction = .ok ()
  | .abort _ => True
  | .finishEpoch => True
  | .executeEpoch physicalOrder operation =>
      ∀ epoch, runtime.manifest.epochs[runtime.currentEpoch]? = some epoch →
        physicalOrder.length = epoch.iterations.length →
          IterationsPass operation runtime physicalOrder

def RunPasses : ScheduleRuntime V → List (Call V) → Prop
  | _, [] => True
  | runtime, call :: calls => call.Passes runtime ∧ RunPasses (call.perform runtime) calls

end Passes

section Segments
variable {runtime after : ScheduleRuntime V} {observations : List (Observation V)}

theorem isComplete_of_aborted (h : runtime.aborted = true) : runtime.isComplete = false := by
  rw [ScheduleRuntime.isComplete, h]
  exact Bool.and_false _

theorem Settled.refl (h : runtime.isComplete = false) : Settled runtime runtime :=
  ⟨rfl, rfl, rfl, h⟩

theorem Settled.trans {mid : ScheduleRuntime V} (h : Settled runtime mid)
    (h' : Settled mid after) : Settled runtime after :=
  ⟨h'.bank.trans h.bank, h'.completed.trans h.completed, h'.trace.trans h.trace, h'.incomplete⟩

/-- A stretch of a run: fail closed by itself, poisoned at its end by every failure in it,
and inert when it starts poisoned. -/
structure Segment (runtime : ScheduleRuntime V) (observations : List (Observation V))
    (after : ScheduleRuntime V) : Prop where
  closed : FailClosed observations
  poisons : ∀ observation ∈ observations, observation.Failed →
    after.aborted = true ∧ Settled observation.runtime after
  inert : runtime.aborted = true → after.aborted = true ∧ Settled runtime after ∧
    ∀ observation ∈ observations, Settled runtime observation.runtime

theorem Segment.nil (h : runtime.aborted = true → after.aborted = true ∧ Settled runtime after) :
    Segment runtime [] after := by
  constructor
  · constructor
    · simp
    · exact List.Pairwise.nil
  · simp
  · intro haborted
    have hafter := h haborted
    exact ⟨hafter.1, hafter.2, by simp⟩

theorem Segment.single {error : Option SchedulerError}
    (hfail : ∀ e, error = some e → e ≠ .noRemainingEpochs → after.aborted = true)
    (hinert : runtime.aborted = true → after.aborted = true ∧ Settled runtime after) :
    Segment runtime [⟨error, after⟩] after := by
  have hpoison : (⟨error, after⟩ : Observation V).Failed → after.aborted = true := by
    rintro ⟨e, he, hne⟩
    exact hfail e he hne
  constructor
  · constructor
    · intro observation hmem hfailed
      rw [List.mem_singleton.mp hmem] at hfailed ⊢
      exact isComplete_of_aborted (hpoison hfailed)
    · exact List.pairwise_singleton _ _
  · intro observation hmem hfailed
    rw [List.mem_singleton.mp hmem] at hfailed ⊢
    have haborted := hpoison hfailed
    exact ⟨haborted, Settled.refl (isComplete_of_aborted haborted)⟩
  · intro haborted
    have hafter := hinert haborted
    constructor
    · exact hafter.1
    · constructor
      · exact hafter.2
      · intro observation hmem
        rw [List.mem_singleton.mp hmem]
        exact hafter.2

theorem Segment.append {mid : ScheduleRuntime V} {more : List (Observation V)}
    (h : Segment runtime observations mid) (h' : Segment mid more after) :
    Segment runtime (observations ++ more) after := by
  constructor
  · constructor
    · intro observation hmem
      rcases List.mem_append.mp hmem with hmem | hmem
      · exact h.closed.incomplete observation hmem
      · exact h'.closed.incomplete observation hmem
    · rw [List.pairwise_append]
      constructor
      · exact h.closed.settled
      · constructor
        · exact h'.closed.settled
        · intro earlier hearlier later hlater hfailed
          have hmid := h.poisons earlier hearlier hfailed
          exact hmid.2.trans ((h'.inert hmid.1).2.2 later hlater)
  · intro observation hmem hfailed
    rcases List.mem_append.mp hmem with hmem | hmem
    · have hmid := h.poisons observation hmem hfailed
      have hafter := h'.inert hmid.1
      exact ⟨hafter.1, hmid.2.trans hafter.2.1⟩
    · exact h'.poisons observation hmem hfailed
  · intro haborted
    have hmid := h.inert haborted
    have hafter := h'.inert hmid.1
    constructor
    · exact hafter.1
    · constructor
      · exact hmid.2.1.trans hafter.2.1
      · intro observation hmem
        rcases List.mem_append.mp hmem with hmem | hmem
        · exact hmid.2.2 observation hmem
        · exact hmid.2.1.trans (hafter.2.2 observation hmem)

end Segments

section Calls
variable {runtime : ScheduleRuntime V}

theorem eq_noRemainingEpochs {error : SchedulerError}
    (h : runtime.currentEpochId = .error error) : error = .noRemainingEpochs := by
  unfold ScheduleRuntime.currentEpochId at h
  cases hget : runtime.manifest.epochs[runtime.currentEpoch]?.map EpochManifest.ordinal with
  | none =>
      rw [hget] at h
      cases h
      rfl
  | some id =>
      rw [hget] at h
      cases h

/-- `begin` keeps the invariant, and poisons when it fails. -/
theorem begin_sound (h : Sound runtime) (iteration : IterationId) :
    Sound (runtime.begin iteration).2 ∧
      ∀ error, (runtime.begin iteration).1 = .error error → error ≠ .noRemainingEpochs →
        (runtime.begin iteration).2.aborted = true := by
  rcases begin_cases runtime iteration with
    ⟨epoch, descriptor, hopens, rfl, hbegin⟩ | ⟨error, hbegin⟩ | ⟨error, hbegin, hwhy⟩
  · rw [hbegin]
    constructor
    · exact h.opens hopens
    · intro error herror
      cases herror
  · rw [hbegin]
    exact ⟨h.poison, fun _ _ _ => rfl⟩
  · rw [hbegin]
    constructor
    · exact h
    · intro error' herror hne
      cases herror
      rcases hwhy with haborted | hcurrent | ⟨descriptor, hconflict⟩
      · exact haborted
      · exact absurd (eq_noRemainingEpochs hcurrent) hne
      · exact absurd hconflict h.firstConflict_ne_error

/-- `commit` keeps the invariant; it fails only where it is refused. -/
theorem commit_sound (h : Sound runtime) (transaction : ScheduleTransaction V) :
    Sound (runtime.commit transaction).2 ∧
      ((runtime.aborted = true ∨ runtime.ensureTransactionActive transaction = .ok ()) →
        ∀ error, (runtime.commit transaction).1 = .error error → error ≠ .noRemainingEpochs →
          (runtime.commit transaction).2.aborted = true) := by
  rcases commit_cases runtime transaction with
    ⟨epoch, _, _, hactive, hcurrent, hcommit⟩ | ⟨error, hcommit, hwhy⟩
  · rw [hcommit]
    constructor
    · exact h.committed hactive hcurrent
    · intro _ error herror
      cases herror
  · rw [hcommit]
    constructor
    · exact h
    · intro hpass error' herror hne
      cases herror
      rcases hpass with haborted | hopen
      · exact haborted
      · unfold ensureTransactionActive at hopen
        split_ifs at hopen with hclosed
        have hopen := not_or.mp hclosed
        rcases hwhy with haborted | hclosed | hinactive | hcurrent
        · exact haborted
        · exact absurd hclosed hopen.1
        · exact absurd hinactive hopen.2
        · exact absurd (eq_noRemainingEpochs hcurrent) hne

/-- `finish_epoch` keeps the invariant, and poisons when it fails. -/
theorem finishEpoch_sound (h : Sound runtime) :
    Sound runtime.finishEpoch.2 ∧
      ∀ error, runtime.finishEpoch.1 = .error error → error ≠ .noRemainingEpochs →
        runtime.finishEpoch.2.aborted = true := by
  rcases finishEpoch_cases runtime with
    ⟨epoch, _, hepoch, hactive, hall, hfinish⟩ | ⟨error, hfinish⟩ | ⟨error, hfinish, hwhy⟩
  · rw [hfinish]
    constructor
    · exact h.finishes hepoch hactive hall
    · intro error herror
      cases herror
  · rw [hfinish]
    exact ⟨h.poison, fun _ _ _ => rfl⟩
  · rw [hfinish]
    constructor
    · exact h
    · intro error' herror hne
      cases herror
      exact hwhy.resolve_right hne

theorem begin_of_aborted (h : runtime.aborted = true) (iteration : IterationId) :
    runtime.begin iteration = (.error .runtimeAborted, runtime) := by
  unfold ScheduleRuntime.begin
  rw [if_pos h]

theorem commit_of_aborted (h : runtime.aborted = true) (transaction : ScheduleTransaction V) :
    runtime.commit transaction = (.error .runtimeAborted, runtime) := by
  unfold ScheduleRuntime.commit
  rw [if_pos h]

theorem finishEpoch_of_aborted (h : runtime.aborted = true) :
    runtime.finishEpoch = (.error .runtimeAborted, runtime) := by
  unfold ScheduleRuntime.finishEpoch
  rw [if_pos h]

theorem executeEpoch_of_aborted (h : runtime.aborted = true) (physicalOrder : List IterationId)
    (operation : IterationManifest → Script V) :
    runtime.executeEpoch physicalOrder operation = (.error .runtimeAborted, runtime) := by
  unfold ScheduleRuntime.executeEpoch
  rw [if_pos h]

theorem Segment.call {α : Type} {outcome : Except SchedulerError α × ScheduleRuntime V}
    (hfail : ∀ error, outcome.1 = .error error → error ≠ .noRemainingEpochs →
      outcome.2.aborted = true)
    (hinert : runtime.aborted = true → outcome = (.error .runtimeAborted, runtime)) :
    Segment runtime [Observation.of outcome] outcome.2 := by
  apply Segment.single
  · intro error herror
    exact hfail error (errorOf_eq_some.mp herror)
  · intro haborted
    rw [hinert haborted]
    exact ⟨haborted, Settled.refl (isComplete_of_aborted haborted)⟩

theorem begin_segment (h : Sound runtime) (iteration : IterationId) :
    Segment runtime [Observation.of (runtime.begin iteration)] (runtime.begin iteration).2 :=
  Segment.call (begin_sound h iteration).2 fun haborted => begin_of_aborted haborted iteration

theorem commit_segment (h : Sound runtime) (transaction : ScheduleTransaction V)
    (hpass : runtime.aborted = true ∨ runtime.ensureTransactionActive transaction = .ok ()) :
    Segment runtime [Observation.of (runtime.commit transaction)]
      (runtime.commit transaction).2 :=
  Segment.call ((commit_sound h transaction).2 hpass)
    fun haborted => commit_of_aborted haborted transaction

theorem finishEpoch_segment (h : Sound runtime) :
    Segment runtime [Observation.of runtime.finishEpoch] runtime.finishEpoch.2 :=
  Segment.call (finishEpoch_sound h).2 finishEpoch_of_aborted

theorem abort_segment (runtime : ScheduleRuntime V) (transaction : ScheduleTransaction V) :
    Segment runtime [⟨none, runtime.abort transaction⟩] (runtime.abort transaction) := by
  apply Segment.single
  · intro error herror
    cases herror
  · intro _
    exact ⟨rfl, rfl, rfl, rfl, isComplete_of_aborted rfl⟩

end Calls

section Scripts
variable {runtime : ScheduleRuntime V} {transaction : ScheduleTransaction V}

theorem Script.observe_runtime (script : Script V) (transaction : ScheduleTransaction V) :
    ∀ observation ∈ script.observe runtime transaction, observation.runtime = runtime := by
  induction script generalizing transaction with
  | done => simp [Script.observe]
  | fail error => simp [Script.observe]
  | read cell next ih =>
      intro observation hmem
      rcases List.mem_cons.mp hmem with rfl | hmem
      · rfl
      · exact ih _ _ observation hmem
  | write cell value next ih =>
      intro observation hmem
      rcases List.mem_cons.mp hmem with rfl | hmem
      · rfl
      · exact ih _ _ observation hmem

theorem Script.Passes.error_eq_none {script : Script V}
    (h : script.Passes runtime transaction)
    (hok : (script.run runtime transaction).1 = .ok ()) :
    ∀ observation ∈ script.observe runtime transaction, observation.error = none := by
  induction script generalizing transaction with
  | done => simp [Script.observe]
  | fail error => simp [Script.observe]
  | read cell next ih =>
      intro observation hmem
      rcases List.mem_cons.mp hmem with rfl | hmem
      · rcases h.1 with ⟨recorded, hauthorize⟩ | ⟨error, herror⟩
        · simp [ScheduleRuntime.read, hauthorize]
        · rw [Script.run, herror] at hok
          cases hok
      · exact ih _ h.2 hok observation hmem
  | write cell value next ih =>
      intro observation hmem
      rcases List.mem_cons.mp hmem with rfl | hmem
      · rcases h.1 with ⟨recorded, hauthorize⟩ | ⟨error, herror⟩
        · simp [ScheduleRuntime.write, hauthorize]
        · rw [Script.run, herror] at hok
          cases hok
      · exact ih _ h.2 hok observation hmem

end Scripts

section Execute
variable {runtime : ScheduleRuntime V} {operation : IterationManifest → Script V}

theorem Segment.accesses {observations : List (Observation V)} (hlive : runtime.aborted = false)
    (hnone : ∀ observation ∈ observations, observation.error = none) :
    Segment runtime observations runtime := by
  have hfine : ∀ observation ∈ observations, ¬ observation.Failed := by
    rintro observation hmem ⟨error, herror, _⟩
    rw [hnone observation hmem] at herror
    cases herror
  constructor
  · constructor
    · exact fun observation hmem hfailed => absurd hfailed (hfine observation hmem)
    · exact List.pairwise_of_forall_mem_list fun earlier hmem _ _ hfailed =>
        absurd hfailed (hfine earlier hmem)
  · exact fun observation hmem hfailed => absurd hfailed (hfine observation hmem)
  · intro haborted
    rw [hlive] at haborted
    cases haborted

theorem Segment.aborting {observations : List (Observation V)}
    (hlive : runtime.aborted = false) (hopen : runtime.isComplete = false)
    (hruntime : ∀ observation ∈ observations, observation.runtime = runtime)
    (transaction : ScheduleTransaction V) :
    Segment runtime (observations ++ [⟨none, runtime.abort transaction⟩])
      (runtime.abort transaction) := by
  have hsettled : Settled runtime (runtime.abort transaction) :=
    ⟨rfl, rfl, rfl, isComplete_of_aborted rfl⟩
  constructor
  · constructor
    · intro observation hmem _
      rcases List.mem_append.mp hmem with hmem | hmem
      · rw [hruntime observation hmem]
        exact hopen
      · rw [List.mem_singleton.mp hmem]
        exact isComplete_of_aborted rfl
    · rw [List.pairwise_append]
      constructor
      · apply List.pairwise_of_forall_mem_list
        intro earlier hearlier later hlater _
        rw [hruntime earlier hearlier, hruntime later hlater]
        exact Settled.refl hopen
      · constructor
        · exact List.pairwise_singleton _ _
        · intro earlier hearlier later hlater _
          rw [hruntime earlier hearlier, List.mem_singleton.mp hlater]
          exact hsettled
  · rintro observation hmem ⟨error, herror, _⟩
    rcases List.mem_append.mp hmem with hmem | hmem
    · rw [hruntime observation hmem]
      exact ⟨rfl, hsettled⟩
    · rw [List.mem_singleton.mp hmem] at herror
      cases herror
  · intro haborted
    rw [hlive] at haborted
    cases haborted

theorem Opens.isComplete {epoch : EpochManifest} {descriptor : IterationManifest}
    (ho : Opens runtime epoch descriptor) :
    (runtime.opening descriptor.ordinal).isComplete = false := by
  obtain ⟨current, hcurrent, _⟩ := Sound.currentEpochId_eq_ok ho.current
  have hlt := (List.getElem?_eq_some_iff.mp hcurrent).1
  unfold ScheduleRuntime.isComplete ScheduleRuntime.opening
  rw [decide_eq_false hlt.ne, Bool.false_and]

/-- The loop of `execute_epoch` keeps the invariant. -/
theorem executeIterations_sound (h : Sound runtime) (order : List IterationId) :
    Sound (runtime.executeIterations operation order).2 := by
  induction order generalizing runtime with
  | nil => exact h
  | cons iteration rest ih =>
      unfold executeIterations
      cases hfind : runtime.manifest.findIteration iteration with
      | error error => exact h.poison
      | ok found =>
          have hbegin := (begin_sound h iteration).1
          rcases hopened : runtime.begin iteration with ⟨_ | transaction, opened⟩
          · rw [hopened] at hbegin
            exact hbegin
          · rw [hopened] at hbegin
            rcases hrun : (operation found.2).run opened transaction with ⟨_ | _, transaction'⟩
            · simp only [hrun]
              exact hbegin.abort transaction'
            · have hcommit := (commit_sound hbegin transaction').1
              rcases hcommitted : opened.commit transaction' with ⟨_ | _, after⟩
              · simp only [hrun, hcommitted]
                rw [hcommitted] at hcommit
                exact hcommit
              · simp only [hrun, hcommitted]
                rw [hcommitted] at hcommit
                exact ih hcommit

/-- The loop of `execute_epoch` is fail closed when its operations pass, and poisons when it
fails. -/
theorem executeIterations_segment (h : Sound runtime) (order : List IterationId)
    (hpass : IterationsPass operation runtime order) :
    Segment runtime (observeIterations operation runtime order)
        (runtime.executeIterations operation order).2 ∧
      ∀ error, (runtime.executeIterations operation order).1 = .error error →
        error ≠ .noRemainingEpochs →
          (runtime.executeIterations operation order).2.aborted = true := by
  induction order generalizing runtime with
  | nil =>
      constructor
      · exact Segment.nil fun haborted =>
          ⟨haborted, Settled.refl (isComplete_of_aborted haborted)⟩
      · intro error herror
        cases herror
  | cons iteration rest ih =>
      unfold IterationsPass at hpass
      unfold observeIterations executeIterations
      cases hfind : runtime.manifest.findIteration iteration with
      | error error =>
          constructor
          · exact Segment.nil fun _ => ⟨rfl, rfl, rfl, rfl, isComplete_of_aborted rfl⟩
          · exact fun _ _ _ => rfl
      | ok found =>
          have hsegment := begin_segment h iteration
          have hsound := begin_sound h iteration
          rcases begin_cases runtime iteration with
            ⟨epoch, descriptor, hopens, rfl, hbegin⟩ | ⟨error, hbegin⟩ | ⟨error, hbegin, _⟩
          · -- the transaction opens: its accesses, then the abort or the commit
            have hdescriptor : found.2 = descriptor := by
              rw [hopens.found] at hfind
              cases hfind
              rfl
            have hopened := hsound.1
            rw [hbegin] at hsegment hopened
            simp only [hfind, hbegin, hdescriptor] at hpass hsegment hopened ⊢
            have hlive : (runtime.opening descriptor.ordinal).aborted = false := hopens.live
            have hincomplete : (runtime.opening descriptor.ordinal).isComplete = false :=
              hopens.isComplete
            have hactive : descriptor.ordinal ∈ (runtime.opening descriptor.ordinal).active :=
              List.mem_append_right _ (List.mem_singleton_self _)
            generalize runtime.opening descriptor.ordinal = opened at *
            have hsame := Script.run_same opened (operation descriptor) (descriptor.opened V)
            have hnone := hpass.1.error_eq_none
            rcases hrun : (operation descriptor).run opened (descriptor.opened V) with
              ⟨error | _, transaction⟩
            · have habort := Segment.aborting hlive hincomplete
                (Script.observe_runtime (operation descriptor) (descriptor.opened V)) transaction
              exact ⟨hsegment.append habort, fun _ _ _ => rfl⟩
            · rw [hrun] at hnone hsame
              have haccesses := Segment.accesses hlive (hnone rfl)
              have hensure : opened.ensureTransactionActive transaction = .ok () := by
                unfold ensureTransactionActive
                rw [if_neg]
                rw [hsame.closed, hsame.iteration]
                simp [IterationManifest.opened, hactive]
              have hcommit := commit_segment hopened transaction (.inr hensure)
              have hcommitSound := commit_sound hopened transaction
              simp only [hrun] at hpass ⊢
              rcases hcommitted : opened.commit transaction with ⟨error | _, after⟩
              · simp only [hcommitted] at hcommit hcommitSound hpass ⊢
                constructor
                · exact hsegment.append (haccesses.append hcommit)
                · intro e he hne
                  cases he
                  exact hcommitSound.2 (.inr hensure) error rfl hne
              · simp only [hcommitted] at hcommit hcommitSound hpass ⊢
                have hrest := ih hcommitSound.1 hpass.2
                constructor
                · exact hsegment.append (haccesses.append (hcommit.append hrest.1))
                · exact hrest.2
          · simp only [hbegin, ScheduleRuntime.abortWith] at hsegment ⊢
            exact ⟨hsegment, fun _ _ _ => trivial⟩
          · rw [hbegin] at hsound
            simp only [hbegin] at hsegment ⊢
            exact ⟨hsegment, by simpa using hsound.2⟩

/-- `execute_epoch` keeps the invariant. -/
theorem executeEpoch_sound (h : Sound runtime) (order : List IterationId) :
    Sound (runtime.executeEpoch order operation).2 := by
  unfold executeEpoch
  split_ifs
  · exact h
  · cases hepoch : runtime.manifest.epochs[runtime.currentEpoch]? with
    | none => exact h
    | some epoch =>
        dsimp only
        split_ifs
        · exact h.poison
        · have hloop : Sound (runtime.executeIterations operation order).2 :=
            executeIterations_sound h order
          rcases hrun : runtime.executeIterations operation order with ⟨_ | _, after⟩
          · rw [hrun] at hloop
            exact hloop
          · rw [hrun] at hloop
            exact (finishEpoch_sound hloop).1

theorem Segment.result {α : Type} {result : Except SchedulerError α}
    (hfail : ∀ error, result = .error error → error ≠ .noRemainingEpochs →
      runtime.aborted = true) :
    Segment runtime [⟨errorOf result, runtime⟩] runtime :=
  Segment.single (fun error herror => hfail error (errorOf_eq_some.mp herror))
    fun haborted => ⟨haborted, Settled.refl (isComplete_of_aborted haborted)⟩

/-- `execute_epoch` and the calls inside it. -/
theorem executeEpoch_segment (h : Sound runtime) (order : List IterationId)
    (hpass : (Call.executeEpoch order operation).Passes runtime) :
    Segment runtime ((Call.executeEpoch order operation).observe runtime)
      (runtime.executeEpoch order operation).2 := by
  simp only [Call.observe, observeEpoch, Observation.of]
  by_cases haborted : runtime.aborted = true
  · rw [if_pos haborted, executeEpoch_of_aborted haborted]
    exact Segment.result fun _ _ _ => haborted
  · unfold executeEpoch
    rw [if_neg haborted, if_neg haborted]
    cases hepoch : runtime.manifest.epochs[runtime.currentEpoch]? with
    | none =>
        apply Segment.result
        intro error herror hne
        cases herror
        exact absurd rfl hne
    | some epoch =>
        dsimp only
        split_ifs with hlength
        · apply Segment.single
          · exact fun _ _ _ => rfl
          · exact fun h => absurd h haborted
        · have hlength := not_not.mp hlength
          have hloop := executeIterations_segment h order (hpass epoch hepoch hlength)
          have hsound : Sound (runtime.executeIterations operation order).2 :=
            executeIterations_sound h order
          rcases hrun : runtime.executeIterations operation order with ⟨error | _, after⟩
          · rw [hrun] at hloop
            dsimp only
            rw [List.append_nil]
            apply hloop.1.append
            apply Segment.result
            intro e he hne
            cases he
            exact hloop.2 error rfl hne
          · rw [hrun] at hloop hsound
            apply (hloop.1.append (finishEpoch_segment hsound)).append
            exact Segment.result (finishEpoch_sound hsound).2

end Execute

section Run
variable {runtime : ScheduleRuntime V}

theorem Call.perform_sound (h : Sound runtime) (call : Call V) : Sound (call.perform runtime) := by
  cases call with
  | begin iteration => exact (begin_sound h iteration).1
  | read transaction cell => exact h
  | write transaction cell value => exact h
  | commit transaction => exact (commit_sound h transaction).1
  | abort transaction => exact h.abort transaction
  | finishEpoch => exact (finishEpoch_sound h).1
  | executeEpoch order operation => exact executeEpoch_sound h order

theorem access_segment {α : Type} {result : Except SchedulerError α}
    (hpass : runtime.aborted = true ∨ errorOf result = none) :
    Segment runtime [⟨errorOf result, runtime⟩] runtime := by
  apply Segment.result
  intro error herror _
  apply hpass.resolve_right
  rw [herror]
  exact Option.some_ne_none error

theorem Call.segment (h : Sound runtime) (call : Call V) (hpass : call.Passes runtime) :
    Segment runtime (call.observe runtime) (call.perform runtime) := by
  cases call with
  | begin iteration => exact begin_segment h iteration
  | read transaction cell =>
      apply access_segment
      apply hpass.imp_right
      rintro ⟨recorded, hauthorize⟩
      simp [ScheduleRuntime.read, hauthorize]
  | write transaction cell value =>
      apply access_segment
      apply hpass.imp_right
      rintro ⟨recorded, hauthorize⟩
      simp [ScheduleRuntime.write, hauthorize]
  | commit transaction => exact commit_segment h transaction hpass
  | abort transaction => exact abort_segment runtime transaction
  | finishEpoch => exact finishEpoch_segment h
  | executeEpoch order operation => exact executeEpoch_segment h order hpass

theorem observeRun_segment (h : Sound runtime) (calls : List (Call V))
    (hpass : RunPasses runtime calls) :
    ∃ after, Segment runtime (observeRun runtime calls) after := by
  induction calls generalizing runtime with
  | nil => exact ⟨runtime, Segment.nil fun haborted =>
      ⟨haborted, Settled.refl (isComplete_of_aborted haborted)⟩⟩
  | cons call calls ih =>
      obtain ⟨after, hrest⟩ := ih (call.perform_sound h) hpass.2
      exact ⟨after, (call.segment h hpass.1).append hrest⟩

/-- In every run of a new runtime in which no access and no commit is refused on the live
runtime, a failed call poisons it for good. -/
theorem observeRun_failClosed (manifest : ScheduleManifest) (bank : SharedStorageBank V)
    (runtime : ScheduleRuntime V) (calls : List (Call V))
    (hnew : ScheduleRuntime.new manifest bank = .ok runtime) (hpass : RunPasses runtime calls) :
    FailClosed (observeRun runtime calls) := by
  obtain ⟨after, hsegment⟩ := observeRun_segment (Sound.new hnew) calls hpass
  exact hsegment.closed

end Run

section Lone

def undeclaredThenCommit : List (Call ℕ) :=
  [.begin ⟨0⟩, .read (loneIteration.opened ℕ) ⟨⟨9, 0⟩, 0⟩, .commit (loneIteration.opened ℕ)]

def unknownThenCommit : List (Call ℕ) :=
  [.begin ⟨0⟩, .begin ⟨5⟩, .commit (loneIteration.opened ℕ)]

/-- The undeclared read fails, and the commit after it goes through. -/
theorem not_failClosed_undeclared :
    ¬ ∀ (manifest : ScheduleManifest) (bank : SharedStorageBank ℕ) (runtime : ScheduleRuntime ℕ)
      (calls : List (Call ℕ)), ScheduleRuntime.new manifest bank = .ok runtime →
        FailClosed (observeRun runtime calls) := by
  intro h
  have hclosed := h loneManifest (fun _ => none) loneRuntime undeclaredThenCommit
    new_loneManifest
  have hpair := List.pairwise_iff_getElem.mp hclosed.settled 1 2 (by decide) (by decide)
    (by decide)
  have hfailed : ((observeRun loneRuntime undeclaredThenCommit).get ⟨1, by decide⟩).Failed :=
    ⟨.undeclaredAccess ⟨0⟩ ⟨⟨9, 0⟩, 0⟩ .read, rfl, by decide⟩
  have hcompleted : ([⟨0⟩] : List IterationId) = [] := (hpair hfailed).completed
  cases hcompleted

theorem observeRun_failClosed_unknown :
    FailClosed (observeRun loneRuntime unknownThenCommit) :=
  observeRun_failClosed loneManifest (fun _ => none) loneRuntime unknownThenCommit
    new_loneManifest ⟨trivial, trivial, .inl rfl, trivial⟩

end Lone
end VolarIR.Schedule
