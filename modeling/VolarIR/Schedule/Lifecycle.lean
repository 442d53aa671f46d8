import VolarIR.Schedule.Runtime

/-!
# What a runtime keeps

One inversion lemma for each call says everything the call can do; the invariant of a
runtime over a validated manifest follows from these: the active iterations belong to the
current epoch, are compatible and have their dependencies committed, and the completed
iterations are exactly the traced ones.
-/
namespace VolarIR.Schedule

open SortByKey ScheduleRuntime

section Lookup
variable {manifest : ScheduleManifest} {epoch : EpochManifest} {descriptor : IterationManifest}
  {iteration : IterationId}

theorem ScheduleManifest.Valid.eq_of_ordinal (h : manifest.Valid) :
    ∀ left ∈ manifest.epochs, ∀ right ∈ manifest.epochs, ∀ a ∈ left.iterations,
      ∀ b ∈ right.iterations, a.ordinal = b.ordinal → left = right ∧ a = b := by
  have hlt := List.pairwise_flatMap.mp h.ordinals_lt
  have hne : ∀ a b : IterationManifest, a.ordinal.id.val < b.ordinal.id.val →
      a.ordinal ≠ b.ordinal := by
    intro a b hab heq
    rw [heq] at hab
    exact lt_irrefl _ hab
  apply List.Pairwise.forall_of_forall_of_flip
  · intro epoch hepoch
    apply List.Pairwise.forall_of_forall_of_flip
    · exact fun a _ _ => ⟨rfl, rfl⟩
    · exact (hlt.1 epoch hepoch).imp fun hab heq => absurd heq (hne _ _ hab)
    · exact (hlt.1 epoch hepoch).imp fun hab heq => absurd heq.symm (hne _ _ hab)
  · exact hlt.2.imp fun hlr a ha b hb heq => absurd heq (hne a b (hlr a ha b hb))
  · exact hlt.2.imp fun hlr a ha b hb heq => absurd heq.symm (hne b a (hlr b hb a ha))

theorem findIteration_eq_ok
    (h : manifest.findIteration iteration = .ok (epoch, descriptor)) :
    epoch ∈ manifest.epochs ∧ descriptor ∈ epoch.iterations ∧ descriptor.ordinal = iteration := by
  have h := okOr_eq_ok.mp h
  obtain ⟨found, hfound, hmap⟩ := List.exists_of_findSome?_eq_some h
  obtain ⟨candidate, hcandidate, hpair⟩ := Option.map_eq_some_iff.mp hmap
  cases hpair
  exact ⟨hfound, List.mem_of_find?_eq_some hcandidate,
    by simpa using List.find?_some hcandidate⟩

theorem ScheduleManifest.Valid.findIteration (h : manifest.Valid)
    (hepoch : epoch ∈ manifest.epochs) (hmem : descriptor ∈ epoch.iterations) :
    manifest.findIteration descriptor.ordinal = .ok (epoch, descriptor) := by
  cases hfind : manifest.findIteration descriptor.ordinal with
  | error error =>
      exfalso
      cases hsome : manifest.epochs.findSome? fun epoch =>
          (epoch.iterations.find? fun candidate => candidate.ordinal = descriptor.ordinal).map
            fun candidate => (epoch, candidate) with
      | some found => simp [ScheduleManifest.findIteration, hsome, okOr] at hfind
      | none =>
          have hnone := List.findSome?_eq_none_iff.mp hsome epoch hepoch
          rw [Option.map_eq_none_iff, List.find?_eq_none] at hnone
          exact hnone descriptor hmem (decide_eq_true rfl)
  | ok found =>
      have hfound := findIteration_eq_ok hfind
      have heq := h.eq_of_ordinal _ hfound.1 _ hepoch _ hfound.2.1 _ hmem hfound.2.2
      rw [← heq.1, ← heq.2]

end Lookup

section Cases
variable {V : Type} {runtime : ScheduleRuntime V} {descriptor : IterationManifest}
  {actives : List IterationId}

theorem firstConflict_eq_none (h : runtime.firstConflict descriptor actives = .ok none) :
    ∀ active ∈ actives, ∃ found, runtime.manifest.findIteration active = .ok found ∧
      found.2.conflictsWith descriptor = false := by
  induction actives with
  | nil => simp
  | cons active rest ih =>
      unfold firstConflict at h
      split at h
      · cases h
      · next epoch found hfind =>
          split_ifs at h with hconflict
          · cases h
          · intro other hother
            rcases List.mem_cons.mp hother with rfl | hother
            · exact ⟨_, hfind, Bool.eq_false_iff.mpr hconflict⟩
            · exact ih h other hother

theorem firstConflict_ne_error {error : SchedulerError}
    (h : ∀ active ∈ actives, ∃ found, runtime.manifest.findIteration active = .ok found) :
    runtime.firstConflict descriptor actives ≠ .error error := by
  induction actives with
  | nil =>
      intro herror
      cases herror
  | cons active rest ih =>
      obtain ⟨found, hfind⟩ := h active List.mem_cons_self
      simp only [firstConflict, hfind]
      split_ifs with hconflict
      · intro herror
        cases herror
      · exact ih fun other hother => h other (List.mem_cons_of_mem active hother)

/-- The transaction `begin` opens. -/
def IterationManifest.opened (V : Type) (descriptor : IterationManifest) : ScheduleTransaction V :=
  ⟨descriptor.ordinal, descriptor.claims, [], [], false⟩

/-- The runtime `begin` leaves when it opens a transaction. -/
def ScheduleRuntime.opening (runtime : ScheduleRuntime V) (iteration : IterationId) :
    ScheduleRuntime V :=
  { runtime with active := runtime.active ++ [iteration] }

/-- What holds when `begin` opens a transaction. -/
structure Opens (runtime : ScheduleRuntime V) (epoch : EpochManifest)
    (descriptor : IterationManifest) : Prop where
  live : runtime.aborted = false
  found : runtime.manifest.findIteration descriptor.ordinal = .ok (epoch, descriptor)
  current : runtime.currentEpochId = .ok epoch.ordinal
  not_completed : descriptor.ordinal ∉ runtime.completed
  not_active : descriptor.ordinal ∉ runtime.active
  dependencies : ∀ dependency ∈ descriptor.dependencies, dependency ∈ runtime.completed
  compatible : runtime.firstConflict descriptor runtime.active = .ok none

/-- Everything `begin` can do. -/
theorem begin_cases (runtime : ScheduleRuntime V) (iteration : IterationId) :
    (∃ epoch descriptor, Opens runtime epoch descriptor ∧ descriptor.ordinal = iteration ∧
        runtime.begin iteration = (.ok (descriptor.opened V), runtime.opening iteration)) ∨
      (∃ error, runtime.begin iteration = runtime.abortWith error) ∨
      ∃ error, runtime.begin iteration = (.error error, runtime) ∧
        (runtime.aborted = true ∨ runtime.currentEpochId = .error error ∨
          ∃ descriptor, runtime.firstConflict descriptor runtime.active = .error error) := by
  unfold ScheduleRuntime.begin
  by_cases haborted : runtime.aborted = true
  · rw [if_pos haborted]
    exact .inr (.inr ⟨_, rfl, .inl haborted⟩)
  · rw [if_neg haborted]
    split
    · exact .inr (.inl ⟨_, rfl⟩)
    · next epoch descriptor hfind =>
        split
        · next error hcurrent => exact .inr (.inr ⟨_, rfl, .inr (.inl hcurrent)⟩)
        · next current hcurrent =>
            split_ifs with hepoch hcompleted hactive
            · exact .inr (.inl ⟨_, rfl⟩)
            · exact .inr (.inl ⟨_, rfl⟩)
            · exact .inr (.inl ⟨_, rfl⟩)
            · split
              · exact .inr (.inl ⟨_, rfl⟩)
              · next hdependencies =>
                  split
                  · next error hconflict =>
                      exact .inr (.inr ⟨_, rfl, .inr (.inr ⟨_, hconflict⟩)⟩)
                  · exact .inr (.inl ⟨_, rfl⟩)
                  · next hconflict =>
                      have hordinal := (findIteration_eq_ok hfind).2.2
                      subst hordinal
                      have hepoch := not_not.mp hepoch
                      have hdeps : ∀ dependency ∈ descriptor.dependencies,
                          dependency ∈ runtime.completed := by
                        intro dependency hmem
                        have hnone := List.find?_eq_none.mp hdependencies dependency hmem
                        exact not_not.mp fun h => hnone (decide_eq_true h)
                      exact .inl ⟨epoch, descriptor,
                        ⟨Bool.eq_false_iff.mpr haborted, hfind, hepoch ▸ hcurrent, hcompleted,
                          hactive, hdeps, hconflict⟩, rfl, rfl⟩

/-- The runtime a commit leaves. -/
def committed (runtime : ScheduleRuntime V) (transaction : ScheduleTransaction V)
    (epoch : EpochId) : ScheduleRuntime V :=
  { runtime with
    bank := applyWrites runtime.bank (sortByKey writeKey transaction.writes)
    active := runtime.active.erase transaction.iteration
    completed := runtime.completed ++ [transaction.iteration]
    trace := sortByKey fragmentKey
      (runtime.trace ++ [⟨epoch, transaction.iteration, transaction.events⟩]) }

/-- Everything `commit` can do. -/
theorem commit_cases (runtime : ScheduleRuntime V) (transaction : ScheduleTransaction V) :
    (∃ epoch, runtime.aborted = false ∧ transaction.closed = false ∧
        transaction.iteration ∈ runtime.active ∧ runtime.currentEpochId = .ok epoch ∧
        runtime.commit transaction =
          (.ok ⟨epoch, transaction.iteration, transaction.events⟩,
            committed runtime transaction epoch)) ∨
      ∃ error, runtime.commit transaction = (.error error, runtime) ∧
        (runtime.aborted = true ∨ transaction.closed = true ∨
          transaction.iteration ∉ runtime.active ∨ runtime.currentEpochId = .error error) := by
  unfold ScheduleRuntime.commit ensureTransactionActive
  split_ifs with haborted hclosed
  · exact .inr ⟨_, rfl, .inl haborted⟩
  · exact .inr ⟨_, rfl, .inr (hclosed.imp id .inl)⟩
  · have hopen := not_or.mp hclosed
    cases hcurrent : runtime.currentEpochId with
    | error error => exact .inr ⟨_, rfl, .inr (.inr (.inr rfl))⟩
    | ok epoch =>
        exact .inl ⟨epoch, Bool.eq_false_iff.mpr haborted, Bool.eq_false_iff.mpr hopen.1,
          not_not.mp hopen.2, rfl, rfl⟩

/-- Everything `finish_epoch` can do. -/
theorem finishEpoch_cases (runtime : ScheduleRuntime V) :
    (∃ epoch, runtime.aborted = false ∧
        runtime.manifest.epochs[runtime.currentEpoch]? = some epoch ∧ runtime.active = [] ∧
        (∀ iteration ∈ epoch.iterations, iteration.ordinal ∈ runtime.completed) ∧
        runtime.finishEpoch = (.ok (sortByKey (fun fragment => fragment.iteration)
            (runtime.trace.filter fun fragment => fragment.epoch = epoch.ordinal)),
          { runtime with currentEpoch := runtime.currentEpoch + 1 })) ∨
      (∃ error, runtime.finishEpoch = runtime.abortWith error) ∨
      ∃ error, runtime.finishEpoch = (.error error, runtime) ∧
        (runtime.aborted = true ∨ error = .noRemainingEpochs) := by
  unfold ScheduleRuntime.finishEpoch
  split_ifs with haborted
  · exact .inr (.inr ⟨_, rfl, .inl haborted⟩)
  · split
    · exact .inr (.inr ⟨_, rfl, .inr rfl⟩)
    · next epoch hepoch =>
        split
        · exact .inr (.inl ⟨_, rfl⟩)
        · next hactive =>
            split
            · exact .inr (.inl ⟨_, rfl⟩)
            · next hcompleted =>
                have hall : ∀ iteration ∈ epoch.iterations,
                    iteration.ordinal ∈ runtime.completed := by
                  intro iteration hmem
                  have hnone := List.find?_eq_none.mp hcompleted iteration hmem
                  exact not_not.mp fun h => hnone (decide_eq_true h)
                exact .inl ⟨epoch, Bool.eq_false_iff.mpr haborted, hepoch, hactive, hall, rfl⟩

end Cases

section Accesses
variable {V : Type} {runtime : ScheduleRuntime V} {transaction : ScheduleTransaction V}

theorem Script.run_invariant {I : ScheduleTransaction V → Prop}
    (hread : ∀ transaction cell, I transaction → I (runtime.read transaction cell).2)
    (hwrite : ∀ transaction cell value, I transaction →
      I (runtime.write transaction cell value).2)
    (script : Script V) (h : I transaction) : I (script.run runtime transaction).2 := by
  induction script generalizing transaction with
  | done => exact h
  | fail error => exact h
  | read cell next ih => exact ih _ (hread _ cell h)
  | write cell value next ih => exact ih _ (hwrite _ cell value h)

theorem authorize_eq_ok {cell : StorageCellKey} {kind : AccessKind} {sequence : U32}
    {recorded : ScheduleTransaction V}
    (h : runtime.authorize transaction cell kind = .ok (sequence, recorded)) :
    runtime.validateTransactionAccess transaction cell kind = .ok () ∧
      sequence.val = transaction.events.length ∧
      recorded = { transaction with
        events := transaction.events ++ [⟨cell, kind, sequence⟩] } := by
  simp only [authorize, recordEvent, Except.bind_eq_ok] at h
  obtain ⟨_, hvalid, _, _, number, hnumber, hret⟩ := h
  cases hret
  unfold nextSequence at hnumber
  split_ifs at hnumber with hlength
  cases hnumber
  exact ⟨hvalid, rfl, rfl⟩

structure SameTransaction (before after : ScheduleTransaction V) : Prop where
  iteration : after.iteration = before.iteration
  claims : after.claims = before.claims
  closed : after.closed = before.closed

theorem read_same (runtime : ScheduleRuntime V) (transaction : ScheduleTransaction V)
    (cell : StorageCellKey) : SameTransaction transaction (runtime.read transaction cell).2 := by
  unfold ScheduleRuntime.read
  split
  · exact ⟨rfl, rfl, rfl⟩
  · next sequence recorded hauthorize =>
      rw [(authorize_eq_ok hauthorize).2.2]
      exact ⟨rfl, rfl, rfl⟩

theorem write_same (runtime : ScheduleRuntime V) (transaction : ScheduleTransaction V)
    (cell : StorageCellKey) (value : V) :
    SameTransaction transaction (runtime.write transaction cell value).2 := by
  unfold ScheduleRuntime.write
  split
  · exact ⟨rfl, rfl, rfl⟩
  · next sequence recorded hauthorize =>
      rw [(authorize_eq_ok hauthorize).2.2]
      exact ⟨rfl, rfl, rfl⟩

theorem SameTransaction.trans {a b c : ScheduleTransaction V} (h : SameTransaction a b)
    (h' : SameTransaction b c) : SameTransaction a c :=
  ⟨h'.iteration.trans h.iteration, h'.claims.trans h.claims, h'.closed.trans h.closed⟩

theorem Script.run_same (runtime : ScheduleRuntime V) (script : Script V)
    (transaction : ScheduleTransaction V) :
    SameTransaction transaction (script.run runtime transaction).2 := by
  apply Script.run_invariant (I := SameTransaction transaction)
  · intro other cell h
    exact h.trans (read_same runtime other cell)
  · intro other cell value h
    exact h.trans (write_same runtime other cell value)
  · exact ⟨rfl, rfl, rfl⟩

end Accesses
end VolarIR.Schedule
