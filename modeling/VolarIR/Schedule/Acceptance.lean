import VolarIR.Schedule.Reservations
import VolarIR.Schedule.Validation

/-!
# The manifests that validation accepts

Validation is the conjunction of checks that do not look at the reserved ranges and of one run
of `add_range` for each of the two ordinal spaces. The answer on the ranges is the one their
ordinals call for, whichever iteration holds which range, unless an empty range starts strictly
inside another range of its space.
-/
namespace VolarIR.Schedule

open Fallible

def ScheduleManifest.correlations (manifest : ScheduleManifest) : List OrdinalRange :=
  manifest.iterations.map IterationManifest.correlationRange

def ScheduleManifest.communications (manifest : ScheduleManifest) : List OrdinalRange :=
  manifest.iterations.map IterationManifest.communicationRange

structure IterationManifest.Admissible (laneCount : U32) (limits : ScheduleLimits)
    (iteration : IterationManifest) : Prop extends iteration.Canonical laneCount where
  dependencies_le : iteration.dependencies.length ≤ limits.maxDependencies
  claims_le : iteration.claims.length ≤ limits.maxClaims

/-- What validation requires of a manifest apart from its ranges. -/
structure ScheduleManifest.Admissible (manifest : ScheduleManifest) (limits : ScheduleLimits) :
    Prop where
  version : manifest.formatVersion = scheduleManifestVersion
  epochSize_ne : manifest.epochSize.val ≠ 0
  lanes_ne : manifest.workerLaneCount.val ≠ 0
  epochs_le : manifest.epochs.length ≤ limits.maxEpochs
  epoch_ordinals : manifest.epochs.map (fun epoch => epoch.ordinal.id.val) =
    List.range manifest.epochs.length
  epochs_lt : manifest.epochs.length < 2 ^ 64
  epoch_size : ∀ epoch ∈ manifest.epochs, epoch.iterations.length ≤ manifest.epochSize.val
  iteration_ordinals : ordinals manifest.iterations = List.range manifest.iterations.length
  iterations_lt : manifest.iterations.length < 2 ^ 64
  iterations_le : manifest.iterations.length ≤ limits.maxIterations
  admissible : ∀ iteration ∈ manifest.iterations,
    iteration.Admissible manifest.workerLaneCount limits

theorem nextOrdinal_eq_ok_iff {expected following : U64} :
    nextOrdinal expected = .ok following ↔ following.val = expected.val + 1 := by
  rw [nextOrdinal, okOr_eq_ok, checkedAdd_eq_some]
  rfl

section Steps
variable {manifest : ScheduleManifest} {limits : ScheduleLimits} {cursor next : Cursor}

/-- The cursor after iterations: the counters moved on, the ranges recorded. -/
structure Moved (cursor next : Cursor) (iterations : List IterationManifest) : Prop where
  expectedEpoch : next.expectedEpoch = cursor.expectedEpoch
  expectedIteration : next.expectedIteration.val = cursor.expectedIteration.val + iterations.length
  totalIterations : next.totalIterations = cursor.totalIterations + iterations.length
  correlations : (iterations.map IterationManifest.correlationRange).foldlM addRange
    cursor.correlationRanges = .ok next.correlationRanges
  communications : (iterations.map IterationManifest.communicationRange).foldlM addRange
    cursor.communicationRanges = .ok next.communicationRanges

theorem validateIteration_eq_ok_iff {iteration : IterationManifest} :
    validateIteration manifest limits cursor iteration = .ok next ↔
      iteration.Admissible manifest.workerLaneCount limits ∧
        iteration.ordinal.id.val = cursor.expectedIteration.val ∧
        cursor.totalIterations + 1 ≤ limits.maxIterations ∧ Moved cursor next [iteration] := by
  have hforward : iteration.dependencies.forM (fun dependency =>
      ensure (dependency < iteration.ordinal) (.forwardDependency iteration.ordinal dependency)) =
        .ok (ε := ManifestError) () ↔
      ∀ dependency ∈ iteration.dependencies, dependency < iteration.ordinal := by
    rw [forM_eq_ok]
    exact forall₂_congr fun dependency _ => ensure_eq_ok
  simp only [validateIteration, Except.bind_eq_ok, ensure_eq_ok]
  constructor
  · intro h
    obtain ⟨_, hordinal, expectedIteration, hnext, _, htotal, _, hlane, _, hdepsLe, _, hclaimsLe, _,
      hdeps, _, hclaims, _, hdependencies, _, hvalid, correlations, hcorrelations, communications,
      hcommunications, hret⟩ := h
    cases hret
    refine ⟨⟨⟨hlane, isSortedUnique_iff.mp hdeps, isSortedUnique_iff.mp hclaims,
      hforward.mp hdependencies, of_forM_eq_ok hvalid⟩, hdepsLe, hclaimsLe⟩,
      congrArg Fin.val hordinal, htotal, rfl, nextOrdinal_eq_ok hnext, rfl, ?_, ?_⟩
    · simpa using hcorrelations
    · simpa using hcommunications
  · intro h
    obtain ⟨hchecks, hordinal, htotal, hmoved⟩ := h
    have hcorrelations := hmoved.correlations
    have hcommunications := hmoved.communications
    rw [List.map_singleton, List.foldlM_cons] at hcorrelations hcommunications
    obtain ⟨correlations, hcorrelations, hcorrelationsEq⟩ := Except.bind_eq_ok.mp hcorrelations
    obtain ⟨communications, hcommunications, hcommunicationsEq⟩ :=
      Except.bind_eq_ok.mp hcommunications
    refine ⟨(), Fin.ext hordinal, next.expectedIteration,
      nextOrdinal_eq_ok_iff.mpr hmoved.expectedIteration, (), htotal, (), hchecks.lane, (),
      hchecks.dependencies_le, (), hchecks.claims_le, (),
      isSortedUnique_iff.mpr hchecks.dependencies_sorted, (),
      isSortedUnique_iff.mpr hchecks.claims_sorted, (), hforward.mpr hchecks.dependencies_lt, (),
      forM_eq_ok.mpr hchecks.claims_valid, correlations, hcorrelations, communications,
      hcommunications, ?_⟩
    cases hcorrelationsEq
    cases hcommunicationsEq
    have hepoch := hmoved.expectedEpoch
    have hcount := hmoved.totalIterations
    obtain ⟨expectedEpoch, expectedIteration, totalIterations, _, _⟩ := next
    subst hepoch
    subst hcount
    rfl

theorem Moved.nil_iff : Moved cursor next [] ↔ next = cursor := by
  constructor
  · intro h
    have hepoch := h.expectedEpoch
    have hiteration := h.expectedIteration
    have htotal := h.totalIterations
    have hcorrelations := h.correlations
    have hcommunications := h.communications
    obtain ⟨_, _, _, _, _⟩ := next
    obtain ⟨_, _, _, _, _⟩ := cursor
    cases hcorrelations
    cases hcommunications
    cases hepoch
    cases htotal
    obtain rfl := Fin.ext hiteration
    rfl
  · intro h
    subst h
    exact ⟨rfl, rfl, rfl, rfl, rfl⟩

theorem Moved.trans {mid : Cursor} {xs ys : List IterationManifest} (h : Moved cursor mid xs)
    (h' : Moved mid next ys) : Moved cursor next (xs ++ ys) := by
  refine ⟨h'.expectedEpoch.trans h.expectedEpoch, ?_, ?_, ?_, ?_⟩
  · rw [h'.expectedIteration, h.expectedIteration, List.length_append, Nat.add_assoc]
  · rw [h'.totalIterations, h.totalIterations, List.length_append, Nat.add_assoc]
  · rw [List.map_append]
    exact foldlM_append_eq_ok.mpr ⟨_, h.correlations, h'.correlations⟩
  · rw [List.map_append]
    exact foldlM_append_eq_ok.mpr ⟨_, h.communications, h'.communications⟩

theorem Moved.split {xs ys : List IterationManifest} (h : Moved cursor next (xs ++ ys)) :
    ∃ mid, Moved cursor mid xs ∧ Moved mid next ys := by
  have hcorrelations := h.correlations
  have hcommunications := h.communications
  have hiteration := h.expectedIteration
  have htotal := h.totalIterations
  have hlt := next.expectedIteration.isLt
  rw [List.map_append] at hcorrelations hcommunications
  rw [List.length_append] at hiteration htotal
  obtain ⟨correlations, hxs, hys⟩ := foldlM_append_eq_ok.mp hcorrelations
  obtain ⟨communications, hxs', hys'⟩ := foldlM_append_eq_ok.mp hcommunications
  refine ⟨⟨cursor.expectedEpoch, ⟨cursor.expectedIteration.val + xs.length, by omega⟩,
    cursor.totalIterations + xs.length, correlations, communications⟩, ?_, ?_⟩
  · exact ⟨rfl, rfl, rfl, hxs, hxs'⟩
  · exact ⟨h.expectedEpoch, by rw [hiteration, Nat.add_assoc], by rw [htotal, Nat.add_assoc], hys,
      hys'⟩

/-- What the checks of iterations ask, from a cursor that is within the limit. -/
structure IterationsAdmissible (manifest : ScheduleManifest) (limits : ScheduleLimits)
    (cursor : Cursor)
    (iterations : List IterationManifest) : Prop where
  admissible : ∀ iteration ∈ iterations, iteration.Admissible manifest.workerLaneCount limits
  numbered : ordinals iterations = List.range' cursor.expectedIteration.val iterations.length
  total : cursor.totalIterations + iterations.length ≤ limits.maxIterations

theorem IterationsAdmissible.append_iff {mid : Cursor} {xs ys : List IterationManifest}
    (h : Moved cursor mid xs) :
    IterationsAdmissible manifest limits cursor (xs ++ ys) ↔
      IterationsAdmissible manifest limits cursor xs ∧
          IterationsAdmissible manifest limits mid ys := by
  have hrange : List.range' cursor.expectedIteration.val (xs ++ ys).length =
      List.range' cursor.expectedIteration.val xs.length ++
        List.range' mid.expectedIteration.val ys.length := by
    rw [h.expectedIteration, List.length_append, List.range'_append_1]
  have htotal := h.totalIterations
  constructor
  · intro hall
    have hnumbered := hall.numbered
    have hle := hall.total
    rw [ordinals_append, hrange] at hnumbered
    rw [List.length_append] at hle
    obtain ⟨hxs, hys⟩ := List.append_inj hnumbered (by simp)
    obtain ⟨hadmissible, hadmissible'⟩ := List.forall_mem_append.mp hall.admissible
    exact ⟨⟨hadmissible, hxs, by omega⟩, ⟨hadmissible', hys, by omega⟩⟩
  · intro hboth
    have hle := hboth.2.total
    refine ⟨List.forall_mem_append.mpr ⟨hboth.1.admissible, hboth.2.admissible⟩, ?_, ?_⟩
    · rw [ordinals_append, hboth.1.numbered, hboth.2.numbered, hrange]
    · rw [List.length_append]
      omega

theorem validateIterations_eq_ok_iff {iterations : List IterationManifest}
    (hle : cursor.totalIterations ≤ limits.maxIterations) :
    iterations.foldlM (validateIteration manifest limits) cursor = .ok next ↔
      IterationsAdmissible manifest limits cursor iterations ∧ Moved cursor next iterations := by
  induction iterations generalizing cursor with
  | nil =>
      rw [Moved.nil_iff, List.foldlM_nil]
      constructor
      · intro h
        cases h
        exact ⟨⟨by simp, rfl, hle⟩, rfl⟩
      · exact fun h => congrArg Except.ok h.2.symm
  | cons iteration rest ih =>
      have hone : ∀ mid, validateIteration manifest limits cursor iteration = .ok mid ↔
          IterationsAdmissible manifest limits cursor [iteration] ∧
              Moved cursor mid [iteration] := by
        intro mid
        rw [validateIteration_eq_ok_iff]
        constructor
        · intro h
          exact ⟨⟨List.forall_mem_singleton.mpr h.1, congrArg (fun n => [n]) h.2.1, h.2.2.1⟩,
            h.2.2.2⟩
        · intro h
          exact ⟨List.forall_mem_singleton.mp h.1.admissible, List.singleton_inj.mp h.1.numbered,
            h.1.total, h.2⟩
      rw [List.foldlM_cons, Except.bind_eq_ok, ← List.singleton_append]
      constructor
      · intro h
        obtain ⟨mid, hmid, hrest⟩ := h
        obtain ⟨hpass, hmoved⟩ := (hone mid).mp hmid
        have hle' : mid.totalIterations ≤ limits.maxIterations := by
          rw [hmoved.totalIterations]
          exact hpass.total
        obtain ⟨hpass', hmoved'⟩ := (ih hle').mp hrest
        exact ⟨(IterationsAdmissible.append_iff hmoved).mpr ⟨hpass, hpass'⟩, hmoved.trans hmoved'⟩
      · intro h
        obtain ⟨hpass, hmoved⟩ := h
        obtain ⟨mid, hfirst, hrest⟩ := hmoved.split
        obtain ⟨hpassFirst, hpassRest⟩ := (IterationsAdmissible.append_iff hfirst).mp hpass
        have hle' : mid.totalIterations ≤ limits.maxIterations := by
          rw [hfirst.totalIterations]
          exact hpassFirst.total
        exact ⟨mid, (hone mid).mpr ⟨hpassFirst, hfirst⟩, (ih hle').mpr ⟨hpassRest, hrest⟩⟩

/-- What the checks of epochs ask. -/
structure EpochsAdmissible (manifest : ScheduleManifest) (limits : ScheduleLimits)
    (cursor : Cursor) (epochs : List EpochManifest) : Prop where
  numbered : epochs.map (fun epoch => epoch.ordinal.id.val) =
    List.range' cursor.expectedEpoch.val epochs.length
  count : cursor.expectedEpoch.val + epochs.length < 2 ^ 64
  size : ∀ epoch ∈ epochs, epoch.iterations.length ≤ manifest.epochSize.val
  iterations : IterationsAdmissible manifest limits cursor
    (epochs.flatMap EpochManifest.iterations)

structure MovedOver (cursor next : Cursor) (epochs : List EpochManifest) : Prop where
  expectedEpoch : next.expectedEpoch.val = cursor.expectedEpoch.val + epochs.length
  iterations : Moved cursor { next with expectedEpoch := cursor.expectedEpoch }
    (epochs.flatMap EpochManifest.iterations)

theorem IterationsAdmissible.epoch_iff {iterations : List IterationManifest} {expected : U64} :
    IterationsAdmissible manifest limits { cursor with expectedEpoch := expected } iterations ↔
      IterationsAdmissible manifest limits cursor iterations :=
  ⟨fun h => ⟨h.admissible, h.numbered, h.total⟩, fun h => ⟨h.admissible, h.numbered, h.total⟩⟩

/-- What the checks of one epoch ask, and where they leave the cursor. -/
theorem validateEpoch_eq_ok_iff {epoch : EpochManifest}
    (hle : cursor.totalIterations ≤ limits.maxIterations) :
    validateEpoch manifest limits cursor epoch = .ok next ↔
      epoch.ordinal.id.val = cursor.expectedEpoch.val ∧
        epoch.iterations.length ≤ manifest.epochSize.val ∧
        IterationsAdmissible manifest limits cursor epoch.iterations ∧
        next.expectedEpoch.val = cursor.expectedEpoch.val + 1 ∧
        Moved cursor { next with expectedEpoch := cursor.expectedEpoch } epoch.iterations := by
  simp only [validateEpoch, Except.bind_eq_ok, ensure_eq_ok]
  constructor
  · intro h
    obtain ⟨_, hordinal, expected, hnext, _, hsize, hrun⟩ := h
    have hle' : { cursor with expectedEpoch := expected }.totalIterations ≤ limits.maxIterations :=
      hle
    obtain ⟨hpass, hmoved⟩ := (validateIterations_eq_ok_iff hle').mp hrun
    refine ⟨congrArg Fin.val hordinal, hsize, IterationsAdmissible.epoch_iff.mp hpass, ?_, ?_⟩
    · rw [hmoved.expectedEpoch]
      exact nextOrdinal_eq_ok hnext
    · exact ⟨rfl, hmoved.expectedIteration, hmoved.totalIterations, hmoved.correlations,
        hmoved.communications⟩
  · intro h
    obtain ⟨hordinal, hsize, hpass, hnext, hmoved⟩ := h
    refine ⟨(), Fin.ext hordinal, next.expectedEpoch, nextOrdinal_eq_ok_iff.mpr hnext,
        (), hsize, ?_⟩
    have hle' : { cursor with expectedEpoch := next.expectedEpoch }.totalIterations ≤
        limits.maxIterations := hle
    refine (validateIterations_eq_ok_iff hle').mpr ⟨IterationsAdmissible.epoch_iff.mpr hpass, ?_⟩
    exact ⟨rfl, hmoved.expectedIteration, hmoved.totalIterations, hmoved.correlations,
      hmoved.communications⟩

theorem validateEpochs_eq_ok_iff {epochs : List EpochManifest}
    (hle : cursor.totalIterations ≤ limits.maxIterations) :
    epochs.foldlM (validateEpoch manifest limits) cursor = .ok next ↔
      EpochsAdmissible manifest limits cursor epochs ∧ MovedOver cursor next epochs := by
  induction epochs generalizing cursor with
  | nil =>
      rw [List.foldlM_nil]
      constructor
      · intro h
        obtain rfl := Except.ok.inj h
        have hlt := cursor.expectedEpoch.isLt
        exact ⟨⟨rfl, hlt, by simp, ⟨by simp, rfl, hle⟩⟩, rfl, Moved.nil_iff.mpr rfl⟩
      · intro h
        have hnext := Moved.nil_iff.mp h.2.iterations
        have hepoch := Fin.ext h.2.expectedEpoch
        obtain ⟨_, _, _, _, _⟩ := next
        cases hepoch
        exact congrArg Except.ok hnext.symm
  | cons epoch rest ih =>
      rw [List.foldlM_cons, Except.bind_eq_ok]
      constructor
      · intro h
        obtain ⟨mid, hfirst, hrest⟩ := h
        obtain ⟨hordinal, hsize, hpass, hnext, hmoved⟩ := (validateEpoch_eq_ok_iff hle).mp hfirst
        have hle' : mid.totalIterations ≤ limits.maxIterations := by
          rw [show mid.totalIterations = _ from hmoved.totalIterations]
          exact hpass.total
        obtain ⟨hpass', hmoved'⟩ := (ih hle').mp hrest
        have hcount := hpass'.count
        rw [hnext] at hcount
        refine ⟨⟨?_, by rw [List.length_cons]; omega,
          List.forall_mem_cons.mpr ⟨hsize, hpass'.size⟩, ?_⟩, ?_, ?_⟩
        · rw [List.map_cons, hpass'.numbered, hordinal, hnext, List.length_cons, List.range'_succ]
        · rw [List.flatMap_cons]
          exact (IterationsAdmissible.append_iff hmoved).mpr
            ⟨hpass, IterationsAdmissible.epoch_iff.mpr hpass'.iterations⟩
        · rw [hmoved'.expectedEpoch, hnext, List.length_cons]
          omega
        · rw [List.flatMap_cons]
          have hstep := hmoved'.iterations
          exact hmoved.trans ⟨rfl, hstep.expectedIteration, hstep.totalIterations,
            hstep.correlations, hstep.communications⟩
      · intro h
        obtain ⟨hpass, hmoved⟩ := h
        have hnumbered := hpass.numbered
        have hcount := hpass.count
        have hiterations := hpass.iterations
        have hrun := hmoved.iterations
        rw [List.map_cons, List.length_cons, List.range'_succ, List.cons.injEq] at hnumbered
        rw [List.length_cons] at hcount
        rw [List.flatMap_cons] at hiterations hrun
        obtain ⟨mid, hfirst, hrest⟩ := hrun.split
        obtain ⟨hpassFirst, hpassRest⟩ :=
          (IterationsAdmissible.append_iff hfirst).mp hiterations
        obtain ⟨hsize, hsizes⟩ := List.forall_mem_cons.mp hpass.size
        obtain ⟨stop, hstop⟩ : ∃ stop, stop =
            { mid with expectedEpoch := ⟨cursor.expectedEpoch.val + 1, by omega⟩ } := ⟨_, rfl⟩
        have hle' : stop.totalIterations ≤ limits.maxIterations := by
          rw [hstop, hfirst.totalIterations]
          exact hpassFirst.total
        refine ⟨stop, ?_, ?_⟩
        · subst hstop
          refine (validateEpoch_eq_ok_iff hle).mpr ⟨hnumbered.1, hsize, hpassFirst, rfl, ?_⟩
          exact ⟨rfl, hfirst.expectedIteration, hfirst.totalIterations, hfirst.correlations,
            hfirst.communications⟩
        · refine (ih hle').mpr ?_
          subst hstop
          refine ⟨⟨hnumbered.2, by dsimp only; omega, hsizes,
            IterationsAdmissible.epoch_iff.mpr hpassRest⟩, ?_, ?_⟩
          · rw [hmoved.expectedEpoch, List.length_cons]
            dsimp only
            omega
          · exact ⟨rfl, hrest.expectedIteration, hrest.totalIterations, hrest.correlations,
              hrest.communications⟩

end Steps

theorem ScheduleManifest.validate_eq_ok_iff {manifest : ScheduleManifest}
    {limits : ScheduleLimits} :
    manifest.validate limits = .ok () ↔ manifest.Admissible limits ∧
      (∃ out, manifest.correlations.foldlM addRange [] = .ok out) ∧
      ∃ out, manifest.communications.foldlM addRange [] = .ok out := by
  have hrun : ∀ next, manifest.epochs.foldlM (validateEpoch manifest limits) ⟨0, 0, 0, [], []⟩ =
      .ok next ↔ EpochsAdmissible manifest limits ⟨0, 0, 0, [], []⟩ manifest.epochs ∧
        MovedOver ⟨0, 0, 0, [], []⟩ next manifest.epochs :=
    fun next => validateEpochs_eq_ok_iff (Nat.zero_le _)
  simp only [ScheduleManifest.validate, Except.bind_eq_ok, ensure_eq_ok, hrun]
  constructor
  · intro h
    obtain ⟨_, hversion, _, hsize, _, hlanes, _, hepochs, next, ⟨hpass, hmoved⟩, -⟩ := h
    have hiterations := hmoved.iterations.expectedIteration
    have hlt := next.expectedIteration.isLt
    have htotal := hpass.iterations.total
    have hcount := hpass.count
    have hnumbered := hpass.numbered
    have hordinals := hpass.iterations.numbered
    rw [Fin.val_zero, Nat.zero_add] at hiterations hcount
    rw [Fin.val_zero, ← List.range_eq_range'] at hnumbered hordinals
    rw [Nat.zero_add] at htotal
    exact ⟨⟨hversion, hsize, hlanes, hepochs, hnumbered, hcount, hpass.size, hordinals,
      hiterations ▸ hlt, htotal, hpass.iterations.admissible⟩,
      ⟨_, hmoved.iterations.correlations⟩, ⟨_, hmoved.iterations.communications⟩⟩
  · intro h
    obtain ⟨hother, ⟨correlations, hcorrelations⟩, communications, hcommunications⟩ := h
    refine ⟨(), hother.version, (), hother.epochSize_ne, (), hother.lanes_ne, (),
      hother.epochs_le, ⟨⟨_, hother.epochs_lt⟩, ⟨_, hother.iterations_lt⟩,
        manifest.iterations.length, correlations, communications⟩, ⟨?_, ?_⟩, rfl⟩
    · refine ⟨?_, ?_, hother.epoch_size, ⟨hother.admissible, ?_, ?_⟩⟩
      · rw [Fin.val_zero, ← List.range_eq_range']
        exact hother.epoch_ordinals
      · rw [Fin.val_zero, Nat.zero_add]
        exact hother.epochs_lt
      · rw [Fin.val_zero, ← List.range_eq_range']
        exact hother.iteration_ordinals
      · rw [Nat.zero_add]
        exact hother.iterations_le
    · exact ⟨(Nat.zero_add _).symm, rfl, (Nat.zero_add _).symm, (Nat.zero_add _).symm,
        hcorrelations, hcommunications⟩

def IterationManifest.withRanges (correlation communication : IterationManifest → OrdinalRange)
    (iteration : IterationManifest) : IterationManifest :=
  { iteration with
    correlationRange := correlation iteration
    communicationRange := communication iteration }

/-- The same manifest with other ranges. -/
def ScheduleManifest.withRanges (manifest : ScheduleManifest)
    (correlation communication : IterationManifest → OrdinalRange) : ScheduleManifest :=
  { manifest with
    epochs := manifest.epochs.map fun epoch =>
      { epoch with
        iterations := epoch.iterations.map (.withRanges correlation communication) } }

/-- Every range as `OrdinalRange::default()`. -/
def ScheduleManifest.withoutReservations (manifest : ScheduleManifest) : ScheduleManifest :=
  manifest.withRanges (fun _ => ⟨0, 0⟩) fun _ => ⟨0, 0⟩

/-- Every empty range as `OrdinalRange::default()`. -/
def ScheduleManifest.cleared (manifest : ScheduleManifest) : ScheduleManifest :=
  manifest.withRanges (fun iteration => iteration.correlationRange.cleared)
    fun iteration => iteration.communicationRange.cleared

section
variable {manifest other : ScheduleManifest} {limits : ScheduleLimits}
  {f g : IterationManifest → OrdinalRange}

theorem iterations_withRanges :
    (manifest.withRanges f g).iterations = manifest.iterations.map (.withRanges f g) := by
  rw [ScheduleManifest.iterations, ScheduleManifest.iterations, ScheduleManifest.withRanges,
    List.flatMap_map, List.map_flatMap]

theorem correlations_withRanges :
    (manifest.withRanges f g).correlations = manifest.iterations.map f := by
  rw [ScheduleManifest.correlations, iterations_withRanges, List.map_map]
  rfl

theorem communications_withRanges :
    (manifest.withRanges f g).communications = manifest.iterations.map g := by
  rw [ScheduleManifest.communications, iterations_withRanges, List.map_map]
  rfl

theorem withoutReservations_withRanges :
    (manifest.withRanges f g).withoutReservations = manifest.withoutReservations := by
  simp only [ScheduleManifest.withoutReservations, ScheduleManifest.withRanges, List.map_map,
    Function.comp_def]
  rfl

theorem admissible_withRanges :
    (manifest.withRanges f g).Admissible limits ↔ manifest.Admissible limits := by
  have hepochs : (manifest.withRanges f g).epochs.map (fun epoch => epoch.ordinal.id.val) =
      manifest.epochs.map fun epoch => epoch.ordinal.id.val := by
    rw [ScheduleManifest.withRanges, List.map_map]
    rfl
  have hcount : (manifest.withRanges f g).epochs.length = manifest.epochs.length :=
    List.length_map _
  have hsize : (∀ epoch ∈ (manifest.withRanges f g).epochs,
      epoch.iterations.length ≤ manifest.epochSize.val) ↔
        ∀ epoch ∈ manifest.epochs, epoch.iterations.length ≤ manifest.epochSize.val := by
    simp [ScheduleManifest.withRanges]
  have hordinals : ordinals (manifest.withRanges f g).iterations =
      ordinals manifest.iterations := by
    rw [iterations_withRanges, ordinals, List.map_map]
    rfl
  have hlength : (manifest.withRanges f g).iterations.length = manifest.iterations.length := by
    rw [iterations_withRanges, List.length_map]
  have heach : (∀ iteration ∈ (manifest.withRanges f g).iterations,
      iteration.Admissible manifest.workerLaneCount limits) ↔
        ∀ iteration ∈ manifest.iterations,
          iteration.Admissible manifest.workerLaneCount limits := by
    rw [iterations_withRanges, List.forall_mem_map]
    refine forall₂_congr fun iteration _ => ?_
    exact ⟨fun h => ⟨⟨h.lane, h.dependencies_sorted, h.claims_sorted, h.dependencies_lt,
      h.claims_valid⟩, h.dependencies_le, h.claims_le⟩, fun h => ⟨⟨h.lane, h.dependencies_sorted,
      h.claims_sorted, h.dependencies_lt, h.claims_valid⟩, h.dependencies_le, h.claims_le⟩⟩
  constructor
  · intro h
    exact ⟨h.version, h.epochSize_ne, h.lanes_ne, hcount ▸ h.epochs_le,
      by rw [← hepochs, ← hcount]; exact h.epoch_ordinals, hcount ▸ h.epochs_lt,
      hsize.mp h.epoch_size, by rw [← hordinals, ← hlength]; exact h.iteration_ordinals,
      hlength ▸ h.iterations_lt, hlength ▸ h.iterations_le, heach.mp h.admissible⟩
  · intro h
    exact ⟨h.version, h.epochSize_ne, h.lanes_ne, hcount.symm ▸ h.epochs_le,
      by rw [hepochs, hcount]; exact h.epoch_ordinals, hcount.symm ▸ h.epochs_lt,
      hsize.mpr h.epoch_size, by rw [hordinals, hlength]; exact h.iteration_ordinals,
      hlength.symm ▸ h.iterations_lt, hlength.symm ▸ h.iterations_le, heach.mpr h.admissible⟩

theorem admissible_iff_validate :
    manifest.Admissible limits ↔ manifest.withoutReservations.validate limits = .ok () := by
  have hnone : ∀ iterations : List IterationManifest, ∃ out,
      (iterations.map fun _ => (⟨0, 0⟩ : OrdinalRange)).foldlM addRange [] = .ok out := by
    intro iterations
    rw [List.map_const']
    refine reserved_iff.mpr ⟨⟨?_, ?_⟩, ?_⟩
    · intro range hmem
      rw [List.eq_of_mem_replicate hmem]
      decide
    · exact List.pairwise_replicate.mpr (.inr (OrdinalRange.disjoint_of_empty rfl))
    · exact List.pairwise_replicate.mpr (.inr (by decide))
  rw [ScheduleManifest.validate_eq_ok_iff, ScheduleManifest.withoutReservations,
    admissible_withRanges, correlations_withRanges, communications_withRanges]
  exact ⟨fun h => ⟨h, hnone _, hnone _⟩, fun h => h.1⟩

theorem admissible_congr (h : other.withoutReservations = manifest.withoutReservations) :
    other.Admissible limits ↔ manifest.Admissible limits := by
  rw [admissible_iff_validate, h, ← admissible_iff_validate]

/-- Ranges for the iterations in canonical order. -/
theorem exists_withRanges {xs ys : List OrdinalRange}
    (hordinals : ordinals manifest.iterations = List.range manifest.iterations.length)
    (hxs : xs.length = manifest.iterations.length) (hys : ys.length = manifest.iterations.length) :
    ∃ other : ScheduleManifest, other.withoutReservations = manifest.withoutReservations ∧
      other.correlations = xs ∧ other.communications = ys := by
  have hassign : ∀ {zs : List OrdinalRange}, zs.length = manifest.iterations.length →
      manifest.iterations.map (fun iteration => zs.getD iteration.ordinal.id.val ⟨0, 0⟩) = zs := by
    intro zs hzs
    have hmap : manifest.iterations.map (fun iteration => zs.getD iteration.ordinal.id.val ⟨0, 0⟩) =
        (ordinals manifest.iterations).map fun n => zs.getD n ⟨0, 0⟩ := by
      rw [ordinals, List.map_map]
      rfl
    rw [hmap, hordinals, ← hzs]
    apply List.ext_getElem
    · simp
    · intro i hi hi'
      simp [hi']
  refine ⟨manifest.withRanges (fun iteration => xs.getD iteration.ordinal.id.val ⟨0, 0⟩)
    fun iteration => ys.getD iteration.ordinal.id.val ⟨0, 0⟩,
        withoutReservations_withRanges, ?_, ?_⟩
  · rw [correlations_withRanges, hassign hxs]
  · rw [communications_withRanges, hassign hys]

end

structure Rearranged (manifest other : ScheduleManifest) : Prop where
  iterations : other.withoutReservations = manifest.withoutReservations
  correlations : other.correlations.Perm manifest.correlations
  communications : other.communications.Perm manifest.communications

/-- The answer on the ranges is the one their ordinals call for. -/
structure ReservationsExact (manifest : ScheduleManifest) (limits : ScheduleLimits) : Prop where
  accepts : manifest.validate limits = .ok () ↔
    Apart manifest.correlations ∧ Apart manifest.communications
  empties : manifest.cleared.validate limits = .ok () ↔ manifest.validate limits = .ok ()
  permutes : ∀ other, Rearranged manifest other →
    (other.validate limits = .ok () ↔ manifest.validate limits = .ok ())

section
variable {manifest : ScheduleManifest} {limits : ScheduleLimits}

/-- Empty ranges at zero are never in the way. -/
theorem validate_cleared_iff (h : manifest.Admissible limits) :
    manifest.cleared.validate limits = .ok () ↔
      Apart manifest.correlations ∧ Apart manifest.communications := by
  have hmap : ∀ k : IterationManifest → OrdinalRange,
      manifest.iterations.map (fun iteration => (k iteration).cleared) =
        (manifest.iterations.map k).map OrdinalRange.cleared := by
    intro k
    rw [List.map_map]
    rfl
  rw [ScheduleManifest.validate_eq_ok_iff, ScheduleManifest.cleared, admissible_withRanges,
    correlations_withRanges, communications_withRanges, hmap, hmap,
    reserved_iff_of_noneInside (noneInside_cleared _),
    reserved_iff_of_noneInside (noneInside_cleared _), apart_cleared, apart_cleared]
  exact ⟨fun hall => hall.2, fun hall => ⟨h, hall⟩⟩

theorem noneInside_of_permutes (h : manifest.Admissible limits)
    (hall : ∀ other, Rearranged manifest other → other.validate limits = .ok ()) :
    NoneInside manifest.correlations ∧ NoneInside manifest.communications := by
  have hlength : ∀ {xs : List OrdinalRange} {k : IterationManifest → OrdinalRange},
      xs.Perm (manifest.iterations.map k) → xs.length = manifest.iterations.length := by
    intro xs k hperm
    rw [hperm.length_eq, List.length_map]
  have hself : ∀ k : IterationManifest → OrdinalRange,
      (manifest.iterations.map k).length = manifest.iterations.length := fun k => List.length_map _
  constructor
  · by_contra hinside
    obtain ⟨xs, hperm, hrefused⟩ := exists_refused_order hinside
    obtain ⟨other, hsame, hcorrelations, hcommunications⟩ :=
      exists_withRanges h.iteration_ordinals (hlength hperm) (hself _)
    have hvalid := hall other ⟨hsame, hcorrelations ▸ hperm, hcommunications ▸ .refl _⟩
    exact hrefused (hcorrelations ▸ (ScheduleManifest.validate_eq_ok_iff.mp hvalid).2.1)
  · by_contra hinside
    obtain ⟨ys, hperm, hrefused⟩ := exists_refused_order hinside
    obtain ⟨other, hsame, hcorrelations, hcommunications⟩ :=
      exists_withRanges h.iteration_ordinals (hself _) (hlength hperm)
    have hvalid := hall other ⟨hsame, hcorrelations ▸ .refl _, hcommunications ▸ hperm⟩
    exact hrefused (hcommunications ▸ (ScheduleManifest.validate_eq_ok_iff.mp hvalid).2.2)

/-- The answer is exact when some range overflows or shares an ordinal, or no empty range starts
strictly inside another of its space. -/
theorem reservationsExact_iff (h : manifest.Admissible limits) :
    ReservationsExact manifest limits ↔
      (Apart manifest.correlations → Apart manifest.communications →
        NoneInside manifest.correlations ∧ NoneInside manifest.communications) := by
  constructor
  · intro hexact hcorrelations hcommunications
    have hvalid := hexact.accepts.mpr ⟨hcorrelations, hcommunications⟩
    exact noneInside_of_permutes h fun other hother => (hexact.permutes other hother).mpr hvalid
  · intro hinside
    have hanswer : ∀ other, Rearranged manifest other → (other.validate limits = .ok () ↔
        Apart manifest.correlations ∧ Apart manifest.communications) := by
      intro other hother
      rw [ScheduleManifest.validate_eq_ok_iff, admissible_congr hother.iterations]
      constructor
      · intro hvalid
        exact ⟨(Apart.perm hother.correlations).mp (reserved_iff.mp hvalid.2.1).1,
          (Apart.perm hother.communications).mp (reserved_iff.mp hvalid.2.2).1⟩
      · intro hapart
        obtain ⟨hcorrelations, hcommunications⟩ := hinside hapart.1 hapart.2
        refine ⟨h, ?_, ?_⟩
        · rw [reserved_iff_of_noneInside (hcorrelations.perm hother.correlations.symm)]
          exact (Apart.perm hother.correlations).mpr hapart.1
        · rw [reserved_iff_of_noneInside (hcommunications.perm hother.communications.symm)]
          exact (Apart.perm hother.communications).mpr hapart.2
    have hself := hanswer manifest ⟨rfl, .refl _, .refl _⟩
    exact ⟨hself, (validate_cleared_iff h).trans hself.symm,
      fun other hother => (hanswer other hother).trans hself.symm⟩

end

section Stray

def strayIteration (ordinal : U64) (correlation : OrdinalRange) : IterationManifest :=
  ⟨⟨ordinal⟩, 0, ⟨0⟩, [], [], correlation, ⟨0, 0⟩⟩

/-- The first iteration reserves ten correlation ordinals, the second one none. -/
def strayManifest (start : U64) : ScheduleManifest where
  formatVersion := scheduleManifestVersion
  programDigest := Vector.replicate 32 1
  storagePolicyDigest := Vector.replicate 32 2
  protocolProfile := 0
  epochSize := 2
  workerLaneCount := 1
  epochs := [⟨⟨0⟩, [strayIteration 0 ⟨0, 10⟩, strayIteration 1 ⟨start, 0⟩], ⟨0⟩⟩]

theorem strayManifest_admissible (start : U64) : (strayManifest start).Admissible .default :=
  admissible_iff_validate.mpr rfl

theorem reservationsExact_iff_strayManifest : ReservationsExact (strayManifest 0) .default := by
  apply (reservationsExact_iff (strayManifest_admissible 0)).mpr
  intro _ _
  constructor <;> decide

/-- The range of the second iteration is refused for its start, five. -/
theorem not_reservationsExact_strayManifest :
    ¬ ∀ manifest : ScheduleManifest, manifest.Admissible .default →
      ReservationsExact manifest .default := by
  intro h
  have hexact := h (strayManifest 5) (strayManifest_admissible 5)
  have hvalid := hexact.empties.mp rfl
  have hrefused : (strayManifest 5).validate .default =
      .error (.overlappingOrdinalRanges ⟨0, 10⟩ ⟨5, 0⟩) := rfl
  rw [hrefused] at hvalid
  cases hvalid

end Stray

end VolarIR.Schedule
