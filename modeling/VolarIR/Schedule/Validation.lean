import VolarIR.Schedule.Manifest

/-!
# What a validated manifest guarantees

Validation accepts exactly the manifests whose epochs and iterations are numbered
consecutively from zero and whose nested vectors are canonical and bounded. It never looks
at two iterations together, so it says nothing about conflicts inside an epoch.
-/
namespace VolarIR.Schedule

open Fallible

def ScheduleManifest.iterations (manifest : ScheduleManifest) : List IterationManifest :=
  manifest.epochs.flatMap EpochManifest.iterations

def ordinals (iterations : List IterationManifest) : List ℕ :=
  iterations.map fun iteration => iteration.ordinal.id.val

@[simp] theorem ordinals_append (xs ys : List IterationManifest) :
    ordinals (xs ++ ys) = ordinals xs ++ ordinals ys := List.map_append

@[simp] theorem length_ordinals (xs : List IterationManifest) :
    (ordinals xs).length = xs.length := List.length_map _

/-- What validation requires of one iteration by itself. -/
structure IterationManifest.Canonical (laneCount : U32) (iteration : IterationManifest) :
    Prop where
  lane : iteration.workerLane.id < laneCount
  dependencies_sorted : iteration.dependencies.Pairwise (· < ·)
  claims_sorted : iteration.claims.Pairwise (· < ·)
  dependencies_lt : ∀ dependency ∈ iteration.dependencies, dependency < iteration.ordinal
  claims_valid : ∀ claim ∈ iteration.claims, claim.validate = .ok ()

/-- What validation requires of a manifest. -/
structure ScheduleManifest.Valid (manifest : ScheduleManifest) : Prop where
  epoch_ordinals : manifest.epochs.map (fun epoch => epoch.ordinal.id.val) =
    List.range manifest.epochs.length
  iteration_ordinals : ordinals manifest.iterations = List.range manifest.iterations.length
  epoch_size : ∀ epoch ∈ manifest.epochs, epoch.iterations.length ≤ manifest.epochSize.val
  canonical : ∀ iteration ∈ manifest.iterations, iteration.Canonical manifest.workerLaneCount

section Steps
variable {manifest : ScheduleManifest} {limits : ScheduleLimits} {cursor next : Cursor}

theorem nextOrdinal_eq_ok {expected following : U64}
    (h : nextOrdinal expected = .ok following) : following.val = expected.val + 1 :=
  checkedAdd_eq_some.mp (okOr_eq_ok.mp h)

theorem validateIteration_eq_ok {iteration : IterationManifest}
    (h : validateIteration manifest limits cursor iteration = .ok next) :
    iteration.Canonical manifest.workerLaneCount ∧
      iteration.ordinal.id = cursor.expectedIteration ∧
      next.expectedIteration.val = cursor.expectedIteration.val + 1 ∧
      next.expectedEpoch = cursor.expectedEpoch := by
  simp only [validateIteration, Except.bind_eq_ok, ensure_eq_ok] at h
  obtain ⟨_, hordinal, expectedIteration, hnext, _, _, _, hlane, _, _, _, _, _, hdeps, _, hclaims,
    _, hforward, _, hvalid, _, _, _, _, hret⟩ := h
  cases hret
  constructor
  · constructor
    · exact hlane
    · exact isSortedUnique_iff.mp hdeps
    · exact isSortedUnique_iff.mp hclaims
    · intro dependency hmem
      exact ensure_eq_ok.mp (of_forM_eq_ok hforward dependency hmem)
    · exact of_forM_eq_ok hvalid
  · exact ⟨hordinal, nextOrdinal_eq_ok hnext, rfl⟩

theorem range_succ_eq {xs : List ℕ} {n : ℕ} (h : xs = List.range n) :
    xs ++ [n] = List.range (n + 1) := by
  rw [h, List.range_succ]

/-- The iterations of one epoch continue the numbering of the earlier epochs'. -/
theorem validateIterations_eq_ok {earlier iterations : List IterationManifest}
    (h : iterations.foldlM (validateIteration manifest limits) cursor = .ok next)
    (hcount : cursor.expectedIteration.val = earlier.length)
    (hearlier : ordinals earlier = List.range earlier.length) :
    (∀ iteration ∈ iterations, iteration.Canonical manifest.workerLaneCount) ∧
      ordinals (earlier ++ iterations) = List.range (earlier ++ iterations).length ∧
      next.expectedIteration.val = (earlier ++ iterations).length ∧
      next.expectedEpoch = cursor.expectedEpoch := by
  apply foldlM_invariant (fun done (state : Cursor) =>
    (∀ iteration ∈ done, iteration.Canonical manifest.workerLaneCount) ∧
      ordinals (earlier ++ done) = List.range (earlier ++ done).length ∧
      state.expectedIteration.val = (earlier ++ done).length ∧
      state.expectedEpoch = cursor.expectedEpoch) h
  · simpa using ⟨hearlier, hcount⟩
  · intro done iteration before after hbefore hstep
    have hcheck := validateIteration_eq_ok hstep
    constructor
    · intro other hother
      rcases List.mem_append.mp hother with hdone | hlast
      · exact hbefore.1 other hdone
      · rw [List.mem_singleton.mp hlast]
        exact hcheck.1
    · have hlast : ordinals [iteration] = [(earlier ++ done).length] := by
        rw [ordinals, List.map_singleton, hcheck.2.1, hbefore.2.2.1]
      have hlength : (earlier ++ done ++ [iteration]).length = (earlier ++ done).length + 1 :=
        List.length_append
      rw [← List.append_assoc, ordinals_append, hlast, hlength]
      exact ⟨range_succ_eq hbefore.2.1, by rw [hcheck.2.2.1, hbefore.2.2.1],
        hcheck.2.2.2.trans hbefore.2.2.2⟩

/-- What the checks of the epochs done so far establish. -/
structure Checked (manifest : ScheduleManifest) (done : List EpochManifest) (state : Cursor) :
    Prop where
  epochs : done.map (fun epoch => epoch.ordinal.id.val) = List.range done.length
  expectedEpoch : state.expectedEpoch.val = done.length
  iterations : ordinals (done.flatMap EpochManifest.iterations) =
    List.range (done.flatMap EpochManifest.iterations).length
  expectedIteration : state.expectedIteration.val =
    (done.flatMap EpochManifest.iterations).length
  size : ∀ epoch ∈ done, epoch.iterations.length ≤ manifest.epochSize.val
  canonical : ∀ iteration ∈ done.flatMap EpochManifest.iterations,
    iteration.Canonical manifest.workerLaneCount

theorem Checked.step {done : List EpochManifest} {epoch : EpochManifest}
    (h : Checked manifest done cursor)
    (hstep : validateEpoch manifest limits cursor epoch = .ok next) :
    Checked manifest (done ++ [epoch]) next := by
  simp only [validateEpoch, Except.bind_eq_ok, ensure_eq_ok] at hstep
  obtain ⟨_, hordinal, expectedEpoch, hnext, _, hsize, hloop⟩ := hstep
  have hloop := validateIterations_eq_ok hloop h.expectedIteration h.iterations
  have hflat : (done ++ [epoch]).flatMap EpochManifest.iterations =
      done.flatMap EpochManifest.iterations ++ epoch.iterations := by
    rw [List.flatMap_append, List.flatMap_singleton]
  constructor
  · rw [List.map_append, List.map_singleton, hordinal, h.expectedEpoch, List.length_append]
    exact range_succ_eq h.epochs
  · rw [hloop.2.2.2, nextOrdinal_eq_ok hnext, h.expectedEpoch, List.length_append]
    rfl
  · rw [hflat]
    exact hloop.2.1
  · rw [hflat]
    exact hloop.2.2.1
  · intro other hother
    rcases List.mem_append.mp hother with hdone | hlast
    · exact h.size other hdone
    · rw [List.mem_singleton.mp hlast]
      exact hsize
  · intro iteration hiteration
    rw [hflat] at hiteration
    rcases List.mem_append.mp hiteration with hdone | hlast
    · exact h.canonical iteration hdone
    · exact hloop.1 iteration hlast

end Steps

theorem ScheduleManifest.valid_of_validate {manifest : ScheduleManifest} {limits : ScheduleLimits}
    (h : manifest.validate limits = .ok ()) : manifest.Valid := by
  simp only [ScheduleManifest.validate, Except.bind_eq_ok, ensure_eq_ok] at h
  obtain ⟨_, _, _, _, _, _, _, _, cursor, hloop, _⟩ := h
  have hchecked : Checked manifest manifest.epochs cursor := by
    apply foldlM_invariant (Checked manifest) hloop
    · constructor <;> simp [ordinals]
    · intro done epoch before after hbefore hstep
      exact hbefore.step hstep
  exact ⟨hchecked.epochs, hchecked.iterations, hchecked.size, hchecked.canonical⟩

theorem ScheduleManifest.Valid.ordinals_lt {manifest : ScheduleManifest}
    (h : manifest.Valid) :
    manifest.iterations.Pairwise fun a b => a.ordinal.id.val < b.ordinal.id.val := by
  have hrange : (ordinals manifest.iterations).Pairwise (· < ·) := by
    rw [h.iteration_ordinals]
    exact List.pairwise_lt_range
  exact List.pairwise_map.mp hrange

theorem ScheduleManifest.Valid.not_mem_dependencies {manifest : ScheduleManifest}
    (h : manifest.Valid)
    {a b : IterationManifest} (ha : a ∈ manifest.iterations)
    (hab : a.ordinal.id.val ≤ b.ordinal.id.val) : b.ordinal ∉ a.dependencies := by
  intro hmem
  have hlt : b.ordinal.id < a.ordinal.id := (h.canonical a ha).dependencies_lt b.ordinal hmem
  exact absurd (Fin.lt_def.mp hlt) (Nat.not_lt.mpr hab)

end VolarIR.Schedule
