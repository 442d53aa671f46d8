import VolarIR.Schedule.Footprint

/-!
# The greedy epoch planner

Iterations are packed into epochs in program order. A new epoch begins before an iteration
that conflicts with a claim of the current epoch, depends on one of its iterations, or does
not fit. The loop invariant: the closed epochs and the current one hold the iterations seen
so far, each epoch pairwise independent and within its capacity.
-/
namespace VolarIR.Schedule

open Fallible

section Canonicalize
variable {Q : StorageClaim → Prop}

theorem exists_mem_coalesce
    (hQ : ∀ (claim : StorageClaim) mode, Q { claim with mode := claim.mode.join mode } ↔
      Q claim ∨ Q { claim with mode := mode }) (canonical rest : List StorageClaim) :
    (∃ claim ∈ coalesce canonical rest, Q claim) ↔
      (∃ claim ∈ canonical, Q claim) ∨ ∃ claim ∈ rest, Q claim := by
  induction canonical, rest using coalesce.induct with
  | case1 canonical => simp [coalesce]
  | case2 claim rest ih =>
      rw [coalesce, ih]
      simp
  | case3 previous canonical claim rest hsame ih =>
      have hclaim : claim = { previous with mode := claim.mode } := by
        cases claim
        simp_all
      have hjoin : Q { previous with mode := previous.mode.join claim.mode } ↔
          Q previous ∨ Q claim := by
        rw [hQ, ← hclaim]
      rw [coalesce, if_pos hsame, ih]
      simp only [List.mem_cons, exists_eq_or_imp, hjoin, or_assoc, or_left_comm]
  | case4 previous canonical claim rest hsame ih =>
      rw [coalesce, if_neg hsame, ih]
      simp only [List.mem_cons, exists_eq_or_imp, or_assoc, or_left_comm]

theorem exists_mem_canonicalize (iteration : IterationManifest)
    (hQ : ∀ (claim : StorageClaim) mode, Q { claim with mode := claim.mode.join mode } ↔
      Q claim ∨ Q { claim with mode := mode }) :
    (∃ claim ∈ iteration.canonicalize.claims, Q claim) ↔ ∃ claim ∈ iteration.claims, Q claim := by
  rw [IterationManifest.canonicalize, exists_mem_coalesce hQ]
  simp

theorem claims_canonicalize (iteration : IterationManifest) (cell : StorageCellKey) :
    iteration.canonicalize.Claims cell ↔ iteration.Claims cell :=
  exists_mem_canonicalize iteration fun _ _ => (or_self_iff).symm

theorem covers_exclusive_join (cell : StorageCellKey) (claim : StorageClaim)
    (mode : StorageClaimMode) :
    (({ claim with mode := claim.mode.join mode } : StorageClaim).Covers cell ∧
        ({ claim with mode := claim.mode.join mode } : StorageClaim).Exclusive) ↔
      (claim.Covers cell ∧ claim.Exclusive) ∨
        (({ claim with mode := mode } : StorageClaim).Covers cell ∧
          ({ claim with mode := mode } : StorageClaim).Exclusive) := by
  simp only [StorageClaim.Covers, StorageClaim.exclusive_iff, StorageClaimMode.isRead_join,
    Bool.and_eq_false_iff]
  tauto

theorem claimsExclusively_canonicalize (iteration : IterationManifest) (cell : StorageCellKey) :
    iteration.canonicalize.ClaimsExclusively cell ↔ iteration.ClaimsExclusively cell :=
  exists_mem_canonicalize iteration (covers_exclusive_join cell)

end Canonicalize

/-- `u64::try_from`. -/
def u64OfNat (value : ℕ) : Except ManifestError U64 :=
  if h : value < 2 ^ 64 then .ok ⟨value, h⟩ else .error .ordinalOverflow

theorem u64OfNat_eq_ok {value : ℕ} {u : U64} (h : u64OfNat value = .ok u) : u.val = value := by
  unfold u64OfNat at h
  split_ifs at h
  cases h
  rfl

structure Planner where
  expected : ℕ
  epochs : List EpochManifest
  current : EpochManifest
  nextLane : U32

/-- An iteration may not join the current epoch when it is full, holds a dependency of the
iteration, or conflicts with it. The dependencies are sorted here, so the source's binary
search is membership. -/
def mustClose (epochSize : U32) (current : EpochManifest) (iteration : IterationManifest) : Bool :=
  let dependencyInCurrent := current.iterations.any fun candidate =>
    decide (candidate.ordinal ∈ iteration.dependencies)
  let conflictsInCurrent := current.iterations.any fun candidate =>
    candidate.conflictsWith iteration
  !current.iterations.isEmpty &&
    (decide (epochSize.val ≤ current.iterations.length) || dependencyInCurrent ||
      conflictsInCurrent)

def followingLane (workerLaneCount lane : U32) : U32 :=
  if lane + 1 = workerLaneCount then 0 else lane + 1

/-- One turn of the planner's loop. -/
def planStep (epochSize workerLaneCount : U32) (planner : Planner) (iteration : IterationManifest) :
    Except ManifestError Planner := do
  let expected ← u64OfNat planner.expected
  ensure (iteration.ordinal.id = expected)
    (.nonCanonicalIteration expected iteration.ordinal.id)
  let iteration := iteration.canonicalize
  match iteration.dependencies.find? fun dependency => decide (iteration.ordinal ≤ dependency) with
  | some dependency => .error (.forwardDependency iteration.ordinal dependency)
  | none =>
    iteration.claims.forM StorageClaim.validate
    let placed := { iteration with workerLane := ⟨planner.nextLane⟩ }
    let nextLane := followingLane workerLaneCount planner.nextLane
    if mustClose epochSize planner.current iteration = true then
      let epochs := planner.epochs ++ [planner.current]
      let epoch ← u64OfNat epochs.length
      return ⟨planner.expected + 1, epochs, ⟨⟨epoch⟩, [placed], ⟨epoch⟩⟩, nextLane⟩
    else
      return ⟨planner.expected + 1, planner.epochs,
        { planner.current with iterations := planner.current.iterations ++ [placed] }, nextLane⟩

/-- Build deterministic conflict-free consistency epochs from canonical iteration
descriptors. -/
def planFromIterations (programDigest storagePolicyDigest : Digest)
    (protocolProfile epochSize workerLaneCount : U32) (iterations : List IterationManifest) :
    Except ManifestError ScheduleManifest := do
  ensure (epochSize.val ≠ 0) .zeroEpochSize
  ensure (workerLaneCount.val ≠ 0) .zeroWorkerLanes
  let planner ← iterations.foldlM (planStep epochSize workerLaneCount) ⟨0, [], ⟨⟨0⟩, [], ⟨0⟩⟩, 0⟩
  let epochs := if planner.current.iterations.isEmpty then planner.epochs
    else planner.epochs ++ [planner.current]
  let manifest := ⟨scheduleManifestVersion, programDigest, storagePolicyDigest, protocolProfile,
    epochSize, workerLaneCount, epochs⟩
  ScheduleManifest.validate manifest .default
  return manifest

def assignLanes (workerLaneCount : U32) (iterations : List IterationManifest) :
    List IterationManifest :=
  iterations.mapIdx fun k iteration =>
    { iteration.canonicalize with workerLane := ⟨Fin.ofNat (2 ^ 32) (k % workerLaneCount.val)⟩ }

section Step
variable {epochSize workerLaneCount : U32} {planner next : Planner}
  {iteration : IterationManifest}

def Planner.placed (planner : Planner) (iteration : IterationManifest) : IterationManifest :=
  { iteration.canonicalize with workerLane := ⟨planner.nextLane⟩ }

/-- Everything a turn of the loop can do. -/
theorem planStep_eq_ok (h : planStep epochSize workerLaneCount planner iteration = .ok next) :
    iteration.ordinal.id.val = planner.expected ∧ next.expected = planner.expected + 1 ∧
      next.nextLane = followingLane workerLaneCount planner.nextLane ∧
      ((mustClose epochSize planner.current iteration.canonicalize = true ∧
          next.epochs = planner.epochs ++ [planner.current] ∧
          next.current.iterations = [planner.placed iteration]) ∨
        (mustClose epochSize planner.current iteration.canonicalize = false ∧
          next.epochs = planner.epochs ∧
          next.current.iterations = planner.current.iterations ++ [planner.placed iteration])) := by
  simp only [planStep, Except.bind_eq_ok, ensure_eq_ok] at h
  obtain ⟨expected, hexpected, _, hordinal, h⟩ := h
  have hnumber : iteration.ordinal.id.val = planner.expected := by
    rw [hordinal, u64OfNat_eq_ok hexpected]
  split at h
  · cases h
  · obtain ⟨_, _, h⟩ := Except.bind_eq_ok.mp h
    split_ifs at h with hclose
    · obtain ⟨epoch, _, hret⟩ := Except.bind_eq_ok.mp h
      cases hret
      exact ⟨hnumber, rfl, rfl, .inl ⟨hclose, rfl, rfl⟩⟩
    · cases h
      exact ⟨hnumber, rfl, rfl, .inr ⟨Bool.eq_false_iff.mpr hclose, rfl, rfl⟩⟩

theorem of_mustClose_eq_false {current : EpochManifest} (hsize : epochSize.val ≠ 0)
    (h : mustClose epochSize current iteration = false) :
    current.iterations.length < epochSize.val ∧
      ∀ candidate ∈ current.iterations, candidate.ordinal ∉ iteration.dependencies ∧
        candidate.conflictsWith iteration = false := by
  simp only [mustClose, Bool.and_eq_false_iff, Bool.not_eq_false', Bool.or_eq_false_iff,
    List.isEmpty_iff, decide_eq_false_iff_not, List.any_eq_false, decide_eq_true_eq,
    Bool.not_eq_true, not_le] at h
  rcases h with hempty | ⟨⟨hfits, hdeps⟩, hconflicts⟩
  · rw [hempty]
    constructor
    · exact Nat.pos_of_ne_zero hsize
    · simp
  · exact ⟨hfits, fun candidate hmem => ⟨hdeps candidate hmem, hconflicts candidate hmem⟩⟩

theorem nonempty_of_mustClose {current : EpochManifest}
    (h : mustClose epochSize current iteration = true) : current.iterations ≠ [] := by
  intro hempty
  rw [mustClose, hempty] at h
  cases h

theorem val_followingLane {lane : U32} {k : ℕ} (h : lane.val = k % workerLaneCount.val)
    (hcount : workerLaneCount.val ≠ 0) :
    (followingLane workerLaneCount lane).val = (k + 1) % workerLaneCount.val := by
  have hlane := Nat.mod_lt k (Nat.pos_of_ne_zero hcount)
  have hbound := workerLaneCount.isLt
  have hsucc : (lane + 1).val = k % workerLaneCount.val + 1 := by
    rw [Fin.val_add, h]
    exact Nat.mod_eq_of_lt (by simp only [Fin.val_one]; omega)
  have hmod : (k + 1) % workerLaneCount.val =
      (k % workerLaneCount.val + 1) % workerLaneCount.val := (Nat.mod_add_mod k _ 1).symm
  unfold followingLane
  split_ifs with hwrap
  · rw [hmod, ← hsucc, hwrap, Nat.mod_self]
    rfl
  · have hne : k % workerLaneCount.val + 1 ≠ workerLaneCount.val := by
      rw [← hsucc]
      exact fun heq => hwrap (Fin.ext heq)
    rw [hmod, hsucc, Nat.mod_eq_of_lt
        (by omega : k % workerLaneCount.val + 1 < workerLaneCount.val)]

end Step

def Independent (earlier later : IterationManifest) : Prop :=
  earlier.ordinal ∉ later.dependencies ∧ ¬ earlier.Races later

/-- The planner's loop invariant. -/
structure Packed (epochSize workerLaneCount : U32) (done : List IterationManifest)
    (planner : Planner) : Prop where
  expected : planner.expected = done.length
  lane : planner.nextLane.val = done.length % workerLaneCount.val
  emitted : planner.epochs.flatMap EpochManifest.iterations ++ planner.current.iterations =
    assignLanes workerLaneCount done
  nonempty : ∀ epoch ∈ planner.epochs, epoch.iterations ≠ []
  closed : ∀ epoch ∈ planner.epochs, epoch.iterations.Pairwise Independent
  current : planner.current.iterations.Pairwise Independent

section Run
variable {epochSize workerLaneCount : U32} {planner next : Planner}
  {done : List IterationManifest} {iteration : IterationManifest}

theorem assignLanes_append (h : Packed epochSize workerLaneCount done planner) :
    assignLanes workerLaneCount (done ++ [iteration]) =
      assignLanes workerLaneCount done ++ [planner.placed iteration] := by
  have hlane : Fin.ofNat (2 ^ 32) (done.length % workerLaneCount.val) = planner.nextLane := by
    apply Fin.ext
    rw [Fin.val_ofNat, ← h.lane, Nat.mod_eq_of_lt planner.nextLane.isLt]
  unfold assignLanes
  rw [List.mapIdx_concat, hlane]
  rfl

theorem Packed.step (hsize : epochSize.val ≠ 0) (hcount : workerLaneCount.val ≠ 0)
    (h : Packed epochSize workerLaneCount done planner)
    (hstep : planStep epochSize workerLaneCount planner iteration = .ok next) :
    Packed epochSize workerLaneCount (done ++ [iteration]) next := by
  obtain ⟨_, hexpected, hlane, hcases⟩ := planStep_eq_ok hstep
  have hnumber : next.expected = (done ++ [iteration]).length := by
    rw [hexpected, h.expected, List.length_append]
    rfl
  have hnext : next.nextLane.val = (done ++ [iteration]).length % workerLaneCount.val := by
    rw [hlane, val_followingLane h.lane hcount, List.length_append]
    rfl
  rcases hcases with ⟨hclose, hepochs, hcurrent⟩ | ⟨hkeep, hepochs, hcurrent⟩
  · constructor
    · exact hnumber
    · exact hnext
    · rw [hepochs, hcurrent, List.flatMap_append, List.flatMap_singleton, h.emitted,
        assignLanes_append h]
    · rw [hepochs, List.forall_mem_append, List.forall_mem_singleton]
      exact ⟨h.nonempty, nonempty_of_mustClose hclose⟩
    · rw [hepochs, List.forall_mem_append, List.forall_mem_singleton]
      exact ⟨h.closed, h.current⟩
    · rw [hcurrent]
      exact List.pairwise_singleton _ _
  · have hfree := (of_mustClose_eq_false hsize hkeep).2
    constructor
    · exact hnumber
    · exact hnext
    · rw [hepochs, hcurrent, ← List.append_assoc, h.emitted, assignLanes_append h]
    · rw [hepochs]
      exact h.nonempty
    · rw [hepochs]
      exact h.closed
    · rw [hcurrent, List.pairwise_append]
      have hlast : ∀ candidate ∈ planner.current.iterations,
          ∀ last ∈ [planner.placed iteration], Independent candidate last := by
        intro candidate hmem last hlast
        rw [List.mem_singleton.mp hlast]
        constructor
        · exact (hfree candidate hmem).1
        · intro hraces
          have hconflict : candidate.conflictsWith iteration.canonicalize = true :=
            hraces.conflictsWith
          rw [(hfree candidate hmem).2] at hconflict
          cases hconflict
      exact ⟨h.current, List.pairwise_singleton _ _, hlast⟩

end Run

section Plan
variable {programDigest storagePolicyDigest : Digest}
  {protocolProfile epochSize workerLaneCount : U32} {iterations : List IterationManifest}
  {manifest : ScheduleManifest}

/-- What a returned plan is made of. -/
theorem planFromIterations_eq_ok
    (h : planFromIterations programDigest storagePolicyDigest protocolProfile epochSize
      workerLaneCount iterations = .ok manifest) :
    ∃ planner, Packed epochSize workerLaneCount iterations planner ∧
      manifest.epochs = (if planner.current.iterations.isEmpty then planner.epochs
        else planner.epochs ++ [planner.current]) ∧
      manifest.epochSize = epochSize ∧ manifest.Valid := by
  simp only [planFromIterations, Except.bind_eq_ok, ensure_eq_ok] at h
  obtain ⟨_, hsize, _, hcount, planner, hloop, _, hvalid, hret⟩ := h
  have hpacked : Packed epochSize workerLaneCount iterations planner := by
    apply foldlM_invariant (Packed epochSize workerLaneCount) hloop
    · constructor <;> simp [assignLanes]
    · intro done iteration before after hbefore hstep
      exact hbefore.step hsize hcount hstep
  cases hret
  exact ⟨planner, hpacked, rfl, rfl, ScheduleManifest.valid_of_validate hvalid⟩

end Plan

section Readers

def claiming (ordinal : U64) (lane : U32) (dependencies : List IterationId)
    (mode : StorageClaimMode) : IterationManifest :=
  ⟨⟨ordinal⟩, 0, ⟨lane⟩, dependencies, [.whole ⟨1, 0⟩ mode], ⟨0, 0⟩, ⟨0, 0⟩⟩

def readersThenWriter : List IterationManifest :=
  [claiming 0 99 [] .read, claiming 1 99 [] .read, claiming 2 99 [⟨0⟩, ⟨0⟩] .write]

/-- The readers share an epoch; the writer gets its own. -/
def readersPlan : ScheduleManifest where
  formatVersion := scheduleManifestVersion
  programDigest := Vector.replicate 32 1
  storagePolicyDigest := Vector.replicate 32 2
  protocolProfile := 3
  epochSize := 4
  workerLaneCount := 2
  epochs := [⟨⟨0⟩, [claiming 0 0 [] .read, claiming 1 1 [] .read], ⟨0⟩⟩,
    ⟨⟨1⟩, [claiming 2 0 [⟨0⟩] .write], ⟨1⟩⟩]

theorem planFromIterations_readersThenWriter :
    planFromIterations (Vector.replicate 32 1) (Vector.replicate 32 2) 3 4 2 readersThenWriter =
      .ok readersPlan := rfl

end Readers
end VolarIR.Schedule
