import VolarIR.Schedule.Lifecycle

/-!
# The invariant of a runtime

Over a validated manifest every call keeps it: the active iterations belong to the current
epoch, are not completed, are pairwise compatible and have their dependencies committed;
every earlier epoch is completed; and the trace lists the completed iterations in canonical
order.
-/
namespace VolarIR.Schedule

open SortByKey ScheduleRuntime

/-- The epoch at position `k` holds the iteration. -/
def ScheduleManifest.Holds (manifest : ScheduleManifest) (k : ℕ) (iteration : IterationManifest) :
    Prop :=
  ∃ epoch, manifest.epochs[k]? = some epoch ∧ iteration ∈ epoch.iterations

section Manifest
variable {manifest : ScheduleManifest}

theorem ScheduleManifest.Holds.mem {k : ℕ} {iteration : IterationManifest}
    (h : manifest.Holds k iteration) : iteration ∈ manifest.iterations := by
  obtain ⟨epoch, hepoch, hmem⟩ := h
  exact List.mem_flatMap.mpr ⟨epoch, List.mem_of_getElem? hepoch, hmem⟩

theorem ScheduleManifest.Valid.ordinal_inj (h : manifest.Valid) {a b : IterationManifest}
    (ha : a ∈ manifest.iterations) (hb : b ∈ manifest.iterations) (hab : a.ordinal = b.ordinal) :
    a = b := by
  obtain ⟨left, hleft, ha⟩ := List.mem_flatMap.mp ha
  obtain ⟨right, hright, hb⟩ := List.mem_flatMap.mp hb
  exact (h.eq_of_ordinal left hleft right hright a ha b hb hab).2

theorem ScheduleManifest.Valid.epoch_eq (h : manifest.Valid) {left right : EpochManifest}
    (hl : left ∈ manifest.epochs) (hr : right ∈ manifest.epochs)
    (ho : left.ordinal = right.ordinal) : left = right := by
  have hnodup : (manifest.epochs.map fun epoch => epoch.ordinal.id.val).Nodup := by
    rw [h.epoch_ordinals]
    exact List.nodup_range
  exact List.inj_on_of_nodup_map hnodup hl hr (by rw [ho])

end Manifest

theorem nodup_fragmentKey {trace : List TraceFragment}
    (h : (trace.map TraceFragment.iteration).Nodup) : (trace.map fragmentKey).Nodup := by
  apply List.pairwise_map.mpr
  apply (List.pairwise_map.mp h).imp
  intro a b hne heq
  apply hne
  have hid := (List.cons.inj (List.cons.inj heq).2).1
  exact congrArg IterationId.mk (Fin.ext hid)

variable {V : Type}

/-- What every call keeps. -/
structure Sound (runtime : ScheduleRuntime V) : Prop where
  valid : runtime.manifest.Valid
  epoch_le : runtime.currentEpoch ≤ runtime.manifest.epochs.length
  active_open : ∀ id ∈ runtime.active, ∃ iteration,
    runtime.manifest.Holds runtime.currentEpoch iteration ∧ iteration.ordinal = id ∧
      ∀ dependency ∈ iteration.dependencies, dependency ∈ runtime.completed
  active_fresh : ∀ id ∈ runtime.active, id ∉ runtime.completed
  active_nodup : runtime.active.Nodup
  active_compatible : ∀ a ∈ runtime.manifest.iterations, ∀ b ∈ runtime.manifest.iterations,
    a.ordinal ∈ runtime.active → b.ordinal ∈ runtime.active → a.ordinal ≠ b.ordinal →
      a.conflictsWith b = false
  completed_nodup : runtime.completed.Nodup
  completed_placed : ∀ id ∈ runtime.completed, ∃ k ≤ runtime.currentEpoch, ∃ iteration,
    runtime.manifest.Holds k iteration ∧ iteration.ordinal = id
  finished : ∀ k < runtime.currentEpoch, ∀ iteration, runtime.manifest.Holds k iteration →
    iteration.ordinal ∈ runtime.completed
  trace_completed : (runtime.trace.map TraceFragment.iteration).Perm runtime.completed
  trace_placed : ∀ fragment ∈ runtime.trace, ∃ epoch ∈ runtime.manifest.epochs,
    ∃ iteration ∈ epoch.iterations,
      fragment.epoch = epoch.ordinal ∧ fragment.iteration = iteration.ordinal
  trace_sorted : runtime.trace.Pairwise fun a b => fragmentKey a < fragmentKey b

namespace Sound
variable {runtime : ScheduleRuntime V}

theorem new {manifest : ScheduleManifest} {bank : SharedStorageBank V}
    (h : ScheduleRuntime.new manifest bank = .ok runtime) : Sound runtime := by
  unfold ScheduleRuntime.new at h
  split at h
  · cases h
  · next hvalid =>
      cases h
      constructor <;> first
        | exact ScheduleManifest.valid_of_validate hvalid
        | simp

theorem poison (h : Sound runtime) : Sound { runtime with aborted := true } :=
  ⟨h.valid, h.epoch_le, h.active_open, h.active_fresh, h.active_nodup, h.active_compatible,
    h.completed_nodup, h.completed_placed, h.finished, h.trace_completed, h.trace_placed,
    h.trace_sorted⟩

theorem find_active (h : Sound runtime) :
    ∀ active ∈ runtime.active, ∃ found, runtime.manifest.findIteration active = .ok found := by
  intro active hactive
  obtain ⟨iteration, ⟨epoch, hepoch, hmem⟩, hordinal, _⟩ := h.active_open active hactive
  subst hordinal
  exact ⟨_, h.valid.findIteration (List.mem_of_getElem? hepoch) hmem⟩

theorem firstConflict_ne_error (h : Sound runtime) {descriptor : IterationManifest}
    {error : SchedulerError} :
    runtime.firstConflict descriptor runtime.active ≠ .error error :=
  Schedule.firstConflict_ne_error h.find_active

theorem currentEpochId_eq_ok {id : EpochId} (h : runtime.currentEpochId = .ok id) :
    ∃ epoch, runtime.manifest.epochs[runtime.currentEpoch]? = some epoch ∧ epoch.ordinal = id :=
  Option.map_eq_some_iff.mp (okOr_eq_ok.mp h)

/-- The iteration `begin` opens belongs to the current epoch. -/
theorem holds_of_opens (h : Sound runtime) {epoch : EpochManifest}
    {descriptor : IterationManifest} (ho : Opens runtime epoch descriptor) :
    runtime.manifest.epochs[runtime.currentEpoch]? = some epoch ∧
      descriptor ∈ epoch.iterations := by
  have hfound := findIteration_eq_ok ho.found
  obtain ⟨current, hcurrent, hordinal⟩ := currentEpochId_eq_ok ho.current
  have heq := h.valid.epoch_eq (List.mem_of_getElem? hcurrent) hfound.1 hordinal
  rw [← heq]
  exact ⟨hcurrent, heq ▸ hfound.2.1⟩

theorem opens (h : Sound runtime) {epoch : EpochManifest} {descriptor : IterationManifest}
    (ho : Opens runtime epoch descriptor) :
    Sound (runtime.opening descriptor.ordinal) := by
  have hheld := h.holds_of_opens ho
  have hmem : descriptor ∈ runtime.manifest.iterations :=
    ScheduleManifest.Holds.mem ⟨epoch, hheld.1, hheld.2⟩
  have hfree : ∀ a ∈ runtime.manifest.iterations, a.ordinal ∈ runtime.active →
      a.conflictsWith descriptor = false := by
    intro a ha hactive
    obtain ⟨found, hfind, hconflict⟩ := firstConflict_eq_none ho.compatible a.ordinal hactive
    have hfound := findIteration_eq_ok hfind
    have heq : found.2 = a :=
      h.valid.ordinal_inj (List.mem_flatMap.mpr ⟨found.1, hfound.1, hfound.2.1⟩) ha hfound.2.2
    rwa [heq] at hconflict
  constructor
  case active_open =>
    intro id hid
    rcases List.mem_append.mp hid with hid | hid
    · exact h.active_open id hid
    · rw [List.mem_singleton.mp hid]
      exact ⟨descriptor, ⟨epoch, hheld.1, hheld.2⟩, rfl, ho.dependencies⟩
  case active_fresh =>
    intro id hid
    rcases List.mem_append.mp hid with hid | hid
    · exact h.active_fresh id hid
    · rw [List.mem_singleton.mp hid]
      exact ho.not_completed
  case active_nodup =>
    apply List.nodup_append.mpr
    exact ⟨h.active_nodup, List.nodup_singleton _, fun a ha b hb hab =>
      ho.not_active (List.mem_singleton.mp hb ▸ hab ▸ ha)⟩
  case active_compatible =>
    intro a ha b hb hactive hactive' hne
    rcases List.mem_append.mp hactive with hl | hl
    · rcases List.mem_append.mp hactive' with hr | hr
      · exact h.active_compatible a ha b hb hl hr hne
      · rw [h.valid.ordinal_inj hb hmem (List.mem_singleton.mp hr)]
        exact hfree a ha hl
    · have hal := List.mem_singleton.mp hl
      rcases List.mem_append.mp hactive' with hr | hr
      · rw [h.valid.ordinal_inj ha hmem hal, IterationManifest.conflictsWith_comm]
        exact hfree b hb hr
      · exact absurd (hal.trans (List.mem_singleton.mp hr).symm) hne
  case valid => exact h.valid
  case epoch_le => exact h.epoch_le
  case completed_nodup => exact h.completed_nodup
  case completed_placed => exact h.completed_placed
  case finished => exact h.finished
  case trace_completed => exact h.trace_completed
  case trace_placed => exact h.trace_placed
  case trace_sorted => exact h.trace_sorted

theorem erase (h : Sound runtime) (id : IterationId) :
    Sound { runtime with active := runtime.active.erase id } := by
  have hsub : ∀ other ∈ runtime.active.erase id, other ∈ runtime.active :=
    fun other hother => List.mem_of_mem_erase hother
  exact ⟨h.valid, h.epoch_le, fun other hother => h.active_open other (hsub other hother),
    fun other hother => h.active_fresh other (hsub other hother), h.active_nodup.erase id,
    fun a ha b hb hl hr => h.active_compatible a ha b hb (hsub _ hl) (hsub _ hr),
    h.completed_nodup, h.completed_placed, h.finished, h.trace_completed, h.trace_placed,
    h.trace_sorted⟩

theorem abort (h : Sound runtime) (transaction : ScheduleTransaction V) :
    Sound (runtime.abort transaction) :=
  (h.erase transaction.iteration).poison

/-- Committing an active iteration, whatever its transaction wrote. -/
theorem committed (h : Sound runtime) {transaction : ScheduleTransaction V} {epoch : EpochId}
    (hactive : transaction.iteration ∈ runtime.active)
    (hepoch : runtime.currentEpochId = .ok epoch) :
    Sound (committed runtime transaction epoch) := by
  obtain ⟨iteration, hholds, hordinal, hdeps⟩ := h.active_open _ hactive
  have herase := h.erase transaction.iteration
  have hperm : ((sortByKey fragmentKey (runtime.trace ++
      [⟨epoch, transaction.iteration, transaction.events⟩])).map
        TraceFragment.iteration).Perm (runtime.completed ++ [transaction.iteration]) := by
    apply ((perm_sortByKey _).map _).trans
    rw [List.map_append]
    exact h.trace_completed.append_right _
  have hnodup : (runtime.completed ++ [transaction.iteration]).Nodup := by
    rw [List.nodup_append]
    exact ⟨h.completed_nodup, List.nodup_singleton _, fun a ha b hb hab =>
      h.active_fresh _ hactive (List.mem_singleton.mp hb ▸ hab ▸ ha)⟩
  constructor
  case valid => exact h.valid
  case epoch_le => exact h.epoch_le
  case active_open =>
    intro id hid
    obtain ⟨other, hother, hid', hdeps'⟩ := herase.active_open id hid
    exact ⟨other, hother, hid', fun d hd => List.mem_append_left _ (hdeps' d hd)⟩
  case active_fresh =>
    intro id hid hmem
    rcases List.mem_append.mp hmem with hmem | hmem
    · exact herase.active_fresh id hid hmem
    · rw [List.mem_singleton.mp hmem] at hid
      exact (h.active_nodup.mem_erase_iff.mp hid).1 rfl
  case active_nodup => exact herase.active_nodup
  case active_compatible => exact herase.active_compatible
  case completed_nodup => exact hnodup
  case completed_placed =>
    intro id hid
    rcases List.mem_append.mp hid with hid | hid
    · exact h.completed_placed id hid
    · rw [List.mem_singleton.mp hid]
      exact ⟨runtime.currentEpoch, le_rfl, iteration, hholds, hordinal⟩
  case finished =>
    intro k hk other hother
    exact List.mem_append_left _ (h.finished k hk other hother)
  case trace_completed => exact hperm
  case trace_placed =>
    intro fragment hfragment
    rcases List.mem_append.mp ((perm_sortByKey _).mem_iff.mp hfragment) with hmem | hmem
    · exact h.trace_placed fragment hmem
    · obtain ⟨current, hcurrent, hid⟩ := currentEpochId_eq_ok hepoch
      obtain ⟨held, hheld, hmem'⟩ := hholds
      rw [hcurrent] at hheld
      cases hheld
      rw [List.mem_singleton.mp hmem]
      exact ⟨current, List.mem_of_getElem? hcurrent, iteration, hmem', hid.symm, hordinal.symm⟩
  case trace_sorted =>
    apply pairwise_lt_sortByKey
    apply nodup_fragmentKey
    exact (((perm_sortByKey _).map _).symm.trans hperm).nodup_iff.mpr hnodup

theorem finishes (h : Sound runtime) {epoch : EpochManifest}
    (hepoch : runtime.manifest.epochs[runtime.currentEpoch]? = some epoch)
    (hactive : runtime.active = [])
    (hall : ∀ iteration ∈ epoch.iterations, iteration.ordinal ∈ runtime.completed) :
    Sound { runtime with currentEpoch := runtime.currentEpoch + 1 } := by
  constructor
  case epoch_le => exact (List.getElem?_eq_some_iff.mp hepoch).1
  case active_open =>
    intro id hid
    rw [show runtime.active = [] from hactive] at hid
    cases hid
  case completed_placed =>
    intro id hid
    obtain ⟨k, hk, hiteration⟩ := h.completed_placed id hid
    exact ⟨k, Nat.le_succ_of_le hk, hiteration⟩
  case finished =>
    intro k hk iteration hholds
    rcases Nat.lt_succ_iff_lt_or_eq.mp hk with hlt | rfl
    · exact h.finished k hlt iteration hholds
    · obtain ⟨held, hheld, hmem⟩ := hholds
      rw [hepoch] at hheld
      cases hheld
      exact hall iteration hmem
  case valid => exact h.valid
  case active_fresh => exact h.active_fresh
  case active_nodup => exact h.active_nodup
  case active_compatible => exact h.active_compatible
  case completed_nodup => exact h.completed_nodup
  case trace_completed => exact h.trace_completed
  case trace_placed => exact h.trace_placed
  case trace_sorted => exact h.trace_sorted

end Sound

section Lone

/-- One iteration that writes the namespace `(1, 0)`. -/
def loneIteration : IterationManifest :=
  ⟨⟨0⟩, 0, ⟨0⟩, [], [.whole ⟨1, 0⟩ .write], ⟨0, 0⟩, ⟨0, 0⟩⟩

def loneManifest : ScheduleManifest where
  formatVersion := scheduleManifestVersion
  programDigest := Vector.replicate 32 1
  storagePolicyDigest := Vector.replicate 32 2
  protocolProfile := 0
  epochSize := 2
  workerLaneCount := 1
  epochs := [⟨⟨0⟩, [loneIteration], ⟨0⟩⟩]

def loneRuntime : ScheduleRuntime ℕ := ⟨loneManifest, fun _ => none, 0, [], [], [], false⟩

theorem new_loneManifest :
    ScheduleRuntime.new loneManifest (fun _ => none) = .ok loneRuntime := rfl

end Lone
end VolarIR.Schedule
