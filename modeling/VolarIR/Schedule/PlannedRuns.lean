import VolarIR.Schedule.EpochRaces
import VolarIR.Schedule.Planner

/-!
# Planned schedules run as the program does

The planner packs independent iterations into epochs, and `execute_epoch` runs an epoch in
whatever order it is given. Run one epoch after the other, a plan leaves the bank and the
trace that the iterations leave in program order.
-/
namespace VolarIR.Schedule

open SortByKey ScheduleRuntime Fallible

variable {V : Type}

section Planned
variable {manifest : ScheduleManifest} {initial : SharedStorageBank V}
  {operation : IterationManifest → Script V} {runtime after : ScheduleRuntime V}

/-- `execute_epoch` on each of the orders in turn, until one fails. -/
def ScheduleRuntime.executeEpochs (operation : IterationManifest → Script V)
    (runtime : ScheduleRuntime V) :
    List (List IterationId) → Except SchedulerError (ScheduleRuntime V)
  | [] => .ok runtime
  | order :: orders =>
    match runtime.executeEpoch order operation with
    | (.error error, _) => .error error
    | (.ok _, after) => after.executeEpochs operation orders

def inProgramOrder (operation : IterationManifest → Script V) (initial : SharedStorageBank V)
    (epochs : List EpochManifest) : Effects V :=
  (epochs.flatMap EpochManifest.iterations).foldl (effect operation) (initial, fun _ => [])

def fragmentsOf (epochs : List EpochManifest) (effects : Effects V) : List TraceFragment :=
  epochs.flatMap fun epoch => epoch.iterations.map (fragmentOf epoch effects)

/-- Between two epochs: everything before the current one has had its effect, as if run in
program order. -/
structure SerialUpTo (operation : IterationManifest → Script V) (initial : SharedStorageBank V)
    (runtime : ScheduleRuntime V) : Prop where
  sound : Sound runtime
  bank : runtime.bank =
    (inProgramOrder operation initial (runtime.manifest.epochs.take runtime.currentEpoch)).1
  trace : runtime.trace.Perm (fragmentsOf (runtime.manifest.epochs.take runtime.currentEpoch)
    (inProgramOrder operation initial (runtime.manifest.epochs.take runtime.currentEpoch)))

theorem inProgramOrder_append (done : List EpochManifest) (epoch : EpochManifest) :
    inProgramOrder operation initial (done ++ [epoch]) =
      epoch.iterations.foldl (effect operation) (inProgramOrder operation initial done) := by
  unfold inProgramOrder
  rw [List.flatMap_append, List.flatMap_singleton, List.foldl_append]

/-- The fragments of finished epochs do not change when a later one is run. -/
theorem fragmentsOf_append (hvalid : manifest.Valid) {done rest : List EpochManifest}
    {epoch : EpochManifest} (hsplit : manifest.epochs = done ++ epoch :: rest)
    (effects : Effects V) :
    fragmentsOf (done ++ [epoch]) (epoch.iterations.foldl (effect operation) effects) =
      fragmentsOf done effects ++ epoch.iterations.map
        (fragmentOf epoch (epoch.iterations.foldl (effect operation) effects)) := by
  unfold fragmentsOf
  rw [List.flatMap_append, List.flatMap_singleton]
  congr 1
  apply List.flatMap_congr
  intro earlier hearlier
  apply List.map_congr_left
  intro a ha
  have hlt := (List.pairwise_flatMap.mp hvalid.ordinals_lt).2
  rw [hsplit, List.pairwise_append] at hlt
  unfold fragmentOf
  rw [foldl_effect_of_ne]
  intro b hb heq
  have hab := hlt.2.2 earlier hearlier epoch List.mem_cons_self a ha b hb
  rw [heq] at hab
  exact lt_irrefl _ hab

theorem fragmentsOf_sorted (hvalid : manifest.Valid) (effects : Effects V) :
    (fragmentsOf manifest.epochs effects).Pairwise fun a b => fragmentKey a < fragmentKey b := by
  have hordinals : manifest.epochs.Pairwise fun a b => a.ordinal.id.val < b.ordinal.id.val := by
    rw [← List.pairwise_map (f := fun epoch : EpochManifest => epoch.ordinal.id.val),
      hvalid.epoch_ordinals]
    exact List.pairwise_lt_range
  apply List.pairwise_flatMap.mpr
  constructor
  · intro epoch hepoch
    apply List.pairwise_map.mpr
    apply (hvalid.increasing hepoch).imp
    intro a b hab
    exact .cons (.rel hab)
  · apply hordinals.imp
    intro a b hab x hx y hy
    obtain ⟨_, _, rfl⟩ := List.mem_map.mp hx
    obtain ⟨_, _, rfl⟩ := List.mem_map.mp hy
    exact .rel hab

variable (operation) in
/-- The iterations of an independent epoch have one effect, in whatever order they run. -/
theorem foldl_effect_of_independent (hvalid : manifest.Valid) {epoch : EpochManifest}
    (hepoch : epoch ∈ manifest.epochs) (hindependent : epoch.iterations.Pairwise Independent)
    {descriptors : List IterationManifest} (hperm : descriptors.Perm epoch.iterations)
    (effects : Effects V) :
    descriptors.foldl (effect operation) effects =
      epoch.iterations.foldl (effect operation) effects := by
  have hraces := List.Pairwise.forall_of_forall_of_flip
    (R := fun a b => a.Races b → a = b) (l := epoch.iterations) (fun _ _ _ => rfl)
    (hindependent.imp fun hab hraces => absurd hraces hab.2)
    (hindependent.imp fun hab hraces => absurd hraces.symm hab.2)
  apply hperm.foldl_eq'
  intro a ha b hb state
  have ha := hperm.mem_iff.mp ha
  have hb := hperm.mem_iff.mp hb
  by_cases heq : a = b
  · rw [heq]
  · have hordinal : a.ordinal ≠ b.ordinal := fun hab =>
      heq (hvalid.eq_of_ordinal epoch hepoch epoch hepoch a ha b hb hab).2
    exact commutes_of_not_races hordinal (fun hab => heq (hraces ha hb hab)) state

/-- An epoch without races leaves the runtime as if it had been run in program order. -/
theorem SerialUpTo.executeEpoch (h : SerialUpTo operation initial runtime)
    (hindependent : ∀ epoch ∈ runtime.manifest.epochs, epoch.iterations.Pairwise Independent)
    {order : List IterationId} {fragments : List TraceFragment}
    (hrun : runtime.executeEpoch order operation = (.ok fragments, after)) :
    SerialUpTo operation initial after ∧ after.manifest = runtime.manifest ∧
      after.currentEpoch = runtime.currentEpoch + 1 ∧
      ∃ epoch, runtime.manifest.epochs[runtime.currentEpoch]? = some epoch ∧
        order.Perm (epoch.iterations.map IterationManifest.ordinal) := by
  have hafter : Sound after := by
    have hsound : Sound (runtime.executeEpoch order operation).2 := executeEpoch_sound h.sound order
    rwa [hrun] at hsound
  obtain ⟨epoch, hepoch, descriptors, mid, rfl, hperm, hexecuted, _, rfl, _⟩ :=
    executeEpoch_eq_ok h.sound hrun
      (inProgramOrder operation initial (runtime.manifest.epochs.take runtime.currentEpoch)).2
  have hin := List.mem_of_getElem? hepoch
  have hsplit : runtime.manifest.epochs = runtime.manifest.epochs.take runtime.currentEpoch ++
      epoch :: runtime.manifest.epochs.drop (runtime.currentEpoch + 1) := by
    obtain ⟨hlt, hget⟩ := List.getElem?_eq_some_iff.mp hepoch
    rw [← hget, List.getElem_cons_drop, List.take_append_drop]
  have htake : runtime.manifest.epochs.take (runtime.currentEpoch + 1) =
      runtime.manifest.epochs.take runtime.currentEpoch ++ [epoch] := by
    rw [List.take_add_one, hepoch, Option.toList_some]
  have hstate : (runtime.bank, (inProgramOrder operation initial
      (runtime.manifest.epochs.take runtime.currentEpoch)).2) =
        inProgramOrder operation initial (runtime.manifest.epochs.take runtime.currentEpoch) :=
    Prod.ext h.bank rfl
  have heffects := foldl_effect_of_independent operation h.sound.valid hin
    (hindependent epoch hin) hperm
    (inProgramOrder operation initial (runtime.manifest.epochs.take runtime.currentEpoch))
  have hbank := hexecuted.bank
  have htrace := hexecuted.trace
  rw [hstate, heffects] at hbank htrace
  constructor
  · constructor
    case sound => exact hafter
    case bank =>
      rw [hexecuted.manifest, hexecuted.currentEpoch, htake, inProgramOrder_append]
      exact hbank
    case trace =>
      rw [hexecuted.manifest, hexecuted.currentEpoch, htake, inProgramOrder_append,
        fragmentsOf_append h.sound.valid hsplit]
      exact htrace.trans (h.trace.append (hperm.map _))
  · exact ⟨hexecuted.manifest, by rw [hexecuted.currentEpoch], epoch, hepoch, hperm.map _⟩

abbrev Permutes (orders : List (List IterationId)) (epochs : List EpochManifest) : Prop :=
  List.Forall₂ (fun order epoch => order.Perm (epoch.iterations.map IterationManifest.ordinal))
    orders epochs

/-- The run over several epochs. -/
theorem SerialUpTo.executeEpochs (h : SerialUpTo operation initial runtime)
    (hindependent : ∀ epoch ∈ runtime.manifest.epochs, epoch.iterations.Pairwise Independent)
    {orders : List (List IterationId)}
    (hrun : runtime.executeEpochs operation orders = .ok after) :
    SerialUpTo operation initial after ∧ after.manifest = runtime.manifest ∧
      after.currentEpoch = runtime.currentEpoch + orders.length ∧
      Permutes orders ((runtime.manifest.epochs.drop runtime.currentEpoch).take orders.length) := by
  induction orders generalizing runtime with
  | nil =>
      cases hrun
      exact ⟨h, rfl, rfl, .nil⟩
  | cons order orders ih =>
      unfold ScheduleRuntime.executeEpochs at hrun
      rcases hfirst : runtime.executeEpoch order operation with ⟨error | fragments, next⟩
      · rw [hfirst] at hrun
        cases hrun
      · rw [hfirst] at hrun
        obtain ⟨hnext, hmanifest, hcurrent, epoch, hepoch, hperm⟩ :=
          h.executeEpoch hindependent hfirst
        obtain ⟨hafter, hmanifest', hcurrent', hrest⟩ := ih hnext (hmanifest ▸ hindependent) hrun
        obtain ⟨hlt, hget⟩ := List.getElem?_eq_some_iff.mp hepoch
        rw [hmanifest, hcurrent] at hrest
        apply And.intro hafter
        constructor
        · rw [hmanifest', hmanifest]
        · constructor
          · rw [hcurrent', hcurrent, List.length_cons]
            omega
          · rw [List.length_cons, List.drop_eq_getElem_cons hlt, hget, List.take_succ_cons]
            exact .cons hperm hrest

/-- Operations that do not fail run through every order of every epoch. -/
theorem Ready.executeEpochs (h : Ready runtime)
    (hindependent : ∀ epoch ∈ runtime.manifest.epochs, epoch.iterations.Pairwise Independent)
    (hok : ∀ descriptor bank, (runAlone operation bank descriptor).1 = .ok ())
    {orders : List (List IterationId)}
    (hpermutes : Permutes orders (runtime.manifest.epochs.drop runtime.currentEpoch)) :
    ∃ after, runtime.executeEpochs operation orders = .ok after := by
  induction orders generalizing runtime with
  | nil => exact ⟨runtime, rfl⟩
  | cons order orders ih =>
      cases hepochs : runtime.manifest.epochs.drop runtime.currentEpoch with
      | nil =>
          rw [hepochs] at hpermutes
          cases hpermutes
      | cons epoch rest =>
          rw [hepochs, Permutes, List.forall₂_cons] at hpermutes
          have hepoch : runtime.manifest.epochs[runtime.currentEpoch]? = some epoch := by
            rw [← List.head?_drop, hepochs, List.head?_cons]
          have hin := List.mem_of_getElem? hepoch
          have hvalid := h.sound.valid
          have hdeps := List.Pairwise.forall_of_forall_of_flip
            (R := fun a b : IterationManifest => b.ordinal ∉ a.dependencies)
            (fun a ha => hvalid.not_mem_dependencies
              (List.mem_flatMap.mpr ⟨epoch, hin, ha⟩) le_rfl)
            (hvalid.canonical_order hin) ((hindependent epoch hin).imp And.left)
          have hnamed : List.Forall₂ (fun id (d : IterationManifest) => id = d.ordinal)
              (epoch.iterations.map IterationManifest.ordinal) epoch.iterations :=
            List.forall₂_map_left_iff.mpr (List.forall₂_same.mpr fun _ _ => rfl)
          obtain ⟨descriptors, hordinals, hperm⟩ := List.perm_comp_forall₂ hpermutes.1 hnamed
          have horder : order = descriptors.map IterationManifest.ordinal :=
            List.forall₂_eq_eq_eq ▸ List.forall₂_map_right_iff.mpr hordinals
          have hpairwise : descriptors.Pairwise fun a b => b.ordinal ∉ a.dependencies :=
            List.pairwise_of_forall_mem_list fun a ha b hb =>
              hdeps (hperm.mem_iff.mp ha) (hperm.mem_iff.mp hb)
          obtain ⟨fragments, next, hrun, hnext, hmanifest, hcurrent⟩ :=
            h.executeEpoch hepoch hperm hpairwise hok
          have hrest : Permutes orders (next.manifest.epochs.drop next.currentEpoch) := by
            rw [hmanifest, hcurrent, ← List.tail_drop, hepochs]
            exact hpermutes.2
          rw [horder]
          unfold ScheduleRuntime.executeEpochs
          rw [hrun]
          exact ih hnext (hmanifest ▸ hindependent) hrest

variable {programDigest storagePolicyDigest : Digest}
  {protocolProfile epochSize workerLaneCount : U32} {iterations : List IterationManifest}

theorem planFromIterations_independent
    (h : planFromIterations programDigest storagePolicyDigest protocolProfile epochSize
      workerLaneCount iterations = .ok manifest) :
    manifest.validate .default = .ok () ∧
      manifest.iterations = assignLanes workerLaneCount iterations ∧
      ∀ epoch ∈ manifest.epochs, epoch.iterations.Pairwise Independent := by
  obtain ⟨planner, hpacked, hepochs, _, _⟩ := planFromIterations_eq_ok h
  constructor
  · simp only [planFromIterations, Except.bind_eq_ok] at h
    obtain ⟨_, _, _, _, _, _, _, hvalidate, hret⟩ := h
    cases hret
    exact hvalidate
  · rw [← hpacked.emitted, ScheduleManifest.iterations, hepochs]
    split_ifs with hempty
    · rw [List.isEmpty_iff.mp hempty, List.append_nil]
      exact ⟨rfl, hpacked.closed⟩
    · rw [List.flatMap_append, List.flatMap_singleton, List.forall_mem_append,
        List.forall_mem_singleton]
      exact ⟨rfl, hpacked.closed, hpacked.current⟩

end Planned

section Readers

def stamp (iteration : IterationManifest) : Script ℕ :=
  .write ⟨⟨1, 0⟩, 0⟩ iteration.ordinal.id.val fun _ => .done

end Readers
end VolarIR.Schedule
