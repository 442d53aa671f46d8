import VolarIR.Schedule.EpochOrder

/-!
# Which epochs are independent of the physical order

Validation does not look for conflicts inside an epoch. Where two racing iterations are not
ordered by the dependencies of their epoch, either of them can be executed first, and an
operation that writes the shared cell in one and reads it in the other tells the two orders
apart. So the order is immaterial exactly when the dependencies order every race.
-/
namespace VolarIR.Schedule

open SortByKey ScheduleRuntime

variable {V : Type}

def Reachable (manifest : ScheduleManifest) (initial : SharedStorageBank V)
    (runtime : ScheduleRuntime V) : Prop :=
  ∃ start, ∃ calls : List (Call V), ScheduleRuntime.new manifest initial = .ok start ∧
    runtime = calls.foldl Call.perform start

/-- Whenever `execute_epoch` returns on two orders, it leaves the same bank and trace and
returns the same fragments. -/
def OrderIndependent (V : Type) (manifest : ScheduleManifest) : Prop :=
  ∀ (initial : SharedStorageBank V) (runtime : ScheduleRuntime V),
    Reachable manifest initial runtime →
      ∀ (operation : IterationManifest → Script V) (order order' : List IterationId)
        (fragments fragments' : List TraceFragment) (left right : ScheduleRuntime V),
        runtime.executeEpoch order operation = (.ok fragments, left) →
          runtime.executeEpoch order' operation = (.ok fragments', right) →
            left.bank = right.bank ∧ left.trace = right.trace ∧ fragments = fragments'

section Kept
variable {operation : IterationManifest → Script V}

theorem begin_manifest (runtime : ScheduleRuntime V) (iteration : IterationId) :
    (runtime.begin iteration).2.manifest = runtime.manifest := by
  rcases begin_cases runtime iteration with ⟨_, _, _, _, h⟩ | ⟨_, h⟩ | ⟨_, h, _⟩
  all_goals exact congrArg (fun outcome => outcome.2.manifest) h

theorem commit_manifest (runtime : ScheduleRuntime V) (transaction : ScheduleTransaction V) :
    (runtime.commit transaction).2.manifest = runtime.manifest := by
  rcases commit_cases runtime transaction with ⟨_, _, _, _, _, h⟩ | ⟨_, h, _⟩
  all_goals exact congrArg (fun outcome => outcome.2.manifest) h

theorem finishEpoch_manifest (runtime : ScheduleRuntime V) :
    runtime.finishEpoch.2.manifest = runtime.manifest := by
  rcases finishEpoch_cases runtime with ⟨_, _, _, _, _, h⟩ | ⟨_, h⟩ | ⟨_, h, _⟩
  all_goals exact congrArg (fun outcome => outcome.2.manifest) h

theorem executeIterations_manifest (runtime : ScheduleRuntime V) (order : List IterationId) :
    (runtime.executeIterations operation order).2.manifest = runtime.manifest := by
  induction order generalizing runtime with
  | nil => rfl
  | cons iteration rest ih =>
      have hbegin := begin_manifest runtime iteration
      unfold executeIterations
      cases runtime.manifest.findIteration iteration with
      | error error => rfl
      | ok found =>
          rcases hopened : runtime.begin iteration with ⟨error | transaction, opened⟩
          · rw [hopened] at hbegin
            exact hbegin
          · rw [hopened] at hbegin
            rcases hrun : (operation found.2).run opened transaction with ⟨error | _, transaction'⟩
            · simp only [hrun]
              exact hbegin
            · have hcommit := commit_manifest opened transaction'
              simp only [hrun]
              rcases hcommitted : opened.commit transaction' with ⟨error | _, after⟩
              · rw [hcommitted] at hcommit
                exact hcommit.trans hbegin
              · rw [hcommitted] at hcommit
                exact (ih after).trans (hcommit.trans hbegin)

theorem executeEpoch_manifest (runtime : ScheduleRuntime V) (order : List IterationId) :
    (runtime.executeEpoch order operation).2.manifest = runtime.manifest := by
  have hloop : (runtime.executeIterations operation order).2.manifest = runtime.manifest :=
    executeIterations_manifest runtime order
  unfold executeEpoch
  split_ifs
  · rfl
  · cases runtime.manifest.epochs[runtime.currentEpoch]? with
    | none => rfl
    | some epoch =>
        dsimp only
        split_ifs
        · rfl
        · rcases hrun : runtime.executeIterations operation order with ⟨error | _, after⟩
          · rw [hrun] at hloop
            exact hloop
          · rw [hrun] at hloop
            exact (finishEpoch_manifest after).trans hloop

theorem Call.perform_manifest (runtime : ScheduleRuntime V) (call : Call V) :
    (call.perform runtime).manifest = runtime.manifest := by
  cases call with
  | begin iteration => exact begin_manifest runtime iteration
  | read transaction cell => rfl
  | write transaction cell value => rfl
  | commit transaction => exact commit_manifest runtime transaction
  | abort transaction => rfl
  | finishEpoch => exact finishEpoch_manifest runtime
  | executeEpoch order operation => exact executeEpoch_manifest runtime order

end Kept

section Reach
variable {manifest : ScheduleManifest} {initial : SharedStorageBank V}
  {runtime : ScheduleRuntime V}

theorem foldl_perform_sound (h : Sound runtime) (calls : List (Call V)) :
    Sound (calls.foldl Call.perform runtime) := by
  induction calls generalizing runtime with
  | nil => exact h
  | cons call calls ih => exact ih (call.perform_sound h)

theorem Reachable.sound (h : Reachable manifest initial runtime) : Sound runtime := by
  obtain ⟨start, calls, hnew, rfl⟩ := h
  exact foldl_perform_sound (Sound.new hnew) calls

theorem Reachable.perform (h : Reachable manifest initial runtime) (call : Call V) :
    Reachable manifest initial (call.perform runtime) := by
  obtain ⟨start, calls, hnew, rfl⟩ := h
  exact ⟨start, calls ++ [call], hnew, by rw [List.foldl_append, List.foldl_cons, List.foldl_nil]⟩

theorem Reachable.manifest_eq (h : Reachable manifest initial runtime) :
    runtime.manifest = manifest := by
  obtain ⟨start, calls, hnew, rfl⟩ := h
  have hkept : (calls.foldl Call.perform start).manifest = start.manifest := by
    clear hnew
    induction calls generalizing start with
    | nil => rfl
    | cons call calls ih => exact (ih _).trans (call.perform_manifest start)
  rw [hkept]
  unfold ScheduleRuntime.new at hnew
  cases hvalidate : manifest.validate .default with
  | error error =>
      rw [hvalidate] at hnew
      cases hnew
  | ok _ =>
      rw [hvalidate] at hnew
      cases hnew
      rfl

end Reach

section Manifest
variable {manifest : ScheduleManifest} {epoch : EpochManifest}

theorem ScheduleManifest.Valid.increasing (h : manifest.Valid) (hepoch : epoch ∈ manifest.epochs) :
    epoch.iterations.Pairwise fun a b => a.ordinal.id.val < b.ordinal.id.val :=
  (List.pairwise_flatMap.mp h.ordinals_lt).1 epoch hepoch

theorem ScheduleManifest.Valid.epoch_lt (h : manifest.Valid) {j k : ℕ}
    {a b : IterationManifest} (ha : manifest.Holds j a) (hb : manifest.Holds k b) (hjk : j < k) :
    a.ordinal.id.val < b.ordinal.id.val := by
  obtain ⟨left, hleft, ha⟩ := ha
  obtain ⟨right, hright, hb⟩ := hb
  obtain ⟨hj, rfl⟩ := List.getElem?_eq_some_iff.mp hleft
  obtain ⟨hk, rfl⟩ := List.getElem?_eq_some_iff.mp hright
  exact List.pairwise_iff_getElem.mp (List.pairwise_flatMap.mp h.ordinals_lt).2 j k hj hk hjk
    a ha b hb

theorem ScheduleManifest.Valid.dependency_placed (h : manifest.Valid) {k : ℕ}
    {a : IterationManifest} (ha : manifest.Holds k a) {dependency : IterationId}
    (hdep : dependency ∈ a.dependencies) :
    ∃ j ≤ k, ∃ b, manifest.Holds j b ∧ b.ordinal = dependency := by
  have hlt : dependency.id.val < a.ordinal.id.val :=
    (h.canonical a ha.mem).dependencies_lt dependency hdep
  have hordinals : ∀ n, n ∈ ordinals manifest.iterations ↔ n < manifest.iterations.length := by
    intro n
    rw [h.iteration_ordinals, List.mem_range]
  have hbound := (hordinals _).mp (List.mem_map.mpr ⟨a, ha.mem, rfl⟩)
  obtain ⟨b, hb, hid⟩ := List.mem_map.mp ((hordinals dependency.id.val).mpr (hlt.trans hbound))
  obtain ⟨epoch, hepoch, hmem⟩ := List.mem_flatMap.mp hb
  obtain ⟨j, hj, hget⟩ := List.mem_iff_getElem.mp hepoch
  have hholds : manifest.Holds j b := ⟨epoch, List.getElem?_eq_some_iff.mpr ⟨hj, hget⟩, hmem⟩
  have hordinal : b.ordinal = dependency := congrArg IterationId.mk (Fin.ext hid)
  apply Exists.intro j
  constructor
  · by_contra hjk
    have hab := h.epoch_lt ha hholds (not_le.mp hjk)
    rw [hordinal] at hab
    exact absurd hlt hab.asymm
  · exact ⟨b, hholds, hordinal⟩

theorem ScheduleManifest.Valid.canonical_order (h : manifest.Valid)
    (hepoch : epoch ∈ manifest.epochs) :
    epoch.iterations.Pairwise fun a b => b.ordinal ∉ a.dependencies := by
  apply (h.increasing hepoch).imp_of_mem
  intro a b ha _ hab
  exact h.not_mem_dependencies (List.mem_flatMap.mpr ⟨epoch, hepoch, ha⟩) hab.le

end Manifest

section Progress

structure Ready (runtime : ScheduleRuntime V) : Prop where
  sound : Sound runtime
  live : runtime.aborted = false
  idle : runtime.active = []
  fresh : ∀ id ∈ runtime.completed, ∃ k < runtime.currentEpoch, ∃ iteration,
    runtime.manifest.Holds k iteration ∧ iteration.ordinal = id

variable {runtime : ScheduleRuntime V} {epoch : EpochManifest}
  {operation : IterationManifest → Script V}

/-- An iteration of the current epoch whose dependencies are committed can be opened when
nothing else is open. -/
theorem begin_of_available (h : Sound runtime) (hlive : runtime.aborted = false)
    (hidle : runtime.active = [])
    (hepoch : runtime.manifest.epochs[runtime.currentEpoch]? = some epoch)
    {descriptor : IterationManifest} (hmem : descriptor ∈ epoch.iterations)
    (hfresh : descriptor.ordinal ∉ runtime.completed)
    (hdeps : ∀ dependency ∈ descriptor.dependencies, dependency ∈ runtime.completed) :
    Opens runtime epoch descriptor ∧ runtime.begin descriptor.ordinal =
      (.ok (descriptor.opened V), runtime.opening descriptor.ordinal) := by
  have hfind := h.valid.findIteration (List.mem_of_getElem? hepoch) hmem
  have hcurrent : runtime.currentEpochId = .ok epoch.ordinal := by
    unfold currentEpochId
    rw [hepoch]
    rfl
  have hnone : descriptor.dependencies.find? (fun dependency =>
      dependency ∉ runtime.completed) = none := by
    rw [List.find?_eq_none]
    intro dependency hdependency
    simpa using hdeps dependency hdependency
  have hconflict : runtime.firstConflict descriptor runtime.active = .ok none := by
    rw [hidle]
    rfl
  have hinactive : descriptor.ordinal ∉ runtime.active := by
    rw [hidle]
    exact List.not_mem_nil
  constructor
  · exact ⟨hlive, hfind, hcurrent, hfresh, hinactive, hdeps, hconflict⟩
  · unfold ScheduleRuntime.begin
    rw [if_neg (by rw [hlive]; decide)]
    simp only [hfind, hcurrent, hnone, hconflict, ne_eq, not_true_eq_false, if_false, hfresh,
      hinactive]
    rfl

/-- The loop of `execute_epoch` goes through an order that respects the dependencies. -/
theorem executeIterations_available (h : Sound runtime) (hlive : runtime.aborted = false)
    (hidle : runtime.active = [])
    (hepoch : runtime.manifest.epochs[runtime.currentEpoch]? = some epoch)
    {descriptors : List IterationManifest} (hmem : ∀ d ∈ descriptors, d ∈ epoch.iterations)
    (hnodup : (descriptors.map IterationManifest.ordinal).Nodup)
    (hfresh : ∀ d ∈ descriptors, d.ordinal ∉ runtime.completed)
    (hdeps : ∀ front d back, descriptors = front ++ d :: back →
      ∀ dependency ∈ d.dependencies, dependency ∈ runtime.completed ∨
        dependency ∈ front.map IterationManifest.ordinal)
    (hok : ∀ d bank, (runAlone operation bank d).1 = .ok ()) :
    ∃ mid, runtime.executeIterations operation (descriptors.map IterationManifest.ordinal) =
        (.ok (), mid) ∧
      mid.manifest = runtime.manifest ∧ mid.currentEpoch = runtime.currentEpoch ∧
      mid.active = [] ∧ mid.aborted = false ∧
      mid.completed = runtime.completed ++ descriptors.map IterationManifest.ordinal := by
  induction descriptors generalizing runtime with
  | nil => exact ⟨runtime, rfl, rfl, rfl, hidle, hlive, (List.append_nil _).symm⟩
  | cons descriptor rest ih =>
      have hdependencies : ∀ dependency ∈ descriptor.dependencies,
          dependency ∈ runtime.completed := by
        intro dependency hdependency
        exact (hdeps [] descriptor rest rfl dependency hdependency).resolve_right
          List.not_mem_nil
      have hbegin := begin_of_available h hlive hidle hepoch (hmem descriptor List.mem_cons_self)
        (hfresh descriptor List.mem_cons_self) hdependencies
      have hsame := Script.run_same (solo runtime.bank descriptor) (operation descriptor)
        (descriptor.opened V)
      have hsucceeds := hok descriptor runtime.bank
      rcases hscript : runAlone operation runtime.bank descriptor with ⟨result, transaction⟩
      rw [hscript] at hsucceeds
      dsimp only at hsucceeds
      subst hsucceeds
      have hiteration : transaction.iteration = descriptor.ordinal := by
        have heq := hsame.iteration
        rwa [show ((operation descriptor).run (solo runtime.bank descriptor)
          (descriptor.opened V)) = _ from hscript] at heq
      have hclosed : transaction.closed = false := by
        have heq := hsame.closed
        rwa [show ((operation descriptor).run (solo runtime.bank descriptor)
          (descriptor.opened V)) = _ from hscript] at heq
      have hactive : transaction.iteration ∈ (runtime.opening descriptor.ordinal).active := by
        rw [hiteration]
        exact List.mem_append_right _ (List.mem_singleton_self _)
      rcases commit_cases (runtime.opening descriptor.ordinal) transaction with
        ⟨id, _, _, _, hcurrent, hcommit⟩ | ⟨error, _, hwhy⟩
      · have hsound := (h.opens hbegin.1).committed hactive hcurrent
        have hcompleted : (committed (runtime.opening descriptor.ordinal) transaction
            id).completed =
            runtime.completed ++ [descriptor.ordinal] := by
          rw [← hiteration]
          rfl
        have hidle' : (committed (runtime.opening descriptor.ordinal) transaction id).active =
            [] := by
          change (runtime.active ++ [descriptor.ordinal]).erase transaction.iteration = []
          rw [hidle, hiteration, List.nil_append, List.erase_cons_head]
        rw [List.map_cons, List.nodup_cons] at hnodup
        have hrest := ih hsound hlive hidle' hepoch
          (fun d hd => hmem d (List.mem_cons_of_mem descriptor hd)) hnodup.2 (by
            intro d hd hin
            rw [hcompleted] at hin
            rcases List.mem_append.mp hin with hin | hin
            · exact hfresh d (List.mem_cons_of_mem descriptor hd) hin
            · rw [← List.mem_singleton.mp hin] at hnodup
              exact hnodup.1 (List.mem_map_of_mem hd)) (by
            intro front d back hsplit dependency hdependency
            rw [hcompleted]
            rcases hdeps (descriptor :: front) d back (by rw [hsplit]; rfl) dependency
              hdependency with hin | hin
            · exact .inl (List.mem_append_left _ hin)
            · rcases List.mem_cons.mp hin with rfl | hin
              · exact .inl (List.mem_append_right _ (List.mem_singleton_self _))
              · exact .inr hin)
        obtain ⟨mid, hmid, hmanifest, hcurrentEpoch, hidle', hlive', hmidCompleted⟩ := hrest
        apply Exists.intro mid
        constructor
        · rw [List.map_cons]
          unfold executeIterations
          simp only [hbegin.1.found, hbegin.2, run_opening hbegin.1, hscript, hcommit]
          exact hmid
        · exact ⟨hmanifest, hcurrentEpoch, hidle', hlive', by
            rw [hmidCompleted, hcompleted, List.append_assoc]
            rfl⟩
      · exfalso
        rcases hwhy with haborted | hclosed' | hinactive | hcurrent
        · rw [show (runtime.opening descriptor.ordinal).aborted = runtime.aborted from rfl,
            hlive] at haborted
          cases haborted
        · rw [hclosed] at hclosed'
          cases hclosed'
        · exact hinactive hactive
        · rw [show (runtime.opening descriptor.ordinal).currentEpochId = _ from
            hbegin.1.current] at hcurrent
          cases hcurrent

theorem Ready.not_completed (h : Ready runtime)
    (hepoch : runtime.manifest.epochs[runtime.currentEpoch]? = some epoch)
    {descriptor : IterationManifest} (hmem : descriptor ∈ epoch.iterations) :
    descriptor.ordinal ∉ runtime.completed := by
  intro hcompleted
  obtain ⟨k, hk, iteration, hholds, hordinal⟩ := h.fresh _ hcompleted
  have hlt := h.sound.valid.epoch_lt hholds ⟨epoch, hepoch, hmem⟩ hk
  rw [hordinal] at hlt
  exact lt_irrefl _ hlt

/-- `execute_epoch` returns on every order of the epoch that respects its dependencies. -/
theorem Ready.executeEpoch (h : Ready runtime)
    (hepoch : runtime.manifest.epochs[runtime.currentEpoch]? = some epoch)
    {descriptors : List IterationManifest} (hperm : descriptors.Perm epoch.iterations)
    (horder : descriptors.Pairwise fun a b => b.ordinal ∉ a.dependencies)
    (hok : ∀ d bank, (runAlone operation bank d).1 = .ok ()) :
    ∃ fragments after, runtime.executeEpoch (descriptors.map IterationManifest.ordinal) operation =
        (.ok fragments, after) ∧
      Ready after ∧ after.manifest = runtime.manifest ∧
      after.currentEpoch = runtime.currentEpoch + 1 := by
  have hvalid := h.sound.valid
  have hin := List.mem_of_getElem? hepoch
  have hmem : ∀ d ∈ descriptors, d ∈ epoch.iterations := fun d hd => hperm.mem_iff.mp hd
  have hnodup : (descriptors.map IterationManifest.ordinal).Nodup := by
    apply ((hperm.map _).nodup_iff).mpr
    apply List.pairwise_map.mpr
    apply (hvalid.increasing hin).imp
    intro a b hlt heq
    rw [heq] at hlt
    exact lt_irrefl _ hlt
  have hdeps : ∀ front d back, descriptors = front ++ d :: back →
      ∀ dependency ∈ d.dependencies, dependency ∈ runtime.completed ∨
        dependency ∈ front.map IterationManifest.ordinal := by
    intro front d back hsplit dependency hdependency
    have hd : d ∈ descriptors := by rw [hsplit]; simp
    have hholds : runtime.manifest.Holds runtime.currentEpoch d := ⟨epoch, hepoch, hmem d hd⟩
    obtain ⟨j, hj, b, hb, hordinal⟩ := hvalid.dependency_placed hholds hdependency
    rcases Nat.lt_or_eq_of_le hj with hlt | rfl
    · exact .inl (hordinal ▸ h.sound.finished j hlt b hb)
    · obtain ⟨found, hfound, hmemb⟩ := hb
      rw [hepoch] at hfound
      cases hfound
      have hb : b ∈ front ++ d :: back := hsplit ▸ hperm.mem_iff.mpr hmemb
      rcases List.mem_append.mp hb with hb | hb
      · exact .inr (hordinal ▸ List.mem_map_of_mem hb)
      · exfalso
        rcases List.mem_cons.mp hb with rfl | hb
        · exact hvalid.not_mem_dependencies hholds.mem le_rfl (hordinal ▸ hdependency)
        · rw [hsplit, List.pairwise_append, List.pairwise_cons] at horder
          exact horder.2.1.1 b hb (hordinal ▸ hdependency)
  obtain ⟨mid, hmid, hmanifest, hcurrent, hidle, hlive, hcompleted⟩ :=
    executeIterations_available h.sound h.live h.idle hepoch hmem hnodup
      (fun d hd => h.not_completed hepoch (hmem d hd)) hdeps hok
  have hsound : Sound (runtime.executeIterations operation
      (descriptors.map IterationManifest.ordinal)).2 := executeIterations_sound h.sound _
  rw [hmid] at hsound
  have hepoch' : mid.manifest.epochs[mid.currentEpoch]? = some epoch := by
    rw [hmanifest, hcurrent, hepoch]
  have hall : ∀ iteration ∈ epoch.iterations, iteration.ordinal ∈ mid.completed := by
    intro iteration hiteration
    rw [hcompleted]
    exact List.mem_append_right _ (List.mem_map_of_mem (hperm.mem_iff.mpr hiteration))
  have hnone : epoch.iterations.find? (fun iteration => iteration.ordinal ∉ mid.completed) =
      none := by
    rw [List.find?_eq_none]
    intro iteration hiteration
    simpa using hall iteration hiteration
  have hlength : (descriptors.map IterationManifest.ordinal).length = epoch.iterations.length := by
    rw [List.length_map, hperm.length_eq]
  have hready : Ready { mid with currentEpoch := mid.currentEpoch + 1 } := by
    constructor
    case sound => exact hsound.finishes hepoch' hidle hall
    case live => exact hlive
    case idle => exact hidle
    case fresh =>
      intro id hid
      rw [show ({ mid with currentEpoch := mid.currentEpoch + 1 } : ScheduleRuntime V).completed =
        _ from hcompleted] at hid
      rcases List.mem_append.mp hid with hid | hid
      · obtain ⟨k, hk, iteration, hholds, hordinal⟩ := h.fresh id hid
        rw [← hcurrent] at hk
        exact ⟨k, Nat.lt_succ_of_lt hk, iteration, hmanifest.symm ▸ hholds, hordinal⟩
      · obtain ⟨d, hd, hordinal⟩ := List.mem_map.mp hid
        exact ⟨mid.currentEpoch, Nat.lt_succ_self _, d, ⟨epoch, hepoch', hmem d hd⟩, hordinal⟩
  apply Exists.intro
  apply Exists.intro { mid with currentEpoch := mid.currentEpoch + 1 }
  constructor
  · unfold ScheduleRuntime.executeEpoch
    rw [if_neg (by rw [h.live]; decide), hepoch]
    dsimp only
    rw [if_neg (not_not.mpr hlength), hmid]
    dsimp only
    unfold ScheduleRuntime.finishEpoch
    rw [if_neg (by rw [hlive]; decide), hepoch']
    dsimp only
    simp only [hidle, hnone]
    rfl
  · exact ⟨hready, hmanifest, by rw [hcurrent]⟩

def idleOperation : IterationManifest → Script V := fun _ => .done

theorem reachable_epoch {manifest : ScheduleManifest} (initial : SharedStorageBank V)
    (hvalidate : manifest.validate .default = .ok ()) (k : ℕ)
    (hk : k ≤ manifest.epochs.length) :
    ∃ runtime : ScheduleRuntime V, Reachable manifest initial runtime ∧ Ready runtime ∧
      runtime.manifest = manifest ∧ runtime.currentEpoch = k ∧ runtime.bank = initial := by
  induction k with
  | zero =>
      have hnew : ScheduleRuntime.new manifest initial =
          .ok ⟨manifest, initial, 0, [], [], [], false⟩ := by
        unfold ScheduleRuntime.new
        rw [hvalidate]
      apply Exists.intro (ScheduleRuntime.mk manifest initial 0 [] [] [] false)
      constructor
      · exact ⟨_, [], hnew, rfl⟩
      · exact ⟨⟨Sound.new hnew, rfl, rfl, by simp⟩, rfl, rfl, rfl⟩
  | succ k ih =>
      obtain ⟨runtime, hreachable, hready, rfl, rfl, hbank⟩ := ih (Nat.le_of_succ_le hk)
      have hepoch := List.getElem?_eq_getElem hk
      have hin := List.mem_of_getElem? hepoch
      generalize runtime.manifest.epochs[runtime.currentEpoch] = epoch at hepoch hin
      have hidle : ∀ d bank, (runAlone (V := V) idleOperation bank d).1 = .ok () := fun _ _ => rfl
      obtain ⟨fragments, after, hrun, hafter, hmanifest, hcurrent⟩ :=
        hready.executeEpoch hepoch (List.Perm.refl _)
          (hready.sound.valid.canonical_order hin) hidle
      obtain ⟨_, _, descriptors, mid, _, _, hexecuted, _, rfl, _⟩ :=
        executeEpoch_eq_ok hready.sound hrun fun _ => []
      have hquiet : ∀ (ds : List IterationManifest) (state : Effects V),
          (ds.foldl (effect idleOperation) state).1 = state.1 := by
        intro ds
        induction ds with
        | nil => exact fun _ => rfl
        | cons d ds ihds => exact fun state => ihds (effect idleOperation state d)
      have hperform := hreachable.perform
        (.executeEpoch (epoch.iterations.map IterationManifest.ordinal) idleOperation)
      rw [Call.perform, hrun] at hperform
      exact ⟨_, hperform, hafter, hmanifest, hcurrent,
        hexecuted.bank.trans ((hquiet _ _).trans hbank)⟩

end Progress

section Distinguish
variable {epoch : EpochManifest} {manifest : ScheduleManifest}

/-- An iteration that is not put before another by the dependencies can be executed after it. -/
theorem ScheduleManifest.Valid.exists_order (h : manifest.Valid)
    (hepoch : epoch ∈ manifest.epochs) {first second : IterationManifest}
    (hfirst : first ∈ epoch.iterations) (hsecond : second ∈ epoch.iterations)
    (hne : first ≠ second) (hprecedes : ¬ Precedes epoch second first) :
    ∃ front back, (front ++ second :: back).Perm epoch.iterations ∧ first ∈ front ∧
      (front ++ second :: back).Pairwise fun a b => b.ordinal ∉ a.dependencies := by
  classical
  let needed : IterationManifest → Bool := fun a => decide (a = first ∨ Precedes epoch a first)
  have hlate : second ∈ epoch.iterations.filter fun a => !needed a := by
    apply List.mem_filter.mpr
    exact ⟨hsecond, by simp [needed, Ne.symm hne, hprecedes]⟩
  obtain ⟨middle, back, hsplit⟩ := List.append_of_mem hlate
  apply Exists.intro (epoch.iterations.filter needed ++ middle)
  apply Exists.intro back
  rw [List.append_assoc, ← hsplit]
  have horder := h.canonical_order hepoch
  constructor
  · exact List.filter_append_perm needed epoch.iterations
  · constructor
    · apply List.mem_append_left
      exact List.mem_filter.mpr ⟨hfirst, by simp [needed]⟩
    · apply List.pairwise_append.mpr
      constructor
      · exact horder.sublist List.filter_sublist
      · constructor
        · exact horder.sublist List.filter_sublist
        · intro a ha b hb hdep
          -- what a needed iteration depends on is needed itself
          have ha := List.mem_filter.mp ha
          have hb := List.mem_filter.mp hb
          have hfeeds : Feeds epoch b a := ⟨hb.1, ha.1, hdep⟩
          have hneeded : Precedes epoch b first := by
            rcases of_decide_eq_true ha.2 with rfl | hbefore
            · exact .single hfeeds
            · exact .head hfeeds hbefore
          simp [needed, hneeded] at hb

/-- The writer writes the cell; the reader reads it, and once more if there was a value. -/
def raceOperation (writer reader : IterationManifest) (cell : StorageCellKey) (value : V)
    (descriptor : IterationManifest) : Script V :=
  if descriptor = writer then .write cell value fun _ => .done
  else if descriptor = reader then
    .read cell fun
      | .ok (some _) => .read cell fun _ => .done
      | _ => .done
  else .done

variable {bank : SharedStorageBank V} {descriptor writer reader : IterationManifest}
  {cell : StorageCellKey} {value : V}

/-- The claims of an iteration authorize its accesses. -/
theorem authorize_solo {laneCount : U32} (hcanonical : descriptor.Canonical laneCount)
    (bank : SharedStorageBank V) (transaction : ScheduleTransaction V)
    (hsame : SameTransaction (descriptor.opened V) transaction)
    (hlength : transaction.events.length < 2 ^ 32) {kind : AccessKind}
    (hclaims : descriptor.Claims cell)
    (hexclusive : kind = .write → descriptor.ClaimsExclusively cell) :
    (solo bank descriptor).authorize transaction cell kind =
      .ok (⟨transaction.events.length, hlength⟩, { transaction with
        events := transaction.events ++
            [⟨cell, kind, ⟨transaction.events.length, hlength⟩⟩] }) := by
  have hmatching : ∀ claim ∈ descriptor.claims, claim.Covers cell →
      claim ∈ transaction.claims.filter fun claim =>
        decide (claim.key = cell.key) && scopeContains claim.scope cell.address := by
    intro claim hmem hcovers
    have hscope := scopeContains_of_contains (hcanonical.claims_valid claim hmem) hcovers.2
    rw [hsame.claims]
    exact List.mem_filter.mpr ⟨hmem, by simp [hcovers.1, hscope]⟩
  have hopen : (solo bank descriptor).ensureTransactionActive transaction = .ok () := by
    unfold ensureTransactionActive
    rw [if_neg]
    rw [hsame.closed, hsame.iteration]
    simp [IterationManifest.opened, solo]
  have hvalidate : (solo bank descriptor).validateTransactionAccess transaction cell kind =
      .ok () := by
    simp only [validateTransactionAccess, Except.bind_eq_ok, ensure_eq_ok]
    refine ⟨(), rfl, (), hopen, (), ?_, ?_⟩
    · obtain ⟨claim, hmem, hcovers⟩ := hclaims
      exact List.ne_nil_of_mem (hmatching claim hmem hcovers)
    · cases kind with
      | read => exact .inl rfl
      | write =>
          obtain ⟨claim, hmem, hcovers, hx⟩ := hexclusive rfl
          apply Or.inr
          apply List.any_eq_true.mpr
          exact ⟨claim, hmatching claim hmem hcovers, by simp [StorageClaim.isRead_eq_false hx]⟩
  unfold ScheduleRuntime.authorize recordEvent nextSequence
  rw [hvalidate, hopen, dif_pos hlength]
  rfl

theorem raceOperation_ok : (runAlone (raceOperation writer reader cell value) bank descriptor).1 =
    .ok () := by
  unfold runAlone raceOperation
  split_ifs
  · rfl
  · rw [Script.run]
    split <;> rfl
  · rfl

theorem writes_raceOperation (hne : descriptor ≠ writer) :
    (runAlone (raceOperation writer reader cell value) bank descriptor).2.writes = [] := by
  apply List.eq_nil_iff_forall_not_mem.mpr
  have hread : ∀ transaction : ScheduleTransaction V,
      ((solo bank descriptor).read transaction cell).2.writes = transaction.writes := by
    intro transaction
    unfold ScheduleRuntime.read
    split
    · rfl
    · next hauthorize => rw [(authorize_eq_ok hauthorize).2.2]
  unfold runAlone raceOperation
  rw [if_neg hne]
  split_ifs
  · rw [Script.run]
    split
    · simp only [Script.run, hread, IterationManifest.opened, List.not_mem_nil, not_false_eq_true,
        implies_true]
    · simp only [Script.run, hread, IterationManifest.opened, List.not_mem_nil, not_false_eq_true,
        implies_true]
  · exact fun _ => List.not_mem_nil

theorem writes_raceOperation_self {laneCount : U32} (hcanonical : writer.Canonical laneCount)
    (hexclusive : writer.ClaimsExclusively cell) :
    applyWrites bank (runAlone (raceOperation writer reader cell value) bank writer).2.writes cell =
      some value := by
  have hclaims : writer.Claims cell := hexclusive.imp fun claim h => ⟨h.1, h.2.1⟩
  have hauthorize := authorize_solo hcanonical bank (writer.opened V) ⟨rfl, rfl, rfl⟩
    (Nat.two_pow_pos 32) hclaims fun _ : AccessKind.write = .write => hexclusive
  unfold runAlone raceOperation
  rw [if_pos rfl, Script.run, Script.run]
  unfold ScheduleRuntime.write
  rw [hauthorize]
  exact Function.update_self _ _ _

theorem length_events_raceOperation {laneCount : U32} (hcanonical : reader.Canonical laneCount)
    (hne : reader ≠ writer) (hclaims : reader.Claims cell) :
    (runAlone (raceOperation writer reader cell value) bank reader).2.events.length =
      if bank cell = none then 1 else 2 := by
  have hkind : AccessKind.read = .write → reader.ClaimsExclusively cell := fun h => nomatch h
  have hfirst := authorize_solo hcanonical bank (reader.opened V) ⟨rfl, rfl, rfl⟩
    (Nat.two_pow_pos 32) hclaims hkind
  unfold runAlone raceOperation
  rw [if_neg hne, if_pos rfl, Script.run]
  unfold ScheduleRuntime.read
  rw [hfirst]
  have hobserved : (solo bank reader).observed (reader.opened V) cell = bank cell := rfl
  dsimp only
  rw [hobserved]
  cases hcell : bank cell with
  | none => rfl
  | some found =>
      have hsecond := authorize_solo hcanonical bank
        { reader.opened V with
          events := (reader.opened V).events ++
            [⟨cell, .read, ⟨(reader.opened V).events.length, Nat.two_pow_pos 32⟩⟩] }
        ⟨rfl, rfl, rfl⟩ (Nat.one_lt_two_pow (by decide)) hclaims hkind
      dsimp only at hsecond ⊢
      rw [Script.run, Script.run]
      unfold ScheduleRuntime.read
      rw [hsecond]
      rfl

theorem foldl_raceOperation {laneCount : U32} (hcanonical : writer.Canonical laneCount)
    (hexclusive : writer.ClaimsExclusively cell) (descriptors : List IterationManifest)
    (state : Effects V) :
    (descriptors.foldl (effect (raceOperation writer reader cell value)) state).1 cell =
      if writer ∈ descriptors then some value else state.1 cell := by
  induction descriptors generalizing state with
  | nil => rfl
  | cons descriptor rest ih =>
      rw [List.foldl_cons, ih]
      by_cases hrest : writer ∈ rest
      · rw [if_pos hrest, if_pos (List.mem_cons_of_mem descriptor hrest)]
      · rw [if_neg hrest]
        by_cases heq : descriptor = writer
        · subst heq
          rw [if_pos List.mem_cons_self]
          exact writes_raceOperation_self hcanonical hexclusive
        · rw [if_neg (by simp [hrest, Ne.symm heq])]
          unfold effect
          rw [writes_raceOperation heq]
          rfl

theorem ScheduleManifest.Valid.eq_of_map_ordinal (h : manifest.Valid)
    {xs ys : List IterationManifest} (hxs : ∀ x ∈ xs, x ∈ manifest.iterations)
    (hys : ∀ y ∈ ys, y ∈ manifest.iterations)
    (heq : xs.map IterationManifest.ordinal = ys.map IterationManifest.ordinal) : xs = ys := by
  have hlength : xs.length = ys.length := by simpa using congrArg List.length heq
  apply List.ext_getElem hlength
  intro i hx hy
  apply h.ordinal_inj (hxs _ (List.getElem_mem hx)) (hys _ (List.getElem_mem hy))
  have hget := congrArg (fun ids => ids[i]?) heq
  simpa [hx, hy] using hget

variable {runtime : ScheduleRuntime V}

/-- In the run of an epoch, the fragment of the reader tells whether the writer came first. -/
theorem Ready.race (h : Ready runtime)
    (hepoch : runtime.manifest.epochs[runtime.currentEpoch]? = some epoch)
    (hempty : runtime.bank cell = none) (hwriter : writer ∈ epoch.iterations)
    (hreader : reader ∈ epoch.iterations) (hne : reader ≠ writer)
    (hexclusive : writer.ClaimsExclusively cell) (hclaims : reader.Claims cell) (value : V)
    {front back : List IterationManifest} (hperm : (front ++ reader :: back).Perm epoch.iterations)
    (horder : (front ++ reader :: back).Pairwise fun a b => b.ordinal ∉ a.dependencies) :
    ∃ fragments after, runtime.executeEpoch
        ((front ++ reader :: back).map IterationManifest.ordinal)
        (raceOperation writer reader cell value) = (.ok fragments, after) ∧
      Sound after ∧ ∃ events, ⟨epoch.ordinal, reader.ordinal, events⟩ ∈ after.trace ∧
        events.length = if writer ∈ front then 2 else 1 := by
  have hvalid := h.sound.valid
  have hin := List.mem_of_getElem? hepoch
  have hheld : ∀ d ∈ epoch.iterations, d ∈ runtime.manifest.iterations :=
    fun d hd => List.mem_flatMap.mpr ⟨epoch, hin, hd⟩
  obtain ⟨fragments, after, hrun, hafter, _⟩ := h.executeEpoch hepoch hperm horder
    fun _ _ => raceOperation_ok
  obtain ⟨found, hfound, descriptors, mid, hmap, hdescriptors, hexecuted, _, rfl, _⟩ :=
    executeEpoch_eq_ok h.sound hrun fun _ => []
  rw [hepoch] at hfound
  cases hfound
  have heq : descriptors = front ++ reader :: back := hvalid.eq_of_map_ordinal
    (fun d hd => hheld d (hdescriptors.mem_iff.mp hd))
    (fun d hd => hheld d (hperm.mem_iff.mp hd)) hmap
  subst heq
  have hevents : ((front ++ reader :: back).foldl
      (effect (raceOperation writer reader cell value)) (runtime.bank, fun _ => [])).2
        reader.ordinal = (runAlone (raceOperation writer reader cell value)
          (front.foldl (effect (raceOperation writer reader cell value))
            (runtime.bank, fun _ => [])).1 reader).2.events := by
    have hback := (List.pairwise_cons.mp (List.pairwise_append.mp hexecuted.order).2.1).1
    rw [List.foldl_append, List.foldl_cons,
      foldl_effect_of_ne fun other hmem => (hback other hmem).1.symm]
    exact Function.update_self _ _ _
  have hfragment := hexecuted.trace.mem_iff.mpr (List.mem_append_right _
    (List.mem_map_of_mem (List.mem_append_right front List.mem_cons_self)))
  refine ⟨fragments, _, hrun, hafter.sound, _, hfragment, ?_⟩
  · rw [hevents, length_events_raceOperation (hvalid.canonical reader (hheld reader hreader)) hne
      hclaims, foldl_raceOperation (hvalid.canonical writer (hheld writer hwriter)) hexclusive]
    by_cases hmem : writer ∈ front
    · rw [if_pos hmem, if_pos hmem, if_neg (Option.some_ne_none value)]
    · rw [if_neg hmem, if_neg hmem, if_pos hempty]

/-- A race no dependency orders shows in the trace. -/
theorem not_orderIndependent_of_races (value : V) (hvalidate : manifest.validate .default = .ok ())
    (hepoch : epoch ∈ manifest.epochs) (hwriter : writer ∈ epoch.iterations)
    (hreader : reader ∈ epoch.iterations) (hne : reader ≠ writer)
    (hexclusive : writer.ClaimsExclusively cell) (hclaims : reader.Claims cell)
    (hbefore : ¬ Precedes epoch writer reader) (hafter : ¬ Precedes epoch reader writer) :
    ¬ OrderIndependent V manifest := by
  intro hindependent
  obtain ⟨k, hk, rfl⟩ := List.mem_iff_getElem.mp hepoch
  obtain ⟨runtime, hreachable, hready, rfl, rfl, hbank⟩ :=
    reachable_epoch (V := V) (fun _ => none) hvalidate k hk.le
  have hget := List.getElem?_eq_getElem hk
  generalize runtime.manifest.epochs[runtime.currentEpoch] = epoch at *
  have hvalid := hready.sound.valid
  have hempty : runtime.bank cell = none := by rw [hbank]
  obtain ⟨front, back, hperm, hmem, horder⟩ :=
    hvalid.exists_order hepoch hwriter hreader hne.symm hafter
  obtain ⟨front', back', hperm', hmem', horder'⟩ :=
    hvalid.exists_order hepoch hreader hwriter hne hbefore
  obtain ⟨ahead, middle, rfl⟩ := List.append_of_mem hmem'
  have hlate : writer ∉ ahead := by
    intro hmem
    have hnodup : epoch.iterations.Nodup :=
      (hvalid.increasing hepoch).imp fun hlt heq => absurd (heq ▸ hlt) (lt_irrefl _)
    have hnodup' := hperm'.nodup_iff.mpr hnodup
    rw [List.append_assoc] at hnodup'
    exact List.disjoint_of_nodup_append hnodup' hmem (by simp)
  rw [List.append_assoc, List.cons_append] at hperm' horder'
  obtain ⟨fragments, left, hleft, hsound, events, hin, hlength⟩ :=
    hready.race hget hempty hwriter hreader hne hexclusive hclaims value hperm horder
  obtain ⟨fragments', right, hright, _, events', hin', hlength'⟩ :=
    hready.race hget hempty hwriter hreader hne hexclusive hclaims value hperm' horder'
  have hsame := hindependent _ runtime hreachable _ _ _ _ _ _ _ hleft hright
  rw [← hsame.2.1] at hin'
  rw [if_pos hmem] at hlength
  rw [if_neg hlate] at hlength'
  have hunique : ∀ a ∈ left.trace, ∀ b ∈ left.trace, fragmentKey a = fragmentKey b → a = b := by
    apply List.Pairwise.forall_of_forall_of_flip
    · exact fun _ _ _ => rfl
    · exact hsound.trace_sorted.imp fun hlt heq => absurd heq hlt.ne
    · exact hsound.trace_sorted.imp fun hlt heq => absurd heq hlt.ne'
  have hevents : events = events' := congrArg TraceFragment.events (hunique _ hin _ hin' rfl)
  rw [hevents, hlength'] at hlength
  cases hlength

end Distinguish

/-- The order of an accepted manifest's epochs is immaterial exactly when dependencies order
their races. -/
theorem orderIndependent_iff [Inhabited V] (manifest : ScheduleManifest)
    (hvalidate : manifest.validate .default = .ok ()) :
    OrderIndependent V manifest ↔ DependencyOrdered manifest := by
  constructor
  · intro hindependent epoch hepoch a ha b hb hne hraces
    by_contra hunordered
    have hunordered := not_or.mp hunordered
    obtain ⟨cell, hclaimsA, hclaimsB, hx | hx⟩ := hraces
    · exact not_orderIndependent_of_races (default : V) hvalidate hepoch ha hb hne.symm hx hclaimsB
        hunordered.1 hunordered.2 hindependent
    · exact not_orderIndependent_of_races (default : V) hvalidate hepoch hb ha hne hx hclaimsA
        hunordered.2 hunordered.1 hindependent
  · intro hordered initial runtime hreachable operation order order' fragments fragments' left
      right hleft hright
    rw [← hreachable.manifest_eq] at hordered
    exact executeEpoch_congr hreachable.sound hordered hleft hright

section Contended

def contendedIteration (ordinal : U64) (dependencies : List IterationId) : IterationManifest :=
  ⟨⟨ordinal⟩, 0, ⟨0⟩, dependencies, [.whole ⟨1, 0⟩ .write], ⟨0, 0⟩, ⟨0, 0⟩⟩

/-- Both in one epoch, with the dependencies of the second. -/
def contendedManifest (dependencies : List IterationId) : ScheduleManifest where
  formatVersion := scheduleManifestVersion
  programDigest := Vector.replicate 32 1
  storagePolicyDigest := Vector.replicate 32 2
  protocolProfile := 0
  epochSize := 2
  workerLaneCount := 1
  epochs := [⟨⟨0⟩, [contendedIteration 0 [], contendedIteration 1 dependencies], ⟨0⟩⟩]

theorem orderIndependent_iff_contendedManifest :
    OrderIndependent ℕ (contendedManifest [⟨0⟩]) := by
  apply (orderIndependent_iff (contendedManifest [⟨0⟩]) rfl).mpr
  intro epoch hepoch a ha b hb hne _
  rw [List.mem_singleton.mp hepoch] at ha hb ⊢
  simp only [List.mem_cons, List.not_mem_nil, or_false] at ha hb
  have hfeeds : Precedes ⟨⟨0⟩, [contendedIteration 0 [], contendedIteration 1 [⟨0⟩]], ⟨0⟩⟩
      (contendedIteration 0 []) (contendedIteration 1 [⟨0⟩]) :=
    .single ⟨by simp, by simp, by decide⟩
  rcases ha with rfl | rfl <;> rcases hb with rfl | rfl
  · exact absurd rfl hne
  · exact .inl hfeeds
  · exact .inr hfeeds
  · exact absurd rfl hne

def writeOrdinal (iteration : IterationManifest) : Script ℕ :=
  .write ⟨⟨1, 0⟩, 0⟩ iteration.ordinal.id.val fun _ => .done

/-- Without the dependency the iteration that comes last wins. -/
theorem not_orderIndependent_contendedManifest :
    ¬ ∀ manifest : ScheduleManifest, manifest.validate .default = .ok () →
      OrderIndependent ℕ manifest := by
  intro h
  have hsame := h (contendedManifest []) rfl (fun _ => none)
    ⟨contendedManifest [], fun _ => none, 0, [], [], [], false⟩ ⟨_, [], rfl, rfl⟩
    writeOrdinal [⟨0⟩, ⟨1⟩] [⟨1⟩, ⟨0⟩] _ _ _ _ rfl rfl
  have hcell : some 1 = some 0 := congrFun hsame.1 ⟨⟨1, 0⟩, 0⟩
  cases hcell

end Contended
end VolarIR.Schedule
