import Mathlib.Logic.Relation
import VolarIR.Schedule.FailClosed
import VolarIR.Schedule.Transactions

/-!
# One epoch in two orders

`execute_epoch` runs the operations of an epoch one after the other in the order it is
given. What an operation does depends on the cells its iteration claims and on nothing else,
so operations of iterations that do not race commute, and the dependencies of an epoch fix
the order of the others as far as they reach.
-/
namespace VolarIR.Schedule

open SortByKey ScheduleRuntime Commutation

variable {V : Type}

section Congruence
variable {left right : ScheduleRuntime V} {transaction : ScheduleTransaction V}

/-- Two live runtimes a transaction cannot tell apart. -/
structure Alike (left right : ScheduleRuntime V) (transaction : ScheduleTransaction V) :
    Prop where
  live_left : left.aborted = false
  live_right : right.aborted = false
  active_left : transaction.iteration ∈ left.active
  active_right : transaction.iteration ∈ right.active
  bank : ∀ cell, transaction.Claims cell → left.bank cell = right.bank cell

theorem Alike.same (h : Alike left right transaction) {next : ScheduleTransaction V}
    (hsame : SameTransaction transaction next) : Alike left right next := by
  constructor
  case live_left => exact h.live_left
  case live_right => exact h.live_right
  case active_left => exact hsame.iteration ▸ h.active_left
  case active_right => exact hsame.iteration ▸ h.active_right
  case bank =>
    rintro cell ⟨claim, hmem, hcovers⟩
    exact h.bank cell ⟨claim, hsame.claims ▸ hmem, hcovers⟩

theorem Alike.authorize (h : Alike left right transaction) (cell : StorageCellKey)
    (kind : AccessKind) :
    left.authorize transaction cell kind = right.authorize transaction cell kind := by
  have hopen : left.ensureTransactionActive transaction =
      right.ensureTransactionActive transaction := by
    simp only [ensureTransactionActive, h.active_left, h.active_right]
  simp only [ScheduleRuntime.authorize, validateTransactionAccess, recordEvent, hopen, h.live_left,
    h.live_right]

theorem Alike.read (h : Alike left right transaction) (cell : StorageCellKey) :
    left.read transaction cell = right.read transaction cell := by
  unfold ScheduleRuntime.read
  rw [← h.authorize cell .read]
  cases hauthorize : left.authorize transaction cell .read with
  | error error => rfl
  | ok recorded =>
      have hclaims := (validateTransactionAccess_eq_ok (authorize_eq_ok hauthorize).1).2.2.1
      dsimp only
      unfold ScheduleRuntime.observed
      rw [h.bank cell hclaims]

theorem Alike.write (h : Alike left right transaction) (cell : StorageCellKey) (value : V) :
    left.write transaction cell value = right.write transaction cell value := by
  unfold ScheduleRuntime.write
  rw [h.authorize cell .write]

theorem Alike.run (h : Alike left right transaction) (script : Script V) :
    script.run left transaction = script.run right transaction := by
  induction script generalizing transaction with
  | done => rfl
  | fail error => rfl
  | read cell next ih =>
      rw [Script.run, Script.run, ← h.read cell]
      exact ih _ (h.same (read_same left transaction cell))
  | write cell value next ih =>
      rw [Script.run, Script.run, ← h.write cell value]
      exact ih _ (h.same (write_same left transaction cell value))

end Congruence

section Effects

/-- A live runtime in which only this iteration is open. -/
def solo (bank : SharedStorageBank V) (descriptor : IterationManifest) : ScheduleRuntime V :=
  ⟨⟨0, Vector.replicate 32 0, Vector.replicate 32 0, 0, 0, 0, []⟩, bank, 0,
    [descriptor.ordinal], [], [], false⟩

def runAlone (operation : IterationManifest → Script V) (bank : SharedStorageBank V)
    (descriptor : IterationManifest) : Except SchedulerError Unit × ScheduleTransaction V :=
  (operation descriptor).run (solo bank descriptor) (descriptor.opened V)

abbrev Effects (V : Type) := SharedStorageBank V × (IterationId → List StorageAccessEvent)

def effect (operation : IterationManifest → Script V) (state : Effects V)
    (descriptor : IterationManifest) : Effects V :=
  (applyWrites state.1 (runAlone operation state.1 descriptor).2.writes,
    Function.update state.2 descriptor.ordinal (runAlone operation state.1 descriptor).2.events)

variable {operation : IterationManifest → Script V} {bank : SharedStorageBank V}
  {descriptor : IterationManifest}

def Confined (descriptor : IterationManifest) (transaction : ScheduleTransaction V) : Prop :=
  transaction.claims = descriptor.claims ∧
    ∀ write ∈ transaction.writes, descriptor.ClaimsExclusively write.cell

theorem confined_run (runtime : ScheduleRuntime V) (script : Script V) :
    Confined descriptor (script.run runtime (descriptor.opened V)).2 := by
  apply Script.run_invariant (I := Confined descriptor)
  · rintro transaction cell ⟨hclaims, hwrites⟩
    unfold ScheduleRuntime.read
    split
    · exact ⟨hclaims, hwrites⟩
    · next sequence recorded hauthorize =>
        rw [(authorize_eq_ok hauthorize).2.2]
        exact ⟨hclaims, hwrites⟩
  · rintro transaction cell value ⟨hclaims, hwrites⟩
    unfold ScheduleRuntime.write
    split
    · exact ⟨hclaims, hwrites⟩
    · next sequence recorded hauthorize =>
        have hauthorized := authorize_eq_ok hauthorize
        rw [hauthorized.2.2]
        constructor
        · exact hclaims
        · intro write hmem
          rcases List.mem_append.mp hmem with hmem | hmem
          · exact hwrites write hmem
          · obtain ⟨claim, hclaim, hcovers⟩ :=
              (validateTransactionAccess_eq_ok hauthorized.1).2.2.2 rfl
            rw [List.mem_singleton.mp hmem]
            exact ⟨claim, hclaims ▸ hclaim, hcovers⟩
  · exact ⟨rfl, by simp [IterationManifest.opened]⟩

theorem numbered_run (runtime : ScheduleRuntime V) (script : Script V) :
    Numbered (script.run runtime (descriptor.opened V)).2 := by
  apply Script.run_invariant (I := Numbered)
  · intro transaction cell h
    exact h.read cell
  · intro transaction cell value h
    exact h.write cell value
  · exact numbered_opened descriptor

theorem applyWrites_of_not_mem {writes : List (BufferedWrite V)} {cell : StorageCellKey}
    (h : ∀ write ∈ writes, write.cell ≠ cell) : applyWrites bank writes cell = bank cell := by
  rw [applyWrites_apply, List.find?_eq_none.mpr]
  intro write hmem
  simpa using h write (List.mem_reverse.mp hmem)

theorem runAlone_congr {other : SharedStorageBank V}
    (h : ∀ cell, descriptor.Claims cell → bank cell = other cell) :
    runAlone operation bank descriptor = runAlone operation other descriptor := by
  apply Alike.run
  constructor
  case bank => exact h
  case active_left => exact List.mem_singleton_self _
  case active_right => exact List.mem_singleton_self _
  all_goals rfl

theorem applyWrites_runAlone_of_not_races {other : IterationManifest}
    (hraces : ¬ descriptor.Races other) (cell : StorageCellKey) (hclaims : other.Claims cell) :
    applyWrites bank (runAlone operation bank descriptor).2.writes cell = bank cell := by
  apply applyWrites_of_not_mem
  rintro write hmem rfl
  have hexclusive := (confined_run _ _).2 write hmem
  exact hraces ⟨write.cell, hexclusive.imp fun claim h => ⟨h.1, h.2.1⟩, hclaims, .inl hexclusive⟩

theorem IterationManifest.Races.symm {a b : IterationManifest} (h : a.Races b) : b.Races a := by
  obtain ⟨cell, ha, hb, hx⟩ := h
  exact ⟨cell, hb, ha, hx.symm⟩

theorem applyWrites_comm {xs ys : List (BufferedWrite V)}
    (h : ∀ x ∈ xs, ∀ y ∈ ys, x.cell ≠ y.cell) :
    applyWrites (applyWrites bank xs) ys = applyWrites (applyWrites bank ys) xs := by
  funext cell
  by_cases hx : ∃ x ∈ xs, x.cell = cell
  · obtain ⟨x, hxmem, rfl⟩ := hx
    rw [applyWrites_of_not_mem fun y hy => (h x hxmem y hy).symm, applyWrites_apply bank xs,
      applyWrites_apply (applyWrites bank ys) xs,
      applyWrites_of_not_mem fun y hy => (h x hxmem y hy).symm]
  · have hnone : ∀ x ∈ xs, x.cell ≠ cell := fun x hmem heq => hx ⟨x, hmem, heq⟩
    rw [applyWrites_of_not_mem hnone, applyWrites_apply _ ys, applyWrites_apply _ ys,
      applyWrites_of_not_mem hnone]

theorem commutes_of_not_races {a b : IterationManifest} (hne : a.ordinal ≠ b.ordinal)
    (hraces : ¬ a.Races b) : Commutes (effect operation) a b := by
  intro state
  have hb : runAlone operation (effect operation state a).1 b = runAlone operation state.1 b :=
    runAlone_congr fun cell hclaims => applyWrites_runAlone_of_not_races hraces cell hclaims
  have ha : runAlone operation (effect operation state b).1 a = runAlone operation state.1 a :=
    runAlone_congr fun cell hclaims =>
      applyWrites_runAlone_of_not_races (fun h => hraces h.symm) cell hclaims
  apply Prod.ext
  · change applyWrites (effect operation state a).1 (runAlone operation _ b).2.writes =
      applyWrites (effect operation state b).1 (runAlone operation _ a).2.writes
    rw [hb, ha]
    apply applyWrites_comm
    intro x hx y hy heq
    have hxa := (confined_run _ _).2 x hx
    have hyb := (confined_run _ _).2 y hy
    apply hraces
    exact ⟨x.cell, hxa.imp fun claim h => ⟨h.1, h.2.1⟩,
      heq ▸ hyb.imp fun claim h => ⟨h.1, h.2.1⟩, .inl hxa⟩
  · change Function.update (effect operation state a).2 _ (runAlone operation _ b).2.events =
      Function.update (effect operation state b).2 _ (runAlone operation _ a).2.events
    rw [hb, ha]
    exact Function.update_comm hne _ _ _

end Effects

section Execution
variable {runtime after : ScheduleRuntime V} {operation : IterationManifest → Script V}
  {epoch : EpochManifest}

theorem foldl_effect_of_ne {descriptors : List IterationManifest} {id : IterationId}
    (h : ∀ descriptor ∈ descriptors, descriptor.ordinal ≠ id) (state : Effects V) :
    (descriptors.foldl (effect operation) state).2 id = state.2 id := by
  induction descriptors generalizing state with
  | nil => rfl
  | cons descriptor rest ih =>
      rw [List.foldl_cons, ih fun other hmem => h other (List.mem_cons_of_mem descriptor hmem)]
      exact Function.update_of_ne (h descriptor List.mem_cons_self).symm _ _

def fragmentOf (epoch : EpochManifest) (effects : Effects V) (descriptor : IterationManifest) :
    TraceFragment :=
  ⟨epoch.ordinal, descriptor.ordinal, effects.2 descriptor.ordinal⟩

/-- What a loop over some iterations of the current epoch does when it returns. -/
structure Executed (operation : IterationManifest → Script V) (epoch : EpochManifest)
    (runtime : ScheduleRuntime V) (events : IterationId → List StorageAccessEvent)
    (descriptors : List IterationManifest) (after : ScheduleRuntime V) : Prop where
  mem : ∀ descriptor ∈ descriptors, descriptor ∈ epoch.iterations
  fresh : ∀ descriptor ∈ descriptors, descriptor.ordinal ∉ runtime.completed
  order : descriptors.Pairwise fun a b => a.ordinal ≠ b.ordinal ∧ b.ordinal ∉ a.dependencies
  bank : after.bank = (descriptors.foldl (effect operation) (runtime.bank, events)).1
  trace : after.trace.Perm (runtime.trace ++ descriptors.map
    (fragmentOf epoch (descriptors.foldl (effect operation) (runtime.bank, events))))
  manifest : after.manifest = runtime.manifest
  currentEpoch : after.currentEpoch = runtime.currentEpoch

theorem run_opening {descriptor : IterationManifest} (ho : Opens runtime epoch descriptor) :
    (operation descriptor).run (runtime.opening descriptor.ordinal) (descriptor.opened V) =
      runAlone operation runtime.bank descriptor := by
  apply Alike.run
  constructor
  case live_left => exact ho.live
  case active_left => exact List.mem_append_right _ (List.mem_singleton_self _)
  case active_right => exact List.mem_singleton_self _
  all_goals first | rfl | exact fun _ _ => rfl

/-- One turn of the loop. -/
theorem Executed.cons {events : IterationId → List StorageAccessEvent}
    {descriptor : IterationManifest} {rest : List IterationManifest}
    (h : Sound runtime) (ho : Opens runtime epoch descriptor)
    (hrest : Executed operation epoch
      (committed (runtime.opening descriptor.ordinal)
        (runAlone operation runtime.bank descriptor).2 epoch.ordinal)
      (Function.update events descriptor.ordinal
        (runAlone operation runtime.bank descriptor).2.events) rest after) :
    Executed operation epoch runtime events (descriptor :: rest) after := by
  have hheld := h.holds_of_opens ho
  have hsame := Script.run_same (solo runtime.bank descriptor) (operation descriptor)
    (descriptor.opened V)
  have hbank : (committed (runtime.opening descriptor.ordinal)
      (runAlone operation runtime.bank descriptor).2 epoch.ordinal).bank =
        applyWrites runtime.bank (runAlone operation runtime.bank descriptor).2.writes :=
    (numbered_run _ _).applyWrites_sortByKey _
  have hcompleted : (committed (runtime.opening descriptor.ordinal)
      (runAlone operation runtime.bank descriptor).2 epoch.ordinal).completed =
        runtime.completed ++ [descriptor.ordinal] := by
    change runtime.completed ++ [(runAlone operation runtime.bank descriptor).2.iteration] = _
    rw [show (runAlone operation runtime.bank descriptor).2.iteration = descriptor.ordinal from
      hsame.iteration]
  have hfresh : ∀ other ∈ rest, other.ordinal ∉ runtime.completed ∧
      descriptor.ordinal ≠ other.ordinal := by
    intro other hmem
    have hother := hrest.fresh other hmem
    rw [hcompleted, List.mem_append, not_or, List.mem_singleton] at hother
    exact ⟨hother.1, Ne.symm hother.2⟩
  constructor
  case mem => exact List.forall_mem_cons.mpr ⟨hheld.2, hrest.mem⟩
  case fresh =>
    exact List.forall_mem_cons.mpr ⟨ho.not_completed, fun other hmem => (hfresh other hmem).1⟩
  case order =>
    rw [List.pairwise_cons]
    constructor
    · intro other hmem
      constructor
      · exact (hfresh other hmem).2
      · exact fun hdep => (hfresh other hmem).1 (ho.dependencies _ hdep)
    · exact hrest.order
  case bank =>
    rw [List.foldl_cons]
    exact hrest.bank.trans (by rw [hbank]; rfl)
  case trace =>
    rw [List.foldl_cons]
    have hevents : (rest.foldl (effect operation)
        (effect operation (runtime.bank, events) descriptor)).2 descriptor.ordinal =
          (runAlone operation runtime.bank descriptor).2.events := by
      rw [foldl_effect_of_ne fun other hmem => (hfresh other hmem).2.symm]
      exact Function.update_self _ _ _
    have htrace := hrest.trace
    rw [hbank] at htrace
    apply htrace.trans
    rw [List.map_cons, ← List.singleton_append, ← List.append_assoc]
    apply List.Perm.append
    · apply (perm_sortByKey _).trans
      rw [fragmentOf, hevents, show (runAlone operation runtime.bank descriptor).2.iteration =
        descriptor.ordinal from hsame.iteration]
      exact List.Perm.refl _
    · exact List.Perm.refl _
  case manifest => exact hrest.manifest
  case currentEpoch => exact hrest.currentEpoch

/-- What the loop of `execute_epoch` has done when it returns. -/
theorem executeIterations_eq_ok (h : Sound runtime)
    (hepoch : runtime.manifest.epochs[runtime.currentEpoch]? = some epoch)
    {order : List IterationId} {u : Unit}
    (hrun : runtime.executeIterations operation order = (.ok u, after))
    (events : IterationId → List StorageAccessEvent) :
    ∃ descriptors, descriptors.map IterationManifest.ordinal = order ∧
      Executed operation epoch runtime events descriptors after := by
  induction order generalizing runtime events with
  | nil =>
      cases hrun
      apply Exists.intro []
      constructor
      · rfl
      · constructor <;> simp
  | cons iteration rest ih =>
      unfold executeIterations at hrun
      rcases begin_cases runtime iteration with
        ⟨found, descriptor, hopens, rfl, hbegin⟩ | ⟨error, hbegin⟩ | ⟨error, hbegin, _⟩
      · have hfound : found = epoch := by
          have hheld := (h.holds_of_opens hopens).1
          rw [hepoch] at hheld
          exact (Option.some.inj hheld).symm
        subst hfound
        have hsound : Sound (runtime.opening descriptor.ordinal) := h.opens hopens
        simp only [hopens.found, hbegin, run_opening hopens] at hrun
        rcases hscript : runAlone operation runtime.bank descriptor with ⟨error | _, transaction⟩
        · rw [hscript] at hrun
          cases hrun
        · rw [hscript] at hrun
          dsimp only at hrun
          rcases commit_cases (runtime.opening descriptor.ordinal) transaction with
            ⟨id, _, _, hactive, hcurrent, hcommit⟩ | ⟨error, hcommit, _⟩
          · have hid : id = found.ordinal := by
              have heq : Except.ok id = Except.ok found.ordinal :=
                hcurrent.symm.trans hopens.current
              cases heq
              rfl
            subst hid
            rw [hcommit] at hrun
            have hafter := ih (hsound.committed hactive hcurrent) hepoch hrun
              (Function.update events descriptor.ordinal transaction.events)
            obtain ⟨descriptors, hmap, hexecuted⟩ := hafter
            apply Exists.intro (descriptor :: descriptors)
            constructor
            · rw [List.map_cons, hmap]
            · apply Executed.cons h hopens
              rw [hscript]
              exact hexecuted
          · rw [hcommit] at hrun
            cases hrun
      · cases hfind : runtime.manifest.findIteration iteration with
        | error error =>
            simp only [hfind, ScheduleRuntime.abortWith] at hrun
            cases hrun
        | ok found =>
            simp only [hfind, hbegin, ScheduleRuntime.abortWith] at hrun
            cases hrun
      · cases hfind : runtime.manifest.findIteration iteration with
        | error error =>
            simp only [hfind, ScheduleRuntime.abortWith] at hrun
            cases hrun
        | ok found =>
            simp only [hfind, hbegin] at hrun
            cases hrun

/-- What `execute_epoch` has done when it returns. -/
theorem executeEpoch_eq_ok (h : Sound runtime) {order : List IterationId}
    {fragments : List TraceFragment}
    (hrun : runtime.executeEpoch order operation = (.ok fragments, after))
    (events : IterationId → List StorageAccessEvent) :
    ∃ epoch, runtime.manifest.epochs[runtime.currentEpoch]? = some epoch ∧
      ∃ descriptors mid, descriptors.map IterationManifest.ordinal = order ∧
        descriptors.Perm epoch.iterations ∧
        Executed operation epoch runtime events descriptors mid ∧ Sound mid ∧
        after = { mid with currentEpoch := mid.currentEpoch + 1 } ∧
        fragments = sortByKey (fun fragment => fragment.iteration)
          (mid.trace.filter fun fragment => fragment.epoch = epoch.ordinal) := by
  unfold executeEpoch at hrun
  split_ifs at hrun
  · cases hrun
  · cases hepoch : runtime.manifest.epochs[runtime.currentEpoch]? with
    | none =>
        rw [hepoch] at hrun
        cases hrun
    | some epoch =>
        rw [hepoch] at hrun
        dsimp only at hrun
        split_ifs at hrun with hlength
        · cases hrun
        · have hsound : Sound (runtime.executeIterations operation order).2 :=
            executeIterations_sound h order
          rcases hloop : runtime.executeIterations operation order with ⟨error | u, mid⟩
          · rw [hloop] at hrun
            cases hrun
          · rw [hloop] at hrun hsound
            dsimp only at hrun hsound
            obtain ⟨descriptors, hmap, hexecuted⟩ := executeIterations_eq_ok h hepoch hloop events
            have hperm : descriptors.Perm epoch.iterations := by
              have hnodup : descriptors.Nodup :=
                hexecuted.order.imp fun hab heq => hab.1 (congrArg _ heq)
              apply (List.subperm_of_subset hnodup hexecuted.mem).perm_of_length_le
              rw [← not_not.mp hlength, ← hmap, List.length_map]
            rcases finishEpoch_cases mid with
              ⟨finished, _, hfinished, _, _, hfinish⟩ | ⟨error, hfinish⟩ | ⟨error, hfinish, _⟩
            · have heq : finished = epoch := by
                rw [hexecuted.manifest, hexecuted.currentEpoch, hepoch] at hfinished
                exact (Option.some.inj hfinished).symm
              subst heq
              rw [hfinish] at hrun
              cases hrun
              exact ⟨finished, rfl, descriptors, mid, hmap, hperm, hexecuted, hsound, rfl, rfl⟩
            · rw [hfinish, ScheduleRuntime.abortWith] at hrun
              cases hrun
            · rw [hfinish] at hrun
              cases hrun

end Execution

section Order

def Feeds (epoch : EpochManifest) (a b : IterationManifest) : Prop :=
  a ∈ epoch.iterations ∧ b ∈ epoch.iterations ∧ a.ordinal ∈ b.dependencies

def Precedes (epoch : EpochManifest) : IterationManifest → IterationManifest → Prop :=
  Relation.TransGen (Feeds epoch)

def DependencyOrdered (manifest : ScheduleManifest) : Prop :=
  ∀ epoch ∈ manifest.epochs, ∀ a ∈ epoch.iterations, ∀ b ∈ epoch.iterations, a ≠ b →
    a.Races b → Precedes epoch a b ∨ Precedes epoch b a

variable {manifest : ScheduleManifest} {epoch : EpochManifest}
  {descriptors : List IterationManifest}

theorem pairwise_not_precedes (hvalid : manifest.Valid) (hepoch : epoch ∈ manifest.epochs)
    (hperm : descriptors.Perm epoch.iterations)
    (horder : descriptors.Pairwise fun a b => a.ordinal ≠ b.ordinal ∧ b.ordinal ∉ a.dependencies) :
    descriptors.Pairwise fun a b => ¬ Precedes epoch b a := by
  have hnodup : descriptors.Nodup := horder.imp fun hab heq => hab.1 (congrArg _ heq)
  have hfeeds : ∀ a b, Feeds epoch a b → descriptors.idxOf a < descriptors.idxOf b := by
    rintro a b ⟨ha, hb, hdep⟩
    have hla := List.idxOf_lt_length_iff.mpr (hperm.mem_iff.mpr ha)
    have hlb := List.idxOf_lt_length_iff.mpr (hperm.mem_iff.mpr hb)
    by_contra hge
    rcases Nat.lt_or_eq_of_le (Nat.le_of_not_lt hge) with hlt | heq
    · have hpair := List.pairwise_iff_getElem.mp horder _ _ hlb hla hlt
      rw [List.getElem_idxOf, List.getElem_idxOf] at hpair
      exact hpair.2 hdep
    · have hab : b = a := by
        rw [← List.getElem_idxOf hlb, ← List.getElem_idxOf hla]
        simp only [heq]
      subst hab
      have hmem : b ∈ manifest.iterations := List.mem_flatMap.mpr ⟨epoch, hepoch, hb⟩
      exact hvalid.not_mem_dependencies hmem le_rfl hdep
  have hprecedes : ∀ a b, Precedes epoch a b → descriptors.idxOf a < descriptors.idxOf b := by
    intro a b hab
    induction hab with
    | single h => exact hfeeds _ _ h
    | tail _ h ih => exact ih.trans (hfeeds _ _ h)
  rw [List.pairwise_iff_getElem]
  intro i j hi hj hij hba
  have hlt := hprecedes _ _ hba
  rw [hnodup.idxOf_getElem j hj, hnodup.idxOf_getElem i hi] at hlt
  omega

variable {runtime left right : ScheduleRuntime V} {operation : IterationManifest → Script V}

/-- Two orders of an epoch whose races are ordered by dependencies do the same. -/
theorem executeEpoch_congr (h : Sound runtime) (hordered : DependencyOrdered runtime.manifest)
    {order order' : List IterationId} {fragments fragments' : List TraceFragment}
    (hl : runtime.executeEpoch order operation = (.ok fragments, left))
    (hr : runtime.executeEpoch order' operation = (.ok fragments', right)) :
    left.bank = right.bank ∧ left.trace = right.trace ∧ fragments = fragments' := by
  obtain ⟨epoch, hepoch, xs, mid, _, hpx, hx, hsoundx, rfl, rfl⟩ :=
    executeEpoch_eq_ok h hl fun _ => []
  obtain ⟨epoch', hepoch', ys, mid', _, hpy, hy, hsoundy, rfl, rfl⟩ :=
    executeEpoch_eq_ok h hr fun _ => []
  have heq : epoch' = epoch := by
    rw [hepoch] at hepoch'
    exact (Option.some.inj hepoch').symm
  subst heq
  have hmem := List.mem_of_getElem? hepoch
  have hperm : xs.Perm ys := hpx.trans hpy.symm
  have heffects : xs.foldl (effect operation) (runtime.bank, fun _ => []) =
      ys.foldl (effect operation) (runtime.bank, fun _ => []) := by
    apply foldl_eq_of_perm hperm (pairwise_not_precedes h.valid hmem hpx hx.order)
      (pairwise_not_precedes h.valid hmem hpy hy.order)
    intro a ha b hb hne
    by_cases hraces : a.Races b
    · have hprecedes := hordered epoch' hmem a (hx.mem a ha) b (hx.mem b hb) hne hraces
      exact hprecedes.imp_right .inl
    · have hordinal : a.ordinal ≠ b.ordinal := fun heq => hne
        (h.valid.eq_of_ordinal epoch' hmem epoch' hmem a (hx.mem a ha) b (hx.mem b hb) heq).2
      exact .inr (.inr (commutes_of_not_races hordinal hraces))
  have htrace : mid.trace = mid'.trace := by
    have hperm' : mid.trace.Perm mid'.trace := by
      apply hx.trace.trans
      apply List.Perm.trans _ hy.trace.symm
      rw [heffects]
      exact (hperm.map _).append_left _
    exact hperm'.eq_of_pairwise (fun a b _ _ hab hba => absurd hab hba.asymm)
      hsoundx.trace_sorted hsoundy.trace_sorted
  constructor
  · change mid.bank = mid'.bank
    rw [hx.bank, hy.bank, heffects]
  · exact ⟨htrace, by rw [htrace]⟩

end Order
end VolarIR.Schedule
