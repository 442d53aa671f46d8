import VolarIR.Library.Journal
import VolarIR.Schedule.Transactions

/-!
# Scheduled transactions are serializable

A session interleaves the calls of the clients of one runtime; each transaction the runtime
issued sits in a slot until it is committed or aborted. Beside it the session keeps what the
transaction read and wrote, and the journals of the committed transactions in commit order.
Reads happen long before the commit: they stay right because whoever commits in between has
been found compatible, so it writes no cell the reader claims.
-/
namespace VolarIR.Schedule

open ScheduleRuntime Journal

variable {V : Type}

abbrev TransactionJournal (V : Type) := List (Access StorageCellKey (Option V))

structure OpenTransaction (V : Type) where
  transaction : ScheduleTransaction V
  journal : TransactionJournal V

structure Commitment (V : Type) where
  iteration : IterationId
  journal : TransactionJournal V

structure Session (V : Type) where
  runtime : ScheduleRuntime V
  slots : List (Option (OpenTransaction V))
  commits : List (Commitment V)

inductive Move (V : Type) where
  | begin (iteration : IterationId)
  | read (slot : ℕ) (cell : StorageCellKey)
  | write (slot : ℕ) (cell : StorageCellKey) (value : V)
  | commit (slot : ℕ)
  | abort (slot : ℕ)
  | finishEpoch

namespace Session

def start (runtime : ScheduleRuntime V) : Session V := ⟨runtime, [], []⟩

def openAt (session : Session V) (slot : ℕ) : Option (OpenTransaction V) :=
  session.slots[slot]?.join

def journalRead (cell : StorageCellKey) : Except SchedulerError (Option V) → TransactionJournal V
  | .ok value => [.read cell value]
  | .error _ => []

def journalWrite (cell : StorageCellKey) (value : V) :
    Except SchedulerError Unit → TransactionJournal V
  | .ok () => [.write cell (some value)]
  | .error _ => []

/-- One call. A consumed transaction cannot be named again, so such a call does not happen. -/
def move (session : Session V) : Move V → Session V
  | .begin iteration =>
      match session.runtime.begin iteration with
      | (.error _, runtime) => { session with runtime := runtime }
      | (.ok transaction, runtime) =>
          { session with
            runtime := runtime
            slots := session.slots ++ [some ⟨transaction, []⟩] }
  | .read slot cell =>
      match session.openAt slot with
      | none => session
      | some held =>
          { session with
            slots := session.slots.set slot (some
              ⟨(session.runtime.read held.transaction cell).2,
                held.journal ++ journalRead cell (session.runtime.read held.transaction cell).1⟩) }
  | .write slot cell value =>
      match session.openAt slot with
      | none => session
      | some held =>
          { session with
            slots := session.slots.set slot (some
              ⟨(session.runtime.write held.transaction cell value).2,
                held.journal ++ journalWrite cell value
                  (session.runtime.write held.transaction cell value).1⟩) }
  | .commit slot =>
      match session.openAt slot with
      | none => session
      | some held =>
          match session.runtime.commit held.transaction with
          | (.error _, runtime) =>
              { session with runtime := runtime, slots := session.slots.set slot none }
          | (.ok _, runtime) =>
              ⟨runtime, session.slots.set slot none,
                session.commits ++ [⟨held.transaction.iteration, held.journal⟩]⟩
  | .abort slot =>
      match session.openAt slot with
      | none => session
      | some held =>
          { session with
            runtime := session.runtime.abort held.transaction
            slots := session.slots.set slot none }
  | .finishEpoch => { session with runtime := session.runtime.finishEpoch.2 }

def run (session : Session V) (moves : List (Move V)) : Session V := moves.foldl move session

end Session

/-- What an open transaction and its journal have to do with the committed bank. -/
structure Tracked (runtime : ScheduleRuntime V) (descriptor : IterationManifest)
    (held : OpenTransaction V) : Prop where
  known : descriptor ∈ runtime.manifest.iterations
  active : descriptor.ordinal ∈ runtime.active
  iteration : held.transaction.iteration = descriptor.ordinal
  claims : held.transaction.claims = descriptor.claims
  closed : held.transaction.closed = false
  numbered : Numbered held.transaction
  writes : ∀ bank, applyWrites bank held.transaction.writes = replay bank held.journal
  faithful : Faithful runtime.bank held.journal
  touched : ∀ access ∈ held.journal, descriptor.Claims access.cell
  written : ∀ access ∈ held.journal, ∀ cell, access.Writes cell →
    descriptor.ClaimsExclusively cell

/-- The invariant of a session that started over `initial`. -/
structure Kept (initial : SharedStorageBank V) (session : Session V) : Prop where
  sound : Sound session.runtime
  tracked : ∀ slot held, session.openAt slot = some held →
    ∃ descriptor, Tracked session.runtime descriptor held
  distinct : ∀ slot held slot' held', session.openAt slot = some held →
    session.openAt slot' = some held' →
      held.transaction.iteration = held'.transaction.iteration → slot = slot'
  commits_completed : session.commits.map Commitment.iteration = session.runtime.completed
  serial : Serial initial (session.commits.map Commitment.journal) session.runtime.bank
  dependencies : ∀ earlier commitment later,
    session.commits = earlier ++ commitment :: later →
      ∀ descriptor ∈ session.runtime.manifest.iterations,
        descriptor.ordinal = commitment.iteration →
          ∀ dependency ∈ descriptor.dependencies,
            dependency ∈ earlier.map Commitment.iteration

section Tracking
variable {runtime after : ScheduleRuntime V} {descriptor : IterationManifest}
  {held : OpenTransaction V}

theorem Tracked.frame (h : Tracked runtime descriptor held)
    (hmanifest : after.manifest = runtime.manifest) (hactive : descriptor.ordinal ∈ after.active)
    (hbank : ∀ cell, descriptor.Claims cell → after.bank cell = runtime.bank cell) :
    Tracked after descriptor held :=
  ⟨hmanifest ▸ h.known, hactive, h.iteration, h.claims, h.closed, h.numbered, h.writes,
    h.faithful.congr fun access hmem => hbank _ (h.touched access hmem), h.touched, h.written⟩

theorem tracked_opened {epoch : EpochManifest} (hsound : Sound runtime)
    (ho : Opens runtime epoch descriptor) :
    Tracked (runtime.opening descriptor.ordinal) descriptor ⟨descriptor.opened V, []⟩ := by
  have hheld := hsound.holds_of_opens ho
  constructor
  case known => exact ScheduleManifest.Holds.mem ⟨epoch, hheld.1, hheld.2⟩
  case active => exact List.mem_append_right _ (List.mem_singleton_self _)
  case numbered => exact numbered_opened descriptor
  case faithful => trivial
  case writes => exact fun _ => rfl
  case touched => simp
  case written => simp
  all_goals rfl

/-- One more access of a cell that is claimed as the access needs. -/
theorem Tracked.access (h : Tracked runtime descriptor held) {next : ScheduleTransaction V}
    {access : Access StorageCellKey (Option V)} (hsame : SameTransaction held.transaction next)
    (hnumbered : Numbered next)
    (hwrites : ∀ bank, applyWrites bank next.writes = replay bank (held.journal ++ [access]))
    (hfaithful : Faithful runtime.bank (held.journal ++ [access]))
    (hcell : descriptor.Claims access.cell)
    (hexclusive : ∀ cell, access.Writes cell → descriptor.ClaimsExclusively cell) :
    Tracked runtime descriptor ⟨next, held.journal ++ [access]⟩ where
  known := h.known
  active := h.active
  iteration := hsame.iteration.trans h.iteration
  claims := hsame.claims.trans h.claims
  closed := hsame.closed.trans h.closed
  numbered := hnumbered
  writes := hwrites
  faithful := hfaithful
  touched := fun other hmem => by
    rcases List.mem_append.mp hmem with hmem | hmem
    · exact h.touched other hmem
    · rw [List.mem_singleton.mp hmem]
      exact hcell
  written := fun other hmem => by
    rcases List.mem_append.mp hmem with hmem | hmem
    · exact h.written other hmem
    · rw [List.mem_singleton.mp hmem]
      exact hexclusive

theorem Tracked.read (h : Tracked runtime descriptor held) (cell : StorageCellKey) :
    Tracked runtime descriptor ⟨(runtime.read held.transaction cell).2,
      held.journal ++ Session.journalRead cell (runtime.read held.transaction cell).1⟩ := by
  have hsame := read_same runtime held.transaction cell
  cases hauthorize : runtime.authorize held.transaction cell .read with
  | error error =>
      simp only [ScheduleRuntime.read, hauthorize, Session.journalRead, List.append_nil]
      exact h
  | ok recorded =>
      have hauthorized := authorize_eq_ok hauthorize
      have haccess := validateTransactionAccess_eq_ok hauthorized.1
      have hnumbered : Numbered (runtime.read held.transaction cell).2 := h.numbered.read cell
      simp only [ScheduleRuntime.read, hauthorize, Session.journalRead] at hsame hnumbered ⊢
      apply h.access hsame hnumbered
      · intro bank
        rw [hauthorized.2.2, replay_append, ← h.writes bank]
        rfl
      · rw [faithful_append, ← h.writes]
        exact ⟨h.faithful, observed_eq runtime held.transaction cell, trivial⟩
      · obtain ⟨claim, hmem, hcovers⟩ := haccess.2.2.1
        exact ⟨claim, h.claims ▸ hmem, hcovers⟩
      · exact fun _ hwrites => hwrites.elim

theorem Tracked.write (h : Tracked runtime descriptor held) (cell : StorageCellKey) (value : V) :
    Tracked runtime descriptor ⟨(runtime.write held.transaction cell value).2,
      held.journal ++ Session.journalWrite cell value
        (runtime.write held.transaction cell value).1⟩ := by
  have hsame := write_same runtime held.transaction cell value
  cases hauthorize : runtime.authorize held.transaction cell .write with
  | error error =>
      simp only [ScheduleRuntime.write, hauthorize, Session.journalWrite, List.append_nil]
      exact h
  | ok recorded =>
      have hauthorized := authorize_eq_ok hauthorize
      have haccess := validateTransactionAccess_eq_ok hauthorized.1
      have hnumbered : Numbered (runtime.write held.transaction cell value).2 :=
        h.numbered.write cell value
      simp only [ScheduleRuntime.write, hauthorize, Session.journalWrite] at hsame hnumbered ⊢
      have hcell : descriptor.ClaimsExclusively cell := by
        obtain ⟨claim, hmem, hcovers⟩ := haccess.2.2.2 rfl
        exact ⟨claim, h.claims ▸ hmem, hcovers⟩
      apply h.access hsame hnumbered
      · intro bank
        rw [hauthorized.2.2, replay_append, ← h.writes bank]
        exact List.foldl_append
      · rw [faithful_append]
        exact ⟨h.faithful, trivial⟩
      · obtain ⟨claim, hclaim, hcovers, _⟩ := hcell
        exact ⟨claim, hclaim, hcovers⟩
      · intro other hwrites
        rw [← show cell = other from hwrites]
        exact hcell

end Tracking

section Slots
variable {session : Session V} {slot slot' : ℕ} {held held' : OpenTransaction V}

theorem openAt_append (h : Session.openAt ⟨session.runtime, session.slots ++ [some held'],
    session.commits⟩ slot = some held) :
    session.openAt slot = some held ∨ slot = session.slots.length ∧ held = held' := by
  unfold Session.openAt at h ⊢
  rw [List.getElem?_append] at h
  split_ifs at h with hlt
  · exact .inl h
  · have hslot : slot - session.slots.length = 0 := by
      by_contra hne
      rw [List.getElem?_eq_none (by rw [List.length_singleton]; omega)] at h
      cases h
    rw [hslot] at h
    cases h
    exact .inr ⟨by omega, rfl⟩

theorem openAt_set {content : Option (OpenTransaction V)}
    (h : Session.openAt ⟨session.runtime, session.slots.set slot content, session.commits⟩ slot' =
      some held) :
    slot' = slot ∧ content = some held ∨ slot' ≠ slot ∧ session.openAt slot' = some held := by
  unfold Session.openAt at h ⊢
  by_cases heq : slot' = slot
  · subst heq
    rw [List.getElem?_set_self'] at h
    cases hget : session.slots[slot']? with
    | none =>
        rw [hget] at h
        cases h
    | some old =>
        rw [hget] at h
        exact .inl ⟨rfl, h⟩
  · rw [List.getElem?_set_ne (Ne.symm heq)] at h
    exact .inr ⟨heq, h⟩

end Slots

section Moves
variable {initial : SharedStorageBank V} {session : Session V}

theorem Kept.start {manifest : ScheduleManifest} {runtime : ScheduleRuntime V}
    (h : ScheduleRuntime.new manifest initial = .ok runtime) :
    Kept initial (Session.start runtime) := by
  have hsound := Sound.new h
  unfold ScheduleRuntime.new at h
  split at h
  · cases h
  · cases h
    constructor
    case sound => exact hsound
    case serial => rfl
    all_goals simp [Session.start, Session.openAt]

theorem Kept.quiet (h : Kept initial session) {runtime : ScheduleRuntime V}
    (hsound : Sound runtime) (hmanifest : runtime.manifest = session.runtime.manifest)
    (hactive : runtime.active = session.runtime.active)
    (hbank : runtime.bank = session.runtime.bank)
    (hcompleted : runtime.completed = session.runtime.completed) :
    Kept initial { session with runtime := runtime } := by
  constructor
  case sound => exact hsound
  case tracked =>
    intro slot held hopen
    obtain ⟨descriptor, htracked⟩ := h.tracked slot held hopen
    exact ⟨descriptor, htracked.frame hmanifest (hactive ▸ htracked.active)
      fun cell _ => congrFun hbank cell⟩
  case distinct => exact h.distinct
  case commits_completed => exact h.commits_completed.trans hcompleted.symm
  case serial => exact hbank ▸ h.serial
  case dependencies => exact hmanifest ▸ h.dependencies

theorem Kept.poison (h : Kept initial session) :
    Kept initial { session with runtime := { session.runtime with aborted := true } } :=
  h.quiet h.sound.poison rfl rfl rfl rfl

theorem Kept.access (h : Kept initial session) {slot : ℕ} {held next : OpenTransaction V}
    (hopen : session.openAt slot = some held)
    (hiteration : next.transaction.iteration = held.transaction.iteration)
    (hnext : ∀ descriptor, Tracked session.runtime descriptor held →
      Tracked session.runtime descriptor next) :
    Kept initial { session with slots := session.slots.set slot (some next) } := by
  -- every open transaction has the iteration of the one that was in its slot
  have hback : ∀ other heldOther, Session.openAt ⟨session.runtime,
      session.slots.set slot (some next), session.commits⟩ other = some heldOther →
      ∃ before, session.openAt other = some before ∧
        heldOther.transaction.iteration = before.transaction.iteration := by
    intro other heldOther hother
    rcases openAt_set hother with ⟨rfl, hcontent⟩ | ⟨_, hother⟩
    · cases hcontent
      exact ⟨held, hopen, hiteration⟩
    · exact ⟨heldOther, hother, rfl⟩
  constructor
  case sound => exact h.sound
  case tracked =>
    intro other heldOther hother
    rcases openAt_set hother with ⟨rfl, hcontent⟩ | ⟨_, hother⟩
    · cases hcontent
      exact (h.tracked _ held hopen).imp hnext
    · exact h.tracked other heldOther hother
  case distinct =>
    intro left heldLeft right heldRight hleft hright heq
    obtain ⟨before, hbefore, hl⟩ := hback left heldLeft hleft
    obtain ⟨before', hbefore', hr⟩ := hback right heldRight hright
    exact h.distinct left before right before' hbefore hbefore' (hl.symm.trans (heq.trans hr))
  case commits_completed => exact h.commits_completed
  case serial => exact h.serial
  case dependencies => exact h.dependencies

theorem Kept.opened (h : Kept initial session) {epoch : EpochManifest}
    {descriptor : IterationManifest} (ho : Opens session.runtime epoch descriptor) :
    Kept initial { session with
      runtime := session.runtime.opening descriptor.ordinal
      slots := session.slots ++ [some ⟨descriptor.opened V, []⟩] } := by
  have hfresh : ∀ slot held, session.openAt slot = some held →
      held.transaction.iteration ≠ descriptor.ordinal := by
    intro slot held hopen heq
    obtain ⟨other, htracked⟩ := h.tracked slot held hopen
    apply ho.not_active
    rw [← heq, htracked.iteration]
    exact htracked.active
  constructor
  case sound => exact h.sound.opens ho
  case tracked =>
    intro slot held hopen
    rcases openAt_append hopen with hopen | ⟨_, rfl⟩
    · obtain ⟨other, htracked⟩ := h.tracked slot held hopen
      exact ⟨other, htracked.frame rfl (List.mem_append_left _ htracked.active) fun _ _ => rfl⟩
    · exact ⟨descriptor, tracked_opened h.sound ho⟩
  case distinct =>
    intro left heldLeft right heldRight hleft hright heq
    rcases openAt_append hleft with hleft | ⟨hl, rfl⟩
    · rcases openAt_append hright with hright | ⟨_, rfl⟩
      · exact h.distinct left heldLeft right heldRight hleft hright heq
      · exact absurd heq (hfresh left heldLeft hleft)
    · rcases openAt_append hright with hright | ⟨hr, rfl⟩
      · exact absurd heq.symm (hfresh right heldRight hright)
      · rw [hl, hr]
  case commits_completed => exact h.commits_completed
  case serial => exact h.serial
  case dependencies => exact h.dependencies

/-- A consumed transaction leaves its slot; the others stay active. -/
theorem Kept.others_active (h : Kept initial session) {slot : ℕ} {held : OpenTransaction V}
    (hopen : session.openAt slot = some held) {other : ℕ} {heldOther : OpenTransaction V}
    (hne : other ≠ slot) (hother : session.openAt other = some heldOther)
    {descriptor : IterationManifest} (htracked : Tracked session.runtime descriptor heldOther) :
    descriptor.ordinal ∈ session.runtime.active.erase held.transaction.iteration := by
  rw [h.sound.active_nodup.mem_erase_iff]
  constructor
  · intro heq
    exact hne (h.distinct other heldOther slot held hother hopen (htracked.iteration.trans heq))
  · exact htracked.active

theorem Kept.distinct_set (h : Kept initial session) (runtime : ScheduleRuntime V) (slot : ℕ)
    (commits : List (Commitment V)) :
    ∀ left heldLeft right heldRight,
      Session.openAt ⟨runtime, session.slots.set slot none, commits⟩ left = some heldLeft →
      Session.openAt ⟨runtime, session.slots.set slot none, commits⟩ right = some heldRight →
        heldLeft.transaction.iteration = heldRight.transaction.iteration → left = right := by
  intro left heldLeft right heldRight hleft hright
  rcases openAt_set hleft with ⟨_, hnone⟩ | ⟨_, hleft⟩
  · cases hnone
  · rcases openAt_set hright with ⟨_, hnone⟩ | ⟨_, hright⟩
    · cases hnone
    · exact h.distinct left heldLeft right heldRight hleft hright

theorem Kept.abort (h : Kept initial session) {slot : ℕ} {held : OpenTransaction V}
    (hopen : session.openAt slot = some held) :
    Kept initial { session with
      runtime := session.runtime.abort held.transaction
      slots := session.slots.set slot none } := by
  constructor
  case sound => exact h.sound.abort held.transaction
  case tracked =>
    intro other heldOther hother
    rcases openAt_set hother with ⟨_, hnone⟩ | ⟨hne, hother⟩
    · cases hnone
    · obtain ⟨descriptor, htracked⟩ := h.tracked other heldOther hother
      exact ⟨descriptor, htracked.frame rfl (h.others_active hopen hne hother htracked)
        fun _ _ => rfl⟩
  case distinct => exact h.distinct_set _ slot _
  case commits_completed => exact h.commits_completed
  case serial => exact h.serial
  case dependencies => exact h.dependencies

theorem Kept.dropped (h : Kept initial session) (slot : ℕ) :
    Kept initial { session with slots := session.slots.set slot none } := by
  constructor
  case sound => exact h.sound
  case tracked =>
    intro other heldOther hother
    rcases openAt_set hother with ⟨_, hnone⟩ | ⟨_, hother⟩
    · cases hnone
    · exact h.tracked other heldOther hother
  case distinct => exact h.distinct_set _ slot _
  case commits_completed => exact h.commits_completed
  case serial => exact h.serial
  case dependencies => exact h.dependencies

/-- A transaction is committed: its journal is replayed as a whole, and no other open
transaction claims a cell it wrote. -/
theorem Kept.committed (h : Kept initial session) {slot : ℕ} {held : OpenTransaction V}
    (hopen : session.openAt slot = some held) {epoch : EpochId}
    (hepoch : session.runtime.currentEpochId = .ok epoch) :
    Kept initial ⟨Schedule.committed session.runtime held.transaction epoch,
        session.slots.set slot none,
      session.commits ++ [⟨held.transaction.iteration, held.journal⟩]⟩ := by
  obtain ⟨descriptor, htracked⟩ := h.tracked slot held hopen
  have hactive : held.transaction.iteration ∈ session.runtime.active := by
    rw [htracked.iteration]
    exact htracked.active
  have hbank : (Schedule.committed session.runtime held.transaction epoch).bank =
      replay session.runtime.bank held.journal :=
    (htracked.numbered.applyWrites_sortByKey _).trans (htracked.writes _)
  constructor
  case sound => exact h.sound.committed hactive hepoch
  case tracked =>
    intro other heldOther hother
    rcases openAt_set hother with ⟨_, hnone⟩ | ⟨hne, hother⟩
    · cases hnone
    · obtain ⟨reader, hreader⟩ := h.tracked other heldOther hother
      have hmanifest : (Schedule.committed session.runtime held.transaction epoch).manifest =
          session.runtime.manifest := rfl
      apply Exists.intro reader
      apply hreader.frame hmanifest (h.others_active hopen hne hother hreader)
      intro cell hclaims
      rw [hbank]
      apply replay_of_not_writes
      intro access hmem hwrites
      have hexclusive := htracked.written access hmem cell hwrites
      have hordinal : descriptor.ordinal ≠ reader.ordinal := by
        intro heq
        apply hne
        apply h.distinct other heldOther slot held hother hopen
        rw [hreader.iteration, htracked.iteration, heq]
      have hfree := h.sound.active_compatible descriptor htracked.known reader hreader.known
        htracked.active hreader.active hordinal
      have hraces : descriptor.Races reader :=
        ⟨cell, hexclusive.imp fun claim hclaim => ⟨hclaim.1, hclaim.2.1⟩, hclaims,
          .inl hexclusive⟩
      rw [hraces.conflictsWith] at hfree
      cases hfree
  case distinct => exact h.distinct_set _ slot _
  case commits_completed =>
    rw [List.map_append, h.commits_completed]
    rfl
  case serial =>
    rw [hbank, List.map_append]
    exact h.serial.snoc htracked.faithful
  case dependencies =>
    intro earlier commitment later hsplit other hother hordinal dependency hdependency
    rcases List.eq_nil_or_concat later with rfl | ⟨front, last, rfl⟩
    · have hlast := List.append_inj' hsplit rfl
      obtain ⟨iteration, hholds, hid, hdeps⟩ := h.sound.active_open _ hactive
      have hsame : other = iteration := by
        apply h.sound.valid.ordinal_inj hother hholds.mem
        rw [hordinal, hid, ← (List.cons.inj hlast.2).1]
      rw [← hlast.1, h.commits_completed]
      exact hdeps dependency (hsame ▸ hdependency)
    · rw [List.concat_eq_append, ← List.cons_append, ← List.append_assoc] at hsplit
      have hfront := (List.append_inj' hsplit rfl).1
      exact h.dependencies earlier commitment front hfront other hother hordinal dependency
        hdependency

theorem Kept.move (h : Kept initial session) (call : Move V) :
    Kept initial (session.move call) := by
  cases call with
  | begin iteration =>
      simp only [Session.move]
      rcases begin_cases session.runtime iteration with
        ⟨epoch, descriptor, hopens, rfl, hbegin⟩ | ⟨error, hbegin⟩ | ⟨error, hbegin, _⟩
      · simp only [hbegin]
        exact h.opened hopens
      · simp only [hbegin, ScheduleRuntime.abortWith]
        exact h.poison
      · simp only [hbegin]
        exact h
  | read slot cell =>
      simp only [Session.move]
      cases hopen : session.openAt slot with
      | none => exact h
      | some held =>
          dsimp only
          exact h.access hopen (read_same session.runtime held.transaction cell).iteration
            fun _ htracked => htracked.read cell
  | write slot cell value =>
      simp only [Session.move]
      cases hopen : session.openAt slot with
      | none => exact h
      | some held =>
          dsimp only
          exact h.access hopen (write_same session.runtime held.transaction cell value).iteration
            fun _ htracked => htracked.write cell value
  | commit slot =>
      simp only [Session.move]
      cases hopen : session.openAt slot with
      | none => exact h
      | some held =>
          dsimp only
          rcases commit_cases session.runtime held.transaction with
            ⟨epoch, _, _, _, hepoch, hcommit⟩ | ⟨error, hcommit, _⟩
          · simp only [hcommit]
            exact h.committed hopen hepoch
          · simp only [hcommit]
            exact h.dropped slot
  | abort slot =>
      simp only [Session.move]
      cases hopen : session.openAt slot with
      | none => exact h
      | some held =>
          exact h.abort hopen
  | finishEpoch =>
      simp only [Session.move]
      rcases finishEpoch_cases session.runtime with
        ⟨epoch, _, hepoch, hactive, hall, hfinish⟩ | ⟨error, hfinish⟩ | ⟨error, hfinish, _⟩
      · rw [hfinish]
        exact h.quiet (h.sound.finishes hepoch hactive hall) rfl rfl rfl rfl
      · rw [hfinish]
        exact h.poison
      · rw [hfinish]
        exact h

theorem Kept.run (h : Kept initial session) (moves : List (Move V)) :
    Kept initial (session.run moves) := by
  induction moves generalizing session with
  | nil => exact h
  | cons call moves ih => exact ih (h.move call)

end Moves

/-- What holds at every point of a session that started over `initial`. -/
structure Serializable (initial : SharedStorageBank V) (session : Session V) : Prop where
  active_known : ∀ id ∈ session.runtime.active,
    ∃ iteration ∈ session.runtime.manifest.iterations, iteration.ordinal = id
  active_nodup : session.runtime.active.Nodup
  active_compatible : ∀ a ∈ session.runtime.manifest.iterations,
    ∀ b ∈ session.runtime.manifest.iterations, a.ordinal ∈ session.runtime.active →
      b.ordinal ∈ session.runtime.active → a.ordinal ≠ b.ordinal → a.conflictsWith b = false
  active_fresh : ∀ id ∈ session.runtime.active, id ∉ session.runtime.completed
  commits_completed : session.commits.map Commitment.iteration = session.runtime.completed
  commits_once : (session.commits.map Commitment.iteration).Nodup
  dependencies : ∀ earlier commitment later,
    session.commits = earlier ++ commitment :: later →
      ∀ descriptor ∈ session.runtime.manifest.iterations,
        descriptor.ordinal = commitment.iteration →
          ∀ dependency ∈ descriptor.dependencies, dependency ∈ earlier.map Commitment.iteration
  serial : Serial initial (session.commits.map Commitment.journal) session.runtime.bank
  complete : session.runtime.isComplete = true →
    (∀ iteration ∈ session.runtime.manifest.iterations,
      (session.commits.map Commitment.iteration).count iteration.ordinal = 1) ∧
    (session.runtime.trace.map TraceFragment.iteration).Perm
      (session.commits.map Commitment.iteration) ∧
    session.runtime.trace.Pairwise fun a b => fragmentKey a < fragmentKey b

theorem Sound.completed_of_isComplete {runtime : ScheduleRuntime V} (h : Sound runtime)
    (hcomplete : runtime.isComplete = true) :
    ∀ iteration ∈ runtime.manifest.iterations, iteration.ordinal ∈ runtime.completed := by
  intro iteration hmem
  obtain ⟨epoch, hepoch, hmem⟩ := List.mem_flatMap.mp hmem
  obtain ⟨k, hk, hget⟩ := List.mem_iff_getElem.mp hepoch
  have hend : runtime.currentEpoch = runtime.manifest.epochs.length :=
    of_decide_eq_true (Bool.and_eq_true_iff.mp hcomplete).1
  apply h.finished k (hend ▸ hk)
  exact ⟨epoch, List.getElem?_eq_some_iff.mpr ⟨hk, hget⟩, hmem⟩

/-- Scheduled transactions are serializable and complete once: at every point of every
interleaving of calls on a new runtime. -/
theorem run_serializable (manifest : ScheduleManifest) (initial : SharedStorageBank V)
    (runtime : ScheduleRuntime V) (moves : List (Move V))
    (hnew : ScheduleRuntime.new manifest initial = .ok runtime) :
    Serializable initial ((Session.start runtime).run moves) := by
  have h := (Kept.start hnew).run moves
  have honce : (((Session.start runtime).run moves).commits.map
      Commitment.iteration).Nodup := by
    rw [h.commits_completed]
    exact h.sound.completed_nodup
  constructor
  case active_known =>
    intro id hid
    obtain ⟨iteration, hholds, hordinal, _⟩ := h.sound.active_open id hid
    exact ⟨iteration, hholds.mem, hordinal⟩
  case active_nodup => exact h.sound.active_nodup
  case active_compatible => exact h.sound.active_compatible
  case active_fresh => exact h.sound.active_fresh
  case commits_completed => exact h.commits_completed
  case commits_once => exact honce
  case dependencies => exact h.dependencies
  case serial => exact h.serial
  case complete =>
    intro hcomplete
    constructor
    · intro iteration hmem
      apply List.count_eq_one_of_mem honce
      rw [h.commits_completed]
      exact h.sound.completed_of_isComplete hcomplete iteration hmem
    · rw [h.commits_completed]
      exact ⟨h.sound.trace_completed, h.sound.trace_sorted⟩

section Crossed

/-- Two iterations of one epoch, each of which writes a namespace of its own. -/
def crossedManifest : ScheduleManifest where
  formatVersion := scheduleManifestVersion
  programDigest := Vector.replicate 32 1
  storagePolicyDigest := Vector.replicate 32 2
  protocolProfile := 0
  epochSize := 2
  workerLaneCount := 2
  epochs := [⟨⟨0⟩,
    [⟨⟨0⟩, 0, ⟨0⟩, [], [.whole ⟨1, 0⟩ .write], ⟨0, 0⟩, ⟨0, 0⟩⟩,
      ⟨⟨1⟩, 1, ⟨1⟩, [], [.whole ⟨2, 0⟩ .write], ⟨0, 0⟩, ⟨0, 0⟩⟩], ⟨0⟩⟩]

def crossedRuntime : ScheduleRuntime ℕ := ⟨crossedManifest, fun _ => none, 0, [], [], [], false⟩

def crossedMoves : List (Move ℕ) :=
  [.begin ⟨0⟩, .begin ⟨1⟩, .write 0 ⟨⟨1, 0⟩, 5⟩ 7, .write 1 ⟨⟨2, 0⟩, 5⟩ 8, .read 0 ⟨⟨1, 0⟩, 5⟩,
    .read 1 ⟨⟨2, 0⟩, 5⟩, .commit 1, .read 0 ⟨⟨1, 0⟩, 6⟩, .commit 0, .finishEpoch]

theorem run_serializable_crossedMoves :
    Serializable (fun _ => none) ((Session.start crossedRuntime).run crossedMoves) ∧
      ((Session.start crossedRuntime).run crossedMoves).runtime.completed = [⟨1⟩, ⟨0⟩] ∧
      ((Session.start crossedRuntime).run crossedMoves).runtime.isComplete = true :=
  ⟨run_serializable crossedManifest _ crossedRuntime crossedMoves rfl, rfl, rfl⟩

end Crossed

end VolarIR.Schedule
