import VolarIR.Library.Reorder
import VolarIR.Schedule.Invariant

/-!
# What a transaction may touch

An admitted access is covered by a claim, exclusively when it writes. Buffered writes are
numbered in program order, so applying them sorted by cell and number is applying them in
program order, and a transaction sees the bank as if its own writes had been applied.
-/
namespace VolarIR.Schedule

open SortByKey ScheduleRuntime Commutation

variable {V : Type} {runtime : ScheduleRuntime V} {transaction : ScheduleTransaction V}

def ScheduleTransaction.Claims (transaction : ScheduleTransaction V) (cell : StorageCellKey) :
    Prop :=
  ∃ claim ∈ transaction.claims, claim.Covers cell

def ScheduleTransaction.ClaimsExclusively (transaction : ScheduleTransaction V)
    (cell : StorageCellKey) : Prop :=
  ∃ claim ∈ transaction.claims, claim.Covers cell ∧ claim.Exclusive

theorem validateTransactionAccess_eq_ok {cell : StorageCellKey} {kind : AccessKind}
    (h : runtime.validateTransactionAccess transaction cell kind = .ok ()) :
    runtime.aborted = false ∧ transaction.iteration ∈ runtime.active ∧ transaction.Claims cell ∧
      (kind = .write → transaction.ClaimsExclusively cell) := by
  simp only [validateTransactionAccess, Except.bind_eq_ok, ensure_eq_ok] at h
  obtain ⟨_, hlive, _, hactive, _, hclaim, hmode⟩ := h
  have hcovers : ∀ claim ∈ transaction.claims.filter fun claim =>
      decide (claim.key = cell.key) && scopeContains claim.scope cell.address,
      claim ∈ transaction.claims ∧ claim.Covers cell := by
    intro claim hmem
    have hfilter := List.mem_filter.mp hmem
    have hboth := Bool.and_eq_true_iff.mp hfilter.2
    exact ⟨hfilter.1, of_decide_eq_true hboth.1, contains_of_scopeContains hboth.2⟩
  have hopen : transaction.iteration ∈ runtime.active := by
    unfold ensureTransactionActive at hactive
    split_ifs at hactive with hclosed
    exact not_not.mp (not_or.mp hclosed).2
  constructor
  · exact hlive
  · constructor
    · exact hopen
    · constructor
      · obtain ⟨claim, hmem⟩ := List.exists_mem_of_ne_nil _ hclaim
        exact ⟨claim, hcovers claim hmem⟩
      · intro hkind
        have hany := hmode.resolve_left (by rw [hkind]; decide)
        obtain ⟨claim, hmem, hwrites⟩ := List.any_eq_true.mp hany
        have hclaim := hcovers claim hmem
        exact ⟨claim, hclaim.1, hclaim.2,
          StorageClaim.exclusive_iff.mpr (by simpa using hwrites)⟩

section Writes

theorem applyWrites_apply (bank : SharedStorageBank V) (writes : List (BufferedWrite V))
    (cell : StorageCellKey) :
    applyWrites bank writes cell =
      match writes.reverse.find? fun write => write.cell = cell with
      | some write => some write.value
      | none => bank cell := by
  induction writes using List.reverseRecOn with
  | nil => rfl
  | append_singleton writes write ih =>
      rw [List.reverse_append, List.reverse_singleton, List.singleton_append, List.find?_cons]
      unfold applyWrites at ih ⊢
      rw [List.foldl_append, List.foldl_cons, List.foldl_nil, SharedStorageBank.insert]
      by_cases heq : write.cell = cell
      · simp [heq]
      · rw [Function.update_of_ne (Ne.symm heq), ih]
        simp [heq]

theorem observed_eq (runtime : ScheduleRuntime V) (transaction : ScheduleTransaction V)
    (cell : StorageCellKey) :
    runtime.observed transaction cell = applyWrites runtime.bank transaction.writes cell :=
  (applyWrites_apply runtime.bank transaction.writes cell).symm

structure Numbered (transaction : ScheduleTransaction V) : Prop where
  increasing : transaction.writes.Pairwise fun a b => a.sequence < b.sequence
  bounded : ∀ write ∈ transaction.writes, write.sequence.val < transaction.events.length

theorem numbered_opened (descriptor : IterationManifest) : Numbered (descriptor.opened V) :=
  ⟨List.Pairwise.nil, by simp [IterationManifest.opened]⟩

theorem Numbered.read (h : Numbered transaction) (cell : StorageCellKey) :
    Numbered (runtime.read transaction cell).2 := by
  unfold ScheduleRuntime.read
  split
  · exact h
  · next sequence recorded hauthorize =>
      rw [(authorize_eq_ok hauthorize).2.2]
      constructor
      · exact h.increasing
      · intro write hmem
        rw [List.length_append]
        exact Nat.lt_add_right _ (h.bounded write hmem)

theorem Numbered.write (h : Numbered transaction) (cell : StorageCellKey) (value : V) :
    Numbered (runtime.write transaction cell value).2 := by
  unfold ScheduleRuntime.write
  split
  · exact h
  · next sequence recorded hauthorize =>
      have hauthorized := authorize_eq_ok hauthorize
      rw [hauthorized.2.2]
      constructor
      · rw [List.pairwise_append]
        constructor
        · exact h.increasing
        · constructor
          · exact List.pairwise_singleton _ _
          · intro earlier hearlier later hlater
            rw [List.mem_singleton.mp hlater, Fin.lt_def, hauthorized.2.1]
            exact h.bounded earlier hearlier
      · intro write hmem
        rw [List.length_append, List.length_singleton]
        rcases List.mem_append.mp hmem with hmem | hmem
        · exact Nat.lt_add_right _ (h.bounded write hmem)
        · rw [List.mem_singleton.mp hmem, hauthorized.2.1]
          exact Nat.lt_succ_self _

def WrittenBefore (a b : BufferedWrite V) : Prop := a.cell = b.cell ∧ a.sequence < b.sequence

theorem Numbered.applyWrites_sortByKey (h : Numbered transaction) (bank : SharedStorageBank V) :
    applyWrites bank (sortByKey writeKey transaction.writes) =
      applyWrites bank transaction.writes := by
  have hdistinct : ∀ a ∈ transaction.writes, ∀ b ∈ transaction.writes,
      a.sequence = b.sequence → a = b := by
    apply List.Pairwise.forall_of_forall_of_flip
    · exact fun _ _ _ => rfl
    · exact h.increasing.imp fun hlt heq => absurd heq hlt.ne
    · exact h.increasing.imp fun hlt heq => absurd heq hlt.ne'
  have hsorted : (sortByKey writeKey transaction.writes).Pairwise fun a b =>
      ¬ WrittenBefore b a := by
    apply (pairwise_sortByKey transaction.writes).imp
    rintro a b hle ⟨hcell, hlt⟩
    have hkey : writeKey b < writeKey a := by
      unfold writeKey
      rw [hcell]
      simpa [List.cons_lt_cons_iff] using hlt
    exact absurd hle (not_le.mpr hkey)
  have hprogram : transaction.writes.Pairwise fun a b => ¬ WrittenBefore b a :=
    h.increasing.imp fun hlt hbefore => absurd hbefore.2 hlt.asymm
  apply foldl_eq_of_perm (perm_sortByKey transaction.writes) hsorted hprogram
  intro a ha b hb hne
  have ha := (perm_sortByKey transaction.writes).mem_iff.mp ha
  have hb := (perm_sortByKey transaction.writes).mem_iff.mp hb
  by_cases hcell : a.cell = b.cell
  · rcases lt_trichotomy a.sequence b.sequence with hlt | heq | hlt
    · exact .inl ⟨hcell, hlt⟩
    · exact absurd (hdistinct a ha b hb heq) hne
    · exact .inr (.inl ⟨hcell.symm, hlt⟩)
  · exact .inr (.inr fun bank => Function.update_comm hcell _ _ bank)

end Writes
end VolarIR.Schedule
