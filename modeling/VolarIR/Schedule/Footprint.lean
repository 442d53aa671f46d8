import VolarIR.Boolar.Eval
import VolarIR.Ir.Eval
import VolarIR.Schedule.Validation

/-!
# The storage namespaces a statement touches

A statement reads and writes whole namespaces as far as a schedule is concerned. Its value
depends on the cells of the namespaces it reads, and it leaves every cell outside of those it
writes alone.
-/
namespace VolarIR

namespace Ir

abbrev Namespace := StorageId × TypeId

namespace IRStmt

def reads : IRStmt → List Namespace
  | storageRead storage ty _ => [(storage, ty)]
  | _ => []

def writes : IRStmt → List Namespace
  | storageWrite storage _ ty _ => [(storage, ty)]
  | actionStore _ _ _ _ outputTys targets => (outputTys.zip targets).map fun e => (e.2.1, e.1)
  | _ => []

end IRStmt

section
variable {table : TypeTable} {world : Externals} {look : ℕ → Value} {σ : EvalState} {s : IRStmt}

theorem evalStmt_congr_reads {storage : StorageMap}
    (h : ∀ id ty addr, (id, ty) ∈ s.reads → storage (id, ty, addr) = σ.storage (id, ty, addr)) :
    (evalStmt table world { σ with storage := storage } look s).1 =
      (evalStmt table world σ look s).1 := by
  cases s with
  | storageRead id ty addr =>
      simp only [evalStmt, evalKind, h id ty _ (List.mem_singleton_self _)]
  | _ => rfl

theorem storeTargets_frame {id : StorageId} {ty : TypeId} (addr : ℕ) {storage : StorageMap}
    {outputs : List (List Bool)} {outputTys : List TypeId} {targets : List (StorageId × Value)}
    (h : ∀ e ∈ outputTys.zip targets, (e.2.1, e.1) ≠ (id, ty)) :
    storeTargets table storage outputs outputTys targets (id, ty, addr) =
      storage (id, ty, addr) := by
  have hstores : ∀ e ∈ outputs.zip (outputTys.zip targets), (e.2.2.1, e.2.1) ≠ (id, ty) :=
    fun e he => h e.2 (List.of_mem_zip he).2
  unfold storeTargets
  generalize outputs.zip (outputTys.zip targets) = stores at hstores
  induction stores generalizing storage with
  | nil => rfl
  | cons e rest ih =>
      rw [List.forall_mem_cons] at hstores
      rw [List.foldl_cons, ih hstores.2]
      apply Function.update_of_ne
      intro heq
      obtain ⟨hid, hrest⟩ := Prod.mk.inj heq
      exact hstores.1 (Prod.ext hid.symm (Prod.mk.inj hrest).1.symm)

theorem evalStmt_frame {id : StorageId} {ty : TypeId} (h : (id, ty) ∉ s.writes) (addr : ℕ) :
    (evalStmt table world σ look s).2.storage (id, ty, addr) = σ.storage (id, ty, addr) := by
  cases s with
  | storageWrite id' src ty' addr' =>
      simp only [evalStmt, evalKind, EvalState.write]
      apply Function.update_of_ne
      rintro heq
      cases heq
      exact h (List.mem_singleton_self _)
  | actionStore name guard args fallbacks outputTys targets =>
      apply storeTargets_frame
      intro e he heq
      rw [List.zip_map_right] at he
      obtain ⟨d, hd, rfl⟩ := List.mem_map.mp he
      exact h (List.mem_map.mpr ⟨d, hd, heq⟩)
  | _ => rfl

end

end Ir

namespace Boolar

abbrev Namespace := StorageId × LaneId

def BIrStmt.reads : Stmt → List Namespace
  | storageRead storage lane _ => [(storage, lane)]
  | _ => []

def BIrStmt.writes : Stmt → List Namespace
  | storageWrite storage lane _ _ | actionStoreBit _ _ _ _ storage lane _ _ _ => [(storage, lane)]
  | _ => []

section
variable {world : Externals} {f : Frame} {s : Stmt}

theorem stepStmt_congr_reads {storage : StorageMap}
    (h : ∀ id lane addr, (id, lane) ∈ s.reads →
      storage ((id, lane), addr) = f.st.storage ((id, lane), addr)) :
    (stepStmt world ⟨f.vals, { f.st with storage := storage }⟩ s).vals =
      (stepStmt world f s).vals := by
  cases s with
  | storageRead id lane addr =>
      simp only [stepStmt, BIrStmt.mapVars, evalStmt, StorageMap.read,
        h id lane _ (List.mem_singleton_self _)]
  | actionCall | actionStoreBit =>
      simp only [stepStmt, BIrStmt.mapVars, evalStmt]
      split_ifs <;> rfl
  | _ => rfl

theorem stepStmt_frame {id : StorageId} {lane : LaneId} (h : (id, lane) ∉ s.writes)
    (addr : List Bool) :
    (stepStmt world f s).st.storage ((id, lane), addr) = f.st.storage ((id, lane), addr) := by
  have hother : ∀ {storage lane' addr'} (m : StorageMap) (b : Bool),
      (storage, lane') ≠ (id, lane) →
      m.insert ((storage, lane'), addr') b ((id, lane), addr) = m ((id, lane), addr) := by
    intro storage lane' addr' m b hne
    exact Function.update_of_ne (fun heq => hne (congrArg Prod.fst heq).symm) _ _
  cases s with
  | storageWrite storage lane' src addr' =>
      exact hother _ _ fun heq => h (List.mem_singleton.mpr heq.symm)
  | actionStoreBit name guard args fallback storage lane' addr' bit occ =>
      simp only [stepStmt, BIrStmt.mapVars, evalStmt]
      split_ifs
      · exact hother _ _ fun heq => h (List.mem_singleton.mpr heq.symm)
      · exact hother _ _ fun heq => h (List.mem_singleton.mpr heq.symm)
  | actionCall =>
      simp only [stepStmt, BIrStmt.mapVars, evalStmt]
      split_ifs <;> rfl
  | _ => rfl

end

end Boolar
end VolarIR

/-!
## Conflicts between iterations

The symbolic conflict test on two claim lists and what it stands for: a race of two
iterations on a cell that one of them claims exclusively.
-/
namespace VolarIR.Schedule

namespace IterationManifest

/-- `left.claims.iter().any(|left| right.claims.iter().any(..conflicts_with..))`. -/
def conflictsWith (left right : IterationManifest) : Bool :=
  left.claims.any fun claim => right.claims.any fun other => claim.conflictsWith other

def Claims (iteration : IterationManifest) (cell : StorageCellKey) : Prop :=
  ∃ claim ∈ iteration.claims, claim.Covers cell

/-- Some `Write` or `Unknown` claim covers the cell. -/
def ClaimsExclusively (iteration : IterationManifest) (cell : StorageCellKey) : Prop :=
  ∃ claim ∈ iteration.claims, claim.Covers cell ∧ claim.Exclusive

def Races (left right : IterationManifest) : Prop :=
  ∃ cell, left.Claims cell ∧ right.Claims cell ∧
    (left.ClaimsExclusively cell ∨ right.ClaimsExclusively cell)

end IterationManifest

section Claims
variable {left right : IterationManifest}

theorem conflictsWith_eq_true : left.conflictsWith right = true ↔
    ∃ claim ∈ left.claims, ∃ other ∈ right.claims, claim.conflictsWith other = true := by
  simp only [IterationManifest.conflictsWith, List.any_eq_true]

theorem IterationManifest.conflictsWith_comm (left right : IterationManifest) :
    left.conflictsWith right = right.conflictsWith left := by
  rw [Bool.eq_iff_iff, conflictsWith_eq_true, conflictsWith_eq_true]
  constructor
  · rintro ⟨claim, hclaim, other, hother, h⟩
    exact ⟨other, hother, claim, hclaim, (StorageClaim.conflictsWith_comm _ _).trans h⟩
  · rintro ⟨claim, hclaim, other, hother, h⟩
    exact ⟨other, hother, claim, hclaim, (StorageClaim.conflictsWith_comm _ _).trans h⟩

theorem IterationManifest.Races.conflictsWith (h : left.Races right) :
    left.conflictsWith right = true := by
  obtain ⟨cell, ⟨l, hl, hlc⟩, ⟨r, hr, hrc⟩, hx⟩ := h
  rw [conflictsWith_eq_true]
  rcases hx with ⟨l', hl', hlc', hex⟩ | ⟨r', hr', hrc', hex⟩
  · exact ⟨l', hl', r, hr, StorageClaim.conflictsWith_of_covers hlc' hrc (.inl hex)⟩
  · exact ⟨l, hl, r', hr', StorageClaim.conflictsWith_of_covers hlc hrc' (.inr hex)⟩

end Claims

end VolarIR.Schedule
