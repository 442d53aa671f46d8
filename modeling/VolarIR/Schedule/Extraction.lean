import VolarIR.Circuit.LowerToCircuit
import VolarIR.Schedule.Footprint
import VolarIR.Schedule.Planner

/-!
# Schedules of fixed circuits

One iteration stands for a whole circuit and claims the namespaces its statements access.
The claims follow two matchers over the statements, one for typed and one for Boolar IR;
the Boolar one sees all three statements that store, the typed one does not look at
`ActionStore`.
-/
namespace VolarIR.Schedule

open Fallible

def StorageKey.storageId (key : StorageKey) : StorageId := ⟨key.storage.val⟩

/-- `classify_storage_claim`: an undeclared namespace is not read as read-only. -/
def classifyStorageClaim (key : StorageKey) (writes : Bool) (table : StorageTable) :
    Except ManifestError StorageClaim :=
  if writes = true then
    if table.accessOf key.storageId = .readOnly then .error (.readOnlyViolation key)
    else .ok (.whole key .write)
  else match table.accessOf key.storageId with
    | .readOnly => .ok (.whole key .read)
    | .readWrite => .ok (.whole key .unknown)

structure ScheduleExtractionConfig where
  programDigest : Digest
  storagePolicyDigest : Digest
  protocolProfile : U32
  epochSize : U32
  workerLaneCount : U32

inductive ScheduleExtractionError where
  | emptyProgram
  | unsupportedShape (blocks : ℕ)
  | storageTable (error : StorageTableError)
  | manifest (error : ManifestError)
  deriving DecidableEq, Repr

/-- `StorageKey::new`. -/
def storageKey (storage : StorageId) (ty : TypeId) : StorageKey :=
  ⟨Fin.ofNat _ storage.id, Fin.ofNat _ ty.id⟩

/-- `lane_type`. -/
def laneType (lane : LaneId) : TypeId := ⟨lane.id⟩

def irKey (ns : Ir.Namespace) : StorageKey := storageKey ns.1 ns.2

def biirKey (ns : Boolar.Namespace) : StorageKey := storageKey ns.1 (laneType ns.2)

/-- `?` on an error that converts into an extraction error. -/
def liftError {ε α : Type} (wrap : ε → ScheduleExtractionError) :
    Except ε α → Except ScheduleExtractionError α
  | .ok a => .ok a
  | .error error => .error (wrap error)

@[simp] theorem liftError_eq_ok {ε α : Type} {wrap : ε → ScheduleExtractionError}
    {result : Except ε α} {a : α} : liftError wrap result = .ok a ↔ result = .ok a := by
  cases result <;> simp [liftError]

def classify (key : StorageKey) (writes : Bool) (table : StorageTable) :
    Except ScheduleExtractionError StorageClaim :=
  liftError .manifest (classifyStorageClaim key writes table)

def canonicalizeClaims (claims : List StorageClaim) : List StorageClaim :=
  coalesce [] (claims.insertionSort (· ≤ ·))

/-- The claims of the accesses a matcher sees, in statement order. -/
def collectClaims {S : Type} (access : S → Option (StorageKey × Bool)) (table : StorageTable)
    (stmts : List S) : Except ScheduleExtractionError (List StorageClaim) :=
  stmts.foldlM (fun claims stmt =>
    match access stmt with
    | some (key, writes) => do return claims ++ [← classify key writes table]
    | none => return claims) []

/-- The match of `from_ir_block`. -/
def irAccess : Ir.IRStmt → Option (StorageKey × Bool)
  | .storageRead storage ty _ => some (storageKey storage ty, false)
  | .storageWrite storage _ ty _ => some (storageKey storage ty, true)
  | _ => none

/-- The match of `from_biir_block`. -/
def biirAccess : Boolar.Stmt → Option (StorageKey × Bool)
  | .storageRead storage lane _ => some (storageKey storage (laneType lane), false)
  | .storageWrite storage lane _ _ => some (storageKey storage (laneType lane), true)
  | .actionStoreBit _ _ _ _ storage lane _ _ _ => some (storageKey storage (laneType lane), true)
  | _ => none

/-- `StorageAccessSummary::from_ir_block`. -/
def fromIrBlock {P : Type} (block : Ir.IRBlock P) (table : StorageTable) :
    Except ScheduleExtractionError (List StorageClaim) := do
  return canonicalizeClaims (← collectClaims irAccess table block.kinds)

/-- `StorageAccessSummary::from_biir_block`. -/
def fromBiirBlock {P : Type} (block : Boolar.BIrBlock P) (table : StorageTable) :
    Except ScheduleExtractionError (List StorageClaim) := do
  return canonicalizeClaims (← collectClaims biirAccess table block.kinds)

def summaryIteration (claims : List StorageClaim) : IterationManifest :=
  ⟨⟨0⟩, 0, ⟨0⟩, [], claims, ⟨0, 0⟩, ⟨0, 0⟩⟩

def oneIterationManifest (claims : List StorageClaim) (config : ScheduleExtractionConfig) :
    Except ScheduleExtractionError ScheduleManifest := do
  let manifest : ScheduleManifest :=
    { formatVersion := scheduleManifestVersion
      programDigest := config.programDigest
      storagePolicyDigest := config.storagePolicyDigest
      protocolProfile := config.protocolProfile
      epochSize := config.epochSize
      workerLaneCount := config.workerLaneCount
      epochs := [⟨⟨0⟩, [summaryIteration claims], ⟨0⟩⟩] }
  liftError .manifest (manifest.canonicalize.validate .default)
  return manifest.canonicalize

end VolarIR.Schedule

namespace VolarIR

/-- `IRBlocks::is_circuit`. -/
def Ir.IRBlocks.isCircuit {P : Type} (circuit : Ir.IRBlocks P) : Bool :=
  match circuit.blocks with
  | [block] =>
      match block.terminator with
      | .jmp ⟨.ret, _⟩ => true
      | _ => false
  | _ => false

end VolarIR

namespace VolarIR.Schedule

open Fallible

def extractIrCircuitSchedule {P : Type} (circuit : Ir.IRBlocks P) (table : StorageTable)
    (config : ScheduleExtractionConfig) : Except ScheduleExtractionError ScheduleManifest :=
  match circuit.blocks with
  | [] => .error .emptyProgram
  | block :: _ => do
      ensure (circuit.isCircuit = true) (.unsupportedShape circuit.blocks.length)
      liftError .storageTable table.validate
      let summary ← fromIrBlock block table
      oneIterationManifest summary config

def extractBiirCircuitSchedule {P : Type} (circuit : Boolar.BIrBlocks P) (table : StorageTable)
    (config : ScheduleExtractionConfig) : Except ScheduleExtractionError ScheduleManifest :=
  match circuit.blocks with
  | [] => .error .emptyProgram
  | block :: _ => do
      ensure (circuit.isCircuit = true) (.unsupportedShape circuit.blocks.length)
      liftError .storageTable table.validate
      let summary ← fromBiirBlock block table
      oneIterationManifest summary config

section Claims
variable {S : Type} {access : S → Option (StorageKey × Bool)} {table : StorageTable}
  {stmts : List S} {claims : List StorageClaim} {config : ScheduleExtractionConfig}
  {manifest : ScheduleManifest}

theorem classify_eq_ok {key : StorageKey} {writes : Bool} {claim : StorageClaim}
    (h : classify key writes table = .ok claim) :
    claim.key = key ∧ claim.scope = .whole ∧
      (claim.Exclusive ↔ writes = true ∨ table.accessOf key.storageId = .readWrite) ∧
      (writes = true → table.accessOf key.storageId = .readWrite) := by
  rw [classify, liftError_eq_ok, classifyStorageClaim] at h
  cases writes with
  | false =>
      cases haccess : table.accessOf key.storageId with
      | readOnly =>
          rw [haccess] at h
          cases h
          simp [StorageClaim.whole, StorageClaim.Exclusive]
      | readWrite =>
          rw [haccess] at h
          cases h
          simp [StorageClaim.whole, StorageClaim.Exclusive]
  | true =>
      cases haccess : table.accessOf key.storageId with
      | readOnly =>
          rw [haccess] at h
          cases h
      | readWrite =>
          rw [haccess] at h
          cases h
          simp [StorageClaim.whole, StorageClaim.Exclusive]

/-- Every matched access has been classified, and the collected claims are the results. -/
def Collected (access : S → Option (StorageKey × Bool)) (table : StorageTable) (stmts : List S)
    (claims : List StorageClaim) : Prop :=
  (∀ stmt ∈ stmts, ∀ key writes, access stmt = some (key, writes) →
    ∃ claim ∈ claims, classify key writes table = .ok claim) ∧
  ∀ claim ∈ claims, ∃ stmt ∈ stmts, ∃ key writes, access stmt = some (key, writes) ∧
    classify key writes table = .ok claim

theorem collected_of_eq_ok (h : collectClaims access table stmts = .ok claims) :
    Collected access table stmts claims := by
  apply foldlM_invariant (fun done (state : List StorageClaim) =>
    Collected access table done state) h
  · exact ⟨fun _ hmem => absurd hmem List.not_mem_nil, fun _ hmem => absurd hmem List.not_mem_nil⟩
  · intro done stmt before after hbefore hstep
    have hold : ∀ claim ∈ before, ∃ other ∈ done ++ [stmt], ∃ key writes,
        access other = some (key, writes) ∧ classify key writes table = .ok claim := by
      intro claim hmem
      obtain ⟨other, hother, hrest⟩ := hbefore.2 claim hmem
      exact ⟨other, List.mem_append_left _ hother, hrest⟩
    have hself : stmt ∈ done ++ [stmt] := List.mem_append_right _ (List.mem_singleton_self _)
    cases haccess : access stmt with
    | none =>
        rw [haccess] at hstep
        cases hstep
        constructor
        · intro other hother key writes hsome
          rcases List.mem_append.mp hother with hother | hother
          · exact hbefore.1 other hother key writes hsome
          · rw [List.mem_singleton.mp hother, haccess] at hsome
            cases hsome
        · exact hold
    | some found =>
        rw [haccess] at hstep
        simp only [Except.bind_eq_ok] at hstep
        obtain ⟨claim, hclassify, hret⟩ := hstep
        cases hret
        constructor
        · intro other hother key writes hsome
          rcases List.mem_append.mp hother with hother | hother
          · obtain ⟨kept, hkept, hrest⟩ := hbefore.1 other hother key writes hsome
            exact ⟨kept, List.mem_append_left _ hkept, hrest⟩
          · rw [List.mem_singleton.mp hother, haccess] at hsome
            cases hsome
            exact ⟨claim, List.mem_append_right _ (List.mem_singleton_self _), hclassify⟩
        · intro kept hkept
          rcases List.mem_append.mp hkept with hkept | hkept
          · exact hold kept hkept
          · rw [List.mem_singleton.mp hkept]
            exact ⟨stmt, hself, found.1, found.2, haccess, hclassify⟩

/-- What an extracted manifest claims for the accesses of the circuit. -/
structure Extracted (access : S → Option (StorageKey × Bool)) (table : StorageTable)
    (stmts : List S) (iteration : IterationManifest) : Prop where
  claims : ∀ cell, iteration.Claims cell ↔ ∃ stmt ∈ stmts, ∃ writes,
    access stmt = some (cell.key, writes)
  exclusive : ∀ cell, iteration.ClaimsExclusively cell ↔ ∃ stmt ∈ stmts, ∃ writes,
    access stmt = some (cell.key, writes) ∧
      (writes = true ∨ table.accessOf cell.key.storageId = .readWrite)
  writable : ∀ stmt ∈ stmts, ∀ key, access stmt = some (key, true) →
    table.accessOf key.storageId = .readWrite
  sorted : iteration.claims.Pairwise (· < ·)

theorem covers_iff {claim : StorageClaim} (h : claim.scope = .whole) (cell : StorageCellKey) :
    claim.Covers cell ↔ claim.key = cell.key := by
  unfold StorageClaim.Covers
  rw [h]
  exact and_iff_left trivial

theorem extracted_of_eq_ok (hcollect : collectClaims access table stmts = .ok claims)
    (hmanifest : oneIterationManifest (canonicalizeClaims claims) config = .ok manifest) :
    ∃ iteration, manifest.iterations = [iteration] ∧
      Extracted access table stmts iteration := by
  simp only [oneIterationManifest, Except.bind_eq_ok, liftError_eq_ok] at hmanifest
  obtain ⟨_, hvalidate, hret⟩ := hmanifest
  cases hret
  have hcollected := collected_of_eq_ok hcollect
  have hvalid := ScheduleManifest.valid_of_validate hvalidate
  -- the summary is canonicalized twice: by the extraction and with its manifest
  have htwice : ∀ Q : StorageClaim → Prop, (∀ (claim : StorageClaim) mode,
      Q { claim with mode := claim.mode.join mode } ↔ Q claim ∨ Q { claim with mode := mode }) →
        ((∃ claim ∈ (summaryIteration (canonicalizeClaims claims)).canonicalize.claims, Q claim) ↔
          ∃ claim ∈ claims, Q claim) := by
    intro Q hQ
    rw [exists_mem_canonicalize _ hQ]
    unfold summaryIteration canonicalizeClaims
    rw [exists_mem_coalesce hQ]
    simp
  apply Exists.intro (summaryIteration (canonicalizeClaims claims)).canonicalize
  constructor
  · rfl
  · constructor
    case claims =>
      intro cell
      apply (htwice (fun claim => claim.Covers cell) fun _ _ => (or_self_iff).symm).trans
      constructor
      · rintro ⟨claim, hmem, hcovers⟩
        obtain ⟨stmt, hstmt, key, writes, haccess, hclassify⟩ := hcollected.2 claim hmem
        have hclaim := classify_eq_ok hclassify
        rw [covers_iff hclaim.2.1, hclaim.1] at hcovers
        exact ⟨stmt, hstmt, writes, hcovers ▸ haccess⟩
      · rintro ⟨stmt, hstmt, writes, haccess⟩
        obtain ⟨claim, hmem, hclassify⟩ := hcollected.1 stmt hstmt cell.key writes haccess
        have hclaim := classify_eq_ok hclassify
        exact ⟨claim, hmem, (covers_iff hclaim.2.1 cell).mpr hclaim.1⟩
    case exclusive =>
      intro cell
      apply (htwice (fun claim => claim.Covers cell ∧ claim.Exclusive)
          (covers_exclusive_join cell)).trans
      constructor
      · rintro ⟨claim, hmem, hcovers, hexclusive⟩
        obtain ⟨stmt, hstmt, key, writes, haccess, hclassify⟩ := hcollected.2 claim hmem
        have hclaim := classify_eq_ok hclassify
        rw [covers_iff hclaim.2.1, hclaim.1] at hcovers
        subst hcovers
        exact ⟨stmt, hstmt, writes, haccess, hclaim.2.2.1.mp hexclusive⟩
      · rintro ⟨stmt, hstmt, writes, haccess, hwrites⟩
        obtain ⟨claim, hmem, hclassify⟩ := hcollected.1 stmt hstmt cell.key writes haccess
        have hclaim := classify_eq_ok hclassify
        exact ⟨claim, hmem, (covers_iff hclaim.2.1 cell).mpr hclaim.1,
          hclaim.2.2.1.mpr hwrites⟩
    case writable =>
      intro stmt hstmt key haccess
      obtain ⟨claim, _, hclassify⟩ := hcollected.1 stmt hstmt key true haccess
      exact (classify_eq_ok hclassify).2.2.2 rfl
    case sorted => exact (hvalid.canonical _ (List.mem_singleton_self _)).claims_sorted

end Claims

def irReads {P : Type} (circuit : Ir.IRBlocks P) : List StorageKey :=
  circuit.blocks.flatMap fun block => block.kinds.flatMap fun s => s.reads.map irKey

def irWrites {P : Type} (circuit : Ir.IRBlocks P) : List StorageKey :=
  circuit.blocks.flatMap fun block => block.kinds.flatMap fun s => s.writes.map irKey

def biirReads {P : Type} (circuit : Boolar.BIrBlocks P) : List StorageKey :=
  circuit.blocks.flatMap fun block =>
    block.kinds.flatMap fun s => (Boolar.BIrStmt.reads s).map biirKey

def biirWrites {P : Type} (circuit : Boolar.BIrBlocks P) : List StorageKey :=
  circuit.blocks.flatMap fun block =>
    block.kinds.flatMap fun s => (Boolar.BIrStmt.writes s).map biirKey

/-- The single iteration claims what is read, claims what is written exclusively, nothing
declared read-only is written, and the claims are strictly ordered. -/
def ClaimsFootprint (table : StorageTable) (reads writes : List StorageKey)
    (manifest : ScheduleManifest) : Prop :=
  ∃ iteration, manifest.iterations = [iteration] ∧
    (∀ key ∈ reads, ∀ address, iteration.Claims ⟨key, address⟩) ∧
    (∀ key ∈ writes, ∀ address, iteration.ClaimsExclusively ⟨key, address⟩) ∧
    (∀ key ∈ writes, table.accessOf key.storageId ≠ .readOnly) ∧
    iteration.claims.Pairwise (· < ·)

/-- Another statement claims the namespace exclusively: a write of it, or a read of it where
it is not declared read-only. -/
def Accompanied (table : StorageTable) (stmts : List Ir.IRStmt) (ns : Ir.Namespace) : Prop :=
  (∃ storage src ty addr, .storageWrite storage src ty addr ∈ stmts ∧
      storageKey storage ty = irKey ns) ∨
    (∃ storage ty addr, .storageRead storage ty addr ∈ stmts ∧ storageKey storage ty = irKey ns) ∧
      table.accessOf (irKey ns).storageId = .readWrite

/-- Every target of an `ActionStore` is accompanied. -/
def ActionStoresAccompanied {P : Type} (table : StorageTable) (circuit : Ir.IRBlocks P) : Prop :=
  ∀ block ∈ circuit.blocks, ∀ name guard args fallbacks outputTys targets,
    .actionStore name guard args fallbacks outputTys targets ∈ block.kinds →
      ∀ ns ∈ (Ir.IRStmt.actionStore name guard args fallbacks outputTys targets).writes,
        Accompanied table block.kinds ns

section Coverage
variable {P : Type} {table : StorageTable} {config : ScheduleExtractionConfig}
  {manifest : ScheduleManifest} {iteration : IterationManifest} {stmts : List Ir.IRStmt}

theorem accompanied_iff (h : Extracted irAccess table stmts iteration) (ns : Ir.Namespace)
    (address : U64) :
    iteration.ClaimsExclusively ⟨irKey ns, address⟩ ↔ Accompanied table stmts ns := by
  rw [h.exclusive]
  constructor
  · rintro ⟨stmt, hstmt, writes, haccess, hwrites⟩
    cases stmt with
    | storageRead storage ty addr =>
        simp only [irAccess, Option.some.injEq, Prod.mk.injEq] at haccess
        obtain ⟨hkey, rfl⟩ := haccess
        exact .inr ⟨⟨storage, ty, addr, hstmt, hkey⟩, hwrites.resolve_left Bool.false_ne_true⟩
    | storageWrite storage src ty addr =>
        simp only [irAccess, Option.some.injEq, Prod.mk.injEq] at haccess
        exact .inl ⟨storage, src, ty, addr, hstmt, haccess.1⟩
    | _ => cases haccess
  · rintro (⟨storage, src, ty, addr, hmem, hkey⟩ | ⟨⟨storage, ty, addr, hmem, hkey⟩, haccess⟩)
    · exact ⟨_, hmem, true, by rw [irAccess, hkey], .inl rfl⟩
    · exact ⟨_, hmem, false, by rw [irAccess, hkey], .inr haccess⟩

theorem Accompanied.writable (h : Extracted irAccess table stmts iteration) {ns : Ir.Namespace}
    (hns : Accompanied table stmts ns) : table.accessOf (irKey ns).storageId = .readWrite := by
  rcases hns with ⟨storage, src, ty, addr, hmem, hkey⟩ | ⟨_, haccess⟩
  · rw [← hkey]
    exact h.writable _ hmem _ rfl
  · exact haccess

theorem extractIr_eq_ok {circuit : Ir.IRBlocks P}
    (h : extractIrCircuitSchedule circuit table config = .ok manifest) :
    ∃ block, circuit.blocks = [block] ∧ ∃ iteration, manifest.iterations = [iteration] ∧
      Extracted irAccess table block.kinds iteration := by
  unfold extractIrCircuitSchedule at h
  cases hblocks : circuit.blocks with
  | nil =>
      rw [hblocks] at h
      cases h
  | cons block rest =>
      rw [hblocks] at h
      simp only [Except.bind_eq_ok, ensure_eq_ok, fromIrBlock] at h
      obtain ⟨_, hcircuit, _, _, _, ⟨claims, hcollect, hret⟩, hmanifest⟩ := h
      cases hret
      have hrest : rest = [] := by
        cases rest with
        | nil => rfl
        | cons other rest => simp [Ir.IRBlocks.isCircuit, hblocks] at hcircuit
      exact ⟨block, by rw [hrest], extracted_of_eq_ok hcollect hmanifest⟩

theorem extractBiir_eq_ok {circuit : Boolar.BIrBlocks P}
    (h : extractBiirCircuitSchedule circuit table config = .ok manifest) :
    ∃ block, circuit.blocks = [block] ∧ ∃ iteration, manifest.iterations = [iteration] ∧
      Extracted biirAccess table block.kinds iteration := by
  unfold extractBiirCircuitSchedule at h
  cases hblocks : circuit.blocks with
  | nil =>
      rw [hblocks] at h
      cases h
  | cons block rest =>
      rw [hblocks] at h
      simp only [Except.bind_eq_ok, ensure_eq_ok, fromBiirBlock] at h
      obtain ⟨_, hcircuit, _, _, _, ⟨claims, hcollect, hret⟩, hmanifest⟩ := h
      cases hret
      have hrest : rest = [] := by
        cases rest with
        | nil => rfl
        | cons other rest =>
            simp [Boolar.BIrBlocks.isCircuit, Boolar.BIrBlocks.isMovfuscated, hblocks] at hcircuit
      exact ⟨block, by rw [hrest], extracted_of_eq_ok hcollect hmanifest⟩

/-- The schedule of a typed circuit covers it exactly where every `ActionStore` target is
accompanied by another access. -/
theorem extractIr_claims_iff {circuit : Ir.IRBlocks P}
    (h : extractIrCircuitSchedule circuit table config = .ok manifest) :
    ClaimsFootprint table (irReads circuit) (irWrites circuit) manifest ↔
      ActionStoresAccompanied table circuit := by
  obtain ⟨block, hblocks, iteration, hiteration, hextracted⟩ := extractIr_eq_ok h
  have hwrites : ∀ key, key ∈ irWrites circuit ↔ ∃ s ∈ block.kinds, ∃ ns ∈ s.writes,
      irKey ns = key := by
    intro key
    simp [irWrites, hblocks]
  constructor
  · rintro ⟨found, hfound, _, hexclusive, _, _⟩ other hother name guard args fallbacks outputTys
      targets hmem ns hns
    rw [hiteration] at hfound
    cases hfound
    rw [hblocks] at hother
    rw [List.mem_singleton.mp hother] at hmem ⊢
    exact (accompanied_iff hextracted ns 0).mp
      (hexclusive _ ((hwrites _).mpr ⟨_, hmem, ns, hns, rfl⟩) 0)
  · intro hstores
    have haccompanied : ∀ s ∈ block.kinds, ∀ ns ∈ s.writes, Accompanied table block.kinds ns := by
      intro s hs ns hns
      cases s with
      | storageWrite storage src ty addr =>
          rw [List.mem_singleton.mp hns]
          exact .inl ⟨storage, src, ty, addr, hs, rfl⟩
      | actionStore name guard args fallbacks outputTys targets =>
          exact hstores block (hblocks ▸ List.mem_singleton_self _) name guard args fallbacks
            outputTys targets hs ns hns
      | _ => cases hns
    apply Exists.intro iteration
    constructor
    · exact hiteration
    · constructor
      · intro key hkey address
        simp only [irReads, hblocks, List.flatMap_cons, List.flatMap_nil, List.append_nil,
          List.mem_flatMap, List.mem_map] at hkey
        obtain ⟨s, hs, ns, hns, rfl⟩ := hkey
        rw [hextracted.claims]
        cases s with
        | storageRead storage ty addr =>
            rw [List.mem_singleton.mp hns]
            exact ⟨_, hs, false, rfl⟩
        | _ => cases hns
      · constructor
        · intro key hkey address
          obtain ⟨s, hs, ns, hns, rfl⟩ := (hwrites key).mp hkey
          exact (accompanied_iff hextracted ns address).mpr (haccompanied s hs ns hns)
        · constructor
          · intro key hkey
            obtain ⟨s, hs, ns, hns, rfl⟩ := (hwrites key).mp hkey
            rw [(haccompanied s hs ns hns).writable hextracted]
            decide
          · exact hextracted.sorted

theorem extractBiir_claims {circuit : Boolar.BIrBlocks P}
    (h : extractBiirCircuitSchedule circuit table config = .ok manifest) :
    ClaimsFootprint table (biirReads circuit) (biirWrites circuit) manifest := by
  obtain ⟨block, hblocks, iteration, hiteration, hextracted⟩ := extractBiir_eq_ok h
  have hwrites : ∀ key ∈ biirWrites circuit, ∃ s ∈ block.kinds,
      biirAccess s = some (key, true) := by
    intro key hkey
    simp only [biirWrites, hblocks, List.flatMap_cons, List.flatMap_nil, List.append_nil,
      List.mem_flatMap, List.mem_map] at hkey
    obtain ⟨s, hs, ns, hns, rfl⟩ := hkey
    cases s with
    | storageWrite storage lane src addr =>
        rw [List.mem_singleton.mp hns]
        exact ⟨_, hs, rfl⟩
    | actionStoreBit name guard args fallback storage lane addr bit occ =>
        rw [List.mem_singleton.mp hns]
        exact ⟨_, hs, rfl⟩
    | _ => cases hns
  apply Exists.intro iteration
  constructor
  · exact hiteration
  · constructor
    · intro key hkey address
      simp only [biirReads, hblocks, List.flatMap_cons, List.flatMap_nil, List.append_nil,
        List.mem_flatMap, List.mem_map] at hkey
      obtain ⟨s, hs, ns, hns, rfl⟩ := hkey
      rw [hextracted.claims]
      cases s with
      | storageRead storage lane addr =>
          rw [List.mem_singleton.mp hns]
          exact ⟨_, hs, false, rfl⟩
      | _ => cases hns
    · constructor
      · intro key hkey address
        obtain ⟨s, hs, haccess⟩ := hwrites key hkey
        exact (hextracted.exclusive _).mpr ⟨s, hs, true, haccess, .inl rfl⟩
      · constructor
        · intro key hkey
          obtain ⟨s, hs, haccess⟩ := hwrites key hkey
          rw [hextracted.writable s hs key haccess]
          decide
        · exact hextracted.sorted

end Coverage

/-- Boolar schedules always cover their circuit, typed ones exactly where every `ActionStore`
target is accompanied. -/
theorem extract_covers_iff {P Q : Type} (table : StorageTable)
    (config : ScheduleExtractionConfig) :
    (∀ (circuit : Ir.IRBlocks P) (manifest : ScheduleManifest),
        extractIrCircuitSchedule circuit table config = .ok manifest →
          (ClaimsFootprint table (irReads circuit) (irWrites circuit) manifest ↔
            ActionStoresAccompanied table circuit)) ∧
      ∀ (circuit : Boolar.BIrBlocks Q) (manifest : ScheduleManifest),
        extractBiirCircuitSchedule circuit table config = .ok manifest →
          ClaimsFootprint table (biirReads circuit) (biirWrites circuit) manifest :=
  ⟨fun _ _ h => extractIr_claims_iff h, fun _ _ h => extractBiir_claims h⟩

section Stores

def sampleConfig : ScheduleExtractionConfig :=
  ⟨Vector.replicate 32 1, Vector.replicate 32 2, 9, 4, 2⟩

def typedCircuit (stmts : List Ir.IRStmt) : Ir.IRBlocks Unit :=
  ⟨[⟨[⟨0⟩], stmts.map fun kind => Node.new kind (), .jmp ⟨.ret, []⟩⟩]⟩

def storeOutput : Ir.IRStmt := .actionStore "emit" 0 [] [0] [⟨0⟩] [(⟨3⟩, 0)]

def boolarStore : Boolar.BIrBlocks Unit :=
  ⟨[⟨1, [Node.new (.actionStoreBit "emit" 0 [] 0 ⟨3⟩ ⟨0⟩ [0] 0 0) ()], .jmp ⟨.ret, []⟩⟩], []⟩

def sampleManifest (claims : List StorageClaim) : ScheduleManifest :=
  ⟨scheduleManifestVersion, Vector.replicate 32 1, Vector.replicate 32 2, 9, 4, 2,
    [⟨⟨0⟩, [summaryIteration claims], ⟨0⟩⟩]⟩

theorem extract_covers_iff_storeOutput :
    ClaimsFootprint ⟨[]⟩ (irReads (typedCircuit [.storageWrite ⟨3⟩ 0 ⟨0⟩ 0, storeOutput]))
        (irWrites (typedCircuit [.storageWrite ⟨3⟩ 0 ⟨0⟩ 0, storeOutput]))
        (sampleManifest [.whole ⟨3, 0⟩ .write]) ∧
      ClaimsFootprint ⟨[]⟩ (biirReads boolarStore) (biirWrites boolarStore)
        (sampleManifest [.whole ⟨3, 0⟩ .write]) := by
  have hboth := extract_covers_iff (P := Unit) (Q := Unit) ⟨[]⟩ sampleConfig
  constructor
  · apply (hboth.1 (typedCircuit [.storageWrite ⟨3⟩ 0 ⟨0⟩ 0, storeOutput])
      (sampleManifest [.whole ⟨3, 0⟩ .write]) rfl).mpr
    intro block hblock name guard args fallbacks outputTys targets hmem ns hns
    rw [List.mem_singleton.mp hblock] at hmem ⊢
    rcases List.mem_cons.mp hmem with heq | hmem
    · cases heq
    · cases List.mem_singleton.mp hmem
      rw [List.mem_singleton.mp hns]
      exact .inl ⟨⟨3⟩, 0, ⟨0⟩, 0, List.mem_cons_self, rfl⟩
  · exact hboth.2 boolarStore (sampleManifest [.whole ⟨3, 0⟩ .write]) rfl

/-- The store of an action is the only access, and nothing is claimed. -/
theorem not_claimsFootprint_storeOutput :
    ¬ ∀ (table : StorageTable) (config : ScheduleExtractionConfig) (circuit : Ir.IRBlocks Unit)
      (manifest : ScheduleManifest),
      extractIrCircuitSchedule circuit table config = .ok manifest →
        ClaimsFootprint table (irReads circuit) (irWrites circuit) manifest := by
  intro h
  obtain ⟨iteration, hiteration, _, hexclusive, _⟩ :=
    h ⟨[]⟩ sampleConfig (typedCircuit [storeOutput]) (sampleManifest []) rfl
  cases hiteration
  obtain ⟨claim, hclaim, _⟩ := hexclusive ⟨3, 0⟩ (by decide) 0
  cases hclaim

end Stores
end VolarIR.Schedule
