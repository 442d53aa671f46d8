import VolarIR.Ir.Cse
import VolarIR.Library.Hexadecimal
import VolarIR.Library.SortedMap

/-!
# Volar IR batching of one-bit polynomials

`batch_ir_blocks_with_remap_and_members` of `volar-ir-opt/src/ir.rs`: one-bit `Poly`s that
differ in a single var, their hole, become lanes of one wide `Poly` over the merged holes. The
pass looks for groups, drops the members whose hole comes too late, takes disjoint groups,
largest first, and rewrites the block in one sweep. Given regions, no group leaves its
region.
-/
namespace VolarIR.Ir

/-- `poly_vars`: the vars of a polynomial, ascending. -/
def polyVars (coeffs : PolyCoeffs) : List ℕ :=
  (coeffs.entries.flatMap Prod.fst).dedup.insertionSort (· ≤ ·)

/-- `substitute_var`. -/
def substituteVar (coeffs : PolyCoeffs) (source target : ℕ) : PolyCoeffs :=
  collectOdd (coeffs.entries.map fun e =>
    ((e.1.map fun v => if v = source then target else v).insertionSort (· ≤ ·), e.2))

def polyBatchSentinel : ℕ := u32Max

structure PolyBatch where
  ty : TypeId
  templateIdx : ℕ
  holeVarInTemplate : ℕ
  members : List (ℕ × ℕ)
  deriving DecidableEq, Repr

def regionAt (regionOf : Option (List ℕ)) (i : ℕ) : ℕ := (regionOf.bind fun r => r[i]?).getD 0

structure Discovery where
  canonMap : List ((ℕ × TypeId × PolyCoeffs) × ℕ)
  batches : List PolyBatch

section
variable (regionOf : Option (List ℕ)) (table : TypeTable) (kinds : List IRStmt)

def templateCoeffs (templateIdx : ℕ) : Option PolyCoeffs :=
  match kinds[templateIdx]? with
  | some (.poly _ coeffs _) => some coeffs
  | _ => none

/-- The group of its region that a polynomial joins through one of its vars. -/
def matchHole (found : Discovery) (region : ℕ) (ty : TypeId) (coeffs : PolyCoeffs) (hole : ℕ) :
    Option (ℕ × ℕ) := do
  let bi ← found.canonMap.lookup (region, ty, substituteVar coeffs hole polyBatchSentinel)
  let batch ← found.batches[bi]?
  let template ← templateCoeffs kinds batch.templateIdx
  if substituteVar template batch.holeVarInTemplate hole = coeffs ∧ batch.ty = ty then
    some (bi, hole)
  else none

/-- A group of its own for a choice of the hole, unless its region has one of that form. -/
def openBatch (region : ℕ) (ty : TypeId) (coeffs : PolyCoeffs) (i : ℕ) (found : Discovery)
    (hole : ℕ) : Discovery :=
  let key := (region, ty, substituteVar coeffs hole polyBatchSentinel)
  match found.canonMap.lookup key with
  | some _ => found
  | none => ⟨(key, found.batches.length) :: found.canonMap,
      found.batches ++ [⟨ty, i, hole, [(i, hole)]⟩]⟩

def batchable : IRStmt → Bool
  | .poly ty coeffs _ => table.valueBitWidth ty = some 1 && polyVars coeffs ≠ []
  | _ => false

/-- One statement of the search. -/
def discoverStmt (found : Discovery) (i : ℕ) : IRStmt → Discovery
  | .poly ty coeffs c =>
      if batchable table (.poly ty coeffs c) then
        match (polyVars coeffs).findSome? (matchHole kinds found (regionAt regionOf i) ty coeffs)
          with
        | some (bi, hole) =>
            let join (batch : PolyBatch) : PolyBatch :=
              { batch with members := batch.members ++ [(i, hole)] }
            { found with batches := found.batches.modify bi join }
        | none => (polyVars coeffs).foldl (openBatch (regionAt regionOf i) ty coeffs i) found
      else found
  | _ => found

def discoverBatches : List PolyBatch :=
  (kinds.zipIdx.foldl (fun found e => discoverStmt regionOf table kinds found e.2 e.1)
    ⟨[], []⟩).batches

end

def enforceOrder (nParams : ℕ) (batch : PolyBatch) : PolyBatch :=
  let minIdx := (batch.members.map Prod.fst).min?.getD 0
  let inTime (m : ℕ × ℕ) : Bool := decide (m.2 < nParams) || decide (m.2 - nParams < minIdx)
  { batch with members := batch.members.filter inTime }

structure Acceptance where
  claimed : List ℕ
  accepted : List PolyBatch

def acceptBatch (st : Acceptance) (batch : PolyBatch) : Acceptance :=
  if batch.members.length < 2 ∨ batch.members.length > 64 then st
  else if batch.members.any fun m => decide (m.1 ∈ st.claimed) then st
  else ⟨st.claimed ++ batch.members.map Prod.fst, st.accepted ++ [batch]⟩

/-- Phases 1.5 and 2: disjoint groups of 2 to 64 members, largest first, their members in
order. -/
def acceptGroups (nParams : ℕ) (batches : List PolyBatch) : List PolyBatch :=
  let order := SortByKey.sortByKey (fun batch : PolyBatch =>
    OrderDual.toDual batch.members.length) (batches.map (enforceOrder nParams))
  (order.foldl acceptBatch ⟨[], []⟩).accepted.map fun batch =>
    { batch with members := SortByKey.sortByKey Prod.fst batch.members }

def acceptedBatches (regionOf : Option (List ℕ)) (table : TypeTable) (nParams : ℕ)
    (kinds : List IRStmt) : List PolyBatch :=
  acceptGroups nParams (discoverBatches regionOf table kinds)

def PolyBatch.minIdx (batch : PolyBatch) : ℕ := (batch.members.map Prod.fst).headD 0

/-- The sweep: the statements so far, the new number of each old var, the wide var of each group
begun and the members of each var made up. -/
structure Rewrite (P : Type) where
  types : TypeTable
  newStmts : List (Node IRStmt P)
  remap : List ℕ
  wideVar : List (ℕ × ℕ)
  newVarMembers : List (ℕ × List ℕ)

section
variable {P : Type} (nParams : ℕ) (kinds : List IRStmt)

def wideConstant (members : List (ℕ × ℕ)) : Constant where
  hi := 0
  lo := Hexadecimal.gather 128 members.length fun j =>
    match kinds[(members.getD j (0, 0)).1]? with
    | some (.poly _ _ constant) => constant.lo.getLsbD 0
    | _ => false

/-- The template over the merged holes. -/
def wideCoeffs (remap : List ℕ) (mergeVar : ℕ) (batch : PolyBatch) : PolyCoeffs :=
  let template := (templateCoeffs kinds batch.templateIdx).getD .empty
  let remappedTemplate : PolyCoeffs :=
    .ofList (template.entries.map fun e => (remapMonomial remap e.1, e.2))
  substituteVar remappedTemplate (remapped remap batch.holeVarInTemplate) mergeVar

/-- The `Merge` of the holes and the wide `Poly`, before the first member of the group. -/
def emitBatch (st : Rewrite P) (node : Node IRStmt P) (batch : PolyBatch) : Rewrite P :=
  let (wideTy, types) := st.types.intern (.vec batch.members.length (st.types.intern
    (.primitive .bit)).1)
  let mergeVar := nParams + st.newStmts.length
  let merge : IRStmt := .merge (batch.members.map fun m => remapped st.remap m.2) wideTy
  let wide : IRStmt := .poly wideTy (wideCoeffs kinds st.remap mergeVar batch)
    (wideConstant kinds batch.members)
  let members := batch.members.map fun m => nParams + m.1
  { st with
    types := types
    newStmts := st.newStmts ++ [{ node with kind := merge }, { node with kind := wide }]
    wideVar := (batch.minIdx, mergeVar + 1) :: st.wideVar
    newVarMembers := (mergeVar + 1, members) :: (mergeVar, members) :: st.newVarMembers }

/-- One statement of the sweep: a member becomes the `Shuffle` that takes its lane. -/
def rewriteStmt (accepted : List PolyBatch) (st : Rewrite P) (node : Node IRStmt P) (i : ℕ) :
    Rewrite P :=
  let st := match accepted.find? fun batch => batch.minIdx = i with
    | some batch => emitBatch nParams kinds st node batch
    | none => st
  let newVar := nParams + st.newStmts.length
  let kind : IRStmt := match accepted.find? fun batch => i ∈ batch.members.map Prod.fst with
    | some batch =>
        let lane := (batch.members.map Prod.fst).idxOf i
        .shuffle [(BitVec.ofNat 8 lane, (st.wideVar.lookup batch.minIdx).getD 0)]
          (st.types.intern (.primitive .bit)).1
    | none => node.kind.mapVars (remapped st.remap)
  { st with newStmts := st.newStmts ++ [{ node with kind := kind }], remap := st.remap ++ [newVar] }

/-- Phase 3 before statement `n`. -/
def rewriteState (table : TypeTable) (accepted : List PolyBatch) (block : IRBlock P) (n : ℕ) :
    Rewrite P :=
  (block.stmts.zipIdx.take n).foldl
    (fun st e => rewriteStmt block.params.length block.kinds accepted st e.1 e.2)
    ⟨(table.intern (.primitive .bit)).2, [], List.range block.params.length, [], []⟩

end

/-- What `batch_ir_block_once` leaves and reports. -/
structure Batched (P : Type) where
  block : IRBlock P
  types : TypeTable
  changed : Bool
  remap : List ℕ
  newVarMembers : List (ℕ × List ℕ)

section
variable {P : Type}

/-- Phase 3 for the groups taken, if there are any. -/
def rewriteGroups (table : TypeTable) (block : IRBlock P) (accepted : List PolyBatch) :
    Batched P :=
  if accepted = [] then
    ⟨block, table, false, List.range (block.params.length + block.stmts.length), []⟩
  else
    let st := rewriteState table accepted block block.stmts.length
    ⟨⟨block.params, st.newStmts, block.terminator.mapVars (remapped st.remap)⟩, st.types, true,
      st.remap, st.newVarMembers⟩

variable (regionOf : Option (List ℕ)) (table : TypeTable) (block : IRBlock P)

def batchBlock : Batched P :=
  rewriteGroups table block (acceptedBatches regionOf table block.params.length block.kinds)

/-- `batch_ir_block_once`; `none` where a statement that may join a group is beyond the
regions. -/
def batchBlockOnce : Option (Batched P) :=
  if (block.kinds.drop (regionOf.elim block.kinds.length List.length)).any (batchable table) then
    none
  else some (batchBlock regionOf table block)

theorem batchBlockOnce_none :
    batchBlockOnce none table block = some (batchBlock none table block) := by
  have hdrop : block.kinds.drop block.kinds.length = [] := List.drop_length
  simp [batchBlockOnce, hdrop, -IRBlock.length_kinds]

end

end VolarIR.Ir
