import VolarIR.Opt.KnownBits
import VolarIR.Opt.StoreForward

/-!
# Volar IR store-to-load forwarding within a block

`store_forward_ir_block_with_cache` of `volar-ir-opt/src/store_forward.rs`: the sweep over a
block that forwards stored vars to later reads, with the constants, polynomials and known bits
it gathers to tell addresses apart.
-/
namespace VolarIR.Opt
open Ir

/-- The rewritten monomial: sorted, and a factor equal to the one before it is dropped when it
is idempotent. -/
def aliasKey (aliases : AliasMap) (factorIdempotent : ℕ → Bool) (key : List ℕ) : List ℕ :=
  let tagged := SortByKey.sortByKey Prod.fst
    (key.map fun v => (canonAlias aliases v, factorIdempotent v))
  tagged.foldl (fun newKey e =>
    if e.2 && newKey.getLast? = some e.1 then newKey else newKey ++ [e.1]) []

def aliasCoeffs (aliases : AliasMap) (factorIdempotent : ℕ → Bool)
    (coeffs : Common.PolyCoeffs ℕ) : Common.PolyCoeffs ℕ :=
  retainOdd (xorMonomials .new ((coeffs.iter.filter fun e => odd e.2).map fun e =>
    (aliasKey aliases factorIdempotent e.1, e.2)))

/-- `apply_aliases_to_stmt`: the rewritten statement, and whether it changed. -/
def applyAliasesIrStmt (aliases : AliasMap) (factorIdempotent : ℕ → Bool) (s : StoredStmt) :
    StoredStmt × Bool :=
  if aliases.isEmpty then (s, false)
  else
    match s with
    | .poly ty coeffs constant =>
        (.poly ty (aliasCoeffs aliases factorIdempotent coeffs) constant,
          coeffs.iter.any fun e => !odd e.2 || e.1.any (fun v => canonAlias aliases v ≠ v) ||
            (aliasKey aliases factorIdempotent e.1).length ≠ e.1.length)
    | .plain s => ((StoredStmt.plain s).mapVars (canonAlias aliases),
        s.1.operands.any fun v => canonAlias aliases v ≠ v)

/-- `apply_aliases_to_ir_terminator`. -/
def applyAliasesIrTerminator (aliases : AliasMap) (t : IRTerminator) : IRTerminator × Bool :=
  if aliases.isEmpty then (t, false)
  else (t.mapVars (canonAlias aliases), t.operands.any fun v => canonAlias aliases v ≠ v)

/-- `(StorageId, TypeId, IRVarId)`. -/
abbrev IrStoreKey := StorageId × TypeId × ℕ

abbrev IrStoreCache := List (IrStoreKey × ℕ)

structure IrForwardState where
  cache : IrStoreCache
  aliasMap : AliasMap
  typeMap : List (ℕ × TypeId)
  constMap : List (ℕ × Constant)
  addrPolyMap : List (ℕ × IrPolyRepr)
  knownBitsMap : List (ℕ × KnownBits)
  widthMap : List (ℕ × ℕ)
  changed : Bool

/-- `ir_addrs_provably_different` on the maps built so far. -/
def IrForwardState.provablyDifferent (st : IrForwardState) (a b : ℕ) : Bool :=
  irAddrsProvablyDifferent st.constMap st.addrPolyMap st.knownBitsMap a b

def sameIrSlot (storage : StorageId) (ty : TypeId) (e : IrStoreKey × ℕ) : Bool :=
  e.1.1 = storage && e.1.2.1 = ty

/-- What a write to `addr` leaves in the cache. -/
def IrForwardState.retained (st : IrForwardState) (storage : StorageId) (ty : TypeId) (addr : ℕ) :
    IrStoreCache :=
  if maxConcurrentStores ≤ (st.cache.filter (sameIrSlot storage ty)).length then
    st.cache.filter fun e => !sameIrSlot storage ty e
  else st.cache.filter fun e => !sameIrSlot storage ty e || st.provablyDifferent addr e.1.2.2

section
variable (table : TypeTable)

def IrForwardState.start (params : List TypeId) (incoming : IrStoreCache) : IrForwardState where
  cache := incoming
  aliasMap := []
  typeMap := (params.zipIdx.map fun e => (e.2, e.1)).reverse
  constMap := []
  addrPolyMap := []
  knownBitsMap := []
  widthMap := []
  changed := false

/-- `mul_is_idempotent` of a var's type. -/
def IrForwardState.idempotent (st : IrForwardState) (v : ℕ) : Bool :=
  (st.typeMap.lookup v).any table.mulIsIdempotent

/-- What is gathered from the rewritten statement that defines `rv`. -/
def IrForwardState.gather (st : IrForwardState) (rv : ℕ) (s : StoredStmt) : IrForwardState :=
  let r := irStmtKnownBits table st.knownBitsMap st.widthMap s
  { st with
    typeMap := match s.outputType with
      | some ty => (rv, ty) :: st.typeMap
      | none => st.typeMap
    constMap := match s with
      | .plain ⟨.const c _, _⟩ => (rv, c) :: st.constMap
      | _ => st.constMap
    addrPolyMap := match s with
      | .poly _ coeffs constant => (rv, coeffs, constant) :: st.addrPolyMap
      | _ => st.addrPolyMap
    knownBitsMap := (rv, r.1) :: st.knownBitsMap
    widthMap := match r.2 with
      | some w => (rv, w) :: st.widthMap
      | none => st.widthMap }

/-- What the statement does to the cache and the aliases. -/
def IrForwardState.forward (st : IrForwardState) (rv : ℕ) : StoredStmt → IrForwardState
  | .plain ⟨.storageWrite storage src ty addr, _⟩ =>
      let src := canonAlias st.aliasMap src
      let addr := canonAlias st.aliasMap addr
      let cache := st.retained storage ty addr
      { st with
        cache := ((storage, ty, addr), src) :: cache.filter fun e => e.1 ≠ (storage, ty, addr) }
  | .plain ⟨.storageRead storage ty addr, _⟩ =>
      match st.cache.lookup (storage, ty, canonAlias st.aliasMap addr) with
      | some src => { st with aliasMap := (rv, src) :: st.aliasMap, changed := true }
      | none => st
  | _ => st

/-- One statement of the sweep; its result is `rv`. -/
def forwardIrStmt (st : IrForwardState) (rv : ℕ) (s : StoredStmt) : StoredStmt × IrForwardState :=
  let (s, rewritten) := applyAliasesIrStmt st.aliasMap (st.idempotent table) s
  let st := { st with changed := st.changed || rewritten }
  (s, (st.gather table rv s).forward rv s)

def forwardIrStmtsFrom (st : IrForwardState) (rv : ℕ) :
    List StoredStmt → List StoredStmt × IrForwardState
  | [] => ([], st)
  | s :: rest =>
      let (s, st) := forwardIrStmt table st rv s
      let (rest, st) := forwardIrStmtsFrom st (rv + 1) rest
      (s :: rest, st)

/-- The loop over the statements of a block with these parameters; `none` when an id `base + i`
overflows. -/
def forwardIrStmts (params : List TypeId) (incoming : IrStoreCache) (stmts : List StoredStmt) :
    Option (List StoredStmt × IrForwardState) :=
  if params.length + stmts.length ≤ u32Max + 1 then
    some (forwardIrStmtsFrom table (.start params incoming) params.length stmts)
  else none

/-- `store_forward_ir_block_with_cache`: the block, the flag and the outgoing cache. -/
def forwardIrBlockWithCache {P : Type} (block : StoredBlock P) (incoming : IrStoreCache) :
    Option (StoredBlock P × Bool × IrStoreCache) :=
  (forwardIrStmts table block.params incoming block.kinds).map fun (kinds, st) =>
    let (terminator, rewritten) := applyAliasesIrTerminator st.aliasMap block.terminator
    (⟨block.params, block.stmts.zipWith (fun node kind => { node with kind := kind }) kinds,
      terminator⟩, st.changed || rewritten, st.cache)

end

end VolarIR.Opt
