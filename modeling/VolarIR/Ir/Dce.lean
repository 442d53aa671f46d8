import VolarIR.Ir.Stored

/-!
# Volar IR dead-code elimination

`dce_ir_blocks_with_remap_and_roots` of `volar-ir-opt/src/ir.rs`. What has an effect, what the
terminator and the extra roots name, and what any of these uses is live; the live statements
are compacted in place and every operand goes through a dense renumbering.
-/
namespace VolarIR.Ir

/-- `map_var`: rewrite every operand, stopping at the first failure. -/
def PlainStmt.map {m : Type → Type} [Monad m] (go : ℕ → m ℕ) : PlainStmt → m PlainStmt
  | ⟨.storageRead storage ty addr, _⟩ => do return ⟨.storageRead storage ty (← go addr), rfl⟩
  | ⟨.storageWrite storage src ty addr, _⟩ => do
      return ⟨.storageWrite storage (← go src) ty (← go addr), rfl⟩
  | ⟨.const c ty, _⟩ => return ⟨.const c ty, rfl⟩
  | ⟨.transmute src srcTy dstTy, _⟩ => do return ⟨.transmute (← go src) srcTy dstTy, rfl⟩
  | ⟨.poly .., h⟩ => nomatch h
  | ⟨.rol src ty n, _⟩ => do return ⟨.rol (← go src) ty n, rfl⟩
  | ⟨.ror src ty n, _⟩ => do return ⟨.ror (← go src) ty n, rfl⟩
  | ⟨.merge parts ty, _⟩ => do return ⟨.merge (← parts.mapM go) ty, rfl⟩
  | ⟨.splat src ty, _⟩ => do return ⟨.splat (← go src) ty, rfl⟩
  | ⟨.shuffle resultBits ty, _⟩ => do
      return ⟨.shuffle (← resultBits.mapM fun e => do return (e.1, ← go e.2)) ty, rfl⟩
  | ⟨.oracleCall name args outputTys resultTy, _⟩ => do
      return ⟨.oracleCall name (← args.mapM go) outputTys resultTy, rfl⟩
  | ⟨.oracleOutput call idx ty, _⟩ => do return ⟨.oracleOutput (← go call) idx ty, rfl⟩
  | ⟨.actionCall name guard args fallbacks outputTys resultTy, _⟩ => do
      return ⟨.actionCall name (← go guard) (← args.mapM go) (← fallbacks.mapM go) outputTys
        resultTy, rfl⟩
  | ⟨.actionStore name guard args fallbacks outputTys targets, _⟩ => do
      return ⟨.actionStore name (← go guard) (← args.mapM go) (← fallbacks.mapM go) outputTys
        (← targets.mapM fun e => do return (e.1, ← go e.2)), rfl⟩
  | ⟨.actionOutput call idx ty, _⟩ => do return ⟨.actionOutput (← go call) idx ty, rfl⟩
  | ⟨.rng name ty, _⟩ => return ⟨.rng name ty, rfl⟩

def mapDest {m : Type → Type} [Monad m] (go : ℕ → m ℕ) :
    IRBlockTargetId ℕ → m (IRBlockTargetId ℕ)
  | .block b => return .block b
  | .ret => return .ret
  | .dyn v => do return .dyn (← go v)

def IRBranchTarget.map {m : Type → Type} [Monad m] (go : ℕ → m ℕ) (t : IRBranchTarget) :
    m IRBranchTarget := do
  return ⟨← mapDest go t.dest, ← t.args.mapM go⟩

def IRTerminator.map {m : Type → Type} [Monad m] (go : ℕ → m ℕ) : IRTerminator → m IRTerminator
  | jmp t => do return jmp (← t.map go)
  | jumpCond condition t e => do return jumpCond (← go condition) (← t.map go) (← e.map go)
  | jumpTable index cases => do
      let index ← go index
      let entries ← cases.entries.mapM fun e => do return (e.1, ← e.2.map go)
      return jumpTable index (.ofList entries)

namespace StoredStmt

/-- The monomials of a polynomial are collected again; of two that are equal the later
coefficient stays. -/
def map {m : Type → Type} [Monad m] (go : ℕ → m ℕ) : StoredStmt → m StoredStmt
  | poly ty coeffs constant => do
      let entries ← coeffs.iter.mapM fun e => do return (← e.1.mapM go, e.2)
      return poly ty (.fromIter entries) constant
  | plain s => do return plain (← PlainStmt.map go s)

/-- The statements that are never dropped for themselves. -/
def isEffect : StoredStmt → Bool
  | plain ⟨.storageWrite .., _⟩ | plain ⟨.actionCall .., _⟩ | plain ⟨.actionStore .., _⟩ => true
  | _ => false

/-- The call whose result an `ActionOutput` is. -/
def projects : StoredStmt → Option ℕ
  | plain ⟨.actionOutput call _ _, _⟩ => some call
  | _ => none

end StoredStmt

def flag (flags : List Bool) (i : ℕ) : Bool := flags.getD i false

/-- Keep the statement at position `i` if it is the result of a kept call. -/
def keepOutput (nParams : ℕ) (stmts : List StoredStmt) (keep : List Bool) (i : ℕ) : List Bool :=
  match stmts[i]?.bind StoredStmt.projects with
  | some call => if nParams ≤ call ∧ flag keep (call - nParams) then keep.set i true else keep
  | none => keep

/-- `must_keep`: the effects, then the results of a kept call. -/
def mustKeep (nParams : ℕ) (stmts : List StoredStmt) : List Bool :=
  (List.range stmts.length).foldl (keepOutput nParams stmts) (stmts.map StoredStmt.isEffect)

/-- Mark a var if it is the result of a statement before position `bound`. -/
def markBelow (nParams bound : ℕ) (live : List Bool) (v : ℕ) : List Bool :=
  if nParams ≤ v ∧ v - nParams < bound then live.set (v - nParams) true else live

/-- The reverse sweep over the first `i` statements: a live statement's operands are live. -/
def closeLive (nParams : ℕ) (stmts : List StoredStmt) : (i : ℕ) → List Bool → List Bool
  | 0, live => live
  | i + 1, live =>
      closeLive nParams stmts i
        (if flag live i then
          ((stmts[i]?.map StoredStmt.operands).getD []).foldl (markBelow nParams i) live
        else live)

/-- `new_idx` from `newIdx` on for the live statements and the mark `u32::MAX` for a dead one;
`none` when `new_idx` overflows. -/
def number : (newIdx : ℕ) → List Bool → Option (List ℕ)
  | _, [] => some []
  | newIdx, true :: live =>
      if newIdx < u32Max then (number (newIdx + 1) live).map (newIdx :: ·) else none
  | newIdx, false :: live => (number newIdx live).map (u32Max :: ·)

/-- Parameters keep their numbers. The casts to `u32` truncate. -/
def denseRemap (nParams : ℕ) (live : List Bool) : Option (List ℕ) :=
  (number (nParams % (u32Max + 1)) live).map
    ((List.range nParams).map (· % (u32Max + 1)) ++ ·)

/-- The source asserts that what a live statement names is live itself. -/
def remapVar (remap : List ℕ) (v : ℕ) : Outcome Empty ℕ := do
  let nv ← expect remap[v]?
  if nv = u32Max then .error .panic else .ok nv

section
variable {P : Type}

def liveness (block : StoredBlock P) (extraLive : List ℕ) : List Bool :=
  let nParams := block.params.length
  let nStmts := block.stmts.length
  closeLive nParams block.kinds nStmts
    ((block.terminator.operands ++ extraLive).foldl (markBelow nParams nStmts)
      (mustKeep nParams block.kinds))

/-- One turn of the compaction: take the node out, remap it, put it back at the cursor. -/
def compactStep (live : List Bool) (remap : List ℕ) (firstProv : Option P)
    (state : List (Node StoredStmt P) × ℕ) (r : ℕ) :
    Outcome Empty (List (Node StoredStmt P) × ℕ) :=
  if flag live r then do
    let dummy : Node StoredStmt P := ⟨.plain ⟨.const .zero ⟨0⟩, rfl⟩, ← expect firstProv, none⟩
    let node ← expect state.1[r]?
    let stmts := state.1.set r dummy
    let kind ← node.kind.map (remapVar remap)
    .ok (stmts.set state.2 { node with kind := kind }, state.2 + 1)
  else .ok state

/-- `dce_ir_block_once`: the block, whether it changed, and the renumbering. -/
def dceBlockOnce (block : StoredBlock P) (extraLive : List ℕ) :
    Outcome Empty (StoredBlock P × Bool × List ℕ) := do
  let nParams := block.params.length
  let nStmts := block.stmts.length
  let live := liveness block extraLive
  if live.all id then .ok (block, false, List.range ((nParams + nStmts) % (u32Max + 1)))
  else
    let remap ← expect (denseRemap nParams live)
    let (stmts, write) ← (List.range nStmts).foldlM
      (compactStep live remap ((block.stmts.head?).map Node.prov)) (block.stmts, 0)
    let terminator ← block.terminator.map (remapVar remap)
    .ok (⟨block.params, stmts.take write, terminator⟩, true, remap)

/-- `dce_ir_blocks_with_remap_and_roots`. -/
def dceBlocks (blocks : StoredBlocks P) (extraLive : List ℕ) :
    Outcome Empty (StoredBlocks P × Bool × List (List ℕ)) := do
  let results ← blocks.blocks.mapM fun block => dceBlockOnce block extraLive
  .ok (⟨results.map Prod.fst⟩, results.any fun r => r.2.1, results.map fun r => r.2.2)

end

end VolarIR.Ir
