import VolarIR.Ir.Typing
import VolarIR.Library.Preorder
import VolarIR.Field.ProductSound

/-!
# CFG layout before movfuscation

`cfg_layout.rs`: blocks that cannot be reached from the entry are pruned and the others put
in depth-first order, with the block ids in targets and in block-typed literals renumbered.
-/
namespace VolarIR

def TypeTable.blockParams (types : TypeTable) (ty : TypeId) : Option (List TypeId) :=
  match types.get ty with
  | some (.block params) => some params
  | _ => none

namespace Movfuscate
open Ir

/-- Whether a terminator has a target that is only known at run time. -/
def hasDynamic (t : IRTerminator) : Bool :=
  t.targets.any fun t => match t.dest with
    | .dyn _ => true
    | _ => false

/-- The blocks that `visit` goes on to: the named targets, and after a dynamic one all. -/
def visitNext {P : Type} (blocks : IRBlocks P) (block : ℕ) : List ℕ :=
  match blocks.blocks[block]? with
  | none => []
  | some b =>
      let named := b.terminator.targets.filterMap fun t => match t.dest with
        | .block id => some id
        | _ => none
      if hasDynamic b.terminator then named ++ List.range blocks.blocks.length else named

def layoutOrder {P : Type} (blocks : IRBlocks P) : List ℕ :=
  Preorder.preorder (visitNext blocks) blocks.blocks.length 0

/-- A target that was not retained is a panic. -/
def remapTarget (order : List ℕ) (target : IRBranchTarget) : Option IRBranchTarget :=
  match target.dest with
  | .block old => (order.idxOf? old).map fun new => { target with dest := .block new }
  | _ => some target

def remapTerminator (order : List ℕ) : IRTerminator → Option IRTerminator
  | .jmp target => (remapTarget order target).map .jmp
  | .jumpCond condition thenTarget elseTarget => do
      some (.jumpCond condition (← remapTarget order thenTarget) (← remapTarget order elseTarget))
  | .jumpTable index cases => do
      let cases ← cases.entries.mapM fun e => (remapTarget order e.2).map fun t => (e.1, t)
      some (.jumpTable index (.ofList cases))

def remapConst (types : TypeTable) (order : List ℕ) : IRStmt → IRStmt
  | .const c ty =>
      match types.blockParams ty, order.idxOf? (c.lo.setWidth 64).toNat with
      | some _, some new => .const { c with lo := BitVec.ofNat 128 new } ty
      | _, _ => .const c ty
  | s => s

def remapBlock {P : Type} (types : TypeTable) (order : List ℕ) (b : IRBlock P) :
    Option (IRBlock P) :=
  (remapTerminator order b.terminator).map fun terminator =>
    { b with
      stmts := b.stmts.map fun s => { s with kind := remapConst types order s.kind }
      terminator := terminator }

/-- `layout_cfg_for_movfuscation_typed`. -/
def layoutCfgForMovfuscationTyped {P : Type} (blocks : IRBlocks P) (types : TypeTable) :
    Option (IRBlocks P) :=
  if blocks.blocks.length ≤ 1 then some blocks
  else do
    let order := layoutOrder blocks
    let laidOut ← order.mapM fun old => blocks.blocks[old]?.bind (remapBlock types order)
    some ⟨laidOut⟩

end Movfuscate
end VolarIR

/-!
## What layout keeps

The retained blocks are those a run can reach from the entry. Each of them comes once, the
entry first, and its targets name the same blocks by their new numbers.
-/
namespace VolarIR.Movfuscate
open Ir

def renumberTarget (order : List ℕ) (t : IRBranchTarget) : IRBranchTarget :=
  match t.dest with
  | .block old => { t with dest := .block (order.idxOf old) }
  | _ => t

def renumberTerminator (order : List ℕ) : IRTerminator → IRTerminator
  | .jmp t => .jmp (renumberTarget order t)
  | .jumpCond condition t e =>
      .jumpCond condition (renumberTarget order t) (renumberTarget order e)
  | .jumpTable index cases =>
      .jumpTable index (.ofList (cases.entries.map fun e => (e.1, renumberTarget order e.2)))

def renumberBlock {P : Type} (types : TypeTable) (order : List ℕ) (b : IRBlock P) : IRBlock P :=
  { b with
    stmts := b.stmts.map fun s => { s with kind := remapConst types order s.kind }
    terminator := renumberTerminator order b.terminator }

section
variable {order : List ℕ}

def Retains (order : List ℕ) (t : IRBranchTarget) : Prop := ∀ d, t.dest = .block d → d ∈ order

theorem idxOf?_of_mem {d : ℕ} (h : d ∈ order) : order.idxOf? d = some (order.idxOf d) := by
  cases hd : order.idxOf? d with
  | none =>
      rw [List.idxOf?_eq_none_iff] at hd
      exact absurd h hd
  | some i => rw [List.idxOf_eq_getD_idxOf?, hd, Option.getD_some]

theorem getElem?_idxOf {d : ℕ} (h : d ∈ order) : order[order.idxOf d]? = some d := by
  have hlt := List.idxOf_lt_length_of_mem h
  rw [List.getElem?_eq_getElem hlt, List.getElem_idxOf hlt]

theorem remapTarget_eq {t : IRBranchTarget} (h : Retains order t) :
    remapTarget order t = some (renumberTarget order t) := by
  unfold remapTarget renumberTarget
  cases hdest : t.dest with
  | block old =>
      dsimp only
      rw [idxOf?_of_mem (h old hdest)]
      rfl
  | ret | dyn => rfl

theorem remapTerminator_eq {t : IRTerminator} (h : ∀ target ∈ t.targets, Retains order target) :
    remapTerminator order t = some (renumberTerminator order t) := by
  cases t with
  | jmp t =>
      rw [remapTerminator, remapTarget_eq (h t (by simp [IRTerminator.targets]))]
      rfl
  | jumpCond condition t e =>
      rw [remapTerminator, remapTarget_eq (h t (by simp [IRTerminator.targets])),
        remapTarget_eq (h e (by simp [IRTerminator.targets]))]
      rfl
  | jumpTable index cases =>
      have hcases : (cases.entries.mapM fun e => (remapTarget order e.2).map fun t => (e.1, t)) =
          some (cases.entries.map fun e => (e.1, renumberTarget order e.2)) := by
        apply mapM_eq_some
        intro e he
        rw [remapTarget_eq (h e.2 (List.mem_map_of_mem he))]
        rfl
      rw [remapTerminator, hcases]
      rfl

end

section
variable {P : Type} {p : IRBlocks P}

def TargetsInRange (p : IRBlocks P) : Prop :=
  ∀ b ∈ p.blocks, ∀ t ∈ b.terminator.targets, ∀ d, t.dest = .block d → d < p.blocks.length

theorem layoutOrder_met (p : IRBlocks P) : Preorder.Met p.blocks.length (layoutOrder p) :=
  (Preorder.extends_preorder 0).1.valid

theorem layoutOrder_zero (h : 0 < p.blocks.length) : (layoutOrder p)[0]? = some 0 :=
  Preorder.preorder_getElem_zero h

theorem layoutOrder_closed (h : TargetsInRange p) {old : ℕ} (hold : old ∈ layoutOrder p)
    {b : IRBlock P} (hb : p.blocks[old]? = some b) {t : IRBranchTarget}
    (ht : t ∈ b.terminator.targets) : Retains (layoutOrder p) t := by
  intro d hd
  have hlt := h b (List.mem_of_getElem? hb) t ht d hd
  apply (Preorder.extends_preorder 0).1.closed old hold List.not_mem_nil d
  refine ⟨?_, hlt⟩
  have hnamed : d ∈ b.terminator.targets.filterMap fun t => match t.dest with
      | .block id => some id
      | _ => none := List.mem_filterMap.mpr ⟨t, ht, by rw [hd]⟩
  unfold visitNext
  rw [hb]
  dsimp only
  split_ifs
  · exact List.mem_append_left _ hnamed
  · exact hnamed

theorem layout_eq (types : TypeTable) (h : TargetsInRange p) (hmulti : 2 ≤ p.blocks.length) :
    ∃ q, layoutCfgForMovfuscationTyped p types = some q ∧
      q.blocks.length = (layoutOrder p).length ∧
      ∀ (j old : ℕ), (layoutOrder p)[j]? = some old → ∃ b, p.blocks[old]? = some b ∧
        q.blocks[j]? = some (renumberBlock types (layoutOrder p) b) := by
  have hfound : ∀ old ∈ layoutOrder p, ∃ b, p.blocks[old]? = some b :=
    fun old hold => ⟨_, List.getElem?_eq_getElem ((layoutOrder_met p).bound old hold)⟩
  let block : ℕ → IRBlock P := fun old =>
    renumberBlock types (layoutOrder p) ((p.blocks[old]?).getD ⟨[], [], .jmp ⟨.ret, []⟩⟩)
  have hmapM : ((layoutOrder p).mapM fun old =>
      p.blocks[old]?.bind (remapBlock types (layoutOrder p))) =
      some ((layoutOrder p).map block) := by
    apply mapM_eq_some
    intro old hold
    obtain ⟨b, hb⟩ := hfound old hold
    simp only [block, hb, Option.bind_some, Option.getD_some, remapBlock]
    rw [remapTerminator_eq fun t ht => layoutOrder_closed h hold hb ht]
    rfl
  refine ⟨⟨(layoutOrder p).map block⟩, ?_, by simp, ?_⟩
  · rw [layoutCfgForMovfuscationTyped, if_neg (by omega)]
    dsimp only
    rw [hmapM]
    rfl
  · intro j old hj
    obtain ⟨b, hb⟩ := hfound old (List.mem_of_getElem? hj)
    refine ⟨b, hb, ?_⟩
    simp [block, hj, hb]

end
end VolarIR.Movfuscate
