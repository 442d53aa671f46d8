import VolarIR.Field.TypeTable
import VolarIR.Field.Solinas
import VolarIR.Library.SortedMap

/-!
# Volar IR: typed blocks

The shared statement type of `volar-ir-common` at the var and address types of Volar IR, and
the blocks of `volar-ir/src/ir.rs`. A block has typed parameters followed by one value per
statement, and every operand is the position of an earlier value.
-/
namespace VolarIR

structure Constant where
  hi : BitVec 128
  lo : BitVec 128
  deriving DecidableEq, Repr

namespace Constant

def zero : Constant := ⟨0, 0⟩

/-- Bit `k`; there is none from 256 on. -/
def bit (c : Constant) (k : ℕ) : Bool :=
  if k < 128 then c.lo.getLsbD k else c.hi.getLsbD (k - 128)

def toNat (c : Constant) : ℕ := c.hi.toNat * 2 ^ 128 + c.lo.toNat

theorem toNat_injective : Function.Injective toNat := by
  intro c d h
  have hc := c.lo.isLt
  have hd := d.lo.isLt
  have hhi : c.hi.toNat = d.hi.toNat := by unfold toNat at h; omega
  have hlo : c.lo.toNat = d.lo.toNat := by unfold toNat at h; omega
  cases c
  cases d
  exact congrArg₂ Constant.mk (BitVec.eq_of_toNat_eq hhi) (BitVec.eq_of_toNat_eq hlo)

instance : LinearOrder Constant := LinearOrder.lift' toNat toNat_injective

end Constant

namespace Ir

/-- The monomials of a polynomial with their coefficients, in the lexicographic order of the
monomials' vars. -/
abbrev PolyCoeffs := SortedMap (List ℕ) U8

/-- One statement. The polynomial's coefficients count repetitions of their monomials. -/
inductive IRStmt where
  | storageRead (storage : StorageId) (ty : TypeId) (addr : ℕ)
  | storageWrite (storage : StorageId) (src : ℕ) (ty : TypeId) (addr : ℕ)
  | const (c : Constant) (ty : TypeId)
  | transmute (src : ℕ) (srcTy dstTy : TypeId)
  | poly (ty : TypeId) (coeffs : PolyCoeffs) (constant : Constant)
  | rol (src : ℕ) (ty : TypeId) (n : ℕ)
  | ror (src : ℕ) (ty : TypeId) (n : ℕ)
  | merge (parts : List ℕ) (ty : TypeId)
  | splat (src : ℕ) (ty : TypeId)
  | shuffle (resultBits : List (U8 × ℕ)) (ty : TypeId)
  | oracleCall (name : String) (args : List ℕ) (outputTys : List TypeId) (resultTy : TypeId)
  | oracleOutput (call idx : ℕ) (ty : TypeId)
  | actionCall (name : String) (guard : ℕ) (args fallbacks : List ℕ) (outputTys : List TypeId)
      (resultTy : TypeId)
  | actionStore (name : String) (guard : ℕ) (args fallbacks : List ℕ) (outputTys : List TypeId)
      (targets : List (StorageId × ℕ))
  | actionOutput (call idx : ℕ) (ty : TypeId)
  | rng (name : String) (ty : TypeId)
  deriving DecidableEq

namespace IRStmt

/-- Every operand, in the order `map_var` visits them. -/
def operands : IRStmt → List ℕ
  | storageRead _ _ addr => [addr]
  | storageWrite _ src _ addr => [src, addr]
  | const .. | rng .. => []
  | transmute src .. | rol src .. | ror src .. | splat src .. => [src]
  | poly _ coeffs _ => coeffs.entries.flatMap Prod.fst
  | merge parts _ => parts
  | shuffle resultBits _ => resultBits.map Prod.snd
  | oracleCall _ args .. => args
  | oracleOutput call .. | actionOutput call .. => [call]
  | actionCall _ guard args fallbacks .. => guard :: args ++ fallbacks
  | actionStore _ guard args fallbacks _ targets =>
      guard :: args ++ fallbacks ++ targets.map Prod.snd

/-- `map_var` with a total function. The monomials of a polynomial are collected again; when
two become equal, the later coefficient stays. -/
def mapVars (g : ℕ → ℕ) : IRStmt → IRStmt
  | storageRead storage ty addr => storageRead storage ty (g addr)
  | storageWrite storage src ty addr => storageWrite storage (g src) ty (g addr)
  | const c ty => const c ty
  | transmute src srcTy dstTy => transmute (g src) srcTy dstTy
  | poly ty coeffs constant =>
      poly ty (.ofList (coeffs.entries.map fun e => (e.1.map g, e.2))) constant
  | rol src ty n => rol (g src) ty n
  | ror src ty n => ror (g src) ty n
  | merge parts ty => merge (parts.map g) ty
  | splat src ty => splat (g src) ty
  | shuffle resultBits ty => shuffle (resultBits.map fun e => (e.1, g e.2)) ty
  | oracleCall name args outputTys resultTy => oracleCall name (args.map g) outputTys resultTy
  | oracleOutput call idx ty => oracleOutput (g call) idx ty
  | actionCall name guard args fallbacks outputTys resultTy =>
      actionCall name (g guard) (args.map g) (fallbacks.map g) outputTys resultTy
  | actionStore name guard args fallbacks outputTys targets =>
      actionStore name (g guard) (args.map g) (fallbacks.map g) outputTys
        (targets.map fun e => (e.1, g e.2))
  | actionOutput call idx ty => actionOutput (g call) idx ty
  | rng name ty => rng name ty

/-- `stmt_output_type`: a statement that only stores has none. -/
def outputType : IRStmt → Option TypeId
  | const _ ty | poly ty .. | rol _ ty _ | ror _ ty _ | merge _ ty | splat _ ty | shuffle _ ty
  | oracleOutput _ _ ty | actionOutput _ _ ty | rng _ ty | storageRead _ ty _ => some ty
  | transmute _ _ dstTy => some dstTy
  | oracleCall _ _ _ resultTy | actionCall _ _ _ _ _ resultTy => some resultTy
  | actionStore .. | storageWrite .. => none

@[simp] theorem outputType_mapVars (g : ℕ → ℕ) (s : IRStmt) :
    (s.mapVars g).outputType = s.outputType := by
  cases s <;> rfl

theorem operands_mapVars_subset (g : ℕ → ℕ) (s : IRStmt) :
    (s.mapVars g).operands ⊆ s.operands.map g := by
  cases s with
  | poly ty coeffs constant =>
      intro v hv
      obtain ⟨e, he, hve⟩ := List.mem_flatMap.mp hv
      have hkey := SortedMap.mem_keys_ofList.mp (List.mem_map_of_mem (f := Prod.fst) he)
      rw [List.map_map] at hkey
      obtain ⟨d, hd, hde⟩ := List.mem_map.mp hkey
      rw [← hde] at hve
      obtain ⟨u, hu, huv⟩ := List.mem_map.mp hve
      exact List.mem_map.mpr ⟨u, List.mem_flatMap.mpr ⟨d, hd, hu⟩, huv⟩
  | _ => simp [operands, mapVars, Function.comp_def]

theorem mapVars_congr {g h : ℕ → ℕ} {s : IRStmt} (heq : ∀ v ∈ s.operands, g v = h v) :
    s.mapVars g = s.mapVars h := by
  cases s with
  | poly ty coeffs constant =>
      have hentries : (coeffs.entries.map fun e => (e.1.map g, e.2)) =
          coeffs.entries.map fun e => (e.1.map h, e.2) := by
        apply List.map_congr_left
        intro e he
        rw [List.map_congr_left fun v hv => heq v (List.mem_flatMap.mpr ⟨e, he, hv⟩)]
      simp only [mapVars, hentries]
  | shuffle resultBits ty =>
      have hbits : (resultBits.map fun e => (e.1, g e.2)) =
          resultBits.map fun e => (e.1, h e.2) := by
        apply List.map_congr_left
        intro e he
        rw [heq e.2 (List.mem_map_of_mem he)]
      simp only [mapVars, hbits]
  | actionStore name guard args fallbacks outputTys targets =>
      simp only [operands, List.forall_mem_append, List.forall_mem_cons] at heq
      have htargets : (targets.map fun e => (e.1, g e.2)) =
          targets.map fun e => (e.1, h e.2) := by
        apply List.map_congr_left
        intro e he
        rw [heq.2 e.2 (List.mem_map_of_mem he)]
      simp only [mapVars, heq.1.1.1, List.map_congr_left heq.1.1.2, List.map_congr_left heq.1.2,
        htargets]
  | _ => simp_all [operands, mapVars]

theorem mapVars_id (s : IRStmt) : s.mapVars id = s := by
  cases s with
  | poly ty coeffs constant =>
      have hsame : (SortedMap.ofList coeffs.entries : PolyCoeffs) = coeffs :=
        SortedMap.ext (SortedMap.entries_ofList_of_sorted coeffs.sorted)
      simp [mapVars, hsame]
  | _ => simp [mapVars]

theorem mapVars_eq_self {g : ℕ → ℕ} {s : IRStmt} (h : ∀ v ∈ s.operands, g v = v) :
    s.mapVars g = s := by
  rw [mapVars_congr h]
  exact mapVars_id s

end IRStmt

def StrictOn (g : ℕ → ℕ) (vars : List ℕ) : Prop :=
  ∀ u ∈ vars, ∀ v ∈ vars, u < v → g u < g v

theorem StrictOn.subset {g : ℕ → ℕ} {vars vars' : List ℕ} (h : StrictOn g vars)
    (hsub : vars' ⊆ vars) : StrictOn g vars' :=
  fun u hu v hv huv => h u (hsub hu) v (hsub hv) huv

theorem StrictOn.map_lt {g : ℕ → ℕ} {xs ys : List ℕ} (h : StrictOn g (xs ++ ys))
    (hlt : xs < ys) : xs.map g < ys.map g := by
  induction xs generalizing ys with
  | nil =>
      cases ys with
      | nil => exact absurd hlt (lt_irrefl _)
      | cons y ys => exact List.nil_lt_cons _ _
  | cons x xs ih =>
      cases ys with
      | nil => exact absurd hlt (List.not_lt_nil _)
      | cons y ys =>
          rw [List.map_cons, List.map_cons, List.cons_lt_cons_iff]
          rcases List.cons_lt_cons_iff.mp hlt with hxy | ⟨hxy, hrest⟩
          · have hx : x ∈ x :: xs ++ y :: ys := List.mem_cons_self
            exact Or.inl (h x hx y (List.mem_append_right _ List.mem_cons_self) hxy)
          · have hsub : xs ++ ys ⊆ x :: xs ++ y :: ys := by
              intro v hv
              rcases List.mem_append.mp hv with hv | hv
              · exact List.mem_append_left _ (List.mem_cons_of_mem x hv)
              · exact List.mem_append_right _ (List.mem_cons_of_mem y hv)
            exact Or.inr ⟨congrArg g hxy, ih (h.subset hsub) hrest⟩

theorem entries_mapVars {g : ℕ → ℕ} {coeffs : PolyCoeffs}
    (h : StrictOn g (coeffs.entries.flatMap Prod.fst)) :
    (SortedMap.ofList (coeffs.entries.map fun e => (e.1.map g, e.2)) : PolyCoeffs).entries =
      coeffs.entries.map fun e => (e.1.map g, e.2) := by
  apply SortedMap.entries_ofList_of_sorted
  apply List.pairwise_map.mpr
  apply List.Pairwise.imp_of_mem _ coeffs.sorted
  intro a b ha hb hab
  apply StrictOn.map_lt (h.subset _) hab
  intro v hv
  rcases List.mem_append.mp hv with hv | hv
  · exact List.mem_flatMap.mpr ⟨a, ha, hv⟩
  · exact List.mem_flatMap.mpr ⟨b, hb, hv⟩

structure IRBranchTarget where
  dest : IRBlockTargetId ℕ
  args : List ℕ
  deriving DecidableEq

inductive IRTerminator where
  | jmp (target : IRBranchTarget)
  | jumpCond (condition : ℕ) (thenTarget elseTarget : IRBranchTarget)
  | jumpTable (index : ℕ) (cases : SortedMap Constant IRBranchTarget)
  deriving DecidableEq

namespace IRBranchTarget

def operands (t : IRBranchTarget) : List ℕ :=
  match t.dest with
  | .dyn v => v :: t.args
  | _ => t.args

def mapVars (g : ℕ → ℕ) (t : IRBranchTarget) : IRBranchTarget where
  dest := match t.dest with
    | .block b => .block b
    | .ret => .ret
    | .dyn v => .dyn (g v)
  args := t.args.map g

@[simp] theorem operands_mapVars (g : ℕ → ℕ) (t : IRBranchTarget) :
    (t.mapVars g).operands = t.operands.map g := by
  obtain ⟨dest, args⟩ := t
  cases dest <;> rfl

theorem mapVars_eq_self {g : ℕ → ℕ} {t : IRBranchTarget} (h : ∀ v ∈ t.operands, g v = v) :
    t.mapVars g = t := by
  obtain ⟨dest, args⟩ := t
  have hargs : ∀ {vs : List ℕ}, (∀ v ∈ vs, g v = v) → vs.map g = vs := fun h =>
    (List.map_congr_left h).trans (List.map_id _)
  cases dest with
  | block b => exact congrArg (IRBranchTarget.mk (.block b)) (hargs h)
  | ret => exact congrArg (IRBranchTarget.mk .ret) (hargs h)
  | dyn v =>
      simp only [operands, List.forall_mem_cons] at h
      simp only [mapVars, h.1, hargs h.2]

end IRBranchTarget

namespace IRTerminator

def operands : IRTerminator → List ℕ
  | jmp t => t.operands
  | jumpCond condition t e => condition :: t.operands ++ e.operands
  | jumpTable index cases => index :: cases.entries.flatMap fun e => e.2.operands

def mapVars (g : ℕ → ℕ) : IRTerminator → IRTerminator
  | jmp t => jmp (t.mapVars g)
  | jumpCond condition t e => jumpCond (g condition) (t.mapVars g) (e.mapVars g)
  | jumpTable index cases => jumpTable (g index) (cases.mapValues (IRBranchTarget.mapVars g))

@[simp] theorem operands_mapVars (g : ℕ → ℕ) (t : IRTerminator) :
    (t.mapVars g).operands = t.operands.map g := by
  cases t <;> simp [operands, mapVars, List.flatMap_map, List.map_flatMap]

theorem mapVars_eq_self {g : ℕ → ℕ} {t : IRTerminator} (h : ∀ v ∈ t.operands, g v = v) :
    t.mapVars g = t := by
  cases t with
  | jmp t => exact congrArg jmp (IRBranchTarget.mapVars_eq_self h)
  | jumpCond condition t e =>
      simp only [operands, List.cons_append, List.forall_mem_cons, List.forall_mem_append] at h
      simp only [mapVars, h.1, IRBranchTarget.mapVars_eq_self h.2.1,
        IRBranchTarget.mapVars_eq_self h.2.2]
  | jumpTable index cases =>
      simp only [operands, List.forall_mem_cons] at h
      have hcases : cases.mapValues (IRBranchTarget.mapVars g) = cases := by
        apply SortedMap.ext
        rw [SortedMap.entries_mapValues]
        refine (List.map_congr_left fun e he => ?_).trans (List.map_id _)
        rw [IRBranchTarget.mapVars_eq_self fun v hv => h.2 v (List.mem_flatMap.mpr ⟨e, he, hv⟩)]
        rfl
      simp only [mapVars, h.1, hcases]

end IRTerminator

structure IRBlock (P : Type) where
  params : List TypeId
  stmts : List (Node IRStmt P)
  terminator : IRTerminator
  deriving DecidableEq

namespace IRBlock
variable {P : Type}

def kinds (b : IRBlock P) : List IRStmt := b.stmts.map Node.kind

def varSpace (b : IRBlock P) : ℕ := b.params.length + b.stmts.length

@[simp] theorem length_kinds (b : IRBlock P) : b.kinds.length = b.stmts.length := by
  simp [kinds]

end IRBlock

/-- The ids `params.len() + i` of a block's results are `u32`s. -/
def IRBlock.IdsFit {P : Type} (b : IRBlock P) : Prop :=
  b.params.length + b.stmts.length ≤ u32Max + 1

instance {P : Type} : DecidablePred (IRBlock.IdsFit (P := P)) := fun _ => Nat.decLe _ _

structure IRBlocks (P : Type) where
  blocks : List (IRBlock P)
  deriving DecidableEq

end Ir
end VolarIR
