import VolarIR.Common.PolyCoeffsSound
import VolarIR.Ir.Eval

/-!
# Volar IR as it is stored

A `Poly` keeps its monomials in a list, which `from_iter` and `entry` of `volar-ir-common` leave
neither always in one order nor without repetitions. Here are the statements and blocks with that
list. The interpreter goes through it entry by entry, so that a repeated monomial counts each time.
-/
namespace VolarIR.Ir

def IRStmt.isPoly : IRStmt → Bool
  | poly .. => true
  | _ => false

@[simp] theorem IRStmt.isPoly_mapVars (g : ℕ → ℕ) (s : IRStmt) :
    (s.mapVars g).isPoly = s.isPoly := by
  cases s <;> rfl

/-- A statement other than a `Poly`. -/
abbrev PlainStmt := {s : IRStmt // s.isPoly = false}

inductive StoredStmt where
  | poly (ty : TypeId) (coeffs : Common.PolyCoeffs ℕ) (constant : Constant)
  | plain (s : PlainStmt)
  deriving DecidableEq

namespace StoredStmt

/-- Every operand, in the order `map_var` visits them. -/
def operands : StoredStmt → List ℕ
  | poly _ coeffs _ => coeffs.iter.flatMap Prod.fst
  | plain s => s.1.operands

def outputType : StoredStmt → Option TypeId
  | poly ty .. => some ty
  | plain s => s.1.outputType

/-- `map_var` with a total function: the monomials are collected again. -/
def mapVars (g : ℕ → ℕ) : StoredStmt → StoredStmt
  | poly ty coeffs constant =>
      poly ty (.fromIter (coeffs.iter.map fun e => (e.1.map g, e.2))) constant
  | plain s => plain ⟨s.1.mapVars g, (IRStmt.isPoly_mapVars g s.1).trans s.2⟩

/-- `t` is `s` with its operands renamed. The monomials of a polynomial may stand in another
order. -/
inductive Renamed (g : ℕ → ℕ) : StoredStmt → StoredStmt → Prop
  | poly {ty : TypeId} {coeffs coeffs' : Common.PolyCoeffs ℕ} {constant : Constant}
      (perm : coeffs'.iter.Perm (coeffs.iter.map fun e => (e.1.map g, e.2))) :
      Renamed g (poly ty coeffs constant) (poly ty coeffs' constant)
  | plain (s : PlainStmt) : Renamed g (plain s) ((plain s).mapVars g)

end StoredStmt

structure StoredBlock (P : Type) where
  params : List TypeId
  stmts : List (Node StoredStmt P)
  terminator : IRTerminator
  deriving DecidableEq

namespace StoredBlock
variable {P : Type}

def kinds (b : StoredBlock P) : List StoredStmt := b.stmts.map Node.kind

def varSpace (b : StoredBlock P) : ℕ := b.params.length + b.stmts.length

@[simp] theorem length_kinds (b : StoredBlock P) : b.kinds.length = b.stmts.length := by
  simp [kinds]

def WellFormed (b : StoredBlock P) : Prop :=
  Ssa.Defined StoredStmt.operands b.params.length b.kinds ∧
    ∀ v ∈ b.terminator.operands, v < b.varSpace

instance (b : StoredBlock P) : Decidable b.WellFormed := inferInstanceAs (Decidable (_ ∧ _))

end StoredBlock

structure StoredBlocks (P : Type) where
  blocks : List (StoredBlock P)
  deriving DecidableEq

def storedTerms (coeffs : Common.PolyCoeffs ℕ) (look : ℕ → Value) : List ValueTerm :=
  coeffs.iter.map fun e => (e.1.map look, e.2)

section
variable (table : TypeTable) (world : Externals)

def StoredStmt.eval (σ : EvalState) (look : ℕ → Value) : StoredStmt → Value × EvalState
  | poly ty coeffs constant =>
      (⟨(evalTerms table ty constant (storedTerms coeffs look)).getD [], some ty, []⟩, σ)
  | plain s => evalStmt table world σ look s.1

theorem StoredStmt.eval_congr (s : StoredStmt) (σ : EvalState) {f g : ℕ → Value}
    (h : ∀ v ∈ s.operands, f v = g v) : s.eval table world σ f = s.eval table world σ g := by
  cases s with
  | poly ty coeffs constant =>
      have hterms : storedTerms coeffs f = storedTerms coeffs g := by
        apply List.map_congr_left
        intro e he
        rw [List.map_congr_left fun v hv => h v (List.mem_flatMap.mpr ⟨e, he, hv⟩)]
      simp only [StoredStmt.eval, hterms]
  | plain s => exact (language table world).eval_congr s.1 σ h

def storedLanguage : Ssa.Language StoredStmt Value EvalState where
  operands := StoredStmt.operands
  eval σ look s := s.eval table world σ look
  eval_congr s σ _ _ h := s.eval_congr table world σ h

variable {P : Type}

namespace StoredBlock

def frame (b : StoredBlock P) (args : List (List Bool)) (σ : EvalState) :
    Ssa.Frame Value EvalState :=
  (storedLanguage table world).run ⟨paramValues b.params args, σ⟩ b.kinds

/-- `eval_ir_block`: the statements, then the terminator. `none` is a panic. -/
def eval (b : StoredBlock P) (args : List (List Bool)) (σ : EvalState) :
    Option (BlockResult × EvalState) :=
  if args.length = b.params.length then
    let f := b.frame table world args σ
    (evalTerminator (Ssa.look f.vals) b.terminator).map fun r => (r, f.st)
  else none

end StoredBlock

namespace StoredBlocks

def step (p : StoredBlocks P) : Config → Config
  | .running cur args σ =>
      match p.blocks[cur]? with
      | none => .stuck
      | some b => .next (handedOn (b.eval table world args (σ.enter cur)))
  | c => c

/-- The run after at most `budget` blocks. -/
def run (p : StoredBlocks P) (budget : ℕ) (c : Config) : Config :=
  (p.step table world)^[budget] c

end StoredBlocks

end

/-- Two programs whose blocks hand on alike run alike. -/
theorem StoredBlocks.run_congr {P : Type} {table : TypeTable} {world world' : Externals}
    {p q : StoredBlocks P} (hlen : p.blocks.length = q.blocks.length)
    (h : ∀ (i : ℕ) (b c : StoredBlock P), p.blocks[i]? = some b → q.blocks[i]? = some c →
      ∀ args (σ : EvalState), handedOn (b.eval table world args (σ.enter i)) =
        handedOn (c.eval table world' args (σ.enter i))) (budget : ℕ) (c : Config) :
    p.run table world budget c = q.run table world' budget c := by
  have hstep : ∀ c, p.step table world c = q.step table world' c := by
    intro c
    cases c with
    | returned vals σ => rfl
    | stuck => rfl
    | running cur args σ =>
        by_cases hcur : cur < p.blocks.length
        · have hp : p.blocks[cur]? = some p.blocks[cur] := List.getElem?_eq_getElem hcur
          have hlt : cur < q.blocks.length := hlen ▸ hcur
          have hq : q.blocks[cur]? = some q.blocks[cur] := List.getElem?_eq_getElem hlt
          simp only [step, hp, hq, h cur _ _ hp hq]
        · simp [step, List.getElem?_eq_none (Nat.le_of_not_lt hcur),
            List.getElem?_eq_none (hlen ▸ Nat.le_of_not_lt hcur)]
  unfold run
  rw [funext hstep]

end VolarIR.Ir
