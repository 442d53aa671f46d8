import VolarIR.Basic

/-!
# Boolar IR: blocks of bit statements

The data model of `volar-ir/src/boolar.rs` and of the fused `BCircuit`. A block
has `params` input bits followed by one value per statement, and every operand
is the position of an earlier value in that var space (the source's `IRVarId`).
Var ids are natural numbers here; the passes that compare them with the `u32`
bound do so with an explicit `u32Max`.
-/
namespace VolarIR

namespace Boolar

/-- One Boolar statement. `oracleCall` and `actionCall` produce a call handle
whose bits the projections read; every other form produces one bit. -/
inductive BIrStmt (Var Stor : Type) where
  | zero
  | one
  | and (a b : Var)
  | or (a b : Var)
  | xor (a b : Var)
  | not (a : Var)
  | oracleCall (name : String) (args : List Var) (numBits : ℕ)
  | oracleBit (name : String) (args : List Var) (bit occurrence : ℕ)
  | oracleProjectedBit (call : Var) (bit : ℕ)
  | actionCall (name : String) (guard : Var) (args fallback : List Var) (numBits : ℕ)
  | actionBit (call : Var) (bit : ℕ)
  | actionStoreBit (name : String) (guard : Var) (args : List Var) (fallback : Var)
      (storage : Stor) (lane : LaneId) (addr : List Var) (bit occurrence : ℕ)
  | rng (name : String)
  | rngBit (name : String) (bit occurrence : ℕ)
  | storageRead (storage : Stor) (lane : LaneId) (addr : List Var)
  | storageWrite (storage : Stor) (lane : LaneId) (src : Var) (addr : List Var)
  deriving DecidableEq, Repr

abbrev Stmt := BIrStmt ℕ StorageId

structure BIrTarget (Var : Type) where
  block : IRBlockTargetId Var
  args : List Var
  deriving DecidableEq, Repr

inductive BIrTerminator (Var : Type) where
  | jmp (target : BIrTarget Var)
  | condJmp (val : Var) (thenTarget elseTarget : BIrTarget Var)
  deriving DecidableEq, Repr

structure BIrPreInitSegment where
  storage : StorageId
  lane : LaneId
  addr : List Bool
  data : List Bool
  deriving DecidableEq, Repr

structure BIrBlock (P : Type) where
  params : ℕ
  stmts : List (Node Stmt P)
  terminator : BIrTerminator ℕ
  deriving DecidableEq, Repr

/-- The ids `params + i` of a block's results are `u32`s. -/
def BIrBlock.IdsFit {P : Type} (b : BIrBlock P) : Prop := b.params + b.stmts.length ≤ u32Max + 1

instance {P : Type} : DecidablePred (BIrBlock.IdsFit (P := P)) := fun _ => Nat.decLe _ _

structure BIrBlocks (P : Type) where
  blocks : List (BIrBlock P)
  preInit : List BIrPreInitSegment
  deriving DecidableEq, Repr

/-- A single block whose only exit is `Return`, with that shape built in. -/
structure BCircuit (P : Type) where
  params : ℕ
  stmts : List (Node Stmt P)
  preInit : List BIrPreInitSegment
  outputs : List ℕ
  deriving DecidableEq, Repr

namespace BIrStmt
variable {U V W S T : Type}

/-- Every operand a statement reads, in the order the passes visit them. -/
def operands : BIrStmt V S → List V
  | zero | one | rng _ | rngBit _ _ _ => []
  | and a b | or a b | xor a b => [a, b]
  | not a => [a]
  | oracleCall _ args _ => args
  | oracleBit _ args _ _ => args
  | oracleProjectedBit call _ => [call]
  | actionCall _ guard args fallback _ => guard :: args ++ fallback
  | actionBit call _ => [call]
  | actionStoreBit _ guard args fallback _ _ addr _ _ => guard :: args ++ fallback :: addr
  | storageRead _ _ addr => addr
  | storageWrite _ _ src addr => src :: addr

def handles : BIrStmt V S → List V
  | oracleProjectedBit call _ | actionBit call _ => [call]
  | _ => []

/-- Rewrite every operand, keeping everything else. -/
def mapVars (f : V → W) : BIrStmt V S → BIrStmt W S
  | zero => zero
  | one => one
  | and a b => and (f a) (f b)
  | or a b => or (f a) (f b)
  | xor a b => xor (f a) (f b)
  | not a => not (f a)
  | oracleCall name args n => oracleCall name (args.map f) n
  | oracleBit name args bit occ => oracleBit name (args.map f) bit occ
  | oracleProjectedBit call bit => oracleProjectedBit (f call) bit
  | actionCall name guard args fallback n =>
      actionCall name (f guard) (args.map f) (fallback.map f) n
  | actionBit call bit => actionBit (f call) bit
  | actionStoreBit name guard args fallback storage lane addr bit occ =>
      actionStoreBit name (f guard) (args.map f) (f fallback) storage lane (addr.map f) bit occ
  | rng name => rng name
  | rngBit name bit occ => rngBit name bit occ
  | storageRead storage lane addr => storageRead storage lane (addr.map f)
  | storageWrite storage lane src addr => storageWrite storage lane (f src) (addr.map f)

@[simp] theorem operands_mapVars (f : V → W) (s : BIrStmt V S) :
    (s.mapVars f).operands = s.operands.map f := by
  cases s <;> simp [operands, mapVars]

@[simp] theorem handles_mapVars (f : V → W) (s : BIrStmt V S) :
    (s.mapVars f).handles = s.handles.map f := by
  cases s <;> simp [handles, mapVars]

@[simp] theorem mapVars_mapVars (f : U → V) (g : V → W) (s : BIrStmt U S) :
    (s.mapVars f).mapVars g = s.mapVars (g ∘ f) := by
  cases s <;> simp [mapVars]

@[simp] theorem mapVars_id (s : BIrStmt V S) : s.mapVars id = s := by
  cases s <;> simp [mapVars]

theorem mapVars_congr {f g : V → W} {s : BIrStmt V S}
    (h : ∀ v ∈ s.operands, f v = g v) : s.mapVars f = s.mapVars g := by
  cases s <;> simp_all [operands, mapVars]

theorem mapVars_eq_self {f : V → V} {s : BIrStmt V S}
    (h : ∀ v ∈ s.operands, f v = v) : s.mapVars f = s := by
  rw [mapVars_congr (g := id) h, mapVars_id]

/-- `BIrStmt::map`: rewrite vars and storages, stopping at the first failure. -/
def map {m : Type → Type} [Monad m] (varFn : V → m W) (storFn : S → m T) :
    BIrStmt V S → m (BIrStmt W T)
  | zero => pure zero
  | one => pure one
  | and a b => do return and (← varFn a) (← varFn b)
  | or a b => do return or (← varFn a) (← varFn b)
  | xor a b => do return xor (← varFn a) (← varFn b)
  | not a => do return not (← varFn a)
  | oracleCall name args n => do return oracleCall name (← args.mapM varFn) n
  | oracleBit name args bit occ => do return oracleBit name (← args.mapM varFn) bit occ
  | oracleProjectedBit call bit => do return oracleProjectedBit (← varFn call) bit
  | actionCall name guard args fallback n => do
      return actionCall name (← varFn guard) (← args.mapM varFn) (← fallback.mapM varFn) n
  | actionBit call bit => do return actionBit (← varFn call) bit
  | actionStoreBit name guard args fallback storage lane addr bit occ => do
      return actionStoreBit name (← varFn guard) (← args.mapM varFn) (← varFn fallback)
        (← storFn storage) lane (← addr.mapM varFn) bit occ
  | rng name => pure (rng name)
  | rngBit name bit occ => pure (rngBit name bit occ)
  | storageRead storage lane addr => do
      return storageRead (← storFn storage) lane (← addr.mapM varFn)
  | storageWrite storage lane src addr => do
      return storageWrite (← storFn storage) lane (← varFn src) (← addr.mapM varFn)

def isGate : BIrStmt V S → Bool
  | zero | one | and .. | or .. | xor .. | not .. => true
  | _ => false

def isLocal : BIrStmt V S → Bool
  | storageRead .. | storageWrite .. => true
  | s => s.isGate

theorem isLocal_of_isGate {s : BIrStmt V S} (h : s.isGate) : s.isLocal := by
  cases s <;> simp_all [isLocal, isGate]

def isRead : BIrStmt V S → Bool
  | storageRead .. => true
  | s => s.isGate

theorem isRead_of_isGate {s : BIrStmt V S} (h : s.isGate) : s.isRead := by
  cases s <;> simp_all [isRead, isGate]

theorem isLocal_of_isRead {s : BIrStmt V S} (h : s.isRead) : s.isLocal := by
  cases s <;> simp_all [isLocal, isRead, isGate]

theorem handles_of_isRead {s : BIrStmt V S} (h : s.isRead) : s.handles = [] := by
  cases s <;> first | rfl | cases h

theorem isRead_mapVars (f : V → W) (s : BIrStmt V S) : (s.mapVars f).isRead = s.isRead := by
  cases s <;> rfl

end BIrStmt

namespace BIrTarget
variable {V W : Type}

def mapVars (f : V → W) (t : BIrTarget V) : BIrTarget W where
  block := match t.block with
    | .block b => .block b
    | .ret => .ret
    | .dyn v => .dyn (f v)
  args := t.args.map f

end BIrTarget

namespace BIrTerminator
variable {V : Type}

def operands : BIrTerminator V → List V
  | jmp t => t.args
  | condJmp val t e => val :: t.args ++ e.args

end BIrTerminator

namespace BCircuit
variable {P : Type}

/-- `BCircuit::new`. -/
def new (params : ℕ) : BCircuit P := ⟨params, [], [], []⟩

def varSpace (c : BCircuit P) : ℕ := c.params + c.stmts.length

/-- `push_stmt`: the new statement's var id, and the circuit with it appended. -/
def pushStmt (c : BCircuit P) (kind : Stmt) (prov : P) : ℕ × BCircuit P :=
  (c.params + c.stmts.length, { c with stmts := c.stmts ++ [Node.new kind prov] })

def kinds (c : BCircuit P) : List Stmt := c.stmts.map Node.kind

end BCircuit

/-- Each statement's operands are defined before it, counting from `base` vars. -/
def Defined (base : ℕ) : List Stmt → Prop
  | [] => True
  | s :: rest => (∀ v ∈ s.operands, v < base) ∧ Defined (base + 1) rest

instance Defined.decidable : ∀ (base : ℕ) (stmts : List Stmt), Decidable (Defined base stmts)
  | _, [] => isTrue trivial
  | base, s :: rest =>
      have := Defined.decidable (base + 1) rest
      inferInstanceAs (Decidable ((∀ v ∈ s.operands, v < base) ∧ Defined (base + 1) rest))

theorem defined_append {base : ℕ} {xs ys : List Stmt} :
    Defined base (xs ++ ys) ↔ Defined base xs ∧ Defined (base + xs.length) ys := by
  induction xs generalizing base with
  | nil => simp [Defined]
  | cons x xs ih =>
      simp only [List.cons_append, Defined, ih, and_assoc, List.length_cons]
      rw [show base + 1 + xs.length = base + (xs.length + 1) by omega]

def BCircuit.WellFormed {P : Type} (c : BCircuit P) : Prop :=
  Defined c.params c.kinds ∧ ∀ v ∈ c.outputs, v < c.varSpace

instance {P : Type} (c : BCircuit P) : Decidable c.WellFormed :=
  inferInstanceAs (Decidable (_ ∧ _))

def BIrBlock.WellFormed {P : Type} (b : BIrBlock P) : Prop :=
  Defined b.params (b.stmts.map Node.kind) ∧
    ∀ v ∈ b.terminator.operands, v < b.params + b.stmts.length

instance {P : Type} (b : BIrBlock P) : Decidable b.WellFormed :=
  inferInstanceAs (Decidable (_ ∧ _))

/-- Gates and reads in SSA order after `base` vars. -/
structure Tidy (base : ℕ) (ks : List Stmt) : Prop where
  defined : Defined base ks
  isRead : ∀ s ∈ ks, s.isRead

theorem Tidy.push {base : ℕ} {ks : List Stmt} (h : Tidy base ks) {s : Stmt} (hs : s.isRead)
    (hops : ∀ v ∈ s.operands, v < base + ks.length) : Tidy base (ks ++ [s]) := by
  constructor
  · exact defined_append.mpr ⟨h.defined, hops, trivial⟩
  · exact List.forall_mem_append.mpr ⟨h.isRead, List.forall_mem_singleton.mpr hs⟩

end Boolar
end VolarIR
