import VolarIR.Boolar.Syntax
import VolarIR.Library.Bits

/-!
# Boolar IR: evaluation

Sequential evaluation of statements, block-by-block runs, and fused circuits, as
`volar-fuzz/src/interpreter/biir.rs` does it, with the external calls that
interpreter refuses answered by an `Externals`. The interpreter keeps a bit per
var and a side table of call results keyed by var id; here both halves of one
var sit together in a `Value`.

A statement is evaluated from its operands' values alone, so rewriting operands
to vars of equal value changes nothing. Every pass of this development leans on
that one fact, `evalStmt_congr_values`.
-/
namespace VolarIR.Boolar

/-- `((StorageId, LaneId), exact LSB-first address)`. -/
abbrev Cell := (StorageId × LaneId) × List Bool

/-- `BIrStorageMap`, as the lookup function of the map. -/
abbrev StorageMap := Cell → Option Bool

namespace StorageMap

def empty : StorageMap := fun _ => none

def insert (m : StorageMap) (c : Cell) (b : Bool) : StorageMap :=
  Function.update m c (some b)

def remove (m : StorageMap) (c : Cell) : StorageMap := Function.update m c none

/-- The bit a cell holds; an absent cell holds `false`. -/
def read (m : StorageMap) (c : Cell) : Bool := (m c).getD false

theorem read_insert (m : StorageMap) (c : Cell) (b : Bool) :
    (m.insert c b).read = Function.update m.read c b := by
  funext d
  by_cases h : d = c
  · subst h
    simp [read, insert]
  · simp [read, insert, Function.update_of_ne h]

theorem read_remove (m : StorageMap) (c : Cell) :
    (m.remove c).read = Function.update m.read c false := by
  funext d
  by_cases h : d = c
  · subst h
    simp [read, remove]
  · simp [read, remove, Function.update_of_ne h]

end StorageMap

/-- One call that leaves the circuit, with the argument bits it was given. -/
inductive ExtCall where
  | oracleCall (name : String) (args : List Bool) (numBits : ℕ)
  | oracleBit (name : String) (args : List Bool) (bit occurrence : ℕ)
  | actionCall (name : String) (args : List Bool) (numBits : ℕ)
  | actionBit (name : String) (args : List Bool) (bit occurrence : ℕ)
  | rng (name : String)
  | rngBit (name : String) (bit occurrence : ℕ)
  deriving DecidableEq, Repr

/-- The outside world. Oracles are pure functions of what they are called with;
an action or a random source may answer differently after different calls. -/
structure Externals where
  oracleCall : String → List Bool → ℕ → Bool
  oracleBit : String → List Bool → ℕ → ℕ → Bool
  effect : List ExtCall → ExtCall → ℕ → Bool

inductive CallBits where
  | none
  | oracle (bits : List Bool)
  | action (bits : List Bool)
  deriving DecidableEq, Repr

def CallBits.oracleBit : CallBits → ℕ → Bool
  | .oracle bits, i => bits.getD i false
  | _, _ => false

def CallBits.actionBit : CallBits → ℕ → Bool
  | .action bits, i => bits.getD i false
  | _, _ => false

/-- What the interpreter knows of one var. -/
structure Value where
  bit : Bool
  call : CallBits := .none
  deriving DecidableEq, Repr

instance : Inhabited Value := ⟨⟨false, .none⟩⟩

structure EvalState where
  storage : StorageMap
  effects : List ExtCall
  oracles : List ExtCall

def EvalState.init (m : StorageMap) : EvalState := ⟨m, [], []⟩

def Value.bits (vs : List Value) : List Bool := vs.map Value.bit

/-- Evaluate one statement whose operands are already values. A handle's own bit
is the sentinel `false`; an absent cell or a missing result bit reads `false`. -/
def evalStmt (world : Externals) (σ : EvalState) :
    BIrStmt Value StorageId → Value × EvalState
  | .zero => (⟨false, .none⟩, σ)
  | .one => (⟨true, .none⟩, σ)
  | .and a b => (⟨a.bit && b.bit, .none⟩, σ)
  | .or a b => (⟨a.bit || b.bit, .none⟩, σ)
  | .xor a b => (⟨a.bit ^^ b.bit, .none⟩, σ)
  | .not a => (⟨!a.bit, .none⟩, σ)
  | .oracleCall name args n =>
      (⟨false, .oracle ((List.range n).map (world.oracleCall name (Value.bits args)))⟩,
        { σ with oracles := σ.oracles ++ [.oracleCall name (Value.bits args) n] })
  | .oracleBit name args bit occ =>
      (⟨world.oracleBit name (Value.bits args) bit occ, .none⟩,
        { σ with oracles := σ.oracles ++ [.oracleBit name (Value.bits args) bit occ] })
  | .oracleProjectedBit call bit => (⟨call.call.oracleBit bit, .none⟩, σ)
  | .actionCall name guard args fallback n =>
      if guard.bit then
        let c := ExtCall.actionCall name (Value.bits args) n
        (⟨false, .action ((List.range n).map (world.effect σ.effects c))⟩,
          { σ with effects := σ.effects ++ [c] })
      else (⟨false, .action (Value.bits fallback)⟩, σ)
  | .actionBit call bit => (⟨call.call.actionBit bit, .none⟩, σ)
  | .actionStoreBit name guard args fallback storage lane addr bit occ =>
      let cell : Cell := ((storage, lane), Value.bits addr)
      if guard.bit then
        let c := ExtCall.actionBit name (Value.bits args) bit occ
        (⟨false, .none⟩,
          { σ with storage := σ.storage.insert cell (world.effect σ.effects c bit),
                   effects := σ.effects ++ [c] })
      else (⟨false, .none⟩, { σ with storage := σ.storage.insert cell fallback.bit })
  | .rng name =>
      (⟨world.effect σ.effects (.rng name) 0, .none⟩,
        { σ with effects := σ.effects ++ [.rng name] })
  | .rngBit name bit occ =>
      (⟨world.effect σ.effects (.rngBit name bit occ) bit, .none⟩,
        { σ with effects := σ.effects ++ [.rngBit name bit occ] })
  | .storageRead storage lane addr =>
      (⟨σ.storage.read ((storage, lane), Value.bits addr), .none⟩, σ)
  | .storageWrite storage lane src addr =>
      (⟨false, .none⟩,
        { σ with storage := σ.storage.insert ((storage, lane), Value.bits addr) src.bit })

/-- A var's value; a var not yet defined reads as `false`. -/
def look (vals : List Value) (v : ℕ) : Value := vals.getD v default

@[simp] theorem look_append_left {vals more : List Value} {v : ℕ} (h : v < vals.length) :
    look (vals ++ more) v = look vals v := by
  simp [look, List.getElem?_append_left h]

@[simp] theorem look_append_length (vals : List Value) (x : Value) :
    look (vals ++ [x]) vals.length = x := by
  simp [look]

structure Frame where
  vals : List Value
  st : EvalState

def stepStmt (world : Externals) (f : Frame) (s : Stmt) : Frame :=
  let r := evalStmt world f.st (s.mapVars (look f.vals))
  ⟨f.vals ++ [r.1], r.2⟩

def evalStmts (world : Externals) (f : Frame) (stmts : List Stmt) : Frame :=
  stmts.foldl (stepStmt world) f

@[simp] theorem evalStmts_nil (world : Externals) (f : Frame) : evalStmts world f [] = f := rfl

@[simp] theorem evalStmts_cons (world : Externals) (f : Frame) (s : Stmt) (rest : List Stmt) :
    evalStmts world f (s :: rest) = evalStmts world (stepStmt world f s) rest := rfl

theorem evalStmts_append (world : Externals) (f : Frame) (xs ys : List Stmt) :
    evalStmts world f (xs ++ ys) = evalStmts world (evalStmts world f xs) ys := by
  simp [evalStmts]

@[simp] theorem stepStmt_length (world : Externals) (f : Frame) (s : Stmt) :
    (stepStmt world f s).vals.length = f.vals.length + 1 := by
  simp [stepStmt]

theorem stepStmt_look {world : Externals} {f : Frame} {s : Stmt} {v : ℕ}
    (h : v < f.vals.length) : look (stepStmt world f s).vals v = look f.vals v := by
  simp [stepStmt, h]

@[simp] theorem evalStmts_length (world : Externals) (f : Frame) (stmts : List Stmt) :
    (evalStmts world f stmts).vals.length = f.vals.length + stmts.length := by
  induction stmts generalizing f with
  | nil => rfl
  | cons s rest ih =>
      rw [evalStmts_cons, ih, stepStmt_length, List.length_cons]
      omega

/-- Later statements never change a var that is already defined. -/
theorem evalStmts_look {world : Externals} {f : Frame} {stmts : List Stmt} {v : ℕ}
    (h : v < f.vals.length) : look (evalStmts world f stmts).vals v = look f.vals v := by
  induction stmts generalizing f with
  | nil => rfl
  | cons s rest ih =>
      rw [evalStmts_cons, ih (by rw [stepStmt_length]; omega), stepStmt_look h]

theorem evalStmt_congr_values {V : Type} {world : Externals} {σ : EvalState}
    {s : BIrStmt V StorageId} {f g : V → Value} (hb : ∀ v ∈ s.operands, (f v).bit = (g v).bit)
    (hc : ∀ v ∈ s.handles, (f v).call = (g v).call) :
    evalStmt world σ (s.mapVars f) = evalStmt world σ (s.mapVars g) := by
  have hbits : ∀ {vs : List V}, (∀ v ∈ vs, (f v).bit = (g v).bit) →
      Value.bits (vs.map f) = Value.bits (vs.map g) := fun h => by
    rw [Value.bits, Value.bits, List.map_map, List.map_map]
    exact List.map_congr_left h
  cases s with
  | zero | one | rng _ | rngBit _ _ _ => rfl
  | and a b | or a b | xor a b =>
      simp only [BIrStmt.operands, List.forall_mem_cons] at hb
      simp only [BIrStmt.mapVars, evalStmt, hb.1, hb.2.1]
  | not a =>
      simp only [BIrStmt.operands, List.forall_mem_cons] at hb
      simp only [BIrStmt.mapVars, evalStmt, hb.1]
  | oracleProjectedBit call _ | actionBit call _ =>
      simp only [BIrStmt.handles, List.forall_mem_cons] at hc
      simp only [BIrStmt.mapVars, evalStmt, hc.1]
  | oracleCall _ args _ | oracleBit _ args _ _ | storageRead _ _ args =>
      simp only [BIrStmt.operands] at hb
      simp only [BIrStmt.mapVars, evalStmt, hbits hb]
  | actionCall name guard args fallback n =>
      simp only [BIrStmt.operands, List.forall_mem_append, List.forall_mem_cons] at hb
      simp only [BIrStmt.mapVars, evalStmt, hb.1.1, hbits hb.1.2, hbits hb.2]
  | actionStoreBit name guard args fallback storage lane addr bit occ =>
      simp only [BIrStmt.operands, List.forall_mem_append, List.forall_mem_cons] at hb
      simp only [BIrStmt.mapVars, evalStmt, hb.1.1, hbits hb.1.2, hb.2.1, hbits hb.2.2]
  | storageWrite storage lane src addr =>
      simp only [BIrStmt.operands, List.forall_mem_cons] at hb
      simp only [BIrStmt.mapVars, evalStmt, hb.1, hbits hb.2]

inductive BlockResult where
  | ret (bits : List Bool)
  | jump (target : ℕ) (args : List Bool)
  deriving DecidableEq, Repr

/-- `resolve_target`; a `Dyn` target makes the interpreter panic. -/
def resolveTarget (vals : List Value) (t : BIrTarget ℕ) : Option BlockResult :=
  let args := t.args.map fun v => (look vals v).bit
  match t.block with
  | .ret => some (.ret args)
  | .block b => some (.jump b args)
  | .dyn _ => none

def evalTerminator (vals : List Value) : BIrTerminator ℕ → Option BlockResult
  | .jmp t => resolveTarget vals t
  | .condJmp val t e =>
      if (look vals val).bit then resolveTarget vals t else resolveTarget vals e

def paramValues (bits : List Bool) : List Value := bits.map fun b => ⟨b, .none⟩

@[simp] theorem paramValues_length (bits : List Bool) :
    (paramValues bits).length = bits.length := by
  simp [paramValues]

@[simp] theorem look_paramValues (bits : List Bool) (v : ℕ) :
    look (paramValues bits) v = ⟨bits.getD v false, .none⟩ := by
  simp only [look, paramValues, List.getD_eq_getElem?_getD, List.getElem?_map]
  cases bits[v]? <;> rfl

def BIrBlock.kinds {P : Type} (b : BIrBlock P) : List Stmt := b.stmts.map Node.kind

/-- `eval_block`: the statements, then the terminator. `none` is a panic. -/
def evalBlock {P : Type} (world : Externals) (b : BIrBlock P) (params : List Bool)
    (σ : EvalState) : Option (BlockResult × EvalState) :=
  if params.length = b.params then
    let f := evalStmts world ⟨paramValues params, σ⟩ b.kinds
    (evalTerminator f.vals b.terminator).map fun r => (r, f.st)
  else none

inductive Config where
  | running (block : ℕ) (args : List Bool) (σ : EvalState)
  | returned (bits : List Bool) (σ : EvalState)
  | stuck

/-- Execute the current block to its terminator. -/
def stepBlock {P : Type} (world : Externals) (blocks : BIrBlocks P) : Config → Config
  | .running cur args σ =>
      match blocks.blocks[cur]? with
      | none => .stuck
      | some b =>
          match evalBlock world b args σ with
          | none => .stuck
          | some (.ret bits, σ') => .returned bits σ'
          | some (.jump next args', σ') => .running next args' σ'
  | c => c

/-- The run after at most `budget` blocks. -/
def runBlocks {P : Type} (world : Externals) (blocks : BIrBlocks P) : ℕ → Config → Config
  | 0, c => c
  | budget + 1, c => runBlocks world blocks budget (stepBlock world blocks c)

@[simp] theorem runBlocks_returned {P : Type} (world : Externals) (blocks : BIrBlocks P) (n : ℕ)
    (bits : List Bool) (σ : EvalState) :
    runBlocks world blocks n (.returned bits σ) = .returned bits σ := by
  induction n with
  | zero => rfl
  | succ n ih => exact ih

@[simp] theorem runBlocks_stuck {P : Type} (world : Externals) (blocks : BIrBlocks P) (n : ℕ) :
    runBlocks world blocks n .stuck = .stuck := by
  induction n with
  | zero => rfl
  | succ n ih => exact ih

/-- Programs whose blocks evaluate alike run alike, for every budget. -/
theorem runBlocks_congr {P Q : Type} {world : Externals} {p : BIrBlocks P} {q : BIrBlocks Q}
    (hlen : p.blocks.length = q.blocks.length)
    (h : ∀ (i : ℕ) (b : BIrBlock P) (c : BIrBlock Q), p.blocks[i]? = some b →
      q.blocks[i]? = some c → ∀ args σ, evalBlock world b args σ = evalBlock world c args σ)
    (n : ℕ) (c : Config) : runBlocks world p n c = runBlocks world q n c := by
  have hstep : ∀ c, stepBlock world p c = stepBlock world q c := by
    rintro (⟨cur, args, σ⟩ | ⟨bits, σ⟩ | _)
    · by_cases hc : cur < p.blocks.length
      · have hp : p.blocks[cur]? = some p.blocks[cur] := List.getElem?_eq_getElem hc
        have hcq : cur < q.blocks.length := hlen ▸ hc
        have hq : q.blocks[cur]? = some q.blocks[cur] := List.getElem?_eq_getElem hcq
        simp only [stepBlock, hp, hq, h cur _ _ hp hq]
      · simp [stepBlock, List.getElem?_eq_none (Nat.le_of_not_lt hc),
          List.getElem?_eq_none (hlen ▸ Nat.le_of_not_lt hc)]
    · rfl
    · rfl
  induction n generalizing c with
  | zero => rfl
  | succ n ih => simp only [runBlocks, hstep, ih]

def BCircuit.evalFrame {P : Type} (c : BCircuit P) (world : Externals) (inputs : List Bool)
    (σ : EvalState) : Frame :=
  evalStmts world ⟨paramValues inputs, σ⟩ c.kinds

def BCircuit.eval {P : Type} (c : BCircuit P) (world : Externals) (inputs : List Bool)
    (σ : EvalState) : List Bool :=
  c.outputs.map fun v => (look (c.evalFrame world inputs σ).vals v).bit

/-!
## Pre-initialised storage

A segment puts its bits at consecutive addresses. An address keeps its length while the sum
fits and grows by the carry otherwise, so that the number it denotes is always the sum.
-/

def increment : List Bool → List Bool
  | [] => [true]
  | false :: bits => true :: bits
  | true :: bits => false :: increment bits

/-- `add_to_address`. The loop goes up the addend's bits and only touches the address from
the position it has come to. -/
def addToAddress (addr : List Bool) (addend : ℕ) : List Bool :=
  if addend = 0 then addr
  else
    let reached := if addr = [] then [false] else addr
    match if addend % 2 = 1 then increment reached else reached with
    | [] => []
    | bit :: rest => bit :: addToAddress rest (addend / 2)
termination_by addend

theorem value_increment (bits : List Bool) :
    Bits.value (increment bits) = Bits.value bits + 1 := by
  induction bits with
  | nil => rfl
  | cons bit bits ih =>
      cases bit with
      | false => simp [increment, Nat.add_comm]
      | true =>
          rw [increment, Bits.value_cons, Bits.value_cons, ih]
          simp only [Bool.toNat_true, Bool.toNat_false]
          omega

theorem increment_ne_nil (bits : List Bool) : increment bits ≠ [] := by
  cases bits with
  | nil => exact List.cons_ne_nil _ _
  | cons bit bits => cases bit <;> exact List.cons_ne_nil _ _

theorem value_addToAddress (addr : List Bool) (addend : ℕ) :
    Bits.value (addToAddress addr addend) = Bits.value addr + addend := by
  induction addend using Nat.strong_induction_on generalizing addr with
  | _ addend ih =>
    by_cases hzero : addend = 0
    · rw [addToAddress, if_pos hzero, hzero, Nat.add_zero]
    · have hreached : Bits.value (if addr = [] then [false] else addr) = Bits.value addr := by
        split_ifs with hnil
        · rw [hnil]
          rfl
        · rfl
      have hstep : Bits.value (if addend % 2 = 1 then
          increment (if addr = [] then [false] else addr) else
            if addr = [] then [false] else addr) = Bits.value addr + addend % 2 := by
        rcases Nat.mod_two_eq_zero_or_one addend with heven | hodd
        · rw [if_neg (by omega), hreached, heven, Nat.add_zero]
        · rw [if_pos hodd, value_increment, hreached, hodd]
      have hne : (if addend % 2 = 1 then increment (if addr = [] then [false] else addr) else
          if addr = [] then [false] else addr) ≠ [] := by
        split_ifs
        · exact increment_ne_nil _
        · exact increment_ne_nil _
        · exact List.cons_ne_nil _ _
        · assumption
      rw [addToAddress, if_neg hzero]
      dsimp only
      generalize (if addend % 2 = 1 then increment (if addr = [] then [false] else addr) else
        if addr = [] then [false] else addr) = reached at hstep hne
      cases reached with
      | nil => exact absurd rfl hne
      | cons bit rest =>
          have hhalf := ih (addend / 2)
              (Nat.div_lt_self (Nat.pos_of_ne_zero hzero) (by decide)) rest
          rw [Bits.value_cons] at hstep
          change Bits.value (bit :: addToAddress rest (addend / 2)) = _
          rw [Bits.value_cons, hhalf]
          omega

def BIrPreInitSegment.cells (seg : BIrPreInitSegment) : List (List Bool × Bool) :=
  seg.data.zipIdx.map fun e => (addToAddress seg.addr e.2, e.1)

/-- `apply_pre_init`: seed storage from the segments. -/
def applyPreInit (storage : StorageMap) (segments : List BIrPreInitSegment) : StorageMap :=
  segments.foldl (fun m seg =>
    seg.cells.foldl (fun m cell => m.insert ((seg.storage, seg.lane), cell.1) cell.2) m) storage

/-! ## Statements whose value is a function of their operands

A var that one of them defines can be recomputed from the final var table alone. -/

/-- `biir_is_pure`: removing the statement is unobservable when its result is unused. -/
def BIrStmt.isPure {V S : Type} : BIrStmt V S → Bool
  | .zero | .one | .and .. | .or .. | .xor .. | .not .. => true
  | .oracleCall .. | .oracleBit .. | .oracleProjectedBit .. => true
  | _ => false

@[simp] theorem BIrStmt.isPure_mapVars {V W S : Type} (g : V → W) (s : BIrStmt V S) :
    (s.mapVars g).isPure = s.isPure := by
  cases s <;> rfl

theorem evalStmt_fst_of_pure {world : Externals} {s : BIrStmt Value StorageId}
    (h : s.isPure = true) (σ σ' : EvalState) :
    (evalStmt world σ s).1 = (evalStmt world σ' s).1 := by
  cases s <;> first | rfl | cases h

theorem evalStmt_snd_of_pure (world : Externals) (σ : EvalState) {s : BIrStmt Value StorageId}
    (h : s.isPure = true) :
    (evalStmt world σ s).2.storage = σ.storage ∧ (evalStmt world σ s).2.effects = σ.effects := by
  cases s <;> first | exact ⟨rfl, rfl⟩ | cases h

/-- The statement that defines var `v`, if `v` is no parameter. -/
def definedBy (base : ℕ) (stmts : List Stmt) (v : ℕ) : Option Stmt :=
  if base ≤ v then stmts[v - base]? else none

section
variable {base : ℕ} {stmts : List Stmt} {v : ℕ} {s : Stmt}

theorem definedBy_add (i : ℕ) : definedBy base stmts (base + i) = stmts[i]? := by
  simp [definedBy]

theorem exists_of_definedBy (h : definedBy base stmts v = some s) :
    ∃ i, v = base + i ∧ stmts[i]? = some s := by
  unfold definedBy at h
  split_ifs at h with hv
  exact ⟨v - base, by omega, h⟩

theorem definedBy_lt (h : definedBy base stmts v = some s) : v < base + stmts.length := by
  obtain ⟨i, rfl, hs⟩ := exists_of_definedBy h
  have := (List.getElem?_eq_some_iff.mp hs).1
  omega

theorem operands_lt_of_getElem (hd : Defined base stmts) {i : ℕ} (hs : stmts[i]? = some s) :
    ∀ v ∈ s.operands, v < base + i := by
  induction stmts generalizing base i with
  | nil => cases hs
  | cons t rest ih =>
      cases i with
      | zero =>
          obtain rfl := Option.some.inj hs
          exact hd.1
      | succ i =>
          rw [Nat.add_comm i, ← Nat.add_assoc]
          exact ih hd.2 hs

theorem operands_lt_of_definedBy (hd : Defined base stmts)
    (h : definedBy base stmts v = some s) : ∀ u ∈ s.operands, u < v := by
  obtain ⟨i, rfl, hs⟩ := exists_of_definedBy h
  exact operands_lt_of_getElem hd hs

theorem definedBy_map (g : Stmt → Stmt) :
    definedBy base (stmts.map g) v = (definedBy base stmts v).map g := by
  unfold definedBy
  split_ifs <;> simp

end

theorem look_of_definedBy {world : Externals} {f : Frame} {stmts : List Stmt} {v : ℕ} {s : Stmt}
    (hd : Defined f.vals.length stmts) (h : definedBy f.vals.length stmts v = some s)
    (hp : s.isPure = true) (σ : EvalState) :
    look (evalStmts world f stmts).vals v =
      (evalStmt world σ (s.mapVars (look (evalStmts world f stmts).vals))).1 := by
  obtain ⟨i, rfl, hs⟩ := exists_of_definedBy h
  clear h
  induction stmts generalizing f i with
  | nil => cases hs
  | cons t rest ih =>
      have hlen : (stepStmt world f t).vals.length = f.vals.length + 1 := stepStmt_length ..
      cases i with
      | zero =>
          obtain rfl := Option.some.inj hs
          have hops : t.mapVars (look (evalStmts world f (t :: rest)).vals) =
              t.mapVars (look f.vals) :=
            BIrStmt.mapVars_congr fun u hu => evalStmts_look (hd.1 u hu)
          rw [hops, evalStmts_cons, evalStmts_look (by omega), Nat.add_zero]
          simp only [stepStmt, look_append_length]
          exact evalStmt_fst_of_pure (by simpa using hp) _ _
      | succ i =>
          have hrest := ih (f := stepStmt world f t) (by rw [hlen]; exact hd.2) i hs
          rw [hlen, Nat.add_assoc, Nat.add_comm 1] at hrest
          exact hrest

/-- Operands may be redirected to earlier vars as long as each statement evaluates the same
in the final var table. -/
theorem evalStmts_map_congr {world : Externals} {g : ℕ → ℕ} (hg : ∀ v, g v ≤ v) {f : Frame}
    {stmts : List Stmt} (hd : Defined f.vals.length stmts)
    (h : ∀ s ∈ stmts, ∀ σ, evalStmt world σ
        ((s.mapVars g).mapVars (look (evalStmts world f stmts).vals)) =
      evalStmt world σ (s.mapVars (look (evalStmts world f stmts).vals))) :
    evalStmts world f (stmts.map fun s => s.mapVars g) = evalStmts world f stmts := by
  induction stmts generalizing f with
  | nil => rfl
  | cons s rest ih =>
      have hlook : ∀ v < f.vals.length,
          look (evalStmts world f (s :: rest)).vals v = look f.vals v :=
        fun v hv => evalStmts_look hv
      have hsource : s.mapVars (look (evalStmts world f (s :: rest)).vals) =
          s.mapVars (look f.vals) := BIrStmt.mapVars_congr fun v hv => hlook v (hd.1 v hv)
      have hmapped : (s.mapVars g).mapVars (look (evalStmts world f (s :: rest)).vals) =
          (s.mapVars g).mapVars (look f.vals) := BIrStmt.mapVars_congr fun v hv => by
        rw [BIrStmt.operands_mapVars] at hv
        obtain ⟨u, hu, rfl⟩ := List.mem_map.mp hv
        exact hlook _ (Nat.lt_of_le_of_lt (hg u) (hd.1 u hu))
      have hhead := h s List.mem_cons_self f.st
      rw [hsource, hmapped] at hhead
      have hstep : stepStmt world f (s.mapVars g) = stepStmt world f s := by
        simp only [stepStmt, hhead]
      rw [List.map_cons, evalStmts_cons, evalStmts_cons, hstep]
      exact ih (by rw [stepStmt_length]; exact hd.2) fun t ht σ =>
        h t (List.mem_cons_of_mem s ht) σ

end VolarIR.Boolar
