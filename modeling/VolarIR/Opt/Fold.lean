import Mathlib.Algebra.Order.Ring.Nat
import VolarIR.Opt.Alias
import VolarIR.Library.Loop
import VolarIR.Boolar.Renaming

/-!
# Boolar constant folding

`fold_biir_blocks` and `fold_biir_circuit` of `volar-ir-opt/src/biir.rs`. One forward
sweep collects known constants and aliases and rewrites through them; the sweeps repeat
until one changes nothing.
-/
namespace VolarIR.Opt
open Boolar

structure FoldState where
  boolMap : List (ℕ × Bool)
  aliasMap : AliasMap
  changed : Bool

inductive Action where
  | toConst (val : Bool)
  | toAlias (target : ℕ)
  deriving DecidableEq, Repr

/-- Step 2 of the sweep: what a statement simplifies to. -/
def foldAction (bools : List (ℕ × Bool)) (aliases : AliasMap) : Stmt → Option Action
  | .and a b =>
      let ca := canonAlias aliases a
      let cb := canonAlias aliases b
      match bools.lookup ca, bools.lookup cb with
      | some false, _ | _, some false => some (.toConst false)
      | some true, some true => some (.toConst true)
      | some true, none => some (.toAlias cb)
      | none, some true => some (.toAlias ca)
      | none, none => if ca = cb then some (.toAlias ca) else none
  | .or a b =>
      let ca := canonAlias aliases a
      let cb := canonAlias aliases b
      match bools.lookup ca, bools.lookup cb with
      | some true, _ | _, some true => some (.toConst true)
      | some false, some false => some (.toConst false)
      | some false, none => some (.toAlias cb)
      | none, some false => some (.toAlias ca)
      | none, none => if ca = cb then some (.toAlias ca) else none
  | .xor a b =>
      let ca := canonAlias aliases a
      let cb := canonAlias aliases b
      match bools.lookup ca, bools.lookup cb with
      | some va, some vb => some (.toConst (va ^^ vb))
      | some false, none => some (.toAlias cb)
      | none, some false => some (.toAlias ca)
      | _, _ => if ca = cb then some (.toConst false) else none
  | .not a => (bools.lookup (canonAlias aliases a)).map fun v => .toConst (!v)
  | _ => none

def constStmt (val : Bool) : Stmt := if val then .one else .zero

/-- One statement of the sweep; its result is `rv`. -/
def foldStmt (st : FoldState) (rv : ℕ) (s : Stmt) : Stmt × FoldState :=
  let (s, rewritten) := applyAliasesStmt st.aliasMap s
  let st := { st with changed := st.changed || rewritten }
  match s with
  | .zero => (s, { st with boolMap := (rv, false) :: st.boolMap })
  | .one => (s, { st with boolMap := (rv, true) :: st.boolMap })
  | s =>
      match foldAction st.boolMap st.aliasMap s with
      | some (.toConst val) =>
          (constStmt val, { st with
            changed := st.changed || decide (s ≠ constStmt val)
            boolMap := (rv, val) :: st.boolMap })
      | some (.toAlias target) =>
          -- the statement itself stays: its result just becomes a dead definition
          (s, { st with
            aliasMap := (rv, target) :: st.aliasMap
            boolMap := match st.boolMap.lookup target with
              | some val => (rv, val) :: st.boolMap
              | none => st.boolMap })
      | none => (s, st)

section
variable {P : Type}

def foldStmtsFrom (st : FoldState) (rv : ℕ) : List (Node Stmt P) → List (Node Stmt P) × FoldState
  | [] => ([], st)
  | node :: rest =>
      let (kind, st) := foldStmt st rv node.kind
      let (rest, st) := foldStmtsFrom st (rv + 1) rest
      ({ node with kind := kind } :: rest, st)

/-- `fold_biir_stmts_once`. -/
def foldStmtsOnce (params : ℕ) (stmts : List (Node Stmt P)) : List (Node Stmt P) × FoldState :=
  foldStmtsFrom ⟨[], [], false⟩ params stmts

/-- `fold_biir_terminator_dead_branch`. -/
def foldDeadBranch (bools : List (ℕ × Bool)) : BIrTerminator ℕ → BIrTerminator ℕ × Bool
  | .condJmp val thenTarget elseTarget =>
      match bools.lookup val with
      | some v => (.jmp (if v then thenTarget else elseTarget), true)
      | none => (.condJmp val thenTarget elseTarget, false)
  | t => (t, false)

/-- `fold_biir_block_once`. -/
def foldBlockOnce (block : BIrBlock P) : BIrBlock P × Bool :=
  let (stmts, st) := foldStmtsOnce block.params block.stmts
  let (terminator, rewritten) := applyAliasesTerminator st.aliasMap block.terminator
  let (terminator, folded) := foldDeadBranch st.boolMap terminator
  (⟨block.params, stmts, terminator⟩, st.changed || rewritten || folded)

/-- `fold_biir_blocks`; `none` when a block's loop is out of fuel, or when an id `params + i`
that a sweep computes overflows. -/
def foldBlocks (fuel : ℕ) (blocks : BIrBlocks P) : Option (BIrBlocks P × Bool) :=
  if ∀ b ∈ blocks.blocks, b.IdsFit then do
    let folded ← blocks.blocks.mapM (Loop.untilStable foldBlockOnce fuel)
    return (⟨folded.map Prod.fst, blocks.preInit⟩, folded.any Prod.snd)
  else none

/-- One round of `fold_biir_circuit`. -/
def foldCircuitOnce (circuit : BCircuit P) : BCircuit P × Bool :=
  let (stmts, st) := foldStmtsOnce circuit.params circuit.stmts
  let outputs := circuit.outputs.map (canonAlias st.aliasMap)
  ({ circuit with stmts := stmts, outputs := outputs },
    st.changed || decide (outputs ≠ circuit.outputs))

/-- `fold_biir_circuit`, in the same way. -/
def foldCircuit (fuel : ℕ) (circuit : BCircuit P) : Option (BCircuit P × Bool) :=
  if circuit.varSpace ≤ u32Max + 1 then Loop.untilStable foldCircuitOnce fuel circuit else none

end

end VolarIR.Opt

/-!
## Boolar constant folding preserves runs

The sweep's maps are sound at every prefix: an alias names an earlier var with the same
bit, and a known constant is that var's bit. Aliases only ever stand for binary gates, so
a projection, which must look at a call handle, is never redirected. Operands only
decrease and statements only become constants, which bounds the number of sweeps.
-/
namespace VolarIR.Opt
open Boolar

def isBinaryGate : Stmt → Bool
  | .and .. | .or .. | .xor .. => true
  | _ => false

/-- A statement whose result is `base`: its operands come earlier, `G` holds of its result
if it is a binary gate, and its projections read no var of `G`. -/
structure Placed (G : ℕ → Prop) (base : ℕ) (s : Stmt) : Prop where
  operand : ∀ v ∈ s.operands, v < base
  gate : isBinaryGate s = true → G base
  handle : ∀ v ∈ s.handles, ¬ G v

def PlacedAll (G : ℕ → Prop) : ℕ → List Stmt → Prop
  | _, [] => True
  | base, s :: rest => Placed G base s ∧ PlacedAll G (base + 1) rest

def Ordered (G : ℕ → Prop) (st : FoldState) (rv : ℕ) : Prop :=
  ∀ v w, st.aliasMap.lookup v = some w → w < v ∧ v < rv ∧ G v

structure Known (st : FoldState) (vals : List Value) : Prop where
  aliased : ∀ v w, st.aliasMap.lookup v = some w → (look vals w).bit = (look vals v).bit
  constant : ∀ v b, st.boolMap.lookup v = some b → v < vals.length ∧ (look vals v).bit = b

section
variable {G : ℕ → Prop} {st : FoldState} {rv : ℕ} {vals : List Value}

theorem Ordered.canon_le (h : Ordered G st rv) (v : ℕ) : canonAlias st.aliasMap v ≤ v :=
  canonAlias_rel (R := fun v w => w ≤ v) (fun v => Nat.le_refl v)
      (fun _ _ _ h₁ h₂ => Nat.le_trans h₂ h₁)
    (fun v w hw => Nat.le_of_lt (h v w hw).1) v

theorem Ordered.canon_of_not (h : Ordered G st rv) {v : ℕ} (hv : ¬ G v) :
    canonAlias st.aliasMap v = v := by
  refine canonAlias_of_not_mem ?_
  cases hw : st.aliasMap.lookup v with
  | none => rfl
  | some w => exact absurd (h v w hw).2.2 hv

theorem Known.canon_bit (h : Known st vals) (v : ℕ) :
    (look vals (canonAlias st.aliasMap v)).bit = (look vals v).bit :=
  canonAlias_rel (R := fun v w => (look vals w).bit = (look vals v).bit) (fun _ => rfl)
    (fun _ _ _ h₁ h₂ => h₂.trans h₁) h.aliased v

def Action.bit (vals : List Value) : Action → Bool
  | .toConst b => b
  | .toAlias w => (look vals w).bit

theorem foldAction_eval (h : Known st vals) (world : Externals) (σ : EvalState) {s : Stmt}
    {act : Action} (hs : foldAction st.boolMap st.aliasMap s = some act) :
    evalStmt world σ (s.mapVars (look vals)) = (⟨act.bit vals, .none⟩, σ) := by
  have hbool : ∀ v c, st.boolMap.lookup (canonAlias st.aliasMap v) = some c →
      (look vals v).bit = c := fun v c hv => by
    rw [← h.canon_bit]
    exact (h.constant _ _ hv).2
  cases s with
  | and x y | or x y | xor x y =>
      have hsame : canonAlias st.aliasMap x = canonAlias st.aliasMap y →
          (look vals x).bit = (look vals y).bit := fun hxy => by
        rw [← h.canon_bit x, hxy, h.canon_bit]
      simp only [foldAction] at hs
      cases hx : st.boolMap.lookup (canonAlias st.aliasMap x) with
      | none =>
          cases hy : st.boolMap.lookup (canonAlias st.aliasMap y) with
          | none =>
              simp only [hx, hy] at hs
              split_ifs at hs with hxy
              all_goals cases hs
              all_goals simp [BIrStmt.mapVars, evalStmt, Action.bit, hsame hxy, h.canon_bit]
          | some d =>
              cases d <;> simp only [hx, hy] at hs
              all_goals try split_ifs at hs with hxy
              all_goals cases hs
              all_goals simp_all [BIrStmt.mapVars, evalStmt, Action.bit, hbool y _ hy, h.canon_bit]
      | some c =>
          cases hy : st.boolMap.lookup (canonAlias st.aliasMap y) with
          | none =>
              cases c <;> simp only [hx, hy] at hs
              all_goals try split_ifs at hs with hxy
              all_goals cases hs
              all_goals simp_all [BIrStmt.mapVars, evalStmt, Action.bit, hbool x _ hx, h.canon_bit]
          | some d =>
              cases c <;> cases d <;> simp only [hx, hy] at hs
              all_goals cases hs
              all_goals
                simp [BIrStmt.mapVars, evalStmt, Action.bit, hbool x _ hx, hbool y _ hy]
  | not x =>
      obtain ⟨c, hc, hb⟩ := Option.map_eq_some_iff.mp hs
      cases hb
      simp [BIrStmt.mapVars, evalStmt, Action.bit, hbool x _ hc]
  | _ => cases hs

theorem foldAction_toAlias_operand {bools : List (ℕ × Bool)} {aliases : AliasMap} {s : Stmt}
    {w : ℕ} (hs : foldAction bools aliases s = some (.toAlias w)) :
    isBinaryGate s = true ∧ ∃ v ∈ s.operands, w = canonAlias aliases v := by
  cases s with
  | and x y | or x y | xor x y =>
      refine ⟨rfl, ?_⟩
      simp only [foldAction] at hs
      simp only [BIrStmt.operands, List.mem_cons, List.not_mem_nil, or_false, exists_eq_or_imp,
        exists_eq_left]
      split at hs <;> try split_ifs at hs
      all_goals cases hs
      all_goals simp
  | not x =>
      obtain ⟨c, -, hb⟩ := Option.map_eq_some_iff.mp hs
      cases hb
  | _ => cases hs

theorem foldAction_gate {bools : List (ℕ × Bool)} {aliases : AliasMap} {s : Stmt} {act : Action}
    (hs : foldAction bools aliases s = some act) :
    s.operands ≠ [] ∧ s.isGate = true := by
  cases s <;> simp_all [foldAction, BIrStmt.operands, BIrStmt.isGate]

/-- What the sweep does with one statement, after rewriting it to `t`. -/
theorem foldStmt_cases (st : FoldState) (rv : ℕ) (s : Stmt) {t : Stmt}
    (ht : t = s.mapVars (canonAlias st.aliasMap)) :
    (∃ b, t = constStmt b ∧ foldStmt st rv s =
      (t, ⟨(rv, b) :: st.boolMap, st.aliasMap, st.changed || decide (t ≠ s)⟩)) ∨
    (∃ b, foldAction st.boolMap st.aliasMap t = some (.toConst b) ∧ foldStmt st rv s =
      (constStmt b, ⟨(rv, b) :: st.boolMap, st.aliasMap, true⟩)) ∨
    (∃ w, foldAction st.boolMap st.aliasMap t = some (.toAlias w) ∧ foldStmt st rv s =
      (t, ⟨match st.boolMap.lookup w with
        | some b => (rv, b) :: st.boolMap
        | none => st.boolMap, (rv, w) :: st.aliasMap, st.changed || decide (t ≠ s)⟩)) ∨
    foldStmt st rv s = (t, { st with changed := st.changed || decide (t ≠ s) }) := by
  unfold foldStmt
  rw [applyAliasesStmt_eq, ← ht]
  dsimp only
  split
  · exact .inl ⟨false, rfl, rfl⟩
  · exact .inl ⟨true, rfl, rfl⟩
  · cases hact : foldAction st.boolMap st.aliasMap t with
    | none => exact .inr (.inr (.inr rfl))
    | some act =>
        cases act with
        | toConst b =>
            have hne : t ≠ constStmt b := fun h => (foldAction_gate hact).1 (by
              rw [h]
              cases b <;> rfl)
            exact .inr (.inl ⟨b, rfl, by simp [hne]⟩)
        | toAlias w => exact .inr (.inr (.inl ⟨w, rfl, rfl⟩))

theorem foldStmt_changed (st : FoldState) (rv : ℕ) (s : Stmt) :
    (foldStmt st rv s).2.changed = false ↔ st.changed = false ∧ (foldStmt st rv s).1 = s := by
  obtain ⟨b, -, h⟩ | ⟨b, hact, h⟩ | ⟨w, -, h⟩ | h := foldStmt_cases st rv s rfl
  · simp [h]
  · simp only [h, Bool.true_eq_false, false_iff, not_and]
    rintro - rfl
    cases b <;> cases hact
  · simp [h]
  · simp [h]

theorem foldStmt_ordered (ho : Ordered G st rv) {s : Stmt} (hs : Placed G rv s) :
    Ordered G (foldStmt st rv s).2 (rv + 1) := by
  have hold : ∀ v w, st.aliasMap.lookup v = some w → w < v ∧ v < rv + 1 ∧ G v := fun v w hw =>
    ⟨(ho v w hw).1, Nat.lt_succ_of_lt (ho v w hw).2.1, (ho v w hw).2.2⟩
  obtain ⟨b, -, h⟩ | ⟨b, -, h⟩ | ⟨u, hact, h⟩ | h := foldStmt_cases st rv s rfl
  · rw [h]
    exact hold
  · rw [h]
    exact hold
  · rw [h]
    intro v w hw
    by_cases hv : v = rv
    · subst hv
      obtain rfl : u = w := by simpa using hw
      obtain ⟨hgate, x, hx, rfl⟩ := foldAction_toAlias_operand hact
      rw [BIrStmt.operands_mapVars] at hx
      obtain ⟨y, hy, rfl⟩ := List.mem_map.mp hx
      refine ⟨?_, Nat.lt_succ_self _, hs.gate (by cases s <;> first | rfl | cases hgate)⟩
      calc canonAlias st.aliasMap (canonAlias st.aliasMap y)
          ≤ canonAlias st.aliasMap y := ho.canon_le _
        _ ≤ y := ho.canon_le _
        _ < v := hs.operand y hy
    · exact hold v w (by simpa [List.lookup_cons, beq_false_of_ne hv] using hw)
  · rw [h]
    exact hold

theorem foldStmt_placed (ho : Ordered G st rv) {s : Stmt} (hs : Placed G rv s) :
    Placed G rv (foldStmt st rv s).1 := by
  have hrewritten : Placed G rv (s.mapVars (canonAlias st.aliasMap)) := by
    refine ⟨fun v hv => ?_, fun hg => hs.gate (by cases s <;> first | rfl | cases hg),
      fun v hv => ?_⟩
    · rw [BIrStmt.operands_mapVars] at hv
      obtain ⟨u, hu, rfl⟩ := List.mem_map.mp hv
      exact Nat.lt_of_le_of_lt (ho.canon_le u) (hs.operand u hu)
    · rw [BIrStmt.handles_mapVars] at hv
      obtain ⟨u, hu, rfl⟩ := List.mem_map.mp hv
      rw [ho.canon_of_not (hs.handle u hu)]
      exact hs.handle u hu
  obtain ⟨b, -, h⟩ | ⟨b, -, h⟩ | ⟨w, -, h⟩ | h := foldStmt_cases st rv s rfl
  · rw [h]
    exact hrewritten
  · rw [h]
    cases b
    · exact ⟨by simp [constStmt, BIrStmt.operands], by simp [constStmt, isBinaryGate],
        by simp [constStmt, BIrStmt.handles]⟩
    · exact ⟨by simp [constStmt, BIrStmt.operands], by simp [constStmt, isBinaryGate],
        by simp [constStmt, BIrStmt.handles]⟩
  · rw [h]
    exact hrewritten
  · rw [h]
    exact hrewritten

def kindWeight : Stmt → ℕ
  | .zero | .one => 0
  | _ => 1

def stmtWeight (s : Stmt) : ℕ := s.operands.sum + kindWeight s

theorem sum_map_le {g : ℕ → ℕ} (hg : ∀ v, g v ≤ v) (vs : List ℕ) :
    (vs.map g).sum ≤ vs.sum ∧ ((vs.map g).sum = vs.sum → vs.map g = vs) := by
  induction vs with
  | nil => exact ⟨Nat.le_refl _, fun _ => rfl⟩
  | cons v vs ih =>
      simp only [List.map_cons, List.sum_cons, List.cons.injEq]
      have := hg v
      refine ⟨by omega, fun h => ⟨by omega, ih.2 (by omega)⟩⟩

theorem foldStmt_weight (ho : Ordered G st rv) (s : Stmt) :
    stmtWeight (foldStmt st rv s).1 ≤ stmtWeight s ∧
      (stmtWeight (foldStmt st rv s).1 = stmtWeight s → (foldStmt st rv s).1 = s) := by
  have hrewritten : stmtWeight (s.mapVars (canonAlias st.aliasMap)) ≤ stmtWeight s ∧
      (stmtWeight (s.mapVars (canonAlias st.aliasMap)) = stmtWeight s →
        s.mapVars (canonAlias st.aliasMap) = s) := by
    have hsum := sum_map_le ho.canon_le s.operands
    have hkind : kindWeight (s.mapVars (canonAlias st.aliasMap)) = kindWeight s := by
      cases s <;> rfl
    simp only [stmtWeight, hkind, BIrStmt.operands_mapVars]
    refine ⟨by omega, fun h => BIrStmt.mapVars_eq_self ?_⟩
    have hmap := hsum.2 (by omega)
    rw [← List.map_id s.operands, List.map_map] at hmap
    exact List.map_inj_left.mp hmap
  obtain ⟨b, -, h⟩ | ⟨b, hact, h⟩ | ⟨w, -, h⟩ | h := foldStmt_cases st rv s rfl
  · rw [h]
    exact hrewritten
  · have hgate : stmtWeight (constStmt b) < stmtWeight s := by
      have := foldAction_gate hact
      cases b <;> cases s <;> simp_all [stmtWeight, kindWeight, constStmt, BIrStmt.operands,
          BIrStmt.mapVars,
        BIrStmt.isGate]
    rw [h]
    exact ⟨Nat.le_of_lt hgate, fun heq => absurd heq (Nat.ne_of_lt hgate)⟩
  · rw [h]
    exact hrewritten
  · rw [h]
    exact hrewritten

theorem Known.extend (h : Known st vals) (ho : Ordered G st vals.length) (x : Value) :
    Known st (vals ++ [x]) where
  aliased v w hw := by
    obtain ⟨hlt, hv, -⟩ := ho v w hw
    rw [look_append_left hv, look_append_left (Nat.lt_trans hlt hv)]
    exact h.aliased v w hw
  constant v b hb := by
    obtain ⟨hv, hbit⟩ := h.constant v b hb
    rw [look_append_left hv, List.length_append]
    exact ⟨Nat.lt_add_right _ hv, hbit⟩

theorem Known.constant_cons (h : Known st vals) {b : Bool} (hv : rv < vals.length)
    (hb : (look vals rv).bit = b) (c : Bool) :
    Known ⟨(rv, b) :: st.boolMap, st.aliasMap, c⟩ vals where
  aliased := h.aliased
  constant v d hd := by
    by_cases heq : v = rv
    · subst heq
      obtain rfl : b = d := by simpa using hd
      exact ⟨hv, hb⟩
    · exact h.constant v d (by simpa [List.lookup_cons, beq_false_of_ne heq] using hd)

theorem Known.alias_cons (h : Known st vals) {w : ℕ}
    (hb : (look vals w).bit = (look vals rv).bit) (c : Bool) :
    Known ⟨st.boolMap, (rv, w) :: st.aliasMap, c⟩ vals where
  aliased v u hu := by
    by_cases heq : v = rv
    · subst heq
      obtain rfl : w = u := by simpa using hu
      exact hb
    · exact h.aliased v u (by simpa [List.lookup_cons, beq_false_of_ne heq] using hu)
  constant := h.constant

end

/-- The folded statement evaluates as the source's, and what is learned from it is true. -/
theorem foldStmt_step {G : ℕ → Prop} {st : FoldState} {f : Frame} {s : Stmt}
    (world : Externals) (ho : Ordered G st f.vals.length) (hk : Known st f.vals)
    (hs : Placed G f.vals.length s) :
    stepStmt world f (foldStmt st f.vals.length s).1 = stepStmt world f s ∧
      Known (foldStmt st f.vals.length s).2 (stepStmt world f s).vals := by
  have heval : evalStmt world f.st
        ((s.mapVars (canonAlias st.aliasMap)).mapVars (look f.vals)) =
      evalStmt world f.st (s.mapVars (look f.vals)) := by
    rw [BIrStmt.mapVars_mapVars]
    refine evalStmt_congr_values (fun v _ => hk.canon_bit v) fun v hv => ?_
    rw [Function.comp_apply, ho.canon_of_not (hs.handle v hv)]
  have hsame : stepStmt world f (s.mapVars (canonAlias st.aliasMap)) = stepStmt world f s := by
    simp only [stepStmt, heval]
  have hnext : Known st (stepStmt world f s).vals := hk.extend ho _
  have hlt : f.vals.length < (stepStmt world f s).vals.length := by simp
  obtain ⟨b, ht, h⟩ | ⟨b, hact, h⟩ | ⟨w, hact, h⟩ | h := foldStmt_cases st f.vals.length s rfl
  · rw [h]
    refine ⟨hsame, hnext.constant_cons hlt ?_ _⟩
    rw [← hsame, ht]
    cases b <;> simp [stepStmt, constStmt, BIrStmt.mapVars, evalStmt]
  · have hval := foldAction_eval hk world f.st hact
    rw [heval] at hval
    have hstep : stepStmt world f s = ⟨f.vals ++ [⟨b, .none⟩], f.st⟩ := by
      simp only [stepStmt, hval, Action.bit]
    have hbit : (look (stepStmt world f s).vals f.vals.length).bit = b := by
      rw [hstep, look_append_length]
    rw [h]
    refine ⟨?_, hnext.constant_cons hlt hbit _⟩
    rw [hstep]
    cases b <;> rfl
  · have hval := foldAction_eval hk world f.st hact
    rw [heval] at hval
    have hstep : stepStmt world f s = ⟨f.vals ++ [⟨(look f.vals w).bit, .none⟩], f.st⟩ := by
      simp only [stepStmt, hval, Action.bit]
    have hw : w < f.vals.length := by
      obtain ⟨-, x, hx, rfl⟩ := foldAction_toAlias_operand hact
      rw [BIrStmt.operands_mapVars] at hx
      obtain ⟨y, hy, rfl⟩ := List.mem_map.mp hx
      exact Nat.lt_of_le_of_lt (Nat.le_trans (ho.canon_le _) (ho.canon_le _)) (hs.operand y hy)
    have hbit : (look (stepStmt world f s).vals w).bit =
        (look (stepStmt world f s).vals f.vals.length).bit := by
      rw [hstep, look_append_left hw, look_append_length]
    rw [h]
    refine ⟨hsame, ?_⟩
    cases hb : st.boolMap.lookup w with
    | none => exact hnext.alias_cons hbit _
    | some b =>
        exact (hnext.constant_cons hlt (hbit.symm.trans (hnext.constant w b hb).2)
          st.changed).alias_cons hbit _
  · rw [h]
    exact ⟨hsame, hnext.aliased, hnext.constant⟩

end VolarIR.Opt
