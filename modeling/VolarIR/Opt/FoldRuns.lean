import Mathlib.Data.List.Forall2
import VolarIR.Boolar.Eval
import VolarIR.Opt.Fold

/-!
# Constant folding over blocks, programs and circuits

From one statement to the sweep, to the terminator, and to the loop that repeats the
sweep: folding ends, reports no change when called again, and every run of the folded
program is the run of the original, external calls and storage included.
-/
namespace VolarIR.Opt
open Boolar

variable {P : Type} {G : ℕ → Prop}

def stmtsWeight (stmts : List (Node Stmt P)) : ℕ := (stmts.map fun n => stmtWeight n.kind).sum

section
variable {st : FoldState} {rv : ℕ} {stmts : List (Node Stmt P)}

theorem foldStmtsFrom_cons (node : Node Stmt P) :
    foldStmtsFrom st rv (node :: stmts) =
      ({ node with kind := (foldStmt st rv node.kind).1 } ::
        (foldStmtsFrom (foldStmt st rv node.kind).2 (rv + 1) stmts).1,
        (foldStmtsFrom (foldStmt st rv node.kind).2 (rv + 1) stmts).2) := rfl

theorem foldStmtsFrom_changed (st : FoldState) (rv : ℕ) (stmts : List (Node Stmt P)) :
    (foldStmtsFrom st rv stmts).2.changed = false ↔
      st.changed = false ∧ (foldStmtsFrom st rv stmts).1 = stmts := by
  induction stmts generalizing st rv with
  | nil => simp [foldStmtsFrom]
  | cons node rest ih =>
      obtain ⟨kind, prov, side⟩ := node
      rw [foldStmtsFrom_cons]
      simp [ih, foldStmt_changed, and_assoc]

theorem foldStmtsFrom_placed (ho : Ordered G st rv) (stmts : List (Node Stmt P))
    (hs : PlacedAll G rv (stmts.map Node.kind)) :
    Ordered G (foldStmtsFrom st rv stmts).2 (rv + stmts.length) ∧
      PlacedAll G rv ((foldStmtsFrom st rv stmts).1.map Node.kind) := by
  induction stmts generalizing st rv with
  | nil => exact ⟨ho, trivial⟩
  | cons node rest ih =>
      obtain ⟨hrest, hplaced⟩ := ih (foldStmt_ordered ho hs.1) hs.2
      rw [foldStmtsFrom_cons, List.length_cons, Nat.add_comm rest.length, ← Nat.add_assoc]
      exact ⟨hrest, foldStmt_placed ho hs.1, hplaced⟩

theorem foldStmtsFrom_weight (ho : Ordered G st rv) (stmts : List (Node Stmt P))
    (hs : PlacedAll G rv (stmts.map Node.kind)) :
    stmtsWeight (foldStmtsFrom st rv stmts).1 ≤ stmtsWeight stmts ∧
      (stmtsWeight (foldStmtsFrom st rv stmts).1 = stmtsWeight stmts →
        (foldStmtsFrom st rv stmts).1 = stmts) := by
  induction stmts generalizing st rv with
  | nil => exact ⟨Nat.le_refl _, fun _ => rfl⟩
  | cons node rest ih =>
      obtain ⟨kind, prov, side⟩ := node
      have hhead := foldStmt_weight ho kind
      have hrest := ih (foldStmt_ordered ho hs.1) hs.2
      simp only [foldStmtsFrom_cons, stmtsWeight, List.map_cons, List.sum_cons] at hrest ⊢
      refine ⟨by omega, fun h => ?_⟩
      rw [hhead.2 (by omega), hrest.2 (by omega)]

/-- The folded statements reach the same frame, of which all that was learned is true. -/
theorem foldStmtsFrom_run {f : Frame} (world : Externals) (ho : Ordered G st f.vals.length)
    (hk : Known st f.vals) (stmts : List (Node Stmt P))
        (hs : PlacedAll G f.vals.length (stmts.map Node.kind)) :
    evalStmts world f ((foldStmtsFrom st f.vals.length stmts).1.map Node.kind) =
        evalStmts world f (stmts.map Node.kind) ∧
      Known (foldStmtsFrom st f.vals.length stmts).2
        (evalStmts world f (stmts.map Node.kind)).vals := by
  induction stmts generalizing st f with
  | nil => exact ⟨rfl, hk⟩
  | cons node rest ih =>
      obtain ⟨hstep, hknown⟩ := foldStmt_step world ho hk hs.1
      have hlen : (stepStmt world f node.kind).vals.length = f.vals.length + 1 :=
        stepStmt_length world f node.kind
      have hrest := ih (f := stepStmt world f node.kind)
        (by rw [hlen]; exact foldStmt_ordered ho hs.1) hknown (by rw [hlen]; exact hs.2)
      rw [hlen] at hrest
      simp only [foldStmtsFrom_cons, List.map_cons, evalStmts_cons, hstep]
      exact hrest

end

def targetWeight (t : BIrTarget ℕ) : ℕ :=
  t.args.sum + match t.block with
    | .dyn v => v
    | _ => 0

def terminatorWeight : BIrTerminator ℕ → ℕ
  | .jmp t => targetWeight t
  | .condJmp val t e => val + targetWeight t + targetWeight e + 1

theorem targetWeight_mapVars {g : ℕ → ℕ} (hg : ∀ v, g v ≤ v) (t : BIrTarget ℕ) :
    targetWeight (t.mapVars g) ≤ targetWeight t ∧
      (targetWeight (t.mapVars g) = targetWeight t → t.mapVars g = t) := by
  obtain ⟨block, args⟩ := t
  have hargs := sum_map_le hg args
  cases block with
  | block b | ret =>
      simp only [targetWeight, BIrTarget.mapVars, BIrTarget.mk.injEq, true_and]
      exact ⟨by omega, fun h => hargs.2 (by omega)⟩
  | dyn v =>
      have := hg v
      simp only [targetWeight, BIrTarget.mapVars, BIrTarget.mk.injEq, IRBlockTargetId.dyn.injEq]
      exact ⟨by omega, fun h => ⟨by omega, hargs.2 (by omega)⟩⟩

theorem terminatorWeight_mapVars {g : ℕ → ℕ} (hg : ∀ v, g v ≤ v) (t : BIrTerminator ℕ) :
    terminatorWeight (t.mapVars g) ≤ terminatorWeight t ∧
      (terminatorWeight (t.mapVars g) = terminatorWeight t → t.mapVars g = t) := by
  cases t with
  | jmp t =>
      simp only [terminatorWeight, BIrTerminator.mapVars, BIrTerminator.jmp.injEq]
      exact targetWeight_mapVars hg t
  | condJmp val t e =>
      have hval := hg val
      have ht := targetWeight_mapVars hg t
      have he := targetWeight_mapVars hg e
      simp only [terminatorWeight, BIrTerminator.mapVars, BIrTerminator.condJmp.injEq]
      exact ⟨by omega, fun h => ⟨by omega, ht.2 (by omega), he.2 (by omega)⟩⟩

theorem foldDeadBranch_weight (bools : List (ℕ × Bool)) (t : BIrTerminator ℕ) :
    terminatorWeight (foldDeadBranch bools t).1 ≤ terminatorWeight t ∧
      ((foldDeadBranch bools t).2 = false → (foldDeadBranch bools t).1 = t) ∧
      ((foldDeadBranch bools t).2 = true →
        terminatorWeight (foldDeadBranch bools t).1 < terminatorWeight t) := by
  cases t with
  | jmp t => exact ⟨Nat.le_refl _, fun _ => rfl, nofun⟩
  | condJmp val t e =>
      simp only [foldDeadBranch]
      cases bools.lookup val with
      | none => exact ⟨Nat.le_refl _, fun _ => rfl, nofun⟩
      | some v => cases v <;> simp [terminatorWeight] <;> omega

theorem evalTerminator_deadBranch {vals : List Value} {bools : List (ℕ × Bool)}
    (hb : ∀ v b, bools.lookup v = some b → (look vals v).bit = b) (t : BIrTerminator ℕ) :
    evalTerminator vals (foldDeadBranch bools t).1 = evalTerminator vals t := by
  cases t with
  | jmp t => rfl
  | condJmp val t e =>
      simp only [foldDeadBranch]
      cases hv : bools.lookup val with
      | none => rfl
      | some v => cases v <;> simp [evalTerminator, hb val _ hv]

theorem ordered_init (G : ℕ → Prop) (rv : ℕ) : Ordered G ⟨[], [], false⟩ rv := nofun

theorem known_init (vals : List Value) : Known ⟨[], [], false⟩ vals := ⟨nofun, nofun⟩

def blockWeight (b : BIrBlock P) : ℕ := stmtsWeight b.stmts + terminatorWeight b.terminator

theorem foldBlockOnce_placed {b : BIrBlock P} (hs : PlacedAll G b.params b.kinds) :
    PlacedAll G (foldBlockOnce b).1.params (foldBlockOnce b).1.kinds :=
  (foldStmtsFrom_placed (ordered_init G _) _ hs).2

theorem foldBlockOnce_eval {b : BIrBlock P} (hs : PlacedAll G b.params b.kinds)
    (world : Externals) (args : List Bool) (σ : EvalState) :
    evalBlock world (foldBlockOnce b).1 args σ = evalBlock world b args σ := by
  unfold evalBlock
  by_cases hlen : args.length = b.params
  · have hframe : (⟨paramValues args, σ⟩ : Frame).vals.length = b.params := by simpa using hlen
    have hrun := foldStmtsFrom_run (G := G) (f := ⟨paramValues args, σ⟩) world
      (ordered_init G _) (known_init _) b.stmts (by rw [hframe]; exact hs)
    rw [hframe] at hrun
    have hterm : evalTerminator (evalStmts world ⟨paramValues args, σ⟩ b.kinds).vals
        (foldBlockOnce b).1.terminator =
          evalTerminator (evalStmts world ⟨paramValues args, σ⟩ b.kinds).vals b.terminator := by
      refine (evalTerminator_deadBranch (fun v c hv => (hrun.2.constant v c hv).2) _).trans ?_
      refine (congrArg _ (congrArg Prod.fst (applyAliasesTerminator_eq _ _))).trans ?_
      exact evalTerminator_mapVars hrun.2.canon_bit _
    have hstmts : evalStmts world ⟨paramValues args, σ⟩ (foldBlockOnce b).1.kinds =
        evalStmts world ⟨paramValues args, σ⟩ b.kinds := hrun.1
    have hparams : args.length = (foldBlockOnce b).1.params := hlen
    simp only [if_pos hparams, if_pos hlen, hstmts, hterm]
  · have hparams : args.length ≠ (foldBlockOnce b).1.params := hlen
    rw [if_neg hparams, if_neg hlen]

theorem foldBlockOnce_weight {b : BIrBlock P} (hs : PlacedAll G b.params b.kinds) :
    ((foldBlockOnce b).2 = false → (foldBlockOnce b).1 = b) ∧
      ((foldBlockOnce b).2 = true → blockWeight (foldBlockOnce b).1 < blockWeight b) := by
  obtain ⟨params, stmts, terminator⟩ := b
  have ho := (foldStmtsFrom_placed (ordered_init G params) stmts hs).1
  have hchanged := foldStmtsFrom_changed ⟨[], [], false⟩ params stmts
  have hweight := foldStmtsFrom_weight (ordered_init G params) stmts hs
  simp only [foldBlockOnce, foldStmtsOnce, blockWeight, applyAliasesTerminator_eq]
  generalize foldStmtsFrom ⟨[], [], false⟩ params stmts = r at ho hchanged hweight ⊢
  have hterm := terminatorWeight_mapVars ho.canon_le terminator
  have hdead := foldDeadBranch_weight r.2.boolMap (terminator.mapVars (canonAlias r.2.aliasMap))
  constructor
  · intro h
    simp only [Bool.or_eq_false_iff, decide_eq_false_iff_not, not_not] at h
    rw [hdead.2.1 h.2, h.1.2, (hchanged.mp h.1.1).2]
  · intro h
    simp only [Bool.or_eq_true, decide_eq_true_iff] at h
    rcases h with (h | h) | h
    · have : stmtsWeight r.1 ≠ stmtsWeight stmts := fun heq => by
        rw [hchanged.mpr ⟨rfl, hweight.2 heq⟩] at h
        cases h
      omega
    · have : terminatorWeight (terminator.mapVars (canonAlias r.2.aliasMap)) ≠
          terminatorWeight terminator := fun heq => h (hterm.2 heq)
      omega
    · have := hdead.2.2 h
      omega

theorem foldStmtsFrom_length (st : FoldState) (rv : ℕ) (stmts : List (Node Stmt P)) :
    (foldStmtsFrom st rv stmts).1.length = stmts.length := by
  induction stmts generalizing st rv with
  | nil => rfl
  | cons node rest ih => rw [foldStmtsFrom, List.length_cons, ih, List.length_cons]

/-- A block that folding no longer changes, and that evaluates as `b` does. -/
structure FoldedFrom (b c : BIrBlock P) : Prop where
  size : c.params = b.params ∧ c.stmts.length = b.stmts.length
  stable : foldBlockOnce c = (c, false)
  eval : ∀ world args σ, evalBlock world c args σ = evalBlock world b args σ

theorem foldBlock_ends {b : BIrBlock P} (hs : PlacedAll G b.params b.kinds) :
    ∃ r, FoldedFrom b r.1 ∧
      ∀ fuel, blockWeight b < fuel → Loop.untilStable foldBlockOnce fuel b = some r := by
  have hplaced : ∀ c : BIrBlock P, PlacedAll G c.params c.kinds →
      PlacedAll G (foldBlockOnce c).1.params (foldBlockOnce c).1.kinds :=
    fun c => foldBlockOnce_placed
  obtain ⟨r, hr⟩ := Loop.untilStable_ends (μ := blockWeight) hplaced
    (fun c hc => (foldBlockOnce_weight hc).2) hs (Nat.lt_succ_self (blockWeight b))
  have hstable := Loop.untilStable_stable hplaced (fun c hc => (foldBlockOnce_weight hc).1) hs hr
  have hkeeps := Loop.untilStable_keeps
    (fun c => PlacedAll G c.params c.kinds ∧
      (c.params = b.params ∧ c.stmts.length = b.stmts.length) ∧
      ∀ world args σ, evalBlock world c args σ = evalBlock world b args σ)
    (fun c hc => ⟨hplaced c hc.1, ⟨hc.2.1.1, (foldStmtsFrom_length _ _ _).trans hc.2.1.2⟩,
      fun world args σ => (foldBlockOnce_eval hc.1 world args σ).trans (hc.2.2 world args σ)⟩)
    ⟨hs, ⟨rfl, rfl⟩, fun _ _ _ => rfl⟩ hr
  exact ⟨r, ⟨hkeeps.2.1, hstable, hkeeps.2.2⟩, fun fuel hf => Loop.untilStable_mono hr hf⟩

def circuitWeight (c : BCircuit P) : ℕ := stmtsWeight c.stmts + c.outputs.sum

theorem foldCircuitOnce_placed {c : BCircuit P} (hs : PlacedAll G c.params c.kinds) :
    PlacedAll G (foldCircuitOnce c).1.params (foldCircuitOnce c).1.kinds :=
  (foldStmtsFrom_placed (ordered_init G _) _ hs).2

theorem foldCircuitOnce_weight {c : BCircuit P} (hs : PlacedAll G c.params c.kinds) :
    ((foldCircuitOnce c).2 = false → (foldCircuitOnce c).1 = c) ∧
      ((foldCircuitOnce c).2 = true → circuitWeight (foldCircuitOnce c).1 < circuitWeight c) := by
  obtain ⟨params, stmts, preInit, outputs⟩ := c
  have ho := (foldStmtsFrom_placed (ordered_init G params) stmts hs).1
  have hchanged := foldStmtsFrom_changed ⟨[], [], false⟩ params stmts
  have hweight := foldStmtsFrom_weight (ordered_init G params) stmts hs
  simp only [foldCircuitOnce, foldStmtsOnce, circuitWeight]
  have hout := sum_map_le ho.canon_le outputs
  constructor
  · intro h
    obtain ⟨hstmts, houtputs⟩ := Bool.or_eq_false_iff.mp h
    rw [not_not.mp (of_decide_eq_false houtputs), (hchanged.mp hstmts).2]
  · intro h
    rcases Bool.or_eq_true_iff.mp h with hstmts | houtputs
    · have := mt hweight.2 fun heq => by
        rw [hchanged.mpr ⟨rfl, heq⟩] at hstmts
        cases hstmts
      omega
    · have := mt hout.2 (of_decide_eq_true houtputs)
      omega

theorem foldCircuitOnce_eval {c : BCircuit P} (hs : PlacedAll G c.params c.kinds)
    (world : Externals) {inputs : List Bool} (hlen : inputs.length = c.params) (σ : EvalState) :
    (foldCircuitOnce c).1.eval world inputs σ = c.eval world inputs σ ∧
      (foldCircuitOnce c).1.evalFrame world inputs σ = c.evalFrame world inputs σ := by
  have hframe : (⟨paramValues inputs, σ⟩ : Frame).vals.length = c.params := by simpa using hlen
  have hrun := foldStmtsFrom_run (G := G) (f := ⟨paramValues inputs, σ⟩) world
    (ordered_init G _) (known_init _) c.stmts (by rw [hframe]; exact hs)
  rw [hframe] at hrun
  have hvals : (foldCircuitOnce c).1.evalFrame world inputs σ = c.evalFrame world inputs σ :=
    hrun.1
  refine ⟨?_, hvals⟩
  rw [BCircuit.eval, BCircuit.eval, hvals]
  refine (List.map_map ..).trans (List.map_congr_left fun v _ => ?_)
  exact hrun.2.canon_bit v

theorem foldCircuit_ends {c : BCircuit P} (hs : PlacedAll G c.params c.kinds) :
    ∃ fuel r, Loop.untilStable foldCircuitOnce fuel c = some r ∧
      foldCircuitOnce r.1 = (r.1, false) ∧ r.1.params = c.params ∧
      r.1.stmts.length = c.stmts.length ∧ ∀ world inputs σ, inputs.length = c.params →
        r.1.eval world inputs σ = c.eval world inputs σ ∧
          r.1.evalFrame world inputs σ = c.evalFrame world inputs σ := by
  have hplaced : ∀ c : BCircuit P, PlacedAll G c.params c.kinds →
      PlacedAll G (foldCircuitOnce c).1.params (foldCircuitOnce c).1.kinds :=
    fun c => foldCircuitOnce_placed
  obtain ⟨r, hr⟩ := Loop.untilStable_ends (μ := circuitWeight) hplaced
    (fun c hc => (foldCircuitOnce_weight hc).2) hs (Nat.lt_succ_self (circuitWeight c))
  have hstable := Loop.untilStable_stable hplaced (fun c hc => (foldCircuitOnce_weight hc).1) hs hr
  have hkeeps := Loop.untilStable_keeps
    (fun d => PlacedAll G d.params d.kinds ∧ d.params = c.params ∧
      d.stmts.length = c.stmts.length ∧ ∀ world inputs σ, inputs.length = c.params →
        d.eval world inputs σ = c.eval world inputs σ ∧
          d.evalFrame world inputs σ = c.evalFrame world inputs σ)
    (fun d hd => ⟨hplaced d hd.1, hd.2.1, (foldStmtsFrom_length _ _ _).trans hd.2.2.1,
      fun world inputs σ hlen => by
        have hround := foldCircuitOnce_eval hd.1 world (hlen.trans hd.2.1.symm) σ
        have hsofar := hd.2.2.2 world inputs σ hlen
        exact ⟨hround.1.trans hsofar.1, hround.2.trans hsofar.2⟩⟩)
    ⟨hs, rfl, rfl, fun _ _ _ _ => ⟨rfl, rfl⟩⟩ hr
  exact ⟨_, r, hr, hstable, hkeeps.2⟩

/-- Var `v` of a statement list is the result of a binary gate. -/
def binaryGateAt (base : ℕ) (stmts : List Stmt) (v : ℕ) : Bool :=
  decide (base ≤ v) && (stmts[v - base]?).any isBinaryGate

def ProjectsCalls (base : ℕ) (stmts : List Stmt) : Prop :=
  ∀ s ∈ stmts, ∀ v ∈ s.handles, binaryGateAt base stmts v = false

instance (base : ℕ) (stmts : List Stmt) : Decidable (ProjectsCalls base stmts) :=
  inferInstanceAs (Decidable (∀ s ∈ stmts, ∀ v ∈ s.handles, _ = _))

theorem placedAll_of_getElem {rv : ℕ} {ks : List Stmt}
    (h : ∀ i s, ks[i]? = some s → Placed G (rv + i) s) : PlacedAll G rv ks := by
  induction ks generalizing rv with
  | nil => trivial
  | cons s rest ih =>
      refine ⟨h 0 s rfl, ih fun i t ht => ?_⟩
      rw [Nat.add_assoc, Nat.add_comm 1]
      exact h (i + 1) t ht

theorem placedAll_of_defined {base : ℕ} {ks : List Stmt} (hd : Defined base ks)
    (hc : ProjectsCalls base ks) : PlacedAll (fun v => binaryGateAt base ks v = true) base ks :=
  placedAll_of_getElem fun i s hs =>
    { operand := operands_lt_of_getElem hd hs
      gate := fun hg => by simp [binaryGateAt, hs, hg]
      handle := fun v hv => by simp [hc s (List.mem_of_getElem? hs) v hv] }

theorem mapM_foldedFrom {bs : List (BIrBlock P)}
    (h : ∀ b ∈ bs, ∃ G, PlacedAll G b.params b.kinds) :
    ∃ fuel rs, bs.mapM (Loop.untilStable foldBlockOnce fuel) = some rs ∧
      List.Forall₂ (fun b r => FoldedFrom b r.1) bs rs := by
  have hmapM : ∀ {f : BIrBlock P → Option (BIrBlock P × Bool)} {bs rs},
      List.Forall₂ (fun b r => f b = some r) bs rs → bs.mapM f = some rs := fun hf => by
    induction hf with
    | nil => rfl
    | cons hb _ ih =>
        rw [List.mapM_cons, hb, ih]
        rfl
  have hall : ∃ bound rs, List.Forall₂ (fun b r => FoldedFrom b r.1 ∧ ∀ fuel, bound < fuel →
      Loop.untilStable foldBlockOnce fuel b = some r) bs rs := by
    induction bs with
    | nil => exact ⟨0, [], .nil⟩
    | cons b rest ih =>
        obtain ⟨G, hG⟩ := h b List.mem_cons_self
        obtain ⟨r, hr, hfuel⟩ := foldBlock_ends hG
        obtain ⟨bound, rs, hrs⟩ := ih fun c hc => h c (List.mem_cons_of_mem b hc)
        refine ⟨max (blockWeight b) bound, r :: rs,
          .cons ⟨hr, fun fuel hf => hfuel fuel (by omega)⟩ ?_⟩
        exact hrs.imp fun c r hc => ⟨hc.1, fun fuel hf => hc.2 fuel (by omega)⟩
  obtain ⟨bound, rs, hrs⟩ := hall
  exact ⟨bound + 1, rs, hmapM (hrs.imp fun b r hb => hb.2 _ (Nat.lt_succ_self _)),
    hrs.imp fun b r hb => hb.1⟩

theorem foldBlocks_stable {blocks : BIrBlocks P} (hids : ∀ b ∈ blocks.blocks, b.IdsFit)
    (h : ∀ b ∈ blocks.blocks, foldBlockOnce b = (b, false)) (fuel : ℕ) :
    foldBlocks (fuel + 1) blocks = some (blocks, false) := by
  obtain ⟨bs, preInit⟩ := blocks
  have hmap : bs.mapM (Loop.untilStable foldBlockOnce (fuel + 1)) =
      some (bs.map fun b => (b, false)) := by
    clear hids
    induction bs with
    | nil => rfl
    | cons b rest ih =>
        rw [List.mapM_cons, Loop.untilStable_of_stable (h b List.mem_cons_self),
          ih fun c hc => h c (List.mem_cons_of_mem b hc)]
        rfl
  rw [foldBlocks, if_pos hids, hmap]
  simp [Function.comp_def]

theorem foldBlocks_preserves {blocks : BIrBlocks P}
    (hd : ∀ b ∈ blocks.blocks, Defined b.params b.kinds)
    (hc : ∀ b ∈ blocks.blocks, ProjectsCalls b.params b.kinds)
    (hids : ∀ b ∈ blocks.blocks, b.IdsFit) :
    ∃ fuel folded changed, foldBlocks fuel blocks = some (folded, changed) ∧
      (∀ fuel, foldBlocks (fuel + 1) folded = some (folded, false)) ∧
      ∀ world budget c, runBlocks world folded budget c = runBlocks world blocks budget c := by
  obtain ⟨fuel, rs, hrs, hfolded⟩ := mapM_foldedFrom fun b hb =>
    ⟨_, placedAll_of_defined (hd b hb) (hc b hb)⟩
  have hfrom : ∀ c ∈ rs.map Prod.fst, ∃ b ∈ blocks.blocks, FoldedFrom b c := by
    intro c hc
    obtain ⟨r, hr, rfl⟩ := List.mem_map.mp hc
    obtain ⟨i, hi, rfl⟩ := List.mem_iff_getElem.mp hr
    have hi' : i < blocks.blocks.length := hfolded.length_eq ▸ hi
    exact ⟨_, List.getElem_mem hi', hfolded.get hi' hi⟩
  refine ⟨fuel, ⟨rs.map Prod.fst, blocks.preInit⟩, rs.any Prod.snd, ?_,
    foldBlocks_stable (fun c hc => ?_) fun c hc => ?_, fun world budget c => ?_⟩
  · rw [foldBlocks, if_pos hids, hrs]
    rfl
  · obtain ⟨b, hb, hbc⟩ := hfrom c hc
    rw [BIrBlock.IdsFit, hbc.size.1, hbc.size.2]
    exact hids b hb
  · obtain ⟨b, -, hbc⟩ := hfrom c hc
    exact hbc.stable
  · refine runBlocks_congr (by simp [hfolded.length_eq]) (fun i c b hc hb args σ => ?_) budget c
    obtain ⟨r, hr, rfl⟩ := Option.map_eq_some_iff.mp ((List.getElem?_map ..).symm.trans hc)
    obtain ⟨hi, rfl⟩ := List.getElem?_eq_some_iff.mp hr
    obtain ⟨hi', rfl⟩ := List.getElem?_eq_some_iff.mp hb
    exact (hfolded.get hi' hi).eval world args σ

/-- Folding ends in a fixpoint that runs as the original does: the same path, the same
bits, the same storage and the same external calls, for every budget. A circuit keeps its
outputs and its final frame. -/
theorem fold_preserves_runs :
    (∀ blocks : BIrBlocks P, (∀ b ∈ blocks.blocks, Defined b.params b.kinds) →
      (∀ b ∈ blocks.blocks, ProjectsCalls b.params b.kinds) → (∀ b ∈ blocks.blocks, b.IdsFit) →
      ∃ fuel folded changed, foldBlocks fuel blocks = some (folded, changed) ∧
        (∀ fuel, foldBlocks (fuel + 1) folded = some (folded, false)) ∧
        ∀ world budget c, runBlocks world folded budget c = runBlocks world blocks budget c) ∧
    ∀ circuit : BCircuit P, Defined circuit.params circuit.kinds →
      ProjectsCalls circuit.params circuit.kinds → circuit.varSpace ≤ u32Max + 1 →
      ∃ fuel folded changed, foldCircuit fuel circuit = some (folded, changed) ∧
        (∀ fuel, foldCircuit (fuel + 1) folded = some (folded, false)) ∧
        ∀ world inputs σ, inputs.length = circuit.params →
          folded.eval world inputs σ = circuit.eval world inputs σ ∧
            (folded.evalFrame world inputs σ).st = (circuit.evalFrame world inputs σ).st := by
  refine ⟨fun blocks => foldBlocks_preserves, fun circuit hd hc hids => ?_⟩
  obtain ⟨fuel, r, hr, hstable, hparams, hlength, heval⟩ :=
    foldCircuit_ends (placedAll_of_defined hd hc)
  have hids' : r.1.varSpace ≤ u32Max + 1 := by
    rw [BCircuit.varSpace, hparams, hlength]
    exact hids
  refine ⟨fuel, r.1, r.2, ?_, fun fuel => ?_,
    fun world inputs σ hlen => ⟨(heval world inputs σ hlen).1, ?_⟩⟩
  · rw [foldCircuit, if_pos hids, hr]
  · rw [foldCircuit, if_pos hids', Loop.untilStable_of_stable hstable]
  · rw [(heval world inputs σ hlen).2]

/-- `x AND true` in a branch condition, and the same gate as a circuit. -/
def andTrue : List (Node Stmt Unit) := [.new .one (), .new (.and 0 1) ()]

def andTrueBranch : BIrBlocks Unit :=
  ⟨[⟨1, andTrue, .condJmp 2 ⟨.ret, [2]⟩ ⟨.block 0, [1]⟩⟩], []⟩

def andTrueCircuit : BCircuit Unit := ⟨1, andTrue, [], [2]⟩

theorem fold_preserves_runs_andTrue :
    (∃ fuel folded changed, foldBlocks fuel andTrueBranch = some (folded, changed) ∧
      (∀ fuel, foldBlocks (fuel + 1) folded = some (folded, false)) ∧
      ∀ world budget c, runBlocks world folded budget c = runBlocks world andTrueBranch budget c) ∧
    ∃ fuel folded changed, foldCircuit fuel andTrueCircuit = some (folded, changed) ∧
      (∀ fuel, foldCircuit (fuel + 1) folded = some (folded, false)) ∧
      ∀ world inputs σ, inputs.length = 1 →
        folded.eval world inputs σ = andTrueCircuit.eval world inputs σ ∧
          (folded.evalFrame world inputs σ).st = (andTrueCircuit.evalFrame world inputs σ).st :=
  ⟨fold_preserves_runs.1 andTrueBranch (by decide) (by decide) (by decide),
    fold_preserves_runs.2 andTrueCircuit (by decide) (by decide) (by decide)⟩

def gatedHandle (call : ℕ) : BIrBlocks Unit :=
  ⟨[⟨0, [.new (.oracleCall "f" [] 1) (), .new .one (), .new (.and 0 1) (),
    .new (.oracleProjectedBit call 0) ()], .jmp ⟨.ret, [3]⟩⟩], []⟩

/-- A gate's result is no call, so projecting it reads `false`; folding redirects the
projection to the handle, which may answer `true`. -/
theorem fold_gatedHandle :
    let world : Externals := ⟨fun _ _ _ => true, fun _ _ _ _ => true, fun _ _ _ => true⟩
    let start := Config.running 0 [] (EvalState.init StorageMap.empty)
    (∀ b ∈ (gatedHandle 2).blocks, Defined b.params b.kinds) ∧
      foldBlocks 2 (gatedHandle 2) = some (gatedHandle 0, true) ∧
      ∃ σ, runBlocks world (gatedHandle 2) 1 start = .returned [false] σ ∧
        runBlocks world (gatedHandle 0) 1 start = .returned [true] σ := by
  refine ⟨by decide, by decide, _, rfl, rfl⟩

end VolarIR.Opt
