import VolarIR.Movfuscate.BoolarSound
import VolarIR.Boolar.Eval

/-!
# Boolar movfuscation is a step-for-step simulation

Between two iterations of the combined block the PC bits hold the index of the block the
source is about to run, and the first state slots hold that block's arguments; the slots
past them hold anything. Each block the source runs is one iteration.
-/
namespace VolarIR.Movfuscate
open Boolar Stateful Circuit

def readsOnly {V S : Type} : BIrStmt V S → Bool
  | .storageRead .. => true
  | s => s.isPure

@[simp] theorem readsOnly_mapVars {V W S : Type} (g : V → W) (s : BIrStmt V S) :
    readsOnly (s.mapVars g) = readsOnly s := by
  cases s <;> rfl

section
variable {world : Externals} {σ τ : EvalState}

variable (world) in
theorem evalStmt_of_readsOnly {s : BIrStmt Value StorageId} (h : readsOnly s = true)
    (hst : σ.storage = τ.storage) :
    (evalStmt world σ s).1 = (evalStmt world τ s).1 ∧
      (evalStmt world σ s).2.storage = σ.storage := by
  cases s with
  | storageRead storage lane addr => exact ⟨by simp only [evalStmt, hst], rfl⟩
  | zero | one | and _ _ | or _ _ | xor _ _ | not _ => exact ⟨rfl, rfl⟩
  | oracleCall _ _ _ | oracleBit _ _ _ _ | oracleProjectedBit _ _ => exact ⟨rfl, rfl⟩
  | actionCall _ _ _ _ _ | actionBit _ _ | actionStoreBit _ _ _ _ _ _ _ _ _ => cases h
  | rng _ | rngBit _ _ _ | storageWrite _ _ _ _ => cases h

variable (world) in
theorem evalStmts_of_readsOnly (vals : List Value) {ks : List Stmt}
    (h : ∀ s ∈ ks, readsOnly s = true) (hst : σ.storage = τ.storage) :
    (evalStmts world ⟨vals, σ⟩ ks).vals = (evalStmts world ⟨vals, τ⟩ ks).vals ∧
      (evalStmts world ⟨vals, σ⟩ ks).st.storage = σ.storage := by
  induction ks generalizing vals σ τ with
  | nil => exact ⟨rfl, rfl⟩
  | cons s ks ih =>
      have hread : readsOnly (s.mapVars (look vals)) = true := by
        rw [readsOnly_mapVars]
        exact h s List.mem_cons_self
      have hs := evalStmt_of_readsOnly world hread hst
      have ht := evalStmt_of_readsOnly world hread hst.symm
      have hsame : (stepStmt world ⟨vals, σ⟩ s).st.storage =
          (stepStmt world ⟨vals, τ⟩ s).st.storage := by
        simp only [stepStmt, hs.2, ht.2, hst]
      have hrest := ih (stepStmt world ⟨vals, σ⟩ s).vals
        (fun t ht => h t (List.mem_cons_of_mem s ht)) hsame
      have hvals : (stepStmt world ⟨vals, σ⟩ s).vals = (stepStmt world ⟨vals, τ⟩ s).vals := by
        simp only [stepStmt, hs.1]
      rw [evalStmts_cons, evalStmts_cons]
      constructor
      · rw [hrest.1, hvals]
      · rw [hrest.2]
        exact hs.2

end

section
variable {P : Type}

/-- An edge leads to `Return`, or to a block with as many parameters as it passes arguments. -/
def EdgeFits (blocks : BIrBlocks P) (t : BIrTarget ℕ) : Prop :=
  match t.block with
  | .ret => True
  | .block j => blocks.blocks[j]?.map BIrBlock.params = some t.args.length
  | .dyn _ => False

/-- A well-formed program of several blocks that returns one width and has no effects. -/
structure Accepted (blocks : BIrBlocks P) : Prop where
  multi : 2 ≤ blocks.blocks.length
  wellFormed : ∀ b ∈ blocks.blocks, b.WellFormed
  edges : ∀ b ∈ blocks.blocks, ∀ t ∈ b.terminator.targets, EdgeFits blocks t
  returns : ∃ w, ∀ b ∈ blocks.blocks, ∀ t ∈ b.terminator.targets, t.block = .ret →
    t.args.length = w
  readsOnly : ∀ b ∈ blocks.blocks, ∀ s ∈ b.kinds, readsOnly s = true

theorem le_foldr_max {n : ℕ} {xs : List ℕ} (h : n ∈ xs) : n ≤ xs.foldr max 0 := by
  induction xs with
  | nil => cases h
  | cons x xs ih =>
      rw [List.foldr_cons]
      rcases List.mem_cons.mp h with rfl | h
      · exact Nat.le_max_left _ _
      · exact (ih h).trans (Nat.le_max_right _ _)

variable {blocks : BIrBlocks P}

theorem params_le_stateWidth {b : BIrBlock P} (hb : b ∈ blocks.blocks) :
    b.params ≤ blocks.stateWidth := le_foldr_max (List.mem_map_of_mem hb)

/-- A search that finds something, and finds nothing but `c`. -/
theorem getD_findSome? {α β : Type} {l : List α} {f : α → Option β} {a : α} {c d : β} (ha : a ∈ l)
    (hall : ∀ b ∈ l, ∀ v, f b = some v → v = c) (hsome : f a ≠ none) :
    (l.findSome? f).getD d = c := by
  cases hfind : l.findSome? f with
  | some v =>
      obtain ⟨b, hb, hv⟩ := List.exists_of_findSome?_eq_some hfind
      exact hall b hb v hv
  | none => exact absurd (List.findSome?_eq_none_iff.mp hfind a ha) hsome

/-- The width found first is the width of every `Return` edge. -/
theorem Accepted.returnValWidth_eq (h : Accepted blocks) {b : BIrBlock P}
    (hb : b ∈ blocks.blocks) {t : BIrTarget ℕ} (ht : t ∈ b.terminator.targets)
    (hret : t.block = .ret) : blocks.returnValWidth = t.args.length := by
  obtain ⟨w, hw⟩ := h.returns
  unfold BIrBlocks.returnValWidth
  apply getD_findSome? hb
  · intro b' hb' v hv
    obtain ⟨t', ht', hv⟩ := List.exists_of_findSome?_eq_some hv
    cases hdest : t'.block with
    | ret =>
        rw [hdest] at hv
        rw [← Option.some.inj hv, hw b hb t ht hret]
        exact hw b' hb' t' ht' hdest
    | block j => simp [hdest] at hv
    | dyn v => simp [hdest] at hv
  · intro hnone
    have hnone := List.findSome?_eq_none_iff.mp hnone t ht
    simp [hret] at hnone

theorem Accepted.fits (h : Accepted blocks) {b : BIrBlock P} (hb : b ∈ blocks.blocks)
    {t : BIrTarget ℕ} (ht : t ∈ b.terminator.targets) :
    BIrCtx.Fits blocks.stateWidth blocks.returnValWidth t := by
  have hedge := h.edges b hb t ht
  unfold EdgeFits at hedge
  unfold BIrCtx.Fits
  cases hdest : t.block with
  | ret => exact (h.returnValWidth_eq hb ht hdest).ge
  | block j =>
      rw [hdest] at hedge
      obtain ⟨b', hb', hlen⟩ := Option.map_eq_some_iff.mp hedge
      exact hlen ▸ params_le_stateWidth (List.mem_of_getElem? hb')
  | dyn v =>
      rw [hdest] at hedge
      exact hedge.elim

theorem Accepted.static (h : Accepted blocks) {b : BIrBlock P} (hb : b ∈ blocks.blocks)
    {t : BIrTarget ℕ} (ht : t ∈ b.terminator.targets) (vals : List Value) :
    ∃ r, resolveTarget vals t = some r := by
  have hedge := h.edges b hb t ht
  unfold EdgeFits at hedge
  unfold resolveTarget
  cases hdest : t.block with
  | ret => exact ⟨_, rfl⟩
  | block j => exact ⟨_, rfl⟩
  | dyn v =>
      rw [hdest] at hedge
      exact hedge.elim

def pcBits (blocks : BIrBlocks P) (cur : ℕ) : List Bool :=
  (List.range (pcBitsNeeded blocks.blocks.length)).map cur.testBit

@[simp] theorem length_pcBits (blocks : BIrBlocks P) (cur : ℕ) :
    (pcBits blocks cur).length = pcBitsNeeded blocks.blocks.length := by
  simp [pcBits]

abbrev emitBoolarStep (blocks : BIrBlocks P) : Emit (BIrCtx P) TermResult :=
  emitStep blocks (pcBitsNeeded blocks.blocks.length) (List.replicate blocks.stateWidth ())
    (List.replicate blocks.returnValWidth ())

abbrev stepStart (blocks : BIrBlocks P) (ctrlProv : P) : BIrCtx P :=
  BIrCtx.new (pcBitsNeeded blocks.blocks.length + blocks.stateWidth) ctrlProv

abbrev blockResult (blocks : BIrBlocks P) : Boolar.BlockResult → StepResult Bool :=
  BIrCtx.stepResult (pcBitsNeeded blocks.blocks.length) blocks.stateWidth blocks.returnValWidth

section
variable {world : Externals} {σ τ : EvalState} {cur i : ℕ} {b : BIrBlock P} {state : List Bool}

/-- A block computes over the slots what it computes in the source from their bits. -/
theorem Accepted.emitBlock (h : Accepted blocks) (hb : blocks.blocks[i]? = some b)
    (hstate : state.length = blocks.stateWidth) {r : Boolar.BlockResult}
    (hr : evalTerminator (evalStmts world ⟨paramValues (state.take b.params), τ⟩ b.kinds).vals
      b.terminator = some r) {c : BIrCtx P} {isActive : ℕ} {pc : List Bool}
    (hpc : pc.length = pcBitsNeeded blocks.blocks.length) (hc : c.Ok (pc ++ state))
    (hst : (runStmts world (pc ++ state) σ c.kinds).st.storage = τ.storage) :
    Ensures (do
      let blockVals ← MovfuscCtx.emitBlockStmts blocks i
        (List.range' (pcBitsNeeded blocks.blocks.length) blocks.stateWidth) isActive
      MovfuscCtx.emitBlockTerminator blocks i blockVals (pcBitsNeeded blocks.blocks.length)
        (List.replicate blocks.stateWidth ()) (List.replicate blocks.returnValWidth ())) c
      fun t d => c.kinds <+: d.kinds ∧ d.Ok (pc ++ state) ∧
        (runStmts world (pc ++ state) σ d.kinds).st.storage = τ.storage ∧
        BIrCtx.Delivers world (pc ++ state) σ d (pcBitsNeeded blocks.blocks.length)
          blocks.stateWidth blocks.returnValWidth t (blockResult blocks r) := by
  have hmem : b ∈ blocks.blocks := List.mem_of_getElem? hb
  have hwf := h.wellFormed b hmem
  have hparams : b.params ≤ state.length := hstate ▸ params_le_stateWidth hmem
  have hsame := evalStmts_of_readsOnly world (paramValues (state.take b.params))
      (h.readsOnly b hmem) hst
  have hstmts := BIrCtx.emitBlockStmts_ensures world σ isActive
    hb hwf hparams hc
  rw [hpc, hstate] at hstmts
  apply hstmts.bind
  intro vals d ⟨hokd, hgd, hcopied⟩
  have hlen : vals.length = b.params + b.stmts.length := by
    rw [hcopied.length, evalStmts_length, paramValues_length, List.length_take,
      Nat.min_eq_left hparams, BIrBlock.kinds, List.length_map]
  have hr' := hr
  rw [← hsame.1] at hr'
  have hterm := BIrCtx.emitTerminator_ensures (pcBitsNeeded blocks.blocks.length) hokd
    hcopied (fun v hv => hlen ▸ hwf.2 v hv) (fun t ht => h.fits hmem ht)
    (fun t ht => h.static hmem ht _) hr'
  rw [BIrCtx.emitBlockTerminator_eq hb]
  apply hterm.mono
  intro t e ⟨hqe, ht⟩
  refine ⟨hgd.trans hqe.grows, hqe.ok, ?_, ht⟩
  rw [hqe.st, hcopied.st, hsame.2]
  exact hst

theorem evalTerminator_static {vals : List Value} {terminator : BIrTerminator ℕ}
    (h : ∀ t ∈ terminator.targets, ∃ r, resolveTarget vals t = some r) :
    ∃ r, evalTerminator vals terminator = some r := by
  cases terminator with
  | jmp t => exact h t (List.mem_singleton_self t)
  | condJmp val t e =>
      simp only [BIrTerminator.targets, List.forall_mem_cons] at h
      rw [evalTerminator]
      split
      · exact h.1
      · exact h.2.1

def Unwritten (world : Externals) (x : List Bool) (σ : EvalState) (m : StorageMap) (_ : Bool)
    (c : BIrCtx P) : Prop := (runStmts world x σ c.kinds).st.storage = m

/-- With the PC at a block and its arguments in the first slots, the combined block
computes what that block computes. -/
theorem Accepted.emitStep (h : Accepted blocks) (hb : blocks.blocks[cur]? = some b)
    (hstate : state.length = blocks.stateWidth) (hst : σ.storage = τ.storage)
    {r : Boolar.BlockResult}
    (hr : evalTerminator (evalStmts world ⟨paramValues (state.take b.params), τ⟩ b.kinds).vals
      b.terminator = some r) (ctrlProv : P) :
    Ensures (emitBoolarStep blocks) (stepStart blocks ctrlProv) fun out d =>
      (runStmts world (pcBits blocks cur ++ state) σ d.kinds).st.storage = τ.storage ∧
        BIrCtx.Delivers world (pcBits blocks cur ++ state) σ d
          (pcBitsNeeded blocks.blocks.length) blocks.stateWidth blocks.returnValWidth out
          (blockResult blocks r) := by
  have hlaw : (BIrCtx.reading world (pcBits blocks cur ++ state) σ :
    Reading (BIrCtx P) Unit Bool).Lawful := BIrCtx.reading_lawful
  have hcur : cur < blocks.blocks.length := (List.getElem?_eq_some_iff.mp hb).1
  have hok : (stepStart blocks ctrlProv).Ok (pcBits blocks cur ++ state) := by
    rw [BIrCtx.Ok, List.length_append, length_pcBits, hstate]
    rfl
  have hpc := BIrCtx.carries_params world [] (pcBits blocks cur) state σ
    (stepStart blocks ctrlProv).kinds
  have hslots := BIrCtx.carries_params world (pcBits blocks cur) state [] σ
    (stepStart blocks ctrlProv).kinds
  rw [List.nil_append, List.length_nil, length_pcBits, ← List.range_eq_range'] at hpc
  rw [List.append_nil, length_pcBits, hstate] at hslots
  have hslots' : (BIrCtx.reading world (pcBits blocks cur ++ state) σ).slots
      (stepStart blocks ctrlProv) (List.replicate blocks.stateWidth ())
      (List.range' (pcBitsNeeded blocks.blocks.length)
        (List.replicate blocks.stateWidth ()).length) state := by
    rw [List.length_replicate]
    exact BIrCtx.slots_iff.mpr ⟨hslots, hstate⟩
  have hkeep : (BIrCtx.reading world (pcBits blocks cur ++ state) σ).KeepsPhase
      (Unwritten world (pcBits blocks cur ++ state) σ τ.storage : Bool → BIrCtx P → Prop) :=
    fun _ _ _ hq hp => (congrArg EvalState.storage hq.st).trans hp
  have hblocks : ∀ i < MovfuscCtx.numBlocks (BIrCtx P) blocks,
      (BIrCtx.reading world (pcBits blocks cur ++ state) σ).BlockEnsures
        (Unwritten world (pcBits blocks cur ++ state) σ τ.storage) cur
        (pcBitsNeeded blocks.blocks.length) (List.replicate blocks.stateWidth ())
        (List.replicate blocks.returnValWidth ()) (blockResult blocks r) blocks
        (stepStart blocks ctrlProv) i := by
    intro i hi d isActive _ hokd hp _
    have hbi : blocks.blocks[i]? = some (blocks.blocks.get ⟨i, hi⟩) := List.getElem?_eq_getElem hi
    obtain ⟨ri, hri⟩ := evalTerminator_static fun t ht => h.static (List.mem_of_getElem? hbi) ht
      (evalStmts world ⟨paramValues (state.take (blocks.blocks.get ⟨i, hi⟩).params), τ⟩
        (blocks.blocks.get ⟨i, hi⟩).kinds).vals
    rw [List.length_replicate]
    apply (h.emitBlock hbi hstate hri (length_pcBits blocks cur) hokd hp).mono
    intro t e hblock
    rcases hblock with ⟨hge, hoke, hpe, ht⟩
    refine ⟨hge, hoke, hpe, blockResult blocks ri, fun hic => ?_, ht⟩
    subst hic
    rw [hbi] at hb
    cases hb
    rw [hri] at hr
    cases hr
    rfl
  have hstep := hlaw.step hkeep hcur (le_two_pow_pcBitsNeeded _) hok hst hpc hslots'
    (fun _ _ => trivial) hblocks
  exact hstep.mono fun out d hd => ⟨hd.2.2.1, hd.2.2.2⟩

end

/-- The block assembled from what the statements `ctx` compute. -/
def combined (blocks : BIrBlocks P) (out : TermResult) (ctx : BIrCtx P) : BIrBlock P where
  params := pcBitsNeeded blocks.blocks.length + blocks.stateWidth
  stmts := ctx.stmts
  terminator := .condJmp out.done ⟨.ret, out.retVals⟩ ⟨.block 0, out.nextPcBits ++ out.nextState⟩

/-- The source and the step program stand at the same place. -/
inductive InStep (blocks : BIrBlocks P) : Config → Config → Prop
  | running {cur : ℕ} {b : BIrBlock P} {args rest : List Bool} {σ τ : EvalState} :
      blocks.blocks[cur]? = some b → args.length = b.params →
      (args ++ rest).length = blocks.stateWidth → σ.storage = τ.storage →
      InStep blocks (.running cur args τ) (.running 0 (pcBits blocks cur ++ (args ++ rest)) σ)
  | returned {bits : List Bool} {σ τ : EvalState} :
      σ.storage = τ.storage → InStep blocks (.returned bits τ) (.returned bits σ)

theorem exists_target_of_evalTerminator {vals : List Value} {terminator : BIrTerminator ℕ}
    {r : Boolar.BlockResult} (h : evalTerminator vals terminator = some r) :
    ∃ t ∈ terminator.targets, resolveTarget vals t = some r := by
  cases terminator with
  | jmp t => exact ⟨t, List.mem_singleton_self t, h⟩
  | condJmp val t e =>
      rw [evalTerminator] at h
      split at h
      · exact ⟨t, List.mem_cons_self, h⟩
      · exact ⟨e, List.mem_cons_of_mem t (List.mem_singleton_self e), h⟩

theorem map_look_of_carries {world : Externals} {x : List Bool} {σ : EvalState} {ks : List Stmt}
    {vs : List ℕ} {bs : List Bool} (h : Carries world x σ ks vs bs) :
    (vs.map fun v => (look (runStmts world x σ ks).vals v).bit) = bs := by
  induction h with
  | nil => rfl
  | cons hv _ ih => rw [List.map_cons, hv.2, ih]

section
variable {world : Externals} {out : TermResult} {ctx : BIrCtx P} {ctrlProv : P}

/-- The combined block returns or loops with what its vars hold. -/
theorem stepBlock_combined {x : List Bool} {σ : EvalState} {m : StepResult Bool}
    (hx : x.length = pcBitsNeeded blocks.blocks.length + blocks.stateWidth)
    (hm : BIrCtx.Delivers world x σ ctx (pcBitsNeeded blocks.blocks.length) blocks.stateWidth
      blocks.returnValWidth out m) (preInit : List BIrPreInitSegment) :
    stepBlock world ⟨[combined blocks out ctx], preInit⟩ (.running 0 x σ) =
      if m.done then .returned m.ret (runStmts world x σ ctx.kinds).st
      else .running 0 (m.nextPc ++ m.nextState) (runStmts world x σ ctx.kinds).st := by
  have hdone : (look (runStmts world x σ ctx.kinds).vals out.done).bit = m.done := hm.done.2
  have hret := map_look_of_carries hm.returned.1
  have hloop : (out.nextPcBits ++ out.nextState).map
      (fun v => (look (runStmts world x σ ctx.kinds).vals v).bit) = m.nextPc ++ m.nextState := by
    rw [List.map_append, map_look_of_carries hm.nextPc, map_look_of_carries hm.state.1]
  have hterm : evalTerminator (runStmts world x σ ctx.kinds).vals
      (combined blocks out ctx).terminator =
      some (if m.done then .ret m.ret else .jump 0 (m.nextPc ++ m.nextState)) := by
    simp only [combined, evalTerminator, hdone, resolveTarget, hret, hloop]
    split <;> rfl
  have hblock : evalBlock world (combined blocks out ctx) x σ =
      some (if m.done then .ret m.ret else .jump 0 (m.nextPc ++ m.nextState),
        (runStmts world x σ ctx.kinds).st) := by
    have hparams : x.length = (combined blocks out ctx).params := hx
    rw [evalBlock, if_pos hparams]
    exact congrArg (Option.map _) hterm
  simp only [stepBlock, List.getElem?_cons_zero, hblock]
  cases m.done <;> rfl

/-- What a block of the source does next, the combined block does next. -/
theorem Accepted.inStep_step (h : Accepted blocks)
    (hrun : (emitBoolarStep blocks).run (stepStart blocks ctrlProv) = some (out, ctx))
    (preInit : List BIrPreInitSegment) {c d : Config} (hcd : InStep blocks c d) :
    InStep blocks (stepBlock world blocks c)
      (stepBlock world ⟨[combined blocks out ctx], preInit⟩ d) := by
  cases hcd with
  | returned hst => exact .returned hst
  | @running cur b args rest σ τ hb hargs hstate hst =>
      have hmem := List.mem_of_getElem? hb
      have htake : (args ++ rest).take b.params = args := by rw [← hargs, List.take_left]
      obtain ⟨r, hr⟩ := evalTerminator_static fun t ht => h.static hmem ht
        (evalStmts world ⟨paramValues args, τ⟩ b.kinds).vals
      have hr' := hr
      rw [← htake] at hr'
      have hstep := (h.emitStep hb hstate hst hr' ctrlProv).of_run hrun
      have hkept := (evalStmts_of_readsOnly world (paramValues args)
        (h.readsOnly b hmem) (rfl : τ.storage = τ.storage)).2
      have hlen : (pcBits blocks cur ++ (args ++ rest)).length =
          pcBitsNeeded blocks.blocks.length + blocks.stateWidth := by
        rw [List.length_append, length_pcBits, hstate]
      have hsource : evalBlock world b args τ =
          some (r, (evalStmts world ⟨paramValues args, τ⟩ b.kinds).st) := by
        rw [evalBlock, if_pos hargs]
        exact congrArg (Option.map _) hr
      obtain ⟨t, ht, hres⟩ := exists_target_of_evalTerminator hr
      have hfits := h.fits hmem ht
      have hedge := h.edges b hmem t ht
      rw [stepBlock_combined hlen hstep.2]
      simp only [stepBlock, hb, hsource]
      unfold EdgeFits at hedge
      unfold BIrCtx.Fits at hfits
      unfold resolveTarget at hres
      cases hdest : t.block with
      | ret =>
          rw [hdest] at hres
          obtain rfl := Option.some.inj hres
          have hwidth := h.returnValWidth_eq hmem ht hdest
          have hpad : blocks.returnValWidth -
              (t.args.map fun v => (look (evalStmts world ⟨paramValues args, τ⟩ b.kinds).vals
                v).bit).length = 0 := by
            rw [List.length_map]
            omega
          simp only [blockResult, BIrCtx.stepResult, hpad, List.replicate_zero, List.append_nil,
            if_true]
          exact .returned (hstep.1.trans hkept.symm)
      | block j =>
          rw [hdest] at hres hedge hfits
          obtain rfl := Option.some.inj hres
          obtain ⟨b', hb', hlen'⟩ := Option.map_eq_some_iff.mp hedge
          apply InStep.running hb'
          · rw [List.length_map, hlen']
          · rw [List.length_append, List.length_replicate, List.length_map]
            omega
          · exact hstep.1.trans hkept.symm
      | dyn v =>
          rw [hdest] at hedge
          exact hedge.elim

variable (world) in
theorem Accepted.inStep_run (h : Accepted blocks)
    (hrun : (emitBoolarStep blocks).run (stepStart blocks ctrlProv) = some (out, ctx))
    (preInit : List BIrPreInitSegment) {c d : Config} (hcd : InStep blocks c d) (k : ℕ) :
    InStep blocks (runBlocks world blocks k c)
      (runBlocks world ⟨[combined blocks out ctx], preInit⟩ k d) := by
  induction k generalizing c d with
  | zero => exact hcd
  | succ k ih => exact ih (h.inStep_step hrun preInit hcd)

end

def HasControlProvenance (blocks : BIrBlocks P) (controlProv : Option P) : Prop :=
  (∃ b ∈ blocks.blocks, b.stmts ≠ []) ∨ controlProv.isSome

theorem exists_ctrlProv {controlProv : Option P}
    (hprov : HasControlProvenance blocks controlProv) :
    ∃ ctrlProv, controlProvenance blocks controlProv = some ctrlProv := by
  unfold controlProvenance
  cases hhead : (blocks.blocks.flatMap BIrBlock.stmts).head? with
  | some stmt => exact ⟨stmt.prov, rfl⟩
  | none =>
      rw [List.head?_eq_none_iff, List.flatMap_eq_nil_iff] at hhead
      rcases hprov with ⟨b, hb, hstmts⟩ | hgiven
      · exact absurd (hhead b hb) hstmts
      · exact Option.isSome_iff_exists.mp hgiven

/-- The counter of var ids, after the parameters and the statements of the step circuit, is a
`u32`. -/
def StepFits (blocks : BIrBlocks P) (controlProv : Option P) : Prop :=
  ∀ ctrlProv out ctx, controlProvenance blocks controlProv = some ctrlProv →
    (emitBoolarStep blocks).run (stepStart blocks ctrlProv) = some (out, ctx) →
    pcBitsNeeded blocks.blocks.length + blocks.stateWidth + ctx.stmts.length ≤ u32Max

/-- The pass assembles the step circuit, if the counter of var ids does not overflow. -/
theorem Accepted.movfuscated (h : Accepted blocks) {controlProv : Option P}
    (hprov : HasControlProvenance blocks controlProv) :
    ∃ ctrlProv out ctx, controlProvenance blocks controlProv = some ctrlProv ∧
      (emitBoolarStep blocks).run (stepStart blocks ctrlProv) = some (out, ctx) ∧
        movfuscateBiirImpl blocks controlProv =
          if pcBitsNeeded blocks.blocks.length + blocks.stateWidth + ctx.stmts.length ≤ u32Max then
            some ⟨[combined blocks out ctx], blocks.preInit⟩
          else none := by
  obtain ⟨ctrlProv, hctrl⟩ := exists_ctrlProv hprov
  have hmulti := h.multi
  have hpos : 0 < blocks.blocks.length := by omega
  have hb : blocks.blocks[0]? = some (blocks.blocks.get ⟨0, hpos⟩) :=
    List.getElem?_eq_getElem hpos
  -- The statements emitted do not depend on what they are run on.
  obtain ⟨r, hr⟩ := evalTerminator_static fun t ht => h.static (List.mem_of_getElem? hb) ht
    (evalStmts ⟨fun _ _ _ => false, fun _ _ _ _ => false, fun _ _ _ => false⟩
      ⟨paramValues ((List.replicate blocks.stateWidth false).take
        (blocks.blocks.get ⟨0, hpos⟩).params), .init .empty⟩
            (blocks.blocks.get ⟨0, hpos⟩).kinds).vals
  obtain ⟨out, ctx, hrun, -⟩ := h.emitStep hb List.length_replicate rfl hr ctrlProv
  refine ⟨ctrlProv, out, ctx, hctrl, hrun, ?_⟩
  have hstep : movfuscate (stepStart blocks ctrlProv) blocks
      (List.replicate blocks.stateWidth ()) (List.replicate blocks.returnValWidth ()) =
      some ⟨[combined blocks out ctx], []⟩ := by
    have hn : MovfuscCtx.numBlocks (BIrCtx P) blocks = blocks.blocks.length := rfl
    simp only [movfuscate, hn, if_neg (show ¬ blocks.blocks.length = 0 by omega),
      if_neg (show ¬ blocks.blocks.length = 1 by omega), hrun]
    simp only [Option.bind_eq_bind, Option.bind_some, List.length_replicate]
    rfl
  simp only [movfuscateBiirImpl, if_neg (show ¬ blocks.blocks.length = 1 by omega), hctrl,
    Option.bind_eq_bind, Option.bind_some, hstep]
  simp only [combined, List.all_cons, List.all_nil, Bool.and_true, decide_eq_true_eq]
  rfl

theorem InStep.returned_iff {c d : Config} (h : InStep blocks c d) (bits : List Bool) :
    (∃ σ, d = .returned bits σ) ↔ ∃ τ, c = .returned bits τ := by
  cases h with
  | running => simp
  | returned => simp

/-- Boolar movfuscation is a step-for-step simulation: from PC bits zero, the entry inputs
and anything in the other slots, the step program stands after every number of iterations
where the source stands after as many blocks, so it exits with the same bits after exactly
as many, or never. -/
theorem movfuscateBiir_simulates {blocks : BIrBlocks P} {controlProv : Option P}
    (h : Accepted blocks) (hprov : HasControlProvenance blocks controlProv)
    (hfits : StepFits blocks controlProv) :
    ∃ out block, movfuscateBiirImpl blocks controlProv = some out ∧ out.blocks = [block] ∧
      out.preInit = blocks.preInit ∧
      ∀ (world : Externals) (σ : EvalState) (entry : BIrBlock P) (inputs rest : List Bool),
        blocks.blocks[0]? = some entry → inputs.length = entry.params →
        (inputs ++ rest).length = blocks.stateWidth →
        ∀ k, InStep blocks (runBlocks world blocks k (.running 0 inputs σ))
            (runBlocks world out k (.running 0
              (List.replicate (pcBitsNeeded blocks.blocks.length) false ++ (inputs ++ rest)) σ)) ∧
          ∀ bits, (∃ τ, runBlocks world out k (.running 0
              (List.replicate (pcBitsNeeded blocks.blocks.length) false ++ (inputs ++ rest)) σ) =
                .returned bits τ) ↔
            ∃ τ, runBlocks world blocks k (.running 0 inputs σ) = .returned bits τ := by
  obtain ⟨ctrlProv, out, ctx, hctrl, hrun, hout⟩ := h.movfuscated hprov
  rw [if_pos (hfits ctrlProv out ctx hctrl hrun)] at hout
  refine ⟨_, _, hout, rfl, rfl, ?_⟩
  intro world σ entry inputs rest hentry hinputs hstate k
  have hpc : pcBits blocks 0 = List.replicate (pcBitsNeeded blocks.blocks.length) false := by
    rw [pcBits, List.map_congr_left (g := fun _ => false) fun j _ => Nat.zero_testBit j,
      List.map_const', List.length_range]
  have hstart : InStep blocks (.running 0 inputs σ)
      (.running 0 (List.replicate (pcBitsNeeded blocks.blocks.length) false ++ (inputs ++ rest))
        σ) := by
    rw [← hpc]
    exact .running hentry hinputs hstate rfl
  have hin := h.inStep_run world hrun blocks.preInit hstart k
  exact ⟨hin, fun bits => hin.returned_iff bits⟩

/-- A loop over three blocks that reads its storage and calls an oracle. -/
def countdown : BIrBlocks Unit where
  blocks := [
    ⟨2, [Node.new (.not 0) (), Node.new (.storageRead ⟨0⟩ ⟨0⟩ [0]) ()],
      .condJmp 0 ⟨.block 1, [2, 1]⟩ ⟨.block 2, [3]⟩⟩,
    ⟨2, [Node.new (.and 0 1) ()], .jmp ⟨.block 0, [2, 1]⟩⟩,
    ⟨1, [Node.new (.oracleBit "f" [0] 0 0) ()], .jmp ⟨.ret, [1]⟩⟩]
  preInit := []

theorem accepted_countdown : Accepted countdown where
  multi := by decide
  wellFormed := by decide
  edges := by simp [countdown, BIrTerminator.targets, EdgeFits]
  returns := ⟨1, by decide⟩
  readsOnly := by decide

theorem stepFits_countdown : StepFits countdown none := by
  intro ctrlProv out ctx hctrl hrun
  have hall : ((emitBoolarStep countdown).run (stepStart countdown ())).all
      (fun r => decide (2 + 2 + r.2.stmts.length ≤ u32Max)) = true := by decide +kernel
  rw [hrun] at hall
  exact of_decide_eq_true hall

/-- Three iterations, for the three blocks the loop runs. -/
theorem movfuscateBiir_simulates_countdown :
    ∃ out, movfuscateBiir countdown = some out ∧ ∀ world bits,
      (∃ τ, runBlocks world out 3 (.running 0 [false, false, true, true] (.init .empty)) =
        .returned bits τ) ↔
      ∃ τ, runBlocks world countdown 3 (.running 0 [true, true] (.init .empty)) =
        .returned bits τ := by
  obtain ⟨out, block, hout, -, -, hruns⟩ := movfuscateBiir_simulates accepted_countdown
    (.inl ⟨_, List.mem_cons_self, by simp⟩) stepFits_countdown
  refine ⟨out, hout, fun world bits => ?_⟩
  exact (hruns world (.init .empty) _ [true, true] [] rfl rfl rfl 3).2 bits

def bareHop : BIrBlocks Unit where
  blocks := [⟨0, [], .jmp ⟨.block 1, []⟩⟩, ⟨0, [], .jmp ⟨.ret, []⟩⟩]
  preInit := []

theorem accepted_bareHop : Accepted bareHop where
  multi := by decide
  wellFormed := by decide
  edges := by simp [bareHop, BIrTerminator.targets, EdgeFits]
  returns := ⟨0, by decide⟩
  readsOnly := by decide

def wideHop : BIrBlocks Unit where
  blocks := [⟨u32Max, [.new .zero ()], .jmp ⟨.block 1, []⟩⟩, ⟨0, [], .jmp ⟨.ret, []⟩⟩]
  preInit := []

theorem accepted_wideHop : Accepted wideHop where
  multi := by decide
  wellFormed := by decide
  edges := by simp [wideHop, BIrTerminator.targets, EdgeFits]
  returns := ⟨0, by decide⟩
  readsOnly := by decide

/-- With no statement to take a provenance from, the plain entry point panics; and so it does
when the PC bits and the state slots are more than the var ids. -/
theorem not_movfuscateBiir_bareHop :
    (¬ ∀ blocks : BIrBlocks Unit, Accepted blocks → ∃ out, movfuscateBiir blocks = some out) ∧
      ¬ ∀ blocks : BIrBlocks Unit, Accepted blocks → HasControlProvenance blocks none →
        ∃ out, movfuscateBiir blocks = some out := by
  constructor
  · intro h
    obtain ⟨out, hout⟩ := h bareHop accepted_bareHop
    cases hout
  · intro h
    have hprov : HasControlProvenance wideHop none := .inl ⟨_, List.mem_cons_self, by simp⟩
    obtain ⟨out, hout⟩ := h wideHop accepted_wideHop hprov
    obtain ⟨_, _, ctx, -, -, heq⟩ := accepted_wideHop.movfuscated hprov
    have hwide : ¬ pcBitsNeeded wideHop.blocks.length + wideHop.stateWidth + ctx.stmts.length ≤
        u32Max := by
      have hpc : pcBitsNeeded wideHop.blocks.length = 1 := by decide
      have hstate : wideHop.stateWidth = u32Max := by decide
      omega
    rw [movfuscateBiir, heq, if_neg hwide] at hout
    cases hout

end
end VolarIR.Movfuscate
