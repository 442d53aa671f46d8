import VolarIR.Opt.Dce

/-!
# Dead-code elimination preserves runs

The sweeps end because each of them drops a statement. They fail only when a result is
used more often than a `u32` counter can count, or when a statement they keep has no `u32`
id; otherwise the effectful statements stay in order and every run returns the same bits and
leaves the same storage.
-/
namespace VolarIR.Opt
open Boolar Fallible

variable {P : Type}

def renumberNode (g : ℕ → ℕ) (node : Node Stmt P) : Node Stmt P :=
  { node with kind := node.kind.mapVars g }

def effectful (stmts : List (Node Stmt P)) : List (Node Stmt P) :=
  stmts.filter fun node => !node.kind.isPure

def rebuild (dead : List Bool) (b : BIrBlock P) : BIrBlock P :=
  ⟨b.params, (kept dead b.stmts).map (renumberNode (renumberVar (renumbering b.params 0 0 dead))),
    renumberTerminator (renumbering b.params 0 0 dead) b.terminator⟩

structure Droppable (dead : List Bool) (b : BIrBlock P) : Prop where
  length : dead.length = b.stmts.length
  ok : DeadOk b.params dead b.kinds b.terminator.operands

theorem kept_map {α β : Type} (h : α → β) (dead : List Bool) (xs : List α) :
    kept dead (xs.map h) = (kept dead xs).map h := by
  induction xs generalizing dead with
  | nil => rcases dead with _ | ⟨_ | _, dead⟩ <;> rfl
  | cons x xs ih => rcases dead with _ | ⟨_ | _, dead⟩ <;> simp [kept, ih]

theorem kept_length_lt {α : Type} {dead : List Bool} {xs : List α}
    (hlen : dead.length = xs.length) :
    (kept dead xs).length ≤ xs.length ∧
      (dead.any id = true → (kept dead xs).length < xs.length) := by
  induction xs generalizing dead with
  | nil =>
      obtain rfl := List.length_eq_zero_iff.mp hlen
      exact ⟨Nat.le_refl _, nofun⟩
  | cons x xs ih =>
      rcases dead with _ | ⟨_ | _, dead⟩
      · cases hlen
      · have := ih (Nat.succ.inj hlen)
        simpa [kept] using this
      · have := (ih (Nat.succ.inj hlen)).1
        simp only [kept, List.length_cons]
        exact ⟨by omega, fun _ => by omega⟩

theorem operands_renumberTerminator (remap : List (ℕ × ℕ)) (t : BIrTerminator ℕ) :
    (renumberTerminator remap t).operands = t.operands.map (renumberVar remap) := by
  cases t <;> simp [renumberTerminator, renumberTarget, BIrTerminator.operands]

theorem count_map_le {g : ℕ → ℕ} {ops : List ℕ} (hg : ∀ u ∈ ops, ∀ v ∈ ops, g u = g v → u = v)
    {w : ℕ} : (ops.map g).count w = 0 ∨ ∃ v ∈ ops, g v = w ∧ (ops.map g).count w = ops.count v := by
  by_cases hw : w ∈ ops.map g
  · obtain ⟨v, hv, rfl⟩ := List.mem_map.mp hw
    refine .inr ⟨v, hv, rfl, ?_⟩
    rw [List.count, List.count, List.countP_map]
    refine List.countP_congr fun u hu => ?_
    simp only [Function.comp_apply, beq_iff_eq]
    exact ⟨hg u hu v hv, congrArg g⟩
  · exact .inl (List.count_eq_zero.mpr hw)

section
variable {dead : List Bool} {b : BIrBlock P}

theorem rebuild_kinds : (rebuild dead b).kinds = (kept dead b.kinds).map fun s =>
    s.mapVars (renumberVar (renumbering b.params 0 0 dead)) := by
  simp [rebuild, BIrBlock.kinds, kept_map, renumberNode, Function.comp_def]

theorem rebuild_uses : BIrBlock.uses (rebuild dead b) =
    (keptUses dead b.kinds b.terminator.operands).map
      (renumberVar (renumbering b.params 0 0 dead)) := by
  have hterm : (rebuild dead b).terminator.operands = b.terminator.operands.map
      (renumberVar (renumbering b.params 0 0 dead)) := operands_renumberTerminator ..
  rw [BIrBlock.uses, rebuild_kinds, hterm, keptUses, List.map_append, List.flatMap_map,
    List.map_flatMap]
  simp

theorem increasing_params (base : ℕ) (dead : List Bool) (ops : List ℕ) :
    Increasing (renumberVar (renumbering base 0 0 dead)) ops base base :=
  ⟨fun v hv _ => by rwa [renumberVar_param hv], fun u v huv hv _ _ => by
    rwa [renumberVar_param hv, renumberVar_param (Nat.lt_trans huv hv)]⟩

theorem Droppable.increasing (h : Droppable dead b) (hwf : b.WellFormed) :
    Increasing (renumberVar (renumbering b.params 0 0 dead))
      (keptUses dead b.kinds b.terminator.operands) (b.params + b.kinds.length)
      (b.params + (kept dead b.kinds).length) :=
  kept_increasing [] nofun h.ok (renumbers_renumbering b.params dead) hwf.1
    (increasing_params ..)

theorem uses_inRange (hwf : b.WellFormed) : InRange b.params b.kinds.length (BIrBlock.uses b) := by
  intro v hv
  rcases List.mem_append.mp hv with hv | hv
  · obtain ⟨s, hs, hv⟩ := List.mem_flatMap.mp hv
    obtain ⟨i, hi⟩ := List.mem_iff_getElem?.mp hs
    have := operands_lt_of_getElem hwf.1 hi v hv
    have := (List.getElem?_eq_some_iff.mp hi).1
    omega
  · have := hwf.2 v hv
    simpa [BIrBlock.kinds] using this

theorem Droppable.wellFormed (h : Droppable dead b) (hwf : b.WellFormed) :
    (rebuild dead b).WellFormed := by
  refine ⟨?_, fun v hv => ?_⟩
  · have hdef := kept_defined h.ok (renumbers_renumbering b.params dead) hwf.1
      (increasing_params ..)
    rw [← rebuild_kinds] at hdef
    exact hdef
  · have hterm : (rebuild dead b).terminator.operands = b.terminator.operands.map
        (renumberVar (renumbering b.params 0 0 dead)) := operands_renumberTerminator ..
    rw [hterm] at hv
    obtain ⟨u, hu, rfl⟩ := List.mem_map.mp hv
    have hlt := (h.increasing hwf).lt u (by simpa [BIrBlock.kinds] using hwf.2 u hu)
      (List.mem_append_right _ hu)
    simpa [BIrBlock.kinds, kept_map, rebuild] using hlt

/-- Dropping statements never raises a use count. -/
theorem Droppable.countable (h : Droppable dead b) (hwf : b.WellFormed)
    (hc : Countable b.params (BIrBlock.uses b)) :
    Countable b.params (BIrBlock.uses (rebuild dead b)) := by
  have hsub := kept_uses_sublist dead b.kinds b.terminator.operands
  have hrange : ∀ v ∈ keptUses dead b.kinds b.terminator.operands,
      v < b.params + b.kinds.length := fun v hv => uses_inRange hwf v (hsub.subset hv)
  have hmono := (h.increasing hwf).mono
  have hinj : ∀ u ∈ keptUses dead b.kinds b.terminator.operands,
      ∀ v ∈ keptUses dead b.kinds b.terminator.operands,
      renumberVar (renumbering b.params 0 0 dead) u =
        renumberVar (renumbering b.params 0 0 dead) v → u = v := fun u hu v hv huv => by
    rcases Nat.lt_trichotomy u v with hlt | heq | hlt
    · exact absurd huv (Nat.ne_of_lt (hmono u v hlt (hrange v hv) hu hv))
    · exact heq
    · exact absurd huv.symm (Nat.ne_of_lt (hmono v u hlt (hrange u hu) hv hu))
  intro w hw
  rw [rebuild_uses]
  rcases count_map_le hinj (w := w) with hzero | ⟨v, hv, rfl, heq⟩
  · rw [hzero]
    exact Nat.zero_le _
  · have hbase : b.params ≤ v := by
      by_contra hlt
      rw [renumberVar_param (Nat.lt_of_not_le hlt)] at hw
      exact hlt hw
    rw [heq]
    exact Nat.le_trans (hsub.count_le v) (hc v hbase)

theorem effectful_rebuild (h : Droppable dead b) :
    effectful (rebuild dead b).stmts =
      (effectful b.stmts).map (renumberNode (renumberVar (renumbering b.params 0 0 dead))) := by
  have hkept : ∀ {dead : List Bool} {stmts : List (Node Stmt P)} {v : ℕ} {after : List ℕ},
      DeadOk v dead (stmts.map Node.kind) after →
      effectful (kept dead stmts) = effectful stmts := fun {dead stmts v after} hok => by
    induction stmts generalizing dead v with
    | nil => rcases dead with _ | ⟨_ | _, dead⟩ <;> rfl
    | cons node rest ih =>
        rcases dead with _ | ⟨_ | _, dead⟩
        · exact hok.elim
        · have hrest := ih hok.2
          simp only [kept, effectful, List.filter_cons] at hrest ⊢
          rw [hrest]
        · have hpure := (hok.1 rfl).1
          have hrest := ih hok.2
          simp only [kept, effectful, List.filter_cons] at hrest ⊢
          simp [hrest, hpure]
  rw [← hkept h.ok, rebuild, effectful, effectful, List.filter_map]
  congr 2
  funext node
  simp [renumberNode]

def observed : Option (BlockResult × EvalState) →
    Option (BlockResult × StorageMap × List ExtCall) :=
  Option.map fun r => (r.1, r.2.storage, r.2.effects)

theorem evalTerminator_renumber {remap : List (ℕ × ℕ)} {vals vals' : List Value}
    {t : BIrTerminator ℕ}
    (h : ∀ v ∈ t.operands, look vals' (renumberVar remap v) = look vals v) :
    evalTerminator vals' (renumberTerminator remap t) = evalTerminator vals t := by
  have htarget : ∀ t : BIrTarget ℕ, (∀ v ∈ t.args, look vals' (renumberVar remap v) = look vals v) →
      resolveTarget vals' (renumberTarget remap t) = resolveTarget vals t := fun t ht => by
    have hargs : t.args.map (fun v => (look vals' (renumberVar remap v)).bit) =
        t.args.map fun v => (look vals v).bit := List.map_congr_left fun v hv => by rw [ht v hv]
    obtain ⟨block, args⟩ := t
    cases block <;> simp [resolveTarget, renumberTarget, Function.comp_def, hargs]
  cases t with
  | jmp t => exact htarget t h
  | condJmp val t e =>
      simp only [BIrTerminator.operands, List.cons_append, List.forall_mem_cons,
        List.forall_mem_append] at h
      simp only [renumberTerminator, evalTerminator, h.1, htarget t h.2.1, htarget e h.2.2]

theorem Droppable.eval (h : Droppable dead b) (hwf : b.WellFormed) (world : Externals)
    (args : List Bool) {σ τ : EvalState} (hst : SameEffects σ τ) :
    observed (evalBlock world (rebuild dead b) args τ) = observed (evalBlock world b args σ) := by
  unfold evalBlock
  have hparams : (rebuild dead b).params = b.params := rfl
  rw [hparams]
  split_ifs with hlen
  · have hf : ∀ ρ : EvalState, (⟨paramValues args, ρ⟩ : Frame).vals.length = b.params :=
      fun ρ => by simpa using hlen
    have hmatch : Matched (renumberVar (renumbering b.params 0 0 dead))
        (keptUses dead b.kinds b.terminator.operands) ⟨paramValues args, σ⟩
        ⟨paramValues args, τ⟩ := by
      refine ⟨fun v hv _ => ?_, hst⟩
      rw [hf] at hv
      rw [renumberVar_param hv, hf]
      exact ⟨hv, rfl⟩
    have hnumbers : Renumbers (renumberVar (renumbering b.params 0 0 dead))
        (⟨paramValues args, σ⟩ : Frame).vals.length (⟨paramValues args, τ⟩ : Frame).vals.length
        dead := by
      rw [hf]
      exact renumbers_renumbering b.params dead
    have hrun := kept_run world (by rw [hf]; exact h.ok) hnumbers (by rw [hf]; exact hwf.1) hmatch
    rw [← rebuild_kinds] at hrun
    have hterm := evalTerminator_renumber (t := b.terminator) fun v hv =>
      (hrun.look v (by simpa [BIrBlock.kinds, hlen] using hwf.2 v hv) hv).2
    have hterm' : evalTerminator (evalStmts world ⟨paramValues args, τ⟩ (rebuild dead b).kinds).vals
        (rebuild dead b).terminator = _ := hterm
    simp only [hterm', observed, Option.map_map, Function.comp_def, hrun.st.1, hrun.st.2]
  · rfl

/-- What the types of the source say: the number of params and the operands are `u32`s. -/
structure U32Vars (b : BIrBlock P) : Prop where
  params : b.params ≤ u32Max
  operands : ∀ v ∈ BIrBlock.uses b, v ≤ u32Max

/-- Where some pure statement is unused, every effectful one has a `u32` id. -/
def Renumberable (b : BIrBlock P) : Prop :=
  (∃ (i : ℕ) (s : Stmt), b.kinds[i]? = some s ∧ s.isPure = true ∧
    b.params + i ∉ BIrBlock.uses b) →
  ∀ (i : ℕ) (s : Stmt), b.kinds[i]? = some s → s.isPure = false → b.params + i ≤ u32Max

structure Eliminable (b : BIrBlock P) : Prop where
  countable : Countable b.params (BIrBlock.uses b)
  renumberable : Renumberable b

/-- What the sweep of a block finds to be dead. -/
theorem sweepDead_block (hwf : b.WellFormed) (hc : Countable b.params (BIrBlock.uses b)) :
    ∃ uses dead left,
      (BIrBlock.uses b).foldlM (countUse b.params) (List.replicate b.stmts.length 0) = .ok uses ∧
      sweepDead b.params 0 b.kinds uses = .ok (dead, left) ∧ Droppable dead b ∧
      ∀ (j : ℕ) (s : Stmt), b.kinds[j]? = some s → dead[j]? = some false → s.isPure = true →
        b.params + j ∈ BIrBlock.uses b := by
  have hlen : b.kinds.length = b.stmts.length := by simp [BIrBlock.kinds]
  obtain ⟨uses, huses, hcounts⟩ := countUses_ok (counts_replicate b.params b.stmts.length)
    (hlen ▸ uses_inRange hwf) (by simpa using hc)
  obtain ⟨dead, left, hsweep, hdlen, -, hok, hlive⟩ := sweepDead_spec [] (i := 0) hcounts
    hwf.1 (by omega)
  exact ⟨uses, dead, left, huses, hsweep, ⟨hdlen.trans hlen, hok⟩, hlive⟩

/-- Counting panics just when a result is used too often, and renumbering just when a kept
statement has no id; otherwise the sweep returns. -/
theorem dceBlockOnce_ok (hwf : b.WellFormed) (hvars : U32Vars b) (hb : Eliminable b) :
    dceBlockOnce b = .ok (b, false) ∨
      ∃ dead, Droppable dead b ∧ dead.any id = true ∧ keptFit b.params 0 dead = true ∧
        dceBlockOnce b = .ok (rebuild dead b, true) := by
  obtain ⟨uses, dead, left, huses, hsweep, hdead, hlive⟩ := sweepDead_block hwf hb.countable
  by_cases hany : dead.any id = true
  · have heffectful := hb.renumberable (hdead.ok.exists_unused hwf.1 hany)
    have hfit : keptFit b.params 0 dead = true := by
      rw [keptFit_iff]
      intro j hj
      obtain ⟨s, hs⟩ : ∃ s, b.kinds[j]? = some s := by
        have hlt := (List.getElem?_eq_some_iff.mp hj).1
        rw [hdead.ok.length] at hlt
        exact ⟨_, List.getElem?_eq_getElem hlt⟩
      cases hpure : s.isPure with
      | true => exact hvars.operands _ (hlive j s hs hj hpure)
      | false => exact heffectful j s hs hpure
    refine .inr ⟨dead, hdead, hany, hfit, ?_⟩
    simp only [dceBlockOnce, huses, ok_bind, hsweep, hany, hfit, if_true]
    rfl
  · refine .inl ?_
    simp only [dceBlockOnce, huses, ok_bind, hsweep, hany]
    rfl

theorem eliminable_of_dceBlockOnce_ok (hwf : b.WellFormed) {r : BIrBlock P × Bool}
    (hr : dceBlockOnce b = .ok r) : Eliminable b := by
  have hlen : b.kinds.length = b.stmts.length := by simp [BIrBlock.kinds]
  have hcountable : Countable b.params (BIrBlock.uses b) := by
    obtain ⟨uses, huses, -⟩ := Except.bind_eq_ok.mp hr
    have hall := countable_of_countUses_ok (counts_replicate b.params b.stmts.length)
      (fun v _ => by simp) (hlen ▸ uses_inRange hwf) huses
    simpa using hall
  refine ⟨hcountable, ?_⟩
  rintro ⟨i, s, hs, hpure, hunused⟩ j t ht heffectful
  obtain ⟨uses, dead, left, huses, hsweep, hdead, hlive⟩ := sweepDead_block hwf hcountable
  have hget : ∀ {k : ℕ} {u : Stmt}, b.kinds[k]? = some u →
      dead[k]? = some true ∨ dead[k]? = some false := by
    intro k u hu
    have hlt := (List.getElem?_eq_some_iff.mp hu).1
    rw [← hdead.ok.length] at hlt
    rw [List.getElem?_eq_getElem hlt]
    cases dead[k] with
    | true => exact .inl rfl
    | false => exact .inr rfl
  have hany : dead.any id = true := by
    rcases hget hs with htrue | hfalse
    · exact List.any_eq_true.mpr ⟨true, List.mem_of_getElem? htrue, rfl⟩
    · exact absurd (hlive i s hs hfalse hpure) hunused
  have hfit : keptFit b.params 0 dead = true := by
    by_contra hno
    simp only [dceBlockOnce, huses, ok_bind, hsweep, hany, hno, if_true] at hr
    cases hr
  rcases hget ht with htrue | hfalse
  · rw [hdead.ok.isPure ht htrue] at heffectful
    cases heffectful
  · exact keptFit_iff.mp hfit j hfalse

/-- Where every kept id fits, the block left has `u32` vars and nothing overflows in it. -/
theorem Droppable.eliminable (h : Droppable dead b) (hwf : b.WellFormed) (hvars : U32Vars b)
    (hc : Countable b.params (BIrBlock.uses b)) (hfit : keptFit b.params 0 dead = true) :
    U32Vars (rebuild dead b) ∧ Eliminable (rebuild dead b) := by
  have hlen : (rebuild dead b).kinds.length = (kept dead b.stmts).length := by
    simp [rebuild, BIrBlock.kinds]
  have hids : ∀ j < (kept dead b.stmts).length, b.params + j ≤ u32Max := kept_fit hfit
  refine ⟨⟨hvars.params, fun v hv => ?_⟩, h.countable hwf hc, fun _ i s hs _ => ?_⟩
  · have hlt : v < b.params + (kept dead b.stmts).length :=
      hlen ▸ uses_inRange (h.wellFormed hwf) v hv
    have hparams := hvars.params
    rcases Nat.lt_or_ge v b.params with hparam | hresult
    · omega
    · have hlast := hids (v - b.params) (by omega)
      omega
  · exact hids i (hlen ▸ (List.getElem?_eq_some_iff.mp hs).1)

/-- A block that elimination may reach from `b`. -/
structure DceFrom (b c : BIrBlock P) : Prop where
  wellFormed : c.WellFormed
  vars : U32Vars c
  eliminable : Eliminable c
  effects : ∃ g, effectful c.stmts = (effectful b.stmts).map (renumberNode g)
  eval : ∀ world args σ τ, SameEffects σ τ →
    observed (evalBlock world c args τ) = observed (evalBlock world b args σ)

theorem observed_evalBlock (world : Externals) (b : BIrBlock P) (args : List Bool)
    {σ τ : EvalState} (h : SameEffects σ τ) :
    observed (evalBlock world b args τ) = observed (evalBlock world b args σ) := by
  have hstmts : ∀ (stmts : List Stmt) (f f' : Frame), f'.vals = f.vals → SameEffects f.st f'.st →
      (evalStmts world f' stmts).vals = (evalStmts world f stmts).vals ∧
        SameEffects (evalStmts world f stmts).st (evalStmts world f' stmts).st := fun stmts => by
    induction stmts with
    | nil => exact fun f f' hv hs => ⟨hv, hs⟩
    | cons s rest ih =>
        intro f f' hv hs
        obtain ⟨hval, hst⟩ := evalStmt_sameEffects world hs (s.mapVars (look f.vals))
        refine ih _ _ ?_ ?_
        · simp only [stepStmt, hv, hval]
        · simp only [stepStmt, hv]
          exact hst
  obtain ⟨hv, hs, he⟩ := hstmts b.kinds ⟨paramValues args, σ⟩ ⟨paramValues args, τ⟩ rfl h
  unfold evalBlock
  split_ifs
  · simp only [observed, hv, hs, he, Option.map_map, Function.comp_def]
  · rfl

theorem renumberNode_id (node : Node Stmt P) : renumberNode id node = node := by
  simp [renumberNode]

theorem DceFrom.refl (hwf : b.WellFormed) (hvars : U32Vars b) (hb : Eliminable b) :
    DceFrom b b :=
  ⟨hwf, hvars, hb, ⟨id, by rw [funext renumberNode_id, List.map_id']⟩,
    fun world args _ _ h => observed_evalBlock world b args h⟩

/-- The invariant of the loop: no panic so far, and a block reached from `b`. -/
def DceReached (b : BIrBlock P) (o : Outcome Empty (BIrBlock P)) : Prop :=
  ∃ c, o = .ok c ∧ DceFrom b c

def outcomeLength : Outcome Empty (BIrBlock P) → ℕ
  | .error _ => 0
  | .ok c => c.stmts.length

theorem DceReached.round {o : Outcome Empty (BIrBlock P)} (h : DceReached b o) :
    DceReached b (dceRound o).1 ∧
      ((dceRound o).2 = true → outcomeLength (dceRound o).1 < outcomeLength o) := by
  obtain ⟨c, rfl, hc⟩ := h
  rcases dceBlockOnce_ok hc.wellFormed hc.vars hc.eliminable with
    hr | ⟨dead, hdead, hany, hfit, hr⟩
  · simp only [dceRound, hr]
    exact ⟨⟨c, rfl, hc⟩, nofun⟩
  · simp only [dceRound, hr]
    obtain ⟨hvars, hleft⟩ := hdead.eliminable hc.wellFormed hc.vars hc.eliminable.countable hfit
    refine ⟨⟨_, rfl, hdead.wellFormed hc.wellFormed, hvars, hleft, ?_, fun world args σ τ hst =>
      ?_⟩, fun _ => ?_⟩
    · obtain ⟨g, hg⟩ := hc.effects
      rw [effectful_rebuild hdead, hg, List.map_map]
      refine ⟨renumberVar (renumbering c.params 0 0 dead) ∘ g, List.map_congr_left fun node _ => ?_⟩
      simp only [renumberNode, Function.comp_apply, BIrStmt.mapVars_mapVars]
    · rw [hdead.eval hc.wellFormed world args ⟨rfl, rfl⟩, hc.eval world args σ τ hst]
    · simpa [outcomeLength, rebuild] using (kept_length_lt hdead.length).2 hany

theorem dceBlock_ends (hwf : b.WellFormed) (hvars : U32Vars b) (hb : Eliminable b) :
    ∃ c changed, DceFrom b c ∧ ∀ fuel, b.stmts.length < fuel →
      Loop.untilStable dceRound fuel (.ok b) = some (.ok c, changed) := by
  have hinit : DceReached b (.ok b) := ⟨b, rfl, .refl hwf hvars hb⟩
  have hkeeps : ∀ o, DceReached b o → DceReached b (dceRound o).1 := fun _ h => h.round.1
  obtain ⟨⟨o, changed⟩, hr⟩ := Loop.untilStable_ends (μ := outcomeLength) hkeeps
    (fun _ h => h.round.2) hinit (Nat.lt_succ_self b.stmts.length)
  obtain ⟨c, rfl, hfrom⟩ := Loop.untilStable_keeps (DceReached b) hkeeps hinit hr
  exact ⟨c, changed, hfrom, fun fuel hf => Loop.untilStable_mono hr hf⟩

end

def SameConfig : Config → Config → Prop
  | .running b args σ, .running b' args' τ => b = b' ∧ args = args' ∧ SameEffects σ τ
  | .returned bits σ, .returned bits' τ => bits = bits' ∧ SameEffects σ τ
  | .stuck, .stuck => True
  | _, _ => False

/-- Programs whose blocks evaluate alike run alike. -/
theorem runBlocks_sameConfig {world : Externals} {p q : BIrBlocks P}
    (hlen : q.blocks.length = p.blocks.length)
    (h : ∀ (i : ℕ) (b c : BIrBlock P), p.blocks[i]? = some b → q.blocks[i]? = some c →
      ∀ args σ τ, SameEffects σ τ →
        observed (evalBlock world c args τ) = observed (evalBlock world b args σ))
    (budget : ℕ) {c d : Config} (hcd : SameConfig c d) :
    SameConfig (runBlocks world p budget c) (runBlocks world q budget d) := by
  induction budget generalizing c d with
  | zero => exact hcd
  | succ budget ih =>
      refine ih ?_
      match c, d, hcd with
      | .returned _ _, .returned _ _, hcd => exact hcd
      | .stuck, .stuck, hcd => exact hcd
      | .running cur args σ, .running _ _ τ, ⟨rfl, rfl, hst⟩ =>
          by_cases hc : cur < p.blocks.length
          · have hb : p.blocks[cur]? = some p.blocks[cur] := List.getElem?_eq_getElem hc
            have hcq : cur < q.blocks.length := hlen ▸ hc
            have hq : q.blocks[cur]? = some q.blocks[cur] := List.getElem?_eq_getElem hcq
            have heval := h cur _ _ hb hq args σ τ hst
            simp only [stepBlock, hb, hq]
            cases hp : evalBlock world p.blocks[cur] args σ with
            | none =>
                rw [hp] at heval
                rw [Option.map_eq_none_iff.mp heval]
                trivial
            | some r =>
                rw [hp] at heval
                obtain ⟨r', hr', heq⟩ := Option.map_eq_some_iff.mp heval
                obtain ⟨res, σ'⟩ := r
                obtain ⟨res', τ'⟩ := r'
                simp only [Prod.mk.injEq] at heq
                obtain ⟨rfl, hs, he⟩ := heq
                rw [hr']
                cases res' with
                | ret bits => exact ⟨rfl, hs.symm, he.symm⟩
                | jump next args' => exact ⟨rfl, rfl, hs.symm, he.symm⟩
          · simp only [stepBlock, List.getElem?_eq_none (Nat.le_of_not_lt hc),
              List.getElem?_eq_none (hlen ▸ Nat.le_of_not_lt hc)]
            trivial

/-- Elimination ends without a panic, keeps the effectful statements of every block in
order, and every run of the result returns the same bits with the same storage and the
same effects. -/
def DcePreserves (blocks : BIrBlocks P) : Prop :=
  ∃ fuel out changed, dceBlocks fuel blocks = some (.ok (out, changed)) ∧
    out.blocks.length = blocks.blocks.length ∧
    (∀ (i : ℕ) (b c : BIrBlock P), blocks.blocks[i]? = some b → out.blocks[i]? = some c →
      ∃ g, effectful c.stmts = (effectful b.stmts).map (renumberNode g)) ∧
    ∀ world budget c d, SameConfig c d →
      SameConfig (runBlocks world blocks budget c) (runBlocks world out budget d)

theorem dceBlockList_ends {bs : List (BIrBlock P)} (hwf : ∀ b ∈ bs, b.WellFormed)
    (hvars : ∀ b ∈ bs, U32Vars b) (hc : ∀ b ∈ bs, Eliminable b) :
    ∃ bound cs changed, List.Forall₂ DceFrom bs cs ∧
      ∀ fuel, bound < fuel → dceBlockList fuel bs = some (.ok (cs, changed)) := by
  induction bs with
  | nil => exact ⟨0, [], false, .nil, fun _ _ => rfl⟩
  | cons b rest ih =>
      obtain ⟨c, changed, hfrom, hfuel⟩ :=
        dceBlock_ends (hwf b List.mem_cons_self) (hvars b List.mem_cons_self)
          (hc b List.mem_cons_self)
      obtain ⟨bound, cs, more, hall, hbound⟩ := ih
        (fun d hd => hwf d (List.mem_cons_of_mem b hd))
        (fun d hd => hvars d (List.mem_cons_of_mem b hd))
        fun d hd => hc d (List.mem_cons_of_mem b hd)
      refine ⟨max b.stmts.length bound, c :: cs, changed || more, .cons hfrom hall,
        fun fuel hf => ?_⟩
      simp [dceBlockList, hfuel fuel (by omega), hbound fuel (by omega)]

theorem eliminable_of_dceBlockList {bs : List (BIrBlock P)} (hwf : ∀ b ∈ bs, b.WellFormed)
    {fuel : ℕ} {r : List (BIrBlock P) × Bool} (h : dceBlockList fuel bs = some (.ok r)) :
    ∀ b ∈ bs, Eliminable b := by
  induction bs generalizing r with
  | nil => nofun
  | cons b rest ih =>
      simp only [dceBlockList, Option.bind_eq_bind, Option.bind_eq_some_iff] at h
      obtain ⟨⟨o, changed⟩, hround, h⟩ := h
      have hfirst : ∃ r, dceBlockOnce b = .ok r := by
        cases hb : dceBlockOnce b with
        | ok r => exact ⟨r, rfl⟩
        | error e =>
            cases fuel with
            | zero => cases hround
            | succ fuel =>
                have hdce : dceRound (.ok b) = (.error e, false) := by simp [dceRound, hb]
                rw [Loop.untilStable, hdce] at hround
                obtain ⟨rfl, -⟩ := Prod.mk.inj (Option.some.inj hround)
                cases h
      obtain ⟨r', hr'⟩ := hfirst
      have hb := eliminable_of_dceBlockOnce_ok (hwf b List.mem_cons_self) hr'
      cases o with
      | error e => cases h
      | ok c =>
          obtain ⟨s, hrest, h⟩ := Option.bind_eq_some_iff.mp h
          cases s with
          | error e => cases h
          | ok s =>
              intro d hd
              rcases List.mem_cons.mp hd with rfl | hd
              · exact hb
              · exact ih (fun d hd => hwf d (List.mem_cons_of_mem b hd)) hrest d hd

theorem eliminable_of_dceBlocks {blocks : BIrBlocks P}
    (hwf : ∀ b ∈ blocks.blocks, b.WellFormed) {fuel : ℕ} {r : BIrBlocks P × Bool}
    (h : dceBlocks fuel blocks = some (.ok r)) :
    ∀ b ∈ blocks.blocks, Eliminable b := by
  obtain ⟨s, hs, h⟩ := Option.bind_eq_some_iff.mp h
  cases s with
  | error e => cases h
  | ok s => exact eliminable_of_dceBlockList hwf hs

/-- Elimination does what it should just when no statement result is used more than
`u32::MAX` times in its block, and where a pure one is unused, the effectful ones have ids. -/
theorem dce_preserves_iff (blocks : BIrBlocks P) (hwf : ∀ b ∈ blocks.blocks, b.WellFormed)
    (hvars : ∀ b ∈ blocks.blocks, U32Vars b) :
    DcePreserves blocks ↔ ∀ b ∈ blocks.blocks, Eliminable b := by
  constructor
  · rintro ⟨fuel, out, changed, hok, -⟩
    exact eliminable_of_dceBlocks hwf hok
  · intro hc
    obtain ⟨bound, cs, changed, hall, hfuel⟩ := dceBlockList_ends hwf hvars hc
    have hget : ∀ (i : ℕ) (b c : BIrBlock P), blocks.blocks[i]? = some b → cs[i]? = some c →
        DceFrom b c := fun i b c hb hc' => by
      obtain ⟨hi, rfl⟩ := List.getElem?_eq_some_iff.mp hb
      obtain ⟨hi', rfl⟩ := List.getElem?_eq_some_iff.mp hc'
      exact hall.get hi hi'
    refine ⟨bound + 1, ⟨cs, blocks.preInit⟩, changed,
      by simp [dceBlocks, hfuel (bound + 1) (Nat.lt_succ_self _)], hall.length_eq.symm,
      fun i b c hb hc' => (hget i b c hb hc').effects, fun world budget c d hcd => ?_⟩
    exact runBlocks_sameConfig hall.length_eq.symm
      (fun i b c hb hc' => (hget i b c hb hc').eval world) budget hcd

def deadGate : BIrBlocks Unit :=
  ⟨[⟨1, [.new (.not 0) (), .new .one (), .new (.storageWrite ⟨0⟩ ⟨0⟩ 2 [0]) ()],
    .jmp ⟨.ret, [0, 2]⟩⟩], []⟩

theorem dce_preserves_deadGate : DcePreserves deadGate := by
  refine (dce_preserves_iff deadGate (by decide) fun b hb => ?_).mpr fun b hb => ?_
  · obtain rfl := List.mem_singleton.mp hb
    exact ⟨by decide, by decide⟩
  · obtain rfl := List.mem_singleton.mp hb
    refine ⟨fun v _ => ?_, fun _ i s hs _ => ?_⟩
    · have hlen : (BIrBlock.uses (P := Unit) ⟨1, [.new (.not 0) (), .new .one (),
          .new (.storageWrite ⟨0⟩ ⟨0⟩ 2 [0]) ()], .jmp ⟨.ret, [0, 2]⟩⟩).length ≤ u32Max := by decide
      exact Nat.le_trans List.count_le_length hlen
    · have hlt : i < 3 := (List.getElem?_eq_some_iff.mp hs).1
      have hmax : u32Max = 4294967295 := rfl
      change 1 + i ≤ u32Max
      omega

/-- An oracle call that takes one constant `2 ^ 32` times as its argument. -/
def overUsed : BIrBlocks Unit :=
  ⟨[⟨0, [.new .zero (), .new (.oracleCall "f" (List.replicate (u32Max + 1) 0) 0) ()],
    .jmp ⟨.ret, []⟩⟩], []⟩

/-- The use counter overflows. -/
theorem dce_overUsed : (∀ b ∈ overUsed.blocks, b.WellFormed) ∧ ¬ DcePreserves overUsed := by
  have hwf : ∀ b ∈ overUsed.blocks, b.WellFormed := fun b hb => by
    obtain rfl := List.mem_singleton.mp hb
    refine ⟨⟨nofun, fun v hv => ?_, trivial⟩, nofun⟩
    obtain rfl := List.eq_of_mem_replicate hv
    exact Nat.one_pos
  refine ⟨hwf, ?_⟩
  rintro ⟨fuel, out, changed, hok, -⟩
  have hcount := (eliminable_of_dceBlocks hwf hok _ List.mem_cons_self).countable 0 (Nat.le_refl _)
  simp only [BIrBlock.uses, BIrBlock.kinds, Node.new, List.map_cons, List.map_nil,
    List.flatMap_cons, List.flatMap_nil, BIrStmt.operands, BIrTerminator.operands,
    List.nil_append, List.append_nil, List.count_replicate_self] at hcount
  omega

end VolarIR.Opt
