import VolarIR.Ir.PolyValue

/-!
# Well-typed programs

What each var of a block stands for, when a statement is well typed over it, and that a
well-typed program keeps values of their types in its vars and storage cells.
-/
namespace VolarIR.Ir

inductive VarKind where
  | data (ty : TypeId)
  | call (outputTys : List TypeId)
  | none
  deriving DecidableEq

def IRStmt.varKind : IRStmt → VarKind
  | .oracleCall _ _ outputTys _ | .actionCall _ _ _ _ outputTys _ => .call outputTys
  | .actionStore .. | .storageWrite .. => .none
  | .storageRead _ ty _ | .const _ ty | .transmute _ _ ty | .poly ty _ _ | .rol _ ty _
  | .ror _ ty _ | .merge _ ty | .splat _ ty | .shuffle _ ty | .oracleOutput _ _ ty
  | .actionOutput _ _ ty | .rng _ ty => .data ty

def IRBlock.varKinds {P : Type} (b : IRBlock P) : List VarKind :=
  b.params.map .data ++ b.kinds.map IRStmt.varKind

def kindAt (kinds : List VarKind) (v : ℕ) : VarKind := kinds.getD v .none

section
variable (table : TypeTable)

def HasKind (v : Value) : VarKind → Prop
  | .data ty => v.ty = some ty ∧ v.bits.length = table.bitWidth ty
  | .call outputTys => v.outputs.map List.length = outputTys.map table.bitWidth
  | .none => True

/-- Operands of the kinds a statement expects. -/
def StmtTyped (kinds : List VarKind) : IRStmt → Prop
  | .poly ty coeffs _ => PolyType table ty ∧ ∀ e ∈ coeffs.entries, ∀ v ∈ e.1,
      ∃ fty, kindAt kinds v = .data fty ∧ FactorTyped table ty fty
  | .oracleOutput call idx ty | .actionOutput call idx ty =>
      ∃ outputTys, kindAt kinds call = .call outputTys ∧ outputTys[idx]? = some ty
  | .actionCall _ _ _ fallbacks outputTys _ =>
      fallbacks.map (kindAt kinds) = outputTys.map VarKind.data
  | _ => True

def StmtsTyped (kinds : List VarKind) : List IRStmt → Prop
  | [] => True
  | s :: rest => StmtTyped table kinds s ∧ StmtsTyped (kinds ++ [s.varKind]) rest

def StorageFits (σ : EvalState) : Prop :=
  ∀ storage ty addr bits, σ.storage (storage, ty, addr) = some bits →
    bits.length = table.bitWidth ty

structure FrameFits (kinds : List VarKind) (f : Ssa.Frame Value EvalState) : Prop where
  length : f.vals.length = kinds.length
  var : ∀ v < kinds.length, HasKind table (Ssa.look f.vals v) (kindAt kinds v)
  storage : StorageFits table f.st

end

@[simp] theorem length_fit (bits : List Bool) (width : ℕ) : (fit bits width).length = width := by
  simp [fit]

@[simp] theorem length_constBits (c : Constant) (width : ℕ) :
    (constBits c width).length = width := by
  simp [constBits]

@[simp] theorem length_rotateLeft (bits : List Bool) (width n : ℕ) :
    (rotateLeft bits width n).length = width := by
  simp [rotateLeft]

theorem kindAt_append_left {kinds more : List VarKind} {v : ℕ} (h : v < kinds.length) :
    kindAt (kinds ++ more) v = kindAt kinds v := by
  simp [kindAt, List.getElem?_append_left h]

@[simp] theorem kindAt_append_length (kinds : List VarKind) (k : VarKind) :
    kindAt (kinds ++ [k]) kinds.length = k := by
  simp [kindAt]

theorem kindAt_snoc_cases {kinds : List VarKind} {k : VarKind} {v : ℕ}
    (hv : v < (kinds ++ [k]).length) :
    v < kinds.length ∧ kindAt (kinds ++ [k]) v = kindAt kinds v ∨
      v = kinds.length ∧ kindAt (kinds ++ [k]) v = k := by
  rw [List.length_append, List.length_singleton] at hv
  rcases Nat.lt_succ_iff_lt_or_eq.mp hv with hlt | rfl
  · exact .inl ⟨hlt, kindAt_append_left hlt⟩
  · exact .inr ⟨rfl, kindAt_append_length _ _⟩

theorem kindAt_of_le {kinds : List VarKind} {v : ℕ} (hv : kinds.length ≤ v) :
    kindAt kinds v = .none := by
  rw [kindAt, List.getD_eq_getElem?_getD, List.getElem?_eq_none hv]
  rfl

theorem lt_of_kindAt {kinds : List VarKind} {v : ℕ} {k : VarKind} (h : kindAt kinds v = k)
    (hk : k ≠ .none) : v < kinds.length := by
  by_contra hv
  rw [kindAt, List.getD_eq_getElem?_getD, List.getElem?_eq_none (Nat.le_of_not_lt hv)] at h
  exact hk h.symm

theorem lt_of_kindAt_data {kinds : List VarKind} {v : ℕ} {ty : TypeId}
    (h : kindAt kinds v = .data ty) : v < kinds.length :=
  lt_of_kindAt h (by simp)

section
variable {table : TypeTable} {world : Externals} {kinds : List VarKind}
  {f : Ssa.Frame Value EvalState}

theorem FrameFits.valueFits (h : FrameFits table kinds f) {ty fty : TypeId} {v : ℕ}
    (hv : kindAt kinds v = .data fty) (htyped : FactorTyped table ty fty) :
    ValueFits table ty (Ssa.look f.vals v) := by
  have hkind := h.var v (lt_of_kindAt_data hv)
  rw [hv] at hkind
  obtain ⟨hty, hlen⟩ := hkind
  refine ⟨by rw [hty]; rfl, ?_, ?_⟩
  · rw [Value.asFactor, hty]
    exact htyped
  · rw [Value.asFactor, hty]
    exact hlen

theorem FrameFits.factors (h : FrameFits table kinds f) {ty : TypeId}
    {monomials : List (List ℕ × U8)} (htyped : ∀ e ∈ monomials, ∀ v ∈ e.1,
      ∃ fty, kindAt kinds v = .data fty ∧ FactorTyped table ty fty) :
    ∀ t ∈ monomials.map fun e => (e.1.map (Ssa.look f.vals), e.2), ∀ v ∈ t.1,
      ValueFits table ty v := by
  intro t ht v hv
  obtain ⟨e, he, rfl⟩ := List.mem_map.mp ht
  obtain ⟨u, hu, rfl⟩ := List.mem_map.mp hv
  obtain ⟨fty, hkind, hfty⟩ := htyped e he u hu
  exact h.valueFits hkind hfty

theorem FrameFits.terms (h : FrameFits table kinds f) {ty : TypeId} {coeffs : PolyCoeffs}
    {c : Constant} (htyped : StmtTyped table kinds (.poly ty coeffs c)) :
    ∀ t ∈ PolyCoeffs.terms coeffs (Ssa.look f.vals), ∀ v ∈ t.1, ValueFits table ty v :=
  h.factors htyped.2

theorem callOutputs_lengths (answer : ℕ → List Bool) (outputTys : List TypeId) :
    (callOutputs table answer outputTys).map List.length = outputTys.map table.bitWidth := by
  apply List.ext_getElem
  · simp [callOutputs]
  · intro i hi hi'
    simp [callOutputs]

theorem HasKind.output {v : Value} {outputTys : List TypeId} {idx : ℕ} {ty : TypeId}
    (h : HasKind table v (.call outputTys)) (hidx : outputTys[idx]? = some ty) :
    (v.outputs[idx]?.getD (List.replicate (table.bitWidth ty) false)).length =
      table.bitWidth ty := by
  have hlen := congrArg (·[idx]?) (show v.outputs.map List.length = _ from h)
  simp only [List.getElem?_map, hidx, Option.map_some] at hlen
  obtain ⟨out, hout, hwidth⟩ := Option.map_eq_some_iff.mp hlen
  rw [hout]
  exact hwidth

theorem FrameFits.fallbacks (h : FrameFits table kinds f) {fallbacks : List ℕ}
    {outputTys : List TypeId} (hk : fallbacks.map (kindAt kinds) = outputTys.map VarKind.data) :
    ((fallbacks.map (Ssa.look f.vals)).map Value.bits).map List.length =
      outputTys.map table.bitWidth := by
  induction fallbacks generalizing outputTys with
  | nil =>
      cases outputTys with
      | nil => rfl
      | cons ty rest => cases hk
  | cons v vs ih =>
      cases outputTys with
      | nil => cases hk
      | cons ty rest =>
          rw [List.map_cons, List.map_cons, List.cons.injEq] at hk
          have hkind := h.var v (lt_of_kindAt_data hk.1)
          rw [hk.1] at hkind
          simp only [List.map_cons, ih hk.2, hkind.2]

theorem storageFits_storeTargets {storage : StorageMap}
    (h : ∀ s ty addr bits, storage (s, ty, addr) = some bits → bits.length = table.bitWidth ty)
    (outputs : List (List Bool)) (outputTys : List TypeId) (targets : List (StorageId × Value)) :
    ∀ s ty addr bits, storeTargets table storage outputs outputTys targets (s, ty, addr) =
      some bits → bits.length = table.bitWidth ty := by
  unfold storeTargets
  generalize outputs.zip (outputTys.zip targets) = stores
  induction stores generalizing storage with
  | nil => exact h
  | cons e rest ih =>
      apply ih
      intro s ty addr bits hbits
      dsimp only at hbits
      rw [Function.update_apply] at hbits
      split_ifs at hbits with hcell
      · cases hbits
        cases hcell
        exact length_fit _ _
      · exact h s ty addr bits hbits

variable (world) in
theorem FrameFits.eval (h : FrameFits table kinds f) {s : IRStmt}
    (hs : StmtTyped table kinds s) :
    HasKind table (evalStmt table world f.st (Ssa.look f.vals) s).1 s.varKind ∧
      StorageFits table (evalStmt table world f.st (Ssa.look f.vals) s).2 := by
  cases s with
  | storageRead storage ty addr =>
      refine ⟨⟨rfl, ?_⟩, h.storage⟩
      simp only [evalStmt, evalKind]
      cases hcell : f.st.storage (storage, ty, bitsToU64 (Ssa.look f.vals addr).bits) with
      | none => exact List.length_replicate
      | some bits => exact h.storage _ _ _ bits hcell
  | storageWrite storage src ty addr =>
      refine ⟨trivial, ?_⟩
      intro s ty' addr' bits hbits
      simp only [evalStmt, evalKind, EvalState.write] at hbits
      rw [Function.update_apply] at hbits
      split_ifs at hbits with hcell
      · cases hbits
        cases hcell
        exact length_fit _ _
      · exact h.storage s ty' addr' bits hbits
  | const c ty => exact ⟨⟨rfl, length_constBits _ _⟩, h.storage⟩
  | transmute src srcTy dstTy => exact ⟨⟨rfl, length_fit _ _⟩, h.storage⟩
  | poly ty coeffs c =>
      obtain ⟨bits, hbits, hlen⟩ := evalTerms_isSome hs.1 c (h.terms hs)
      refine ⟨⟨rfl, ?_⟩, h.storage⟩
      simp only [evalStmt, evalKind, hbits]
      exact hlen
  | rol src ty n => exact ⟨⟨rfl, length_rotateLeft _ _ _⟩, h.storage⟩
  | ror src ty n => exact ⟨⟨rfl, length_rotateLeft _ _ _⟩, h.storage⟩
  | merge parts ty => exact ⟨⟨rfl, length_fit _ _⟩, h.storage⟩
  | splat src ty => exact ⟨⟨rfl, List.length_replicate⟩, h.storage⟩
  | shuffle resultBits ty => exact ⟨⟨rfl, length_fit _ _⟩, h.storage⟩
  | oracleCall name args outputTys resultTy =>
      exact ⟨callOutputs_lengths _ outputTys, h.storage⟩
  | oracleOutput call idx ty | actionOutput call idx ty =>
      obtain ⟨outputTys, hkind, hidx⟩ := hs
      have hcall := h.var call (lt_of_kindAt hkind (by simp))
      rw [hkind] at hcall
      exact ⟨⟨rfl, hcall.output hidx⟩, h.storage⟩
  | actionCall name guard args fallbacks outputTys resultTy =>
      refine ⟨?_, h.storage⟩
      simp only [evalStmt, evalKind, actionOutputs]
      split_ifs
      · exact callOutputs_lengths _ outputTys
      · exact h.fallbacks hs
  | actionStore name guard args fallbacks outputTys targets =>
      exact ⟨trivial, storageFits_storeTargets h.storage _ _ _⟩
  | rng name ty => exact ⟨⟨rfl, length_fit _ _⟩, h.storage⟩

theorem FrameFits.push (h : FrameFits table kinds f) {k : VarKind} {v : Value} {σ : EvalState}
    (hv : HasKind table v k) (hσ : StorageFits table σ) :
    FrameFits table (kinds ++ [k]) ⟨f.vals ++ [v], σ⟩ := by
  refine ⟨by simp [h.length], ?_, hσ⟩
  intro u hu
  rcases kindAt_snoc_cases hu with ⟨hlt, hkind⟩ | ⟨rfl, hkind⟩
  · rw [hkind, Ssa.look_append_left (h.length ▸ hlt)]
    exact h.var u hlt
  · rw [hkind, ← h.length, Ssa.look_append_length]
    exact hv

variable (world) in
theorem FrameFits.step (h : FrameFits table kinds f) {s : IRStmt} (hs : StmtTyped table kinds s) :
    FrameFits table (kinds ++ [s.varKind]) ((language table world).step f s) :=
  h.push (h.eval world hs).1 (h.eval world hs).2

theorem stmtsTyped_append {xs ys : List IRStmt} :
    StmtsTyped table kinds (xs ++ ys) ↔
      StmtsTyped table kinds xs ∧ StmtsTyped table (kinds ++ xs.map IRStmt.varKind) ys := by
  induction xs generalizing kinds with
  | nil => simp [StmtsTyped]
  | cons x xs ih => simp [StmtsTyped, ih, and_assoc]

variable (world) in
theorem FrameFits.run (h : FrameFits table kinds f) {stmts : List IRStmt}
    (hs : StmtsTyped table kinds stmts) :
    FrameFits table (kinds ++ stmts.map IRStmt.varKind) ((language table world).run f stmts) := by
  induction stmts generalizing kinds f with
  | nil => simpa using h
  | cons s rest ih =>
      rw [List.map_cons, Ssa.Language.run_cons, List.append_cons]
      exact ih (h.step world hs.1) hs.2

end

section
variable {P : Type}

/-- The kinds of the vars before statement `i`. -/
def IRBlock.kindsBefore (b : IRBlock P) (i : ℕ) : List VarKind :=
  b.params.map .data ++ (b.kinds.take i).map IRStmt.varKind

@[simp] theorem IRStmt.varKind_mapVars (g : ℕ → ℕ) (s : IRStmt) :
    (s.mapVars g).varKind = s.varKind := by
  cases s <;> rfl

variable {b : IRBlock P} {i u : ℕ}

theorem kindsBefore_succ {s : IRStmt} (hs : b.kinds[i]? = some s) :
    b.kindsBefore (i + 1) = b.kindsBefore i ++ [s.varKind] := by
  rw [IRBlock.kindsBefore, List.take_add_one, hs, List.map_append, ← List.append_assoc]
  rfl

theorem length_kindsBefore (hi : i ≤ b.kinds.length) :
    (b.kindsBefore i).length = b.params.length + i := by
  rw [IRBlock.kindsBefore, List.length_append, List.length_map, List.length_map, List.length_take,
    Nat.min_eq_left hi]

theorem kindAt_param {v : ℕ} (hv : v < b.params.length) :
    kindAt (b.kindsBefore i) v = .data (b.params.get ⟨v, hv⟩) := by
  rw [IRBlock.kindsBefore, kindAt_append_left (by rwa [List.length_map]), kindAt]
  simp [hv]

theorem kindAt_stmt {s : IRStmt} (hu : u < i) (hs : b.kinds[u]? = some s) :
    kindAt (b.kindsBefore i) (b.params.length + u) = s.varKind := by
  rw [IRBlock.kindsBefore, kindAt, List.getD_eq_getElem?_getD,
    List.getElem?_append_right (by rw [List.length_map]; omega), List.length_map,
    Nat.add_sub_cancel_left, List.getElem?_map, List.getElem?_take_of_lt hu, hs]
  rfl

theorem stmtTyped_of_getElem {table : TypeTable} {s : IRStmt}
    (h : StmtsTyped table (b.params.map .data) b.kinds) (hs : b.kinds[i]? = some s) :
    StmtTyped table (b.kindsBefore i) s := by
  have hi := (List.getElem?_eq_some_iff.mp hs).1
  have hsplit : b.kinds = b.kinds.take i ++ s :: b.kinds.drop (i + 1) := by
    obtain ⟨hlt, rfl⟩ := List.getElem?_eq_some_iff.mp hs
    rw [← List.drop_eq_getElem_cons hlt, List.take_append_drop]
  rw [hsplit, stmtsTyped_append] at h
  exact h.2.1

end

def IRBranchTarget.Enters (t : IRBranchTarget) (d : ℕ) : Prop :=
  match t.dest with
  | .block b => b = d
  | .ret => False
  | .dyn _ => True

def IRTerminator.targets : IRTerminator → List IRBranchTarget
  | .jmp t => [t]
  | .jumpCond _ t e => [t, e]
  | .jumpTable _ cases => cases.entries.map Prod.snd

section
variable {P : Type} (table : TypeTable)

def Passes (kinds : List VarKind) (v : ℕ) (ty : TypeId) : Prop :=
  ∃ aty, kindAt kinds v = .data aty ∧ table.bitWidth aty = table.bitWidth ty

/-- Every statement is well typed, and every edge passes values of its target's parameters. -/
structure BlockTyped (p : IRBlocks P) (b : IRBlock P) : Prop where
  stmts : StmtsTyped table (b.params.map .data) b.kinds
  edges : ∀ t ∈ b.terminator.targets, ∀ (d : ℕ) (target : IRBlock P), t.Enters d →
    p.blocks[d]? = some target → t.args.length = target.params.length →
    List.Forall₂ (Passes table b.varKinds) t.args target.params

def ProgramTyped (p : IRBlocks P) : Prop := ∀ b ∈ p.blocks, BlockTyped table p b

def ArgsFit (params : List TypeId) (args : List (List Bool)) : Prop :=
  args.map List.length = params.map table.bitWidth

def ConfigFits (p : IRBlocks P) : Config → Prop
  | .running cur args σ => StorageFits table σ ∧ ∀ b, p.blocks[cur]? = some b →
      args.length = b.params.length → ArgsFit table b.params args
  | _ => True

end

section
variable {P : Type} {table : TypeTable} {world : Externals} {p : IRBlocks P} {b : IRBlock P}

theorem ArgsFit.length_eq {params : List TypeId} {args : List (List Bool)}
    (h : ArgsFit table params args) : args.length = params.length := by
  have hcount := congrArg List.length h
  simpa using hcount

theorem frameFits_params {args : List (List Bool)} {σ : EvalState}
    (hargs : ArgsFit table b.params args) (hσ : StorageFits table σ) :
    FrameFits table (b.params.map .data) ⟨paramValues b.params args, σ⟩ := by
  have hlen := hargs.length_eq
  refine ⟨by simp [length_paramValues hlen], ?_, hσ⟩
  intro v hv
  rw [List.length_map] at hv
  have hwidth := congrArg (·[v]?) hargs
  simp only [List.getElem?_map, List.getElem?_eq_getElem hv,
    List.getElem?_eq_getElem (hlen.symm ▸ hv), Option.map_some, Option.some.injEq] at hwidth
  have hkind : kindAt (b.params.map .data) v = .data b.params[v] := by
    simp [kindAt, hv]
  have hlook : Ssa.look (paramValues b.params args) v =
      ⟨args.get ⟨v, hlen.symm ▸ hv⟩, some b.params[v], []⟩ := by
    simp [Ssa.look, paramValues, hv, hlen]
  rw [hkind, hlook]
  exact ⟨rfl, hwidth⟩

variable (world) in
theorem BlockTyped.frame (h : BlockTyped table p b) {args : List (List Bool)} {σ : EvalState}
    (hargs : ArgsFit table b.params args) (hσ : StorageFits table σ) :
    FrameFits table b.varKinds (blockFrame table world b args σ) :=
  (frameFits_params hargs hσ).run world h.stmts

theorem argsFit_of_passes {f : Ssa.Frame Value EvalState} (hf : FrameFits table b.varKinds f)
    {vars : List ℕ} {params : List TypeId}
    (h : List.Forall₂ (Passes table b.varKinds) vars params) :
    ArgsFit table params (vars.map fun v => (Ssa.look f.vals v).bits) := by
  unfold ArgsFit
  induction h with
  | nil => rfl
  | @cons v ty vars params hpass _ ih =>
      obtain ⟨aty, hkind, hwidth⟩ := hpass
      have hvar := hf.var v (lt_of_kindAt_data hkind)
      rw [hkind] at hvar
      simp only [List.map_cons, ih, hvar.2, hwidth]

theorem exists_target_of_jump {look : ℕ → Value} {t : IRTerminator} {d : ℕ}
    {args : List (List Bool)} (h : evalTerminator look t = some (.jump d args)) :
    ∃ target ∈ t.targets, target.Enters d ∧ args = target.args.map fun v => (look v).bits := by
  have hresolve : ∀ {target : IRBranchTarget}, resolveTarget look target = .jump d args →
      target.Enters d ∧ args = target.args.map fun v => (look v).bits := by
    intro target ht
    obtain ⟨dest, vars⟩ := target
    cases dest with
    | ret => cases ht
    | block b =>
        cases ht
        exact ⟨rfl, rfl⟩
    | dyn v =>
        cases ht
        exact ⟨trivial, rfl⟩
  cases t with
  | jmp t => exact ⟨t, List.mem_singleton_self t, hresolve (Option.some.inj h)⟩
  | jumpCond condition t e =>
      have h := Option.some.inj h
      split_ifs at h
      · exact ⟨t, List.mem_cons_self, hresolve h⟩
      · exact ⟨e, List.mem_cons_of_mem t (List.mem_singleton_self e), hresolve h⟩
  | jumpTable index cases =>
      obtain ⟨target, htarget, h⟩ := Option.map_eq_some_iff.mp h
      exact ⟨target, List.mem_map_of_mem (f := Prod.snd) (SortedMap.mem_of_get htarget), hresolve h⟩

theorem ProgramTyped.step (hp : ProgramTyped table p) {c : Config} (hc : ConfigFits table p c) :
    ConfigFits table p (stepBlock table world p c) := by
  cases c with
  | returned vals σ => trivial
  | stuck => trivial
  | running cur args σ =>
      obtain ⟨hσ, hargs⟩ := hc
      cases hb : p.blocks[cur]? with
      | none =>
          simp only [stepBlock, hb]
          trivial
      | some b =>
          rw [stepBlock_running p hb, evalBlock]
          split_ifs with hlen
          · have htyped := hp b (List.mem_of_getElem? hb)
            have hcells : StorageFits table (σ.enter cur) := hσ
            have hframe := htyped.frame world (hargs b hb hlen) hcells
            dsimp only
            cases hexit : evalTerminator (Ssa.look (blockFrame table world b args
                (σ.enter cur)).vals) b.terminator with
            | none => trivial
            | some exit =>
                cases exit with
                | ret vals => trivial
                | jump d args' =>
                    refine ⟨hframe.storage, ?_⟩
                    intro target htarget hcount
                    obtain ⟨t, ht, henters, rfl⟩ := exists_target_of_jump hexit
                    rw [List.length_map] at hcount
                    exact argsFit_of_passes hframe
                      (htyped.edges t ht d target henters htarget hcount)
          · trivial

/-- Two programs whose blocks hand on alike at values that fit run alike from there. -/
theorem ProgramTyped.runBlocks_congr {Q : Type} {q : IRBlocks Q} {table' : TypeTable}
    {world' : Externals} (hp : ProgramTyped table p) (hlen : p.blocks.length = q.blocks.length)
    (h : ∀ (i : ℕ) (b : IRBlock P) (c : IRBlock Q), p.blocks[i]? = some b →
      q.blocks[i]? = some c → ∀ (args : List (List Bool)) (σ : EvalState),
        (args.length = b.params.length → ArgsFit table b.params args) → StorageFits table σ →
        handedOn (evalBlock table world b args (σ.enter i)) =
          handedOn (evalBlock table' world' c args (σ.enter i)))
    (budget : ℕ) {c : Config} (hc : ConfigFits table p c) :
    runBlocks table world p budget c = runBlocks table' world' q budget c := by
  have hstep : ∀ {c}, ConfigFits table p c →
      stepBlock table world p c = stepBlock table' world' q c := by
    intro c hc
    cases c with
    | returned vals σ => rfl
    | stuck => rfl
    | running cur args σ =>
        cases hb : p.blocks[cur]? with
        | none =>
            have hq : q.blocks[cur]? = none := by
              rw [List.getElem?_eq_none_iff] at hb ⊢
              omega
            simp only [stepBlock, hb, hq]
        | some b =>
            have hcur := (List.getElem?_eq_some_iff.mp hb).1
            have hq : q.blocks[cur]? = some q.blocks[cur] := List.getElem?_eq_getElem (hlen ▸ hcur)
            rw [stepBlock_running p hb, stepBlock_running q hq,
              h cur b _ hb hq args σ (hc.2 b hb) hc.1]
  unfold runBlocks
  induction budget generalizing c with
  | zero => rfl
  | succ budget ih =>
      rw [Function.iterate_succ_apply, Function.iterate_succ_apply, ← hstep hc]
      exact ih (hp.step hc)

end

end VolarIR.Ir
