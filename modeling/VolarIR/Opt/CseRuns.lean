import VolarIR.Opt.Cse

/-!
# Common-subexpression elimination preserves runs, up to oracle widths

A key determines the bit of its var. It does not determine how many result bits an oracle
call holds, since the key leaves the requested width out: a projection redirected to a
narrower or wider call can read a bit that only one of the two has. Exactly those
projections go wrong.
-/
namespace VolarIR.Opt
open Boolar

variable {P : Type}

def OccurrenceFree (world : Externals) : Prop :=
  ∀ name args bit occ occ', world.oracleBit name args bit occ = world.oracleBit name args bit occ'

/-- The bit that a key stands for. -/
def CseKey.bit (world : Externals) (val : ℕ → Value) : CseKey → Bool
  | .zero | .oracleCall .. => false
  | .one => true
  | .and a b => (val a).bit && (val b).bit
  | .or a b => (val a).bit || (val b).bit
  | .xor a b => (val a).bit ^^ (val b).bit
  | .not a => !(val a).bit
  | .oracleBit name args bit => world.oracleBit name (Value.bits (args.map val)) bit 0

theorem evalStmt_bit_of_cseKey {world : Externals} (hw : OccurrenceFree world) {σ : EvalState}
    {val : ℕ → Value} {s : Stmt} {key : CseKey} (h : cseKey s = some key) :
    (evalStmt world σ (s.mapVars val)).1.bit = key.bit world val := by
  cases s with
  | zero | one | not _ | oracleCall _ _ _ =>
      obtain rfl := Option.some.inj h
      rfl
  | oracleBit name args bit occ =>
      obtain rfl := Option.some.inj h
      exact hw name _ bit occ 0
  | and a b | or a b | xor a b =>
      obtain rfl := Option.some.inj h
      by_cases hab : a ≤ b
      · simp [BIrStmt.mapVars, evalStmt, CseKey.bit, sortedPair, hab]
      · simp only [BIrStmt.mapVars, evalStmt, CseKey.bit, sortedPair, hab, if_false]
        first | exact Bool.and_comm .. | exact Bool.or_comm .. | exact Bool.xor_comm ..
  | _ => cases h

theorem evalStmt_call_of_cseKey {world : Externals} {σ : EvalState} {val : ℕ → Value} {s : Stmt}
    {key : CseKey} (h : cseKey s = some key) :
    (evalStmt world σ (s.mapVars val)).1.call =
      match key, s with
      | .oracleCall name args, .oracleCall _ _ n =>
          .oracle ((List.range n).map (world.oracleCall name (Value.bits (args.map val))))
      | _, _ => .none := by
  cases s <;> cases h <;> rfl

/-- Every projection reads a bit that its oracle call and the first congruent one both
have, or that both lack. -/
def WidthsAgree (base : ℕ) (ks : List Stmt) : Prop :=
  ∀ call bit, .oracleProjectedBit call bit ∈ ks →
    ∀ first, Congruent base ks first call → (∀ u, Congruent base ks u call → first ≤ u) →
      ∀ name args n name' args' m,
        definedBy base ks call = some (.oracleCall name args n) →
        definedBy base ks first = some (.oracleCall name' args' m) → (bit < n ↔ bit < m)

section
variable {world : Externals} {f : Frame} {ks : List Stmt} {c : ℕ → ℕ}

theorem Representative.bit (h : Representative f.vals.length ks c)
    (hd : Defined f.vals.length ks) (hw : OccurrenceFree world) (v : ℕ) :
    (look (evalStmts world f ks).vals (c v)).bit = (look (evalStmts world f ks).vals v).bit := by
  induction v using Nat.strongRecOn with
  | _ v ih =>
      by_cases hv : c v = v
      · rw [hv]
      · obtain ⟨s, t, key, hs, ht, hks, hkt⟩ := h.keyed v hv
        have hval : ∀ {u : ℕ} {r : Stmt}, u ≤ v → definedBy f.vals.length ks u = some r →
            cseKey (r.mapVars c) = some key →
            (look (evalStmts world f ks).vals u).bit =
              key.bit world (look (evalStmts world f ks).vals) := fun {u r} hu hr hkr => by
          obtain ⟨key', hkey', -⟩ := Option.map_eq_some_iff.mp ((cseKey_mapVars c r).symm.trans hkr)
          rw [look_of_definedBy hd hr (isPure_of_cseKey hkey') f.st,
            ← evalStmt_bit_of_cseKey hw (σ := f.st) hkr, BIrStmt.mapVars_mapVars]
          refine congrArg (fun r => (Prod.fst r).bit) (evalStmt_congr_values (fun x hx => ?_) ?_)
          · exact (ih x (Nat.lt_of_lt_of_le (operands_lt_of_definedBy hd hr x hx) hu)).symm
          · simp [handles_of_cseKey hkey']
        rw [hval (h.le v) ht hkt, hval (Nat.le_refl v) hs hks]

/-- A redirected var is no handle, or the oracle handle that its representative also is,
up to the number of bits. -/
theorem Representative.call (h : Representative f.vals.length ks c)
    (hd : Defined f.vals.length ks) (hw : OccurrenceFree world) {v : ℕ} (hv : c v ≠ v) :
    (look (evalStmts world f ks).vals v).call = .none ∧
        (look (evalStmts world f ks).vals (c v)).call = .none ∨
      ∃ name args n name' args' m, ∃ bits : ℕ → Bool,
        definedBy f.vals.length ks v = some (.oracleCall name args n) ∧
        definedBy f.vals.length ks (c v) = some (.oracleCall name' args' m) ∧
        (look (evalStmts world f ks).vals v).call = .oracle ((List.range n).map bits) ∧
        (look (evalStmts world f ks).vals (c v)).call = .oracle ((List.range m).map bits) := by
  obtain ⟨s, t, key, hs, ht, hks, hkt⟩ := h.keyed v hv
  have hval : ∀ {u : ℕ} {r : Stmt}, definedBy f.vals.length ks u = some r →
      cseKey (r.mapVars c) = some key → (look (evalStmts world f ks).vals u).call =
        (evalStmt world f.st
          ((r.mapVars c).mapVars (look (evalStmts world f ks).vals))).1.call :=
    fun {u r} hr hkr => by
      obtain ⟨key', hkey', -⟩ := Option.map_eq_some_iff.mp ((cseKey_mapVars c r).symm.trans hkr)
      rw [look_of_definedBy hd hr (isPure_of_cseKey hkey') f.st, BIrStmt.mapVars_mapVars]
      refine congrArg (fun r => (Prod.fst r).call) (evalStmt_congr_values (fun x _ => ?_) ?_)
      · exact (h.bit hd hw x).symm
      · simp [handles_of_cseKey hkey']
  rw [hval hs hks, hval ht hkt, evalStmt_call_of_cseKey hks, evalStmt_call_of_cseKey hkt]
  cases s <;> cases t <;> simp only [BIrStmt.mapVars, cseKey, Option.some.injEq, reduceCtorEq]
    at hks hkt <;> subst hks <;> first | cases hkt | skip
  all_goals first
    | exact .inl ⟨rfl, rfl⟩
    | exact .inr ⟨_, _, _, _, _, _, _, hs, ht, rfl, rfl⟩

theorem Representative.evalStmt (h : Representative f.vals.length ks c)
    (hd : Defined f.vals.length ks) (hw : OccurrenceFree world)
    (hagree : WidthsAgree f.vals.length ks) {s : Stmt} (hs : s ∈ ks) (σ : EvalState) :
    evalStmt world σ ((s.mapVars c).mapVars (look (evalStmts world f ks).vals)) =
      Boolar.evalStmt world σ (s.mapVars (look (evalStmts world f ks).vals)) := by
  rw [BIrStmt.mapVars_mapVars]
  cases s with
  | oracleProjectedBit call bit =>
      by_cases hcall : c call = call
      · simp [BIrStmt.mapVars, hcall]
      · rcases h.call hd hw hcall with
          ⟨hv, hc⟩ | ⟨name, args, n, name', args', m, bits, hdv, hdc, hv, hc⟩
        · simp [BIrStmt.mapVars, Boolar.evalStmt, CallBits.oracleBit, hv, hc]
        · have hiff := hagree call bit hs (c call) (h.congruent hd call)
            (fun u hu => h.eq_of_congruent hu ▸ h.le u) _ _ _ _ _ _ hdv hdc
          simp only [BIrStmt.mapVars, Boolar.evalStmt, Function.comp_apply, CallBits.oracleBit,
            hv, hc, List.getD_eq_getElem?_getD, List.getElem?_map]
          by_cases hn : bit < n
          · simp [hn, hiff.mp hn]
          · simp [hn, mt hiff.mpr hn]
  | actionBit call bit =>
      by_cases hcall : c call = call
      · simp [BIrStmt.mapVars, hcall]
      · rcases h.call hd hw hcall with
          ⟨hv, hc⟩ | ⟨_, _, _, _, _, _, _, -, -, hv, hc⟩
        · simp [BIrStmt.mapVars, Boolar.evalStmt, CallBits.actionBit, hv, hc]
        · simp [BIrStmt.mapVars, Boolar.evalStmt, CallBits.actionBit, hv, hc]
  | _ => exact evalStmt_congr_values (fun v _ => h.bit hd hw v) (by simp [BIrStmt.handles])

end

theorem cseStmtsFrom_changed (st : CseState) (rv : ℕ) (stmts : List (Node Stmt P)) :
    (cseStmtsFrom st rv stmts).2.changed = false ↔
      st.changed = false ∧ (cseStmtsFrom st rv stmts).1 = stmts := by
  induction stmts generalizing st rv with
  | nil => simp [cseStmtsFrom]
  | cons node rest ih =>
      obtain ⟨kind, prov, side⟩ := node
      have hhead : (cseStmt st rv kind).2.changed = false ↔
          st.changed = false ∧ (cseStmt st rv kind).1 = kind := by
        obtain ⟨-, h⟩ | ⟨_, _, -, -, h⟩ | ⟨_, -, -, h⟩ := cseStmt_cases st rv kind rfl <;> simp [h]
      simp [cseStmtsFrom, ih, hhead, and_assoc]

theorem cseBlockOnce_changed {b : BIrBlock P} (h : (cseBlockOnce b).1 = b) :
    cseBlockOnce b = (b, false) := by
  obtain ⟨params, stmts, terminator⟩ := b
  simp only [cseBlockOnce, applyAliasesTerminator_eq, BIrBlock.mk.injEq, true_and] at h ⊢
  have hflag := cseStmtsFrom_changed ⟨[], [], false⟩ params stmts
  simp [h.1, h.2, hflag.mpr ⟨rfl, h.1⟩]

def redirect (c : ℕ → ℕ) (b : BIrBlock P) : BIrBlock P :=
  ⟨b.params, b.stmts.map (fun node => { node with kind := node.kind.mapVars c }),
    b.terminator.mapVars c⟩

theorem redirect_kinds (c : ℕ → ℕ) (b : BIrBlock P) :
    (redirect c b).kinds = b.kinds.map fun s => s.mapVars c := by
  simp [redirect, BIrBlock.kinds, Function.comp_def]

theorem defined_redirect {base : ℕ} {ks : List Stmt} {c : ℕ → ℕ} (hc : ∀ v, c v ≤ v)
    (hd : Defined base ks) : Defined base (ks.map fun s => s.mapVars c) := by
  induction ks generalizing base with
  | nil => trivial
  | cons s rest ih =>
      refine ⟨fun v hv => ?_, ih hd.2⟩
      rw [BIrStmt.operands_mapVars] at hv
      obtain ⟨u, hu, rfl⟩ := List.mem_map.mp hv
      exact Nat.lt_of_le_of_lt (hc u) (hd.1 u hu)

theorem Representative.redirect {base : ℕ} {ks : List Stmt} {c : ℕ → ℕ}
    (h : Representative base ks c) : Representative base (ks.map fun s => s.mapVars c) c := by
  have hsame : ∀ v w, SameKey base (ks.map fun s => s.mapVars c) c v w ↔ SameKey base ks c v w :=
    fun v w => by
      have hidem : c ∘ c = c := funext h.idem
      simp only [SameKey, definedBy_map, Option.map_eq_some_iff]
      constructor
      · rintro ⟨_, _, key, ⟨s, hs, rfl⟩, ⟨t, ht, rfl⟩, hks, hkt⟩
        rw [BIrStmt.mapVars_mapVars, hidem] at hks hkt
        exact ⟨s, t, key, hs, ht, hks, hkt⟩
      · rintro ⟨s, t, key, hs, ht, hks, hkt⟩
        refine ⟨_, _, key, ⟨s, hs, rfl⟩, ⟨t, ht, rfl⟩, ?_, ?_⟩
        · rwa [BIrStmt.mapVars_mapVars, hidem]
        · rwa [BIrStmt.mapVars_mapVars, hidem]
  exact ⟨h.le, h.idem, fun v hv => (hsame _ _).mpr (h.keyed v hv),
    fun v w hvw => h.complete v w ((hsame _ _).mp hvw)⟩

theorem Representative.unique {base : ℕ} {ks : List Stmt} {c c' : ℕ → ℕ}
    (h : Representative base ks c) (h' : Representative base ks c') (hd : Defined base ks) :
    c' = c :=
  funext fun _ => (h'.eq_iff_congruent hd).mpr ((h.eq_iff_congruent hd).mp rfl)

theorem BIrTerminator.mapVars_mapVars (g g' : ℕ → ℕ) (t : BIrTerminator ℕ) :
    (t.mapVars g).mapVars g' = t.mapVars (g' ∘ g) := by
  have htarget : ∀ t : BIrTarget ℕ, (t.mapVars g).mapVars g' = t.mapVars (g' ∘ g) := fun t => by
    obtain ⟨block, args⟩ := t
    cases block <;> simp [BIrTarget.mapVars]
  cases t <;> simp [BIrTerminator.mapVars, htarget]

theorem cseBlock_ends (b : BIrBlock P) (hd : Defined b.params b.kinds) (fuel : ℕ) :
    Loop.untilStable cseBlockOnce (fuel + 2) b = some (cseBlockOnce b) := by
  obtain ⟨c, hc, hb⟩ := cseBlockOnce_eq b hd
  refine Loop.untilStable_of_idempotent (cseBlockOnce_changed ?_)
  rw [hb]
  have hd' : Defined (redirect c b).params (redirect c b).kinds := by
    rw [redirect_kinds]
    exact defined_redirect hc.le hd
  obtain ⟨c', hc', hb'⟩ := cseBlockOnce_eq (redirect c b) hd'
  have hcc : c' = c := by
    rw [redirect_kinds] at hc' hd'
    exact hc.redirect.unique hc' hd'
  have hidem : c ∘ c = c := funext hc.idem
  refine hb'.trans ?_
  rw [hcc]
  simp [redirect, BIrStmt.mapVars_mapVars, BIrTerminator.mapVars_mapVars, hidem]

theorem cseBlockOnce_eval {b : BIrBlock P} (hd : Defined b.params b.kinds)
    (hagree : WidthsAgree b.params b.kinds) {world : Externals} (hw : OccurrenceFree world)
    (args : List Bool) (σ : EvalState) :
    evalBlock world (cseBlockOnce b).1 args σ = evalBlock world b args σ := by
  obtain ⟨c, hc, hb⟩ := cseBlockOnce_eq b hd
  have hb' : (cseBlockOnce b).1 = redirect c b := hb
  rw [hb']
  unfold evalBlock
  have hparams : (redirect c b).params = b.params := rfl
  rw [hparams]
  split_ifs with hlen
  · have hf : b.params = (⟨paramValues args, σ⟩ : Frame).vals.length := by simp [hlen]
    rw [hf] at hc hd hagree
    have hstmts := evalStmts_map_congr hc.le hd fun s hs => hc.evalStmt hd hw hagree hs
    have hterm := evalTerminator_mapVars (hc.bit hd hw) b.terminator
    simp only [redirect_kinds, hstmts]
    simp only [redirect, hterm]
  · rfl

/-- Elimination ends, and every block of the result does what it did, in every world whose
oracles are pure. -/
def CsePreserves (blocks : BIrBlocks P) : Prop :=
  ∃ out changed, (∀ fuel, cseBlocks (fuel + 2) blocks = some (out, changed)) ∧
    out.blocks.length = blocks.blocks.length ∧
    ∀ world, OccurrenceFree world → ∀ (i : ℕ) (b c : BIrBlock P),
      blocks.blocks[i]? = some b → out.blocks[i]? = some c →
      ∀ args σ, evalBlock world c args σ = evalBlock world b args σ

theorem cseBlocks_eq {blocks : BIrBlocks P}
    (hd : ∀ b ∈ blocks.blocks, Defined b.params b.kinds)
    (hids : ∀ b ∈ blocks.blocks, b.IdsFit) (fuel : ℕ) :
    cseBlocks (fuel + 2) blocks =
      some (⟨blocks.blocks.map fun b => (cseBlockOnce b).1, blocks.preInit⟩,
        (blocks.blocks.map cseBlockOnce).any Prod.snd) := by
  obtain ⟨bs, preInit⟩ := blocks
  have hmap : bs.mapM (Loop.untilStable cseBlockOnce (fuel + 2)) = some (bs.map cseBlockOnce) := by
    clear hids
    induction bs with
    | nil => rfl
    | cons b rest ih =>
        rw [List.mapM_cons, cseBlock_ends b (hd b List.mem_cons_self),
          ih fun c hc => hd c (List.mem_cons_of_mem b hc)]
        rfl
  rw [cseBlocks, if_pos hids, hmap]
  simp [Function.comp_def]

/-- A world that answers every call with `true`. -/
def allTrue : Externals := ⟨fun _ _ _ => true, fun _ _ _ _ => true, fun _ _ _ => true⟩

theorem look_projection_allTrue {f : Frame} {base : ℕ} (hf : f.vals.length = base)
    {ks : List Stmt} (hd : Defined base ks) {p call bit n : ℕ} {name : String} {args : List ℕ}
    (hp : definedBy base ks p = some (.oracleProjectedBit call bit))
    (hc : definedBy base ks call = some (.oracleCall name args n)) :
    (look (evalStmts allTrue f ks).vals p).bit = decide (bit < n) := by
  subst hf
  rw [look_of_definedBy hd hp rfl f.st]
  simp only [BIrStmt.mapVars, evalStmt]
  rw [look_of_definedBy hd hc rfl f.st]
  simp only [BIrStmt.mapVars, evalStmt, CallBits.oracleBit, allTrue, List.getD_eq_getElem?_getD,
    List.getElem?_map]
  by_cases hn : bit < n
  · simp [hn]
  · simp [hn]

theorem exists_retTarget_of_not_widthsAgree {params : ℕ} {stmts : List (Node Stmt P)}
    (hd : Defined params (stmts.map Node.kind))
    (h : ¬ WidthsAgree params (stmts.map Node.kind)) :
    ∃ p < params + stmts.length, ∃ args σ,
      evalBlock allTrue (cseBlockOnce ⟨params, stmts, .jmp ⟨.ret, [p]⟩⟩).1 args σ ≠
        evalBlock allTrue ⟨params, stmts, .jmp ⟨.ret, [p]⟩⟩ args σ := by
  simp only [WidthsAgree, not_forall] at h
  obtain ⟨call, bit, hmem, first, hcong, hleast, name, args, n, name', args', m, hcall, hfirst,
    hne⟩ := h
  obtain ⟨i, hi⟩ := List.mem_iff_getElem?.mp hmem
  have hp : definedBy params (stmts.map Node.kind) (params + i) =
      some (.oracleProjectedBit call bit) := (definedBy_add i).trans hi
  have hlt := definedBy_lt hp
  rw [List.length_map] at hlt
  refine ⟨params + i, hlt, List.replicate params false, .init .empty, ?_⟩
  obtain ⟨c, hc, hb⟩ := cseBlockOnce_eq (P := P) ⟨params, stmts, .jmp ⟨.ret, [params + i]⟩⟩ hd
  have hrep : c call = first := (hc.eq_iff_congruent hd).mpr ⟨hcong, hleast⟩
  have hself : c (params + i) = params + i := by
    by_contra hne'
    obtain ⟨s, -, key, hs, -, hks, -⟩ := hc.keyed _ hne'
    obtain rfl := Option.some.inj (hp.symm.trans hs)
    cases hks
  have hf : (⟨paramValues (List.replicate params false), .init .empty⟩ :
      Frame).vals.length = params := by simp
  have hd' := defined_redirect hc.le hd
  have hp' : definedBy params ((stmts.map Node.kind).map fun s => s.mapVars c) (params + i) =
      some (.oracleProjectedBit first bit) := by
    rw [definedBy_map, hp, ← hrep]
    rfl
  have hfirst' : definedBy params ((stmts.map Node.kind).map fun s => s.mapVars c) first =
      some (.oracleCall name' (args'.map c) m) := by
    rw [definedBy_map, hfirst]
    rfl
  have hkinds := redirect_kinds c (P := P) ⟨params, stmts, .jmp ⟨.ret, [params + i]⟩⟩
  rw [show (cseBlockOnce (P := P) ⟨params, stmts, .jmp ⟨.ret, [params + i]⟩⟩).1 =
    redirect c ⟨params, stmts, .jmp ⟨.ret, [params + i]⟩⟩ from hb]
  intro heq
  have hret := congrArg (Option.map Prod.fst) heq
  simp only [evalBlock, hkinds] at hret
  simp only [redirect, List.length_replicate, if_true, BIrTerminator.mapVars, BIrTarget.mapVars,
    List.map_cons, List.map_nil, evalTerminator, resolveTarget, Option.map_some, hself,
    Option.some.injEq, BlockResult.ret.injEq, List.cons.injEq, and_true] at hret
  rw [show BIrBlock.kinds (P := P) ⟨params, stmts, .jmp ⟨.ret, [params + i]⟩⟩ =
    stmts.map Node.kind from rfl] at hret
  rw [look_projection_allTrue hf hd hp hcall, look_projection_allTrue hf hd' hp' hfirst',
    decide_eq_decide] at hret
  exact hne hret.symm

def SameStmts (p q : BIrBlocks P) : Prop :=
  q.blocks.map (fun b => (b.params, b.stmts)) = p.blocks.map fun b => (b.params, b.stmts)

theorem SameStmts.forall_mem {p q : BIrBlocks P} (h : SameStmts p q) {Q : ℕ → List Stmt → Prop}
    (hp : ∀ b ∈ p.blocks, Q b.params b.kinds) : ∀ b ∈ q.blocks, Q b.params b.kinds := fun b hb => by
  have hmem := List.mem_map_of_mem (f := fun b : BIrBlock P => (b.params, b.stmts)) hb
  rw [h] at hmem
  obtain ⟨a, ha, heq⟩ := List.mem_map.mp hmem
  have hparams : a.params = b.params := congrArg Prod.fst heq
  have hstmts : a.stmts = b.stmts := congrArg Prod.snd heq
  have hQ := hp a ha
  rwa [hparams, BIrBlock.kinds, hstmts] at hQ

theorem SameStmts.idsFit {p q : BIrBlocks P} (h : SameStmts p q)
    (hp : ∀ b ∈ p.blocks, b.IdsFit) : ∀ b ∈ q.blocks, b.IdsFit := by
  have hkinds : ∀ b : BIrBlock P, b.IdsFit ↔ b.params + b.kinds.length ≤ u32Max + 1 := by
    intro b
    rw [BIrBlock.kinds, List.length_map, BIrBlock.IdsFit]
  intro b hb
  exact (hkinds b).mpr (h.forall_mem (Q := fun params ks => params + ks.length ≤ u32Max + 1)
    (fun b hb => (hkinds b).mp (hp b hb)) b hb)

/-- Elimination preserves the blocks of a program, whatever their terminators read, just
when its ids fit and every projection agrees on the widths of congruent calls. -/
theorem cse_preserves_iff (blocks : BIrBlocks P)
    (hd : ∀ b ∈ blocks.blocks, Defined b.params b.kinds) :
    (∀ blocks', SameStmts blocks blocks' → CsePreserves blocks') ↔
      ∀ b ∈ blocks.blocks, b.IdsFit ∧ WidthsAgree b.params b.kinds := by
  constructor
  · intro h
    have hids : ∀ b ∈ blocks.blocks, b.IdsFit := by
      obtain ⟨out, changed, hout, -⟩ := h blocks rfl
      by_contra hids
      have hpanic := hout 0
      rw [cseBlocks, if_neg hids] at hpanic
      cases hpanic
    intro b hb
    refine ⟨hids b hb, ?_⟩
    by_contra hagree
    obtain ⟨p, -, args, σ, hne⟩ := exists_retTarget_of_not_widthsAgree (hd b hb) hagree
    let retarget := fun b : BIrBlock P => { b with terminator := .jmp ⟨.ret, [p]⟩ }
    have hsame : SameStmts blocks ⟨blocks.blocks.map retarget, blocks.preInit⟩ := by
      simp [SameStmts, retarget, Function.comp_def]
    obtain ⟨out, changed, hout, -, heval⟩ := h _ hsame
    have hend := cseBlocks_eq (hsame.forall_mem hd) (hsame.idsFit hids) 0
    obtain rfl := congrArg Prod.fst (Option.some.inj ((hout 0).symm.trans hend))
    obtain ⟨i, hi⟩ := List.mem_iff_getElem?.mp hb
    exact hne (heval allTrue (fun _ _ _ _ _ => rfl) i (retarget b) (cseBlockOnce (retarget b)).1
      (by simp [hi]) (by simp [hi]) args σ)
  · intro h blocks' hsame
    have hagree : ∀ b ∈ blocks.blocks, WidthsAgree b.params b.kinds := fun b hb => (h b hb).2
    refine ⟨_, _, cseBlocks_eq (hsame.forall_mem hd) (hsame.idsFit fun b hb => (h b hb).1), by simp,
      fun world hw i b c hb hc args σ => ?_⟩
    have hmem := List.mem_of_getElem? hb
    obtain rfl : (cseBlockOnce b).1 = c := by simpa [hb] using hc
    exact cseBlockOnce_eval (hsame.forall_mem hd b hmem) (hsame.forall_mem hagree b hmem) hw args σ

/-- Two calls of one oracle with `first` and `second` result bits, the last bit of the
second returned. -/
def twoCalls (first second : ℕ) : BIrBlocks Unit :=
  ⟨[⟨0, [.new (.oracleCall "f" [] first) (), .new (.oracleCall "f" [] second) (),
    .new (.oracleProjectedBit 1 (second - 1)) ()], .jmp ⟨.ret, [2]⟩⟩], []⟩

theorem cse_preserves_twoCalls : CsePreserves (twoCalls 2 2) := by
  refine (cse_preserves_iff (twoCalls 2 2) (by decide)).mpr (fun b hb => ?_) _ rfl
  obtain rfl := List.mem_singleton.mp hb
  refine ⟨by decide, ?_⟩
  intro call bit _ first _ _ name args n name' args' m hcall hfirst
  have hwidth : ∀ {v name args n}, definedBy 0 [.oracleCall "f" [] 2, .oracleCall "f" [] 2,
      .oracleProjectedBit 1 1] v = some (.oracleCall name args n) → n = 2 := fun h => by
    obtain ⟨i, -, hi⟩ := exists_of_definedBy h
    have hmem := List.mem_of_getElem? hi
    simp only [List.mem_cons, List.not_mem_nil, or_false, BIrStmt.oracleCall.injEq,
      reduceCtorEq] at hmem
    rcases hmem with hmem | hmem <;> exact hmem.2.2
  rw [hwidth hcall, hwidth hfirst]

/-- The first call has one bit and the second two; the projection of bit 1 is redirected
to the call that lacks it. -/
theorem cse_narrower_call : ¬ CsePreserves (twoCalls 1 2) := by
  rintro ⟨out, changed, hout, -, heval⟩
  have hend : cseBlocks 2 (twoCalls 1 2) =
      some (⟨[⟨0, [.new (.oracleCall "f" [] 1) (), .new (.oracleCall "f" [] 2) (),
        .new (.oracleProjectedBit 0 1) ()], .jmp ⟨.ret, [2]⟩⟩], []⟩, true) := by decide
  obtain rfl := congrArg Prod.fst (Option.some.inj ((hout 0).symm.trans hend))
  have hsame := congrArg (Option.map Prod.fst)
    (heval allTrue (fun _ _ _ _ _ => rfl) 0 _ _ rfl rfl [] (.init .empty))
  exact absurd hsame (by decide)

end VolarIR.Opt
