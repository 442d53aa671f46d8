import VolarIR.Boolar.Eval
import VolarIR.Opt.Alias
import VolarIR.Library.Loop

/-!
# Boolar common-subexpression elimination

`cse_biir_blocks` of `volar-ir-opt/src/biir.rs`: a var is redirected to the first var
whose statement has the same structural key. One sweep finds every duplicate, so the
whole pass is the rewriting of the block through one table, and that table is the
congruence generated by equal keys.
-/
namespace VolarIR.Opt
open Boolar

/-- `CseKey`. -/
inductive CseKey where
  | zero
  | one
  | and (a b : ℕ)
  | or (a b : ℕ)
  | xor (a b : ℕ)
  | not (a : ℕ)
  | oracleCall (name : String) (args : List ℕ)
  | oracleBit (name : String) (args : List ℕ) (bit : ℕ)
  deriving DecidableEq, Repr

def sortedPair (a b : ℕ) : ℕ × ℕ := if a ≤ b then (a, b) else (b, a)

/-- `cse_key`. -/
def cseKey : Stmt → Option CseKey
  | .zero => some .zero
  | .one => some .one
  | .and a b => some (.and (sortedPair a b).1 (sortedPair a b).2)
  | .or a b => some (.or (sortedPair a b).1 (sortedPair a b).2)
  | .xor a b => some (.xor (sortedPair a b).1 (sortedPair a b).2)
  | .not a => some (.not a)
  | .oracleCall name args _ => some (.oracleCall name args)
  | .oracleBit name args bit _ => some (.oracleBit name args bit)
  | _ => none

structure CseState where
  aliasMap : AliasMap
  seen : List (CseKey × ℕ)
  changed : Bool

/-- One statement of the sweep; its result is `rv`. -/
def cseStmt (st : CseState) (rv : ℕ) (s : Stmt) : Stmt × CseState :=
  let (s, rewritten) := applyAliasesStmt st.aliasMap s
  let st := { st with changed := st.changed || rewritten }
  match cseKey s with
  | none => (s, st)
  | some key =>
      match st.seen.lookup key with
      | some first => (s, { st with aliasMap := (rv, first) :: st.aliasMap })
      | none => (s, { st with seen := (key, rv) :: st.seen })

section
variable {P : Type}

def cseStmtsFrom (st : CseState) (rv : ℕ) : List (Node Stmt P) → List (Node Stmt P) × CseState
  | [] => ([], st)
  | node :: rest =>
      let (kind, st) := cseStmt st rv node.kind
      let (rest, st) := cseStmtsFrom st (rv + 1) rest
      ({ node with kind := kind } :: rest, st)

/-- `cse_biir_block_once`. -/
def cseBlockOnce (block : BIrBlock P) : BIrBlock P × Bool :=
  let (stmts, st) := cseStmtsFrom ⟨[], [], false⟩ block.params block.stmts
  let (terminator, rewritten) := applyAliasesTerminator st.aliasMap block.terminator
  (⟨block.params, stmts, terminator⟩, st.changed || rewritten)

/-- `cse_biir_blocks`; `none` when a block's loop is out of fuel, or when an id `params + i`
that a sweep computes overflows. -/
def cseBlocks (fuel : ℕ) (blocks : BIrBlocks P) : Option (BIrBlocks P × Bool) :=
  if ∀ b ∈ blocks.blocks, b.IdsFit then do
    let swept ← blocks.blocks.mapM (Loop.untilStable cseBlockOnce fuel)
    return (⟨swept.map Prod.fst, blocks.preInit⟩, swept.any Prod.snd)
  else none

end

theorem isPure_of_cseKey {s : Stmt} {key : CseKey} (h : cseKey s = some key) :
    s.isPure = true := by
  cases s <;> first | rfl | cases h

theorem handles_of_cseKey {s : Stmt} {key : CseKey} (h : cseKey s = some key) :
    s.handles = [] := by
  cases s <;> first | rfl | cases h

theorem sortedPair_comm (a b : ℕ) : sortedPair a b = sortedPair b a := by
  unfold sortedPair
  split_ifs <;> simp only [Prod.mk.injEq] <;> omega

theorem sortedPair_rename (g : ℕ → ℕ) (a b : ℕ) :
    sortedPair (g (sortedPair a b).1) (g (sortedPair a b).2) = sortedPair (g a) (g b) := by
  by_cases h : a ≤ b
  · rw [show sortedPair a b = (a, b) from if_pos h]
  · rw [show sortedPair a b = (b, a) from if_neg h, sortedPair_comm]

/-- Rewrite the vars of a key, keeping the pairs sorted. -/
def CseKey.rename (g : ℕ → ℕ) : CseKey → CseKey
  | .zero => .zero
  | .one => .one
  | .and a b => .and (sortedPair (g a) (g b)).1 (sortedPair (g a) (g b)).2
  | .or a b => .or (sortedPair (g a) (g b)).1 (sortedPair (g a) (g b)).2
  | .xor a b => .xor (sortedPair (g a) (g b)).1 (sortedPair (g a) (g b)).2
  | .not a => .not (g a)
  | .oracleCall name args => .oracleCall name (args.map g)
  | .oracleBit name args bit => .oracleBit name (args.map g) bit

theorem cseKey_mapVars (g : ℕ → ℕ) (s : Stmt) :
    cseKey (s.mapVars g) = (cseKey s).map (CseKey.rename g) := by
  cases s <;> simp [cseKey, BIrStmt.mapVars, CseKey.rename, sortedPair_rename]

end VolarIR.Opt

/-!
## Common-subexpression elimination: what the sweep computes

The sweep rewrites the whole block through one table of representatives. The table maps
two vars to one var exactly when they are congruent: one key generates another until no
two statements of one key are left apart.
-/
namespace VolarIR.Opt
open Boolar

/-- Vars that structural keys identify: two results are congruent when their statements
have one key after their operands are replaced by congruent vars. -/
inductive Congruent (base : ℕ) (ks : List Stmt) : ℕ → ℕ → Prop
  | refl (v : ℕ) : Congruent base ks v v
  | same {v w : ℕ} {s t : Stmt} {key : CseKey} {g : ℕ → ℕ}
      (hv : definedBy base ks v = some s) (hw : definedBy base ks w = some t)
      (hg : ∀ u, Congruent base ks (g u) u)
      (hs : cseKey (s.mapVars g) = some key) (ht : cseKey (t.mapVars g) = some key) :
      Congruent base ks v w

/-- Two results have one key under `c`. -/
def SameKey (base : ℕ) (ks : List Stmt) (c : ℕ → ℕ) (v w : ℕ) : Prop :=
  ∃ s t key, definedBy base ks v = some s ∧ definedBy base ks w = some t ∧
    cseKey (s.mapVars c) = some key ∧ cseKey (t.mapVars c) = some key

/-- `c` sends each var to the first var of its key. -/
structure Representative (base : ℕ) (ks : List Stmt) (c : ℕ → ℕ) : Prop where
  le : ∀ v, c v ≤ v
  idem : ∀ v, c (c v) = c v
  keyed : ∀ v, c v ≠ v → SameKey base ks c v (c v)
  complete : ∀ v w, SameKey base ks c v w → c v = c w

section
variable {base : ℕ} {ks : List Stmt} {c : ℕ → ℕ}

theorem Representative.congruent (h : Representative base ks c) (hd : Defined base ks) (v : ℕ) :
    Congruent base ks (c v) v := by
  induction v using Nat.strongRecOn with
  | _ v ih =>
      by_cases hv : c v = v
      · rw [hv]
        exact .refl v
      · obtain ⟨s, t, key, hs, ht, hks, hkt⟩ := h.keyed v hv
        have hlt : c v < v := Nat.lt_of_le_of_ne (h.le v) hv
        have hagree : ∀ {u r : _}, definedBy base ks u = some r → u ≤ v →
            r.mapVars (fun x => if x < v then c x else x) = r.mapVars c := fun hr hu =>
          BIrStmt.mapVars_congr fun x hx => if_pos
            (Nat.lt_of_lt_of_le (operands_lt_of_definedBy hd hr x hx) hu)
        refine .same (g := fun x => if x < v then c x else x) ht hs (fun u => ?_)
          ((hagree ht (Nat.le_of_lt hlt)).symm ▸ hkt) ((hagree hs (Nat.le_refl v)).symm ▸ hks)
        split_ifs with hu
        · exact ih u hu
        · exact .refl u

theorem Representative.eq_of_congruent (h : Representative base ks c) {v w : ℕ}
    (hvw : Congruent base ks v w) : c v = c w := by
  induction hvw with
  | refl v => rfl
  | @same v w s t key g hv hw _ hs ht ih =>
      have hcomp : ∀ r : Stmt, (r.mapVars g).mapVars c = r.mapVars c := fun r => by
        rw [BIrStmt.mapVars_mapVars]
        exact BIrStmt.mapVars_congr fun u _ => ih u
      refine h.complete v w ⟨s, t, key.rename c, hv, hw, ?_, ?_⟩
      · rw [← hcomp, cseKey_mapVars, hs]
        rfl
      · rw [← hcomp, cseKey_mapVars, ht]
        rfl

theorem Representative.eq_iff_congruent (h : Representative base ks c) (hd : Defined base ks)
    {v w : ℕ} : c v = w ↔ Congruent base ks w v ∧ ∀ u, Congruent base ks u v → w ≤ u := by
  constructor
  · rintro rfl
    exact ⟨h.congruent hd v, fun u hu => h.eq_of_congruent hu ▸ h.le u⟩
  · rintro ⟨hw, hleast⟩
    have hle := hleast _ (h.congruent hd v)
    have hcw := h.le w
    rw [h.eq_of_congruent hw] at hcw
    omega

end

/-- The state of the sweep after the vars below `n`. -/
structure Numbered (base : ℕ) (ks : List Stmt) (n : ℕ) (st : CseState) : Prop where
  oneHop : OneHop st.aliasMap n
  keyed : ∀ v w, st.aliasMap.lookup v = some w →
    SameKey base ks (canonAlias st.aliasMap) v w
  seen : ∀ key w, st.seen.lookup key = some w → w < n ∧ st.aliasMap.lookup w = none ∧
    ∃ t, definedBy base ks w = some t ∧ cseKey (t.mapVars (canonAlias st.aliasMap)) = some key
  complete : ∀ v < n, ∀ s key, definedBy base ks v = some s →
    cseKey (s.mapVars (canonAlias st.aliasMap)) = some key →
    st.seen.lookup key = some (canonAlias st.aliasMap v)

/-- What the sweep does with one statement, after rewriting it to `t`. -/
theorem cseStmt_cases (st : CseState) (rv : ℕ) (s : Stmt) {t : Stmt}
    (ht : t = s.mapVars (canonAlias st.aliasMap)) :
    (cseKey t = none ∧
      cseStmt st rv s = (t, { st with changed := st.changed || decide (t ≠ s) })) ∨
    (∃ key first, cseKey t = some key ∧ st.seen.lookup key = some first ∧
      cseStmt st rv s =
        (t, ⟨(rv, first) :: st.aliasMap, st.seen, st.changed || decide (t ≠ s)⟩)) ∨
    (∃ key, cseKey t = some key ∧ st.seen.lookup key = none ∧
      cseStmt st rv s =
        (t, ⟨st.aliasMap, (key, rv) :: st.seen, st.changed || decide (t ≠ s)⟩)) := by
  unfold cseStmt
  rw [applyAliasesStmt_eq, ← ht]
  dsimp only
  cases hkey : cseKey t with
  | none => exact .inl ⟨rfl, rfl⟩
  | some key =>
      dsimp only
      cases hseen : st.seen.lookup key with
      | some first => exact .inr (.inl ⟨key, first, rfl, hseen, rfl⟩)
      | none => exact .inr (.inr ⟨key, rfl, hseen, rfl⟩)

section
variable {base : ℕ} {ks : List Stmt} {n : ℕ} {st : CseState}

theorem Numbered.representative (h : Numbered base ks n st) (hn : base + ks.length ≤ n) :
    Representative base ks (canonAlias st.aliasMap) where
  le := h.oneHop.canon_le
  idem := h.oneHop.idem
  keyed v hv := by
    rw [h.oneHop.canon_eq v] at hv ⊢
    cases hw : st.aliasMap.lookup v with
    | none => exact absurd (by rw [hw]; rfl) hv
    | some w => exact h.keyed v w hw
  complete v w hvw := by
    obtain ⟨s, t, key, hs, ht, hks, hkt⟩ := hvw
    have hv := h.complete v (Nat.lt_of_lt_of_le (definedBy_lt hs) hn) s key hs hks
    have hw := h.complete w (Nat.lt_of_lt_of_le (definedBy_lt ht) hn) t key ht hkt
    exact Option.some.inj (hv.symm.trans hw)

/-- Statements of vars below `n` look only at vars below `n`. -/
theorem mapVars_congr_below (hd : Defined base ks) {c c' : ℕ → ℕ} (hc : ∀ u < n, c' u = c u)
    {v : ℕ} {s : Stmt} (hs : definedBy base ks v = some s) (hv : v ≤ n) :
    s.mapVars c' = s.mapVars c :=
  BIrStmt.mapVars_congr fun u hu =>
    hc u (Nat.lt_of_lt_of_le (operands_lt_of_definedBy hd hs u hu) hv)

/-- A new representative table that agrees below `n` keeps what is known there. -/
theorem SameKey.mono (hd : Defined base ks) {c c' : ℕ → ℕ} (hc : ∀ u < n, c' u = c u)
    {v w : ℕ} (hv : v ≤ n) (hw : w ≤ n) (h : SameKey base ks c v w) : SameKey base ks c' v w := by
  obtain ⟨s, t, key, hs, ht, hks, hkt⟩ := h
  exact ⟨s, t, key, hs, ht, (mapVars_congr_below hd hc hs hv).symm ▸ hks,
    (mapVars_congr_below hd hc ht hw).symm ▸ hkt⟩

theorem Numbered.skip (h : Numbered base ks n st) {s : Stmt}
    (hs : definedBy base ks n = some s)
    (hkey : cseKey (s.mapVars (canonAlias st.aliasMap)) = none) (b : Bool) :
    Numbered base ks (n + 1) ⟨st.aliasMap, st.seen, b⟩ where
  oneHop := h.oneHop.mono (Nat.le_succ n)
  keyed := h.keyed
  seen key w hw := by
    have := h.seen key w hw
    exact ⟨by omega, this.2⟩
  complete v hv t key ht hk := by
    rcases Nat.lt_or_eq_of_le (Nat.le_of_lt_succ hv) with hlt | rfl
    · exact h.complete v hlt t key ht hk
    · obtain rfl := Option.some.inj (hs.symm.trans ht)
      rw [hkey] at hk
      cases hk

theorem Numbered.first (h : Numbered base ks n st) {s : Stmt} {key : CseKey}
    (hs : definedBy base ks n = some s)
    (hkey : cseKey (s.mapVars (canonAlias st.aliasMap)) = some key)
    (hnew : st.seen.lookup key = none) (b : Bool) :
    Numbered base ks (n + 1) ⟨st.aliasMap, (key, n) :: st.seen, b⟩ := by
  have hnone := h.oneHop.lookup_self
  refine ⟨h.oneHop.mono (Nat.le_succ n), h.keyed, fun key' w hw => ?_, fun v hv t key' ht hk => ?_⟩
  · simp only [List.lookup_cons] at hw
    split at hw
    · next heq =>
        obtain rfl := eq_of_beq heq
        obtain rfl := Option.some.inj hw
        exact ⟨Nat.lt_succ_self _, hnone, s, hs, hkey⟩
    · have := h.seen key' w hw
      exact ⟨by omega, this.2⟩
  · rcases Nat.lt_or_eq_of_le (Nat.le_of_lt_succ hv) with hlt | rfl
    · have hold := h.complete v hlt t key' ht hk
      have hne : key' ≠ key := fun heq => by
        rw [heq, hnew] at hold
        cases hold
      simpa [List.lookup_cons, beq_false_of_ne hne] using hold
    · obtain rfl := Option.some.inj (hs.symm.trans ht)
      obtain rfl := Option.some.inj (hkey.symm.trans hk)
      simp [canonAlias_of_not_mem hnone]

theorem Numbered.redirect (h : Numbered base ks n st) (hd : Defined base ks) {s : Stmt}
    {key : CseKey} {first : ℕ} (hs : definedBy base ks n = some s)
    (hkey : cseKey (s.mapVars (canonAlias st.aliasMap)) = some key)
    (hseen : st.seen.lookup key = some first) (b : Bool) :
    Numbered base ks (n + 1) ⟨(n, first) :: st.aliasMap, st.seen, b⟩ := by
  obtain ⟨hfn, hnone, t, ht, hkt⟩ := h.seen key first hseen
  have hcanon := fun v => h.oneHop.canon_cons (v := v) hnone hfn
  have hagree : ∀ u < n, canonAlias ((n, first) :: st.aliasMap) u = canonAlias st.aliasMap u :=
    fun u hu => (hcanon u).trans (if_neg (Nat.ne_of_lt hu))
  have hkeys : ∀ {u : ℕ} {r : Stmt}, definedBy base ks u = some r → u ≤ n →
      r.mapVars (canonAlias ((n, first) :: st.aliasMap)) = r.mapVars (canonAlias st.aliasMap) :=
    mapVars_congr_below hd hagree
  refine ⟨h.oneHop.cons hnone hfn, fun v w hw => ?_, fun key' w hw => ?_,
    fun v hv r key' hr hk => ?_⟩
  · rcases lookup_cons_cases hw with ⟨rfl, rfl⟩ | ⟨-, hw⟩
    · exact ⟨s, t, key, hs, ht, (hkeys hs (Nat.le_refl _)).symm ▸ hkey,
        (hkeys ht (Nat.le_of_lt hfn)).symm ▸ hkt⟩
    · have := h.oneHop v w hw
      exact (h.keyed v w hw).mono hd hagree (by omega) (by omega)
  · obtain ⟨hwn, hwnone, r, hr, hkr⟩ := h.seen key' w hw
    exact ⟨by omega, (lookup_cons_of_ne (Nat.ne_of_lt hwn) _ _).trans hwnone, r, hr,
        (hkeys hr (Nat.le_of_lt hwn)).symm ▸ hkr⟩
  · rw [hkeys hr (Nat.le_of_lt_succ hv)] at hk
    rcases Nat.lt_or_eq_of_le (Nat.le_of_lt_succ hv) with hlt | rfl
    · rw [hagree v hlt]
      exact h.complete v hlt r key' hr hk
    · obtain rfl := Option.some.inj (hs.symm.trans hr)
      obtain rfl := Option.some.inj (hkey.symm.trans hk)
      rw [hcanon, if_pos rfl]
      exact hseen

theorem Numbered.step (h : Numbered base ks n st) (hd : Defined base ks) {s : Stmt}
    (hs : definedBy base ks n = some s) :
    Numbered base ks (n + 1) (cseStmt st n s).2 ∧
      (cseStmt st n s).1 = s.mapVars (canonAlias st.aliasMap) ∧
      ∀ u < n, canonAlias (cseStmt st n s).2.aliasMap u = canonAlias st.aliasMap u := by
  obtain ⟨hkey, hr⟩ | ⟨key, first, hkey, hseen, hr⟩ | ⟨key, hkey, hseen, hr⟩ :=
    cseStmt_cases st n s rfl
  · rw [hr]
    exact ⟨h.skip hs hkey _, rfl, fun _ _ => rfl⟩
  · rw [hr]
    have hf := h.seen key first hseen
    exact ⟨h.redirect hd hs hkey hseen _, rfl, fun u hu =>
      (h.oneHop.canon_cons hf.2.1 hf.1).trans (if_neg (Nat.ne_of_lt hu))⟩
  · rw [hr]
    exact ⟨h.first hs hkey hseen _, rfl, fun _ _ => rfl⟩

end

section
variable {P : Type}

theorem cseStmtsFrom_eq {base : ℕ} {ks : List Stmt} (hd : Defined base ks) {st : CseState}
    (done : List Stmt) (stmts : List (Node Stmt P)) (hks : ks = done ++ stmts.map Node.kind)
    (h : Numbered base ks (base + done.length) st) :
    let r := cseStmtsFrom st (base + done.length) stmts
    Numbered base ks (base + ks.length) r.2 ∧
      r.1 = stmts.map (fun node =>
        { node with kind := node.kind.mapVars (canonAlias r.2.aliasMap) }) ∧
      ∀ u < base + done.length, canonAlias r.2.aliasMap u = canonAlias st.aliasMap u := by
  induction stmts generalizing done st with
  | nil =>
      refine ⟨?_, rfl, fun _ _ => rfl⟩
      rw [hks, List.map_nil, List.append_nil] at h ⊢
      exact h
  | cons node rest ih =>
      have hs : definedBy base ks (base + done.length) = some node.kind := by
        rw [definedBy_add, hks]
        simp
      obtain ⟨hnext, hkind, hkeep⟩ := h.step hd hs
      have hlen : base + (done ++ [node.kind]).length = base + done.length + 1 := by
        simp [Nat.add_assoc]
      have hrest := ih (done ++ [node.kind]) (by simp [hks]) (by rw [hlen]; exact hnext)
      rw [hlen] at hrest
      obtain ⟨hend, hstmts, hagree⟩ := hrest
      have hall : ∀ u < base + done.length,
          canonAlias (cseStmtsFrom (cseStmt st (base + done.length) node.kind).2
            (base + done.length + 1) rest).2.aliasMap u = canonAlias st.aliasMap u := fun u hu =>
        (hagree u (by omega)).trans (hkeep u hu)
      refine ⟨hend, ?_, hall⟩
      simp only [cseStmtsFrom, List.map_cons, List.cons.injEq, hkind]
      exact ⟨by rw [mapVars_congr_below hd hall hs (Nat.le_refl _)], hstmts⟩

theorem cseBlockOnce_eq (b : BIrBlock P) (hd : Defined b.params b.kinds) :
    ∃ c, Representative b.params b.kinds c ∧ (cseBlockOnce b).1 =
      ⟨b.params, b.stmts.map (fun node => { node with kind := node.kind.mapVars c }),
        b.terminator.mapVars c⟩ := by
  have hinit : Numbered b.params b.kinds b.params ⟨[], [], false⟩ := by
    refine ⟨nofun, nofun, nofun, fun v hv s key hs => ?_⟩
    obtain ⟨i, rfl, -⟩ := exists_of_definedBy hs
    omega
  obtain ⟨hend, hstmts, -⟩ := cseStmtsFrom_eq hd [] b.stmts rfl hinit
  refine ⟨_, hend.representative (Nat.le_refl _), ?_⟩
  simp only [cseBlockOnce, applyAliasesTerminator_eq]
  exact congrArg (fun stmts => BIrBlock.mk b.params stmts _) hstmts

end

end VolarIR.Opt
