import VolarIR.Circuit.LowerToCircuit
import VolarIR.Boolar.Renaming
import Mathlib.Data.List.Forall2

/-!
# What the emitter emits

Every var emitted keeps its value (`HasBit`, `Carries`), and the cache of shared gates
only remembers vars that hold the gate's value (`Emitter.Ok`). From these follow one
lemma for each combinator: the multiplexer, the disjunction, and a source statement
emitted through the table.
-/
namespace VolarIR.Circuit
open Boolar

section
variable (world : Externals) (x : List Bool) (σ : EvalState)

def HasBit (ks : List Stmt) (v : ℕ) (b : Bool) : Prop :=
  v < x.length + ks.length ∧ (look (runStmts world x σ ks).vals v).bit = b

def Carries (ks : List Stmt) : List ℕ → List Bool → Prop := List.Forall₂ (HasBit world x σ ks)

end

namespace Emitter
variable {P : Type}

def kinds (e : Emitter P) : List Stmt := e.stmts.map Node.kind

def cached (e : Emitter P) (key : SubstitutedGateKey) : Option ℕ :=
  e.substitutedGates.bind (·.get key)

end Emitter

def SubstitutedGateKey.stmt (key : SubstitutedGateKey) : Stmt :=
  match key.kind with
  | .zero => .zero
  | .one => .one
  | .and => .and key.lo key.hi
  | .or => .or key.lo key.hi
  | .xor => .xor key.lo key.hi
  | .not => .not key.lo

section
variable (world : Externals) (x : List Bool) (σ : EvalState) {P : Type}

/-- The counter counts, and the cache only remembers vars with their gate's value. -/
structure Emitter.Ok (e : Emitter P) : Prop where
  nextId : e.nextId = x.length + e.kinds.length
  cache : ∀ key v, e.cached key = some v → v < e.nextId ∧
    (∀ u ∈ key.stmt.operands, u < e.nextId) ∧
    look (runStmts world x σ e.kinds).vals v =
      (evalStmt world σ (key.stmt.mapVars (look (runStmts world x σ e.kinds).vals))).1

structure Quiet (e e' : Emitter P) : Prop where
  ok : e'.Ok world x σ
  grows : e.kinds <+: e'.kinds
  st : (runStmts world x σ e'.kinds).st = (runStmts world x σ e.kinds).st

end

section
variable {world : Externals} {x : List Bool} {σ : EvalState} {P : Type} {ks ks' : List Stmt}

theorem HasBit.mono {v : ℕ} {b : Bool} (h : HasBit world x σ ks v b) (hp : ks <+: ks') :
    HasBit world x σ ks' v b := by
  refine ⟨Nat.lt_of_lt_of_le h.1 (Nat.add_le_add_left hp.length_le _), ?_⟩
  rw [look_runStmts_of_extends hp h.1]
  exact h.2

theorem Carries.mono {vs : List ℕ} {bs : List Bool} (h : Carries world x σ ks vs bs)
    (hp : ks <+: ks') : Carries world x σ ks' vs bs :=
  List.Forall₂.imp (fun _ _ hv => hv.mono hp) h

theorem Quiet.refl {e : Emitter P} (h : e.Ok world x σ) : Quiet world x σ e e :=
  ⟨h, List.prefix_refl _, rfl⟩

theorem Quiet.trans {e e' e'' : Emitter P} (h : Quiet world x σ e e')
    (h' : Quiet world x σ e' e'') : Quiet world x σ e e'' :=
  ⟨h'.ok, h.grows.trans h'.grows, h'.st.trans h.st⟩

theorem evalStmt_gate {s : Stmt} (hs : s.isGate) (f : ℕ → Value) (τ : EvalState) :
    evalStmt world τ (s.mapVars f) = ((evalStmt world σ (s.mapVars f)).1, τ) := by
  cases s <;> first | rfl | simp [BIrStmt.isGate] at hs

theorem fromStmt_spec {s : Stmt} {key : SubstitutedGateKey}
    (h : SubstitutedGateKey.fromStmt s = some key) :
    s.isGate ∧ (∀ v, v ∈ key.stmt.operands → v ∈ s.operands) ∧
      ∀ (τ : EvalState) (f : ℕ → Value),
        (evalStmt world τ (key.stmt.mapVars f)).1 = (evalStmt world τ (s.mapVars f)).1 := by
  cases s with
  | zero | one | not a =>
      obtain rfl := Option.some.inj h
      exact ⟨rfl, fun v hv => hv, fun τ f => rfl⟩
  | and a b | or a b | xor a b =>
      obtain rfl := Option.some.inj h
      refine ⟨rfl, ?_, ?_⟩ <;> unfold SubstitutedGateKey.binary <;> split_ifs
      · exact fun v hv => hv
      · exact fun v hv => by simpa [SubstitutedGateKey.stmt, BIrStmt.operands, or_comm] using hv
      · exact fun τ f => rfl
      · intro τ f
        simp [SubstitutedGateKey.stmt, BIrStmt.mapVars, evalStmt, Bool.and_comm, Bool.or_comm,
          Bool.xor_comm]
  | _ => cases h

theorem get_eq_some {cache : SubstitutedGateCache} {key : SubstitutedGateKey} {v : ℕ} :
    cache.get key = some v ↔ cache.slots (SubstitutedGateCache.slot key) = some (key, v) := by
  unfold SubstitutedGateCache.get
  rcases cache.slots (SubstitutedGateCache.slot key) with _ | ⟨stored, value⟩
  · simp
  · by_cases hk : stored = key <;> simp [hk]

theorem new_get (key : SubstitutedGateKey) : SubstitutedGateCache.new.get key = none := by
  unfold SubstitutedGateCache.get SubstitutedGateCache.new
  rfl

theorem insert_slots (cache : SubstitutedGateCache) (key : SubstitutedGateKey) (v i : ℕ) :
    (cache.insert key v).slots i =
      if i = SubstitutedGateCache.slot key then some (key, v) else cache.slots i := rfl

theorem get_insert {cache : SubstitutedGateCache} {key key' : SubstitutedGateKey} {v u : ℕ}
    (h : (cache.insert key v).get key' = some u) :
    key' = key ∧ u = v ∨ cache.get key' = some u := by
  rw [get_eq_some, insert_slots] at h
  rw [get_eq_some]
  by_cases hslot : SubstitutedGateCache.slot key' = SubstitutedGateCache.slot key
  · rw [if_pos hslot] at h
    obtain ⟨rfl, rfl⟩ := Prod.mk.inj (Option.some.inj h)
    exact .inl ⟨rfl, rfl⟩
  · rw [if_neg hslot] at h
    exact .inr h

theorem cache_mono {e : Emitter P} (h : e.Ok world x σ) (hp : e.kinds <+: ks)
    {key : SubstitutedGateKey} {v : ℕ} (hv : e.cached key = some v) :
    v < x.length + ks.length ∧ (∀ u ∈ key.stmt.operands, u < x.length + ks.length) ∧
      look (runStmts world x σ ks).vals v =
        (evalStmt world σ (key.stmt.mapVars (look (runStmts world x σ ks).vals))).1 := by
  obtain ⟨hlt, hops, hval⟩ := h.cache key v hv
  rw [h.nextId] at hlt hops
  have hle := Nat.add_le_add_left hp.length_le x.length
  refine ⟨Nat.lt_of_lt_of_le hlt hle, fun u hu => Nat.lt_of_lt_of_le (hops u hu) hle, ?_⟩
  rw [look_runStmts_of_extends hp hlt, hval]
  congr 2
  exact BIrStmt.mapVars_congr fun u hu => (look_runStmts_of_extends hp (hops u hu)).symm

theorem Emitter.emit_kinds (e : Emitter P) (s : Stmt) (p : P) :
    (e.emit s p).2.kinds = e.kinds ++ [s] := by
  simp [Emitter.emit, Emitter.kinds, Node.new]

theorem Emitter.Ok.new (world : Externals) (σ : EvalState) {params : ℕ} (hx : x.length = params) :
    (Emitter.new params : Emitter P).Ok world x σ :=
  ⟨by simp [Emitter.new, Emitter.kinds, hx], fun _ _ h => by cases h⟩

theorem Emitter.Ok.emit {e : Emitter P} (h : e.Ok world x σ) (s : Stmt) (p : P) :
    (e.emit s p).2.Ok world x σ := by
  have hk := e.emit_kinds s p
  have hn : (e.emit s p).2.nextId = x.length + (e.emit s p).2.kinds.length := by
    rw [hk, List.length_append, List.length_singleton, ← Nat.add_assoc, ← h.nextId]
    rfl
  refine ⟨hn, fun key v hv => ?_⟩
  rw [hn]
  exact cache_mono h (hk ▸ List.prefix_append _ _) hv

theorem Emitter.Ok.emit_gate {e : Emitter P} (h : e.Ok world x σ) {s : Stmt} (hs : s.isGate)
    (p : P) :
    let r := e.emit s p
    Quiet world x σ e r.2 ∧ r.1 < x.length + r.2.kinds.length ∧
      look (runStmts world x σ r.2.kinds).vals r.1 =
        (evalStmt world σ (s.mapVars (look (runStmts world x σ e.kinds).vals))).1 := by
  have hk := e.emit_kinds s p
  have hid : (e.emit s p).1 = (runStmts world x σ e.kinds).vals.length := by
    rw [runStmts_length, ← h.nextId]
    rfl
  have hrun : runStmts world x σ (e.emit s p).2.kinds =
      ⟨(runStmts world x σ e.kinds).vals ++
        [(evalStmt world σ (s.mapVars (look (runStmts world x σ e.kinds).vals))).1],
        (runStmts world x σ e.kinds).st⟩ := by
    rw [hk, runStmts_concat, stepStmt, evalStmt_gate hs]
  refine ⟨⟨h.emit s p, hk ▸ List.prefix_append _ _, by rw [hrun]⟩, ?_, ?_⟩
  · rw [hid, hk, runStmts_length]
    simp
  · rw [hrun, hid, look_append_length]

section Combinators
variable {e : Emitter P} {a b c : ℕ} {y z w : Bool}

theorem Emitter.Ok.emit_bit (h : e.Ok world x σ) {s : Stmt} (hs : s.isGate) (p : P)
    (hy : (evalStmt world σ (s.mapVars (look (runStmts world x σ e.kinds).vals))).1.bit = y) :
    let r := e.emit s p
    Quiet world x σ e r.2 ∧ HasBit world x σ r.2.kinds r.1 y := by
  obtain ⟨hq, hlt, hv⟩ := h.emit_gate hs p
  exact ⟨hq, hlt, by rw [hv, hy]⟩

theorem Emitter.Ok.emit_not (h : e.Ok world x σ) (ha : HasBit world x σ e.kinds a y) (p : P) :
    let r := e.emit (.not a) p
    Quiet world x σ e r.2 ∧ HasBit world x σ r.2.kinds r.1 (!y) :=
  h.emit_bit rfl p (by simp [BIrStmt.mapVars, evalStmt, ha.2])

theorem Emitter.Ok.emit_and (h : e.Ok world x σ) (ha : HasBit world x σ e.kinds a y)
    (hb : HasBit world x σ e.kinds b z) (p : P) :
    let r := e.emit (.and a b) p
    Quiet world x σ e r.2 ∧ HasBit world x σ r.2.kinds r.1 (y && z) :=
  h.emit_bit rfl p (by simp [BIrStmt.mapVars, evalStmt, ha.2, hb.2])

theorem Emitter.Ok.emit_xor (h : e.Ok world x σ) (ha : HasBit world x σ e.kinds a y)
    (hb : HasBit world x σ e.kinds b z) (p : P) :
    let r := e.emit (.xor a b) p
    Quiet world x σ e r.2 ∧ HasBit world x σ r.2.kinds r.1 (y ^^ z) :=
  h.emit_bit rfl p (by simp [BIrStmt.mapVars, evalStmt, ha.2, hb.2])

theorem Emitter.Ok.mux (h : e.Ok world x σ) (hc : HasBit world x σ e.kinds c w)
    (ha : HasBit world x σ e.kinds a y) (hb : HasBit world x σ e.kinds b z) (p : P) :
    let r := e.mux c a b p
    Quiet world x σ e r.2 ∧ HasBit world x σ r.2.kinds r.1 (if w then y else z) := by
  obtain ⟨q₁, h₁⟩ := h.emit_xor ha hb p
  obtain ⟨q₂, h₂⟩ := q₁.ok.emit_and (hc.mono q₁.grows) h₁ p
  obtain ⟨q₃, h₃⟩ := q₂.ok.emit_xor h₂ (hb.mono (q₁.trans q₂).grows) p
  have hsel : ((w && (y ^^ z)) ^^ z) = if w then y else z := by
    cases w <;> cases y <;> cases z <;> rfl
  exact ⟨(q₁.trans q₂).trans q₃, hsel ▸ h₃⟩

theorem Emitter.Ok.or (h : e.Ok world x σ) (ha : HasBit world x σ e.kinds a y)
    (hb : HasBit world x σ e.kinds b z) (p : P) :
    let r := e.or a b p
    Quiet world x σ e r.2 ∧ HasBit world x σ r.2.kinds r.1 (y || z) := by
  obtain ⟨q₁, h₁⟩ := h.emit_not ha p
  obtain ⟨q₂, h₂⟩ := q₁.ok.emit_not (hb.mono q₁.grows) p
  obtain ⟨q₃, h₃⟩ := q₂.ok.emit_and (h₁.mono q₂.grows) h₂ p
  obtain ⟨q₄, h₄⟩ := q₃.ok.emit_not h₃ p
  have hor : (!(!y && !z)) = (y || z) := by cases y <;> cases z <;> rfl
  exact ⟨((q₁.trans q₂).trans q₃).trans q₄, hor ▸ h₄⟩

theorem Emitter.Ok.muxes (h : e.Ok world x σ) (hc : HasBit world x σ e.kinds c w) (p : P)
    {as bs : List ℕ} {ys zs : List Bool} (ha : Carries world x σ e.kinds as ys)
    (hb : Carries world x σ e.kinds bs zs) (hl : ys.length = zs.length) :
    let r := e.muxes c p (as.zip bs)
    Quiet world x σ e r.2 ∧ Carries world x σ r.2.kinds r.1 (if w then ys else zs) := by
  induction as generalizing e bs ys zs with
  | nil =>
      cases ha
      obtain rfl := List.eq_nil_of_length_eq_zero hl.symm
      exact ⟨.refl h, by cases w <;> exact .nil⟩
  | cons a as ih =>
      cases ha with
      | cons hay has =>
          cases hb with
          | nil => cases hl
          | cons hbz hbs =>
              obtain ⟨q, hm⟩ := h.mux hc hay hbz p
              obtain ⟨q', hms⟩ := ih q.ok (hc.mono q.grows) (Carries.mono has q.grows)
                (Carries.mono hbs q.grows) (Nat.succ.inj hl)
              refine ⟨q.trans q', ?_⟩
              have := List.Forall₂.cons (hm.mono q'.grows) hms
              cases w <;> exact this

end Combinators

def Emitter.remember (e : Emitter P) (key : SubstitutedGateKey) (v : ℕ) : Emitter P :=
  { e with substitutedGates := some ((e.substitutedGates.getD .new).insert key v) }

theorem Emitter.cached_remember {e : Emitter P} {key key' : SubstitutedGateKey} {v u : ℕ}
    (h : (e.remember key v).cached key' = some u) :
    key' = key ∧ u = v ∨ e.cached key' = some u := by
  rw [Emitter.cached, Emitter.remember, Option.bind_some] at h
  rcases get_insert h with hnew | hold
  · exact .inl hnew
  · rw [Emitter.cached]
    cases hs : e.substitutedGates with
    | none =>
        rw [hs, Option.getD_none, new_get] at hold
        cases hold
    | some cache =>
        rw [hs, Option.getD_some] at hold
        rw [Option.bind_some]
        exact .inr hold

/-- What `emit_substituted` does: emit, reuse, or emit and remember. -/
theorem Emitter.emitSubstituted_cases (e : Emitter P) (t : Stmt) (p : P) :
    e.emitSubstituted t p = e.emit t p ∨
      ∃ key, SubstitutedGateKey.fromStmt t = some key ∧
        ((∃ v, e.cached key = some v ∧ e.emitSubstituted t p = (v, e)) ∨
          e.emitSubstituted t p =
              ((e.emit t p).1, (e.emit t p).2.remember key (e.emit t p).1)) := by
  unfold Emitter.emitSubstituted
  cases hkey : SubstitutedGateKey.fromStmt t with
  | none => exact .inl rfl
  | some key =>
      refine .inr ⟨key, rfl, ?_⟩
      cases hc : e.cached key with
      | some v =>
          simp only [show e.substitutedGates.bind (·.get key) = some v from hc]
          exact .inl ⟨v, rfl, rfl⟩
      | none =>
          simp only [show e.substitutedGates.bind (·.get key) = none from hc]
          exact .inr rfl

/-- A source statement, emitted or found in the cache, defines its source var. -/
theorem Emitter.Ok.emitSubstituted {e : Emitter P} (h : e.Ok world x σ) {H : ℕ → Prop}
    {varMap : List ℕ} {f : Frame} (hr : Renamed world x σ H e.kinds varMap f) {s : Stmt} (p : P)
    (hop : ∀ v ∈ s.operands, v < varMap.length) (hH : ∀ v ∈ s.handles, H v) :
    let r := e.emitSubstituted (s.mapVars fun v => varMap.getD v 0) p
    r.2.Ok world x σ ∧ e.kinds <+: r.2.kinds ∧
      Renamed world x σ H r.2.kinds (varMap ++ [r.1]) (stepStmt world f s) := by
  generalize ht : (s.mapVars fun v => varMap.getD v 0 : Stmt) = t
  have hemit : (e.emit t p).2.Ok world x σ ∧ e.kinds <+: (e.emit t p).2.kinds ∧
      Renamed world x σ H (e.emit t p).2.kinds (varMap ++ [(e.emit t p).1])
        (stepStmt world f s) := by
    refine ⟨h.emit t p, e.emit_kinds t p ▸ List.prefix_append _ _, ?_⟩
    have := hr.emit hop hH
    rwa [ht, ← h.nextId, ← e.emit_kinds t p] at this
  rcases e.emitSubstituted_cases t p with heq | ⟨key, hkey, heq⟩
  · rw [heq]
    exact hemit
  obtain ⟨hgate, hops, hvalue⟩ := fromStmt_spec hkey
  rcases heq with ⟨v, hc, heq⟩ | heq <;> rw [heq]
  · -- the cached var holds this gate's value, and gates leave the state alone
    obtain ⟨hlt, -, hv⟩ := h.cache key v hc
    rw [hvalue] at hv
    have heval := hr.eval hop hH
    rw [ht, evalStmt_gate (σ := σ) hgate, ← Prod.eta (evalStmt world f.st _)] at heval
    exact ⟨h, List.prefix_refl _, hr.push (List.prefix_refl _) (h.nextId ▸ hlt)
      (hv.trans (Prod.mk.inj heval).1) (Prod.mk.inj heval).2⟩
  · obtain ⟨hok, hp, hren⟩ := hemit
    obtain ⟨-, hid, hval⟩ := h.emit_gate hgate p
    have hopt : ∀ v ∈ t.operands, v < e.nextId := by
      rw [← ht, h.nextId]
      intro v hv
      rw [BIrStmt.operands_mapVars] at hv
      obtain ⟨u, hu, rfl⟩ := List.mem_map.mp hv
      exact hr.defined u (hop u hu)
    refine ⟨⟨hok.nextId, fun key' v hv => ?_⟩, hp, hren⟩
    rcases Emitter.cached_remember hv with ⟨rfl, rfl⟩ | hold
    · refine ⟨hok.nextId ▸ hid, fun u hu => Nat.lt_succ_of_lt (hopt u (hops u hu)), ?_⟩
      refine hval.trans ?_
      rw [← hvalue]
      congr 2
      exact BIrStmt.mapVars_congr fun u hu =>
        (look_runStmts_of_extends hp (h.nextId ▸ hopt u (hops u hu))).symm
    · exact hok.cache key' v hold

end
end VolarIR.Circuit
