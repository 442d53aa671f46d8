import VolarIR.Circuit.Unroll

/-!
# The lowered circuit is in SSA order

Everything the emitter pushes reads vars it has handed out, and the wires that the loop, the
terminator and the cascades pass on are such vars. So the circuit lowered from a step program
of gates and reads is one of gates and reads, with every operand defined before its use.
-/
namespace VolarIR.Circuit
open Boolar Fallible

section
variable {P : Type} {base : ℕ} {e : Emitter P}

structure Emitter.Neat (base : ℕ) (e : Emitter P) : Prop where
  nextId : e.nextId = base + e.kinds.length
  tidy : Tidy base e.kinds
  cache : ∀ key v, e.cached key = some v → v < e.nextId

structure Emitter.Leads (base : ℕ) (e r : Emitter P) (outs : List ℕ) : Prop where
  neat : r.Neat base
  grows : e.nextId ≤ r.nextId
  outs : ∀ v ∈ outs, v < r.nextId

/-- Over the vars `ins`, the function leads to the vars `outs`. -/
def Emitter.Tidies {α : Type} (base : ℕ) (ins : List ℕ) (f : Emitter P → α × Emitter P)
    (outs : α → List ℕ) : Prop :=
  ∀ e : Emitter P, e.Neat base → (∀ v ∈ ins, v < e.nextId) → e.Leads base (f e).2 (outs (f e).1)

theorem Emitter.Leads.trans {r t : Emitter P} {outs outs' : List ℕ} (h : e.Leads base r outs)
    (h' : r.Leads base t outs') : e.Leads base t (outs ++ outs') where
  neat := h'.neat
  grows := h.grows.trans h'.grows
  outs := List.forall_mem_append.mpr ⟨fun v hv => (h.outs v hv).trans_le h'.grows, h'.outs⟩

theorem Emitter.Leads.also {r : Emitter P} {outs outs' : List ℕ} (h : e.Leads base r outs)
    (hsub : ∀ v ∈ outs', v ∈ outs ∨ v < e.nextId) : e.Leads base r outs' :=
  ⟨h.neat, h.grows, fun v hv => (hsub v hv).elim (h.outs v) fun hlt => hlt.trans_le h.grows⟩

namespace Emitter
variable {α β : Type} {ins : List ℕ} {outs : α → List ℕ}

theorem Neat.new (params : ℕ) : (Emitter.new params : Emitter P).Neat params :=
  ⟨rfl, ⟨trivial, by simp [kinds, Emitter.new]⟩, fun _ _ h => by cases h⟩

theorem tidies_pure {a : α} (h : outs a ⊆ ins) :
    Tidies (P := P) base ins (fun e => (a, e)) outs :=
  fun _ he hins => ⟨he, le_rfl, fun v hv => hins v (h hv)⟩

theorem Tidies.bind {f : Emitter P → α × Emitter P} {k : α → Emitter P → β × Emitter P}
    {outs' : β → List ℕ} (h : Tidies base ins f outs)
    (hk : ∀ a, Tidies base (outs a ++ ins) (k a) outs') :
    Tidies base ins (fun e => k (f e).1 (f e).2) outs' := by
  intro e he hins
  have hr := h e he hins
  have ht := hk (f e).1 (f e).2 hr.neat
    (List.forall_mem_append.mpr ⟨hr.outs, fun v hv => (hins v hv).trans_le hr.grows⟩)
  exact ⟨ht.neat, hr.grows.trans ht.grows, ht.outs⟩

theorem tidies_emit {s : Stmt} (hs : s.isRead) (hops : s.operands ⊆ ins) (p : P) :
    Tidies base ins (fun e => e.emit s p) fun v => [v] := by
  intro e he hins
  have hk := e.emit_kinds s p
  refine ⟨⟨?_, ?_, ?_⟩, Nat.le_succ _, by simp [Emitter.emit]⟩
  · rw [hk, List.length_append, ← Nat.add_assoc, ← he.nextId]
    rfl
  · rw [hk]
    exact he.tidy.push hs fun v hv => he.nextId ▸ hins v (hops hv)
  · exact fun key v hv => Nat.lt_succ_of_lt (he.cache key v hv)

theorem tidies_mux {s a b : ℕ} (hs : s ∈ ins) (ha : a ∈ ins) (hb : b ∈ ins) (p : P) :
    Tidies base ins (fun e => e.mux s a b p) fun v => [v] := by
  have h : Tidies base ins _ fun v => [v] :=
    (tidies_emit (s := .xor a b) rfl (by simp [BIrStmt.operands, ha, hb]) p).bind fun xab =>
    (tidies_emit (s := .and s xab) rfl (by simp [BIrStmt.operands, hs]) p).bind fun sel =>
      tidies_emit (s := .xor sel b) rfl (by simp [BIrStmt.operands, hb]) p
  exact h

theorem tidies_or {a b : ℕ} (ha : a ∈ ins) (hb : b ∈ ins) (p : P) :
    Tidies base ins (fun e => e.or a b p) fun v => [v] := by
  have h : Tidies base ins _ fun v => [v] :=
    (tidies_emit (s := .not a) rfl (by simp [BIrStmt.operands, ha]) p).bind fun na =>
    (tidies_emit (s := .not b) rfl (by simp [BIrStmt.operands, hb]) p).bind fun nb =>
      (tidies_emit (s := .and na nb) rfl (by simp [BIrStmt.operands]) p).bind fun nand =>
        tidies_emit (s := .not nand) rfl (by simp [BIrStmt.operands]) p
  exact h

theorem tidies_muxes {s : ℕ} (hs : s ∈ ins) (p : P) {wires : List (ℕ × ℕ)}
    (hw : ∀ w ∈ wires, w.1 ∈ ins ∧ w.2 ∈ ins) :
    Tidies base ins (fun e => e.muxes s p wires) fun vs => vs := by
  induction wires generalizing ins with
  | nil => exact tidies_pure (List.nil_subset _)
  | cons w wires ih =>
      rw [List.forall_mem_cons] at hw
      have h : Tidies base ins _ fun vs => vs := (tidies_mux hs hw.1.1 hw.1.2 p).bind fun v =>
        (ih (List.mem_append_right [v] hs) fun w' hw' => by simp [hw.2 w' hw']).bind fun vs =>
          tidies_pure (a := v :: vs) (by grind)
      exact h

/-- A source statement over vars, emitted or found in the cache. -/
theorem tidies_substituted {s : Stmt} (hs : s.isRead) (hops : s.operands ⊆ ins) (p : P) :
    Tidies base ins (fun e => e.emitSubstituted s p) fun v => [v] := by
  intro e he hins
  have hemit := tidies_emit hs hops p e he hins
  dsimp only at hemit ⊢
  rcases e.emitSubstituted_cases s p with heq | ⟨key, -, ⟨v, hv, heq⟩ | heq⟩
  · rw [heq]
    exact hemit
  · rw [heq]
    exact ⟨he, le_rfl, by simpa using he.cache key v hv⟩
  · rw [heq]
    refine ⟨⟨hemit.neat.nextId, hemit.neat.tidy, ?_⟩, hemit.grows, hemit.outs⟩
    intro key' v hv
    rcases Emitter.cached_remember hv with ⟨-, rfl⟩ | hold
    · exact hemit.outs _ (List.mem_singleton_self _)
    · exact hemit.neat.cache key' v hold

theorem tidies_muxCascade (p : P) {fallback : List ℕ} {exits : List Exit} (hf : fallback ⊆ ins)
    (h : ∀ exit ∈ exits, exit.done ∈ ins ∧ exit.result ⊆ ins) :
    Tidies base ins (fun e => muxCascade e p fallback exits) fun vs => vs := by
  induction exits with
  | nil => exact tidies_pure hf
  | cons exit exits ih =>
      rw [List.forall_mem_cons] at h
      have hwires : ∀ gated : List ℕ, ∀ w ∈ gated.zipIdx.map fun w =>
          (exit.result.getD w.2 w.1, w.1), w.1 ∈ gated ++ ins ∧ w.2 ∈ gated ++ ins := by
        intro gated w hw
        obtain ⟨⟨v, i⟩, hv, rfl⟩ := List.mem_map.mp hw
        have hv : v ∈ gated := List.fst_mem_of_mem_zipIdx hv
        dsimp only
        rw [List.getD_eq_getElem?_getD]
        cases hget : exit.result[i]? with
        | none => simp [hv]
        | some u => simp [hv, h.1.2 (List.mem_of_getElem? hget)]
      have hall : Tidies base ins _ fun vs => vs := (ih h.2).bind fun gated =>
        tidies_muxes (s := exit.done) (by simp [h.1.1]) p (hwires gated)
      exact hall

theorem tidies_orCascade (p : P) {acc : ℕ} {dones : List ℕ} (ha : acc ∈ ins) (h : dones ⊆ ins) :
    Tidies base ins (fun e => orCascade e p dones acc) fun v => [v] := by
  induction dones generalizing ins acc with
  | nil => exact tidies_pure (by simpa using ha)
  | cons done dones ih =>
      rw [List.cons_subset] at h
      have hall : Tidies base ins _ fun v => [v] := (tidies_or ha h.1 p).bind fun acc' =>
        ih (List.mem_append_left _ (List.mem_singleton_self acc')) (by grind)
      exact hall

theorem mem_resize {vs : List ℕ} {w v : ℕ} (h : v ∈ resize vs w) :
    v ∈ vs ∨ vs.length < w ∧ v = 0 := by
  rcases List.mem_append.mp h with h | h
  · exact .inl (List.mem_of_mem_take h)
  · obtain ⟨hne, rfl⟩ := List.mem_replicate.mp h
    cases vs with
    | nil => exact .inr ⟨Nat.pos_of_ne_zero (by simpa using hne), rfl⟩
    | cons u us =>
        rw [List.getLastD_eq_getLast?, List.getLast?_eq_getLast_of_ne_nil (List.cons_ne_nil u us)]
        exact .inl (List.getLast_mem _)

theorem selectFirst_leads (p : P) {exits : List Exit} {final : List ℕ} (he : e.Neat base)
    (h : ∀ v ∈ exits.flatMap (fun exit => exit.done :: exit.result) ++ final, v < e.nextId) :
    e.Leads base (selectFirst e p exits final).2.2
      ((selectFirst e p exits final).2.1 :: (selectFirst e p exits final).1) := by
  rw [List.forall_mem_append] at h
  cases exits with
  | nil =>
      have hres : resize final final.length = final := by simp [resize]
      have hzero := tidies_emit (s := .zero) rfl (List.nil_subset []) p e he (by simp)
      apply hzero.also
      intro v hv
      rcases List.mem_cons.mp hv with rfl | hv
      · exact .inl (List.mem_singleton_self _)
      · exact .inr (h.2 v (hres ▸ hv))
  | cons exit exits =>
      have hpos : 0 < e.nextId := Nat.zero_lt_of_lt (h.1 exit.done (by simp))
      have hfinal : ∀ v ∈ resize final exit.result.length, v < e.nextId := by
        intro v hv
        rcases mem_resize hv with hv | ⟨-, rfl⟩
        · exact h.2 v hv
        · exact hpos
      have hexits : ∀ x ∈ exit :: exits, x.done < e.nextId ∧ ∀ v ∈ x.result, v < e.nextId := by
        intro x hx
        have hall : ∀ v ∈ x.done :: x.result, v < e.nextId := fun v hv =>
          h.1 v (List.mem_flatMap.mpr ⟨x, hx, hv⟩)
        exact List.forall_mem_cons.mp hall
      have hcascade : Tidies base (List.range e.nextId) _ fun vs => vs :=
        tidies_muxCascade p (fun v hv => List.mem_range.mpr (hfinal v hv)) fun x hx =>
          ⟨List.mem_range.mpr (hexits x hx).1,
            fun v hv => List.mem_range.mpr ((hexits x hx).2 v hv)⟩
      have hdones : (exits.map Exit.done) ⊆ List.range e.nextId := by
        intro v hv
        obtain ⟨x, hx, rfl⟩ := List.mem_map.mp hv
        exact List.mem_range.mpr (hexits x (List.mem_cons_of_mem exit hx)).1
      have hmux := hcascade e he fun v => List.mem_range.mp
      have hor := tidies_orCascade p (List.mem_range.mpr (hexits exit List.mem_cons_self).1) hdones
        _ hmux.neat fun v hv => (List.mem_range.mp hv).trans_le hmux.grows
      exact (hmux.trans hor).also (by grind [selectFirst])

variable {b : BIrBlock P} {varMap current : List ℕ} {r : Emitter P}

theorem emitBody_leads {stmts : List (Node Stmt P)} (he : e.Neat base)
    (hv : ∀ v ∈ varMap, v < e.nextId) (hdef : Defined varMap.length (stmts.map Node.kind))
    (hread : ∀ s ∈ stmts.map Node.kind, s.isRead) {vs : List ℕ}
    (hrun : emitBody e varMap stmts = .ok (vs, r)) :
    e.Leads base r vs ∧ vs.length = varMap.length + stmts.length := by
  induction stmts generalizing e varMap with
  | nil =>
      cases hrun
      exact ⟨⟨he, le_rfl, hv⟩, rfl⟩
  | cons stmt stmts ih =>
      rw [List.map_cons, List.forall_mem_cons] at hread
      have hsubst : substStmt stmt.kind varMap =
          .ok (stmt.kind.mapVars fun v => varMap.getD v 0) :=
        BIrStmt.map_eq_ok fun v hv => lookup_eq_ok (hdef.1 v hv)
      rw [emitBody, hsubst, ok_bind] at hrun
      have hone := tidies_substituted ((BIrStmt.isRead_mapVars _ _).trans hread.1)
        (operands_renamed hdef.1) stmt.prov e he hv
      have hmap := List.forall_mem_append.mpr
        ⟨fun v hv' => (hv v hv').trans_le hone.grows, hone.outs⟩
      obtain ⟨hleads, hlen⟩ := ih hone.neat hmap (by simpa using hdef.2) hread.2 hrun
      constructor
      · exact ⟨hleads.neat, hone.grows.trans hleads.grows, hleads.outs⟩
      · rw [hlen, List.length_append, Nat.add_assoc, Nat.add_comm _ stmts.length]
        rfl

/-- The terminator's wires. -/
theorem processTerminator_leads (he : e.Neat base) (hv : ∀ v ∈ varMap, v < e.nextId)
    (hc : ∀ v ∈ current, v < e.nextId) {params : ℕ} (hlen : current.length = params)
    {t : BIrTerminator ℕ} (h : Accepts params t) (hret : ∀ args, t ≠ .jmp ⟨.ret, args⟩)
    (hops : ∀ v ∈ t.operands, v < varMap.length) (prov : P) {exit : Exit}
    (hrun : processTerminator t varMap e current prov = .ok (exit, r)) :
    e.Leads base r (exit.done :: exit.result ++ exit.next) ∧ exit.next.length = params := by
  have hmapped : ∀ args : List ℕ, (∀ v ∈ args, v < varMap.length) →
      ∀ v ∈ args.map fun v => varMap.getD v 0, v < e.nextId := by
    intro args hargs v hmem
    obtain ⟨u, hu, rfl⟩ := List.mem_map.mp hmem
    rw [List.getD_eq_getElem _ _ (hargs u hu)]
    exact hv _ (List.getElem_mem _)
  have hwire : ∀ v < varMap.length, varMap.getD v 0 < e.nextId := fun v hlt =>
    hmapped [v] (by simpa using hlt) _ (List.mem_singleton_self _)
  cases h with
  | ret args => exact absurd rfl (hret args)
  | loop next hnext =>
      replace hops : ∀ v ∈ next, v < varMap.length := hops
      simp only [processTerminator, lookups_eq_ok hops, ok_bind] at hrun
      cases hrun
      have hzero := tidies_emit (s := .zero) rfl (List.nil_subset []) prov e he (by simp)
      exact ⟨hzero.also (by grind), by simpa using hnext⟩
  | retLoop val result next hnext =>
      simp only [BIrTerminator.operands, List.forall_mem_append, List.forall_mem_cons] at hops
      obtain ⟨⟨hval, hres⟩, hloop⟩ := hops
      simp only [processTerminator, lookup_eq_ok hval, lookups_eq_ok hres, lookups_eq_ok hloop,
        ok_bind] at hrun
      cases hrun
      exact ⟨⟨he, le_rfl, by grind⟩, by simpa using hnext⟩
  | loopRet val next result hnext =>
      simp only [BIrTerminator.operands, List.forall_mem_append, List.forall_mem_cons] at hops
      obtain ⟨⟨hval, hloop⟩, hres⟩ := hops
      simp only [processTerminator, lookup_eq_ok hval, lookups_eq_ok hres, lookups_eq_ok hloop,
        ok_bind] at hrun
      cases hrun
      have hnot := tidies_emit (s := .not (varMap.getD val 0)) rfl
        (List.Subset.refl [varMap.getD val 0]) prov e he (by simpa using hwire val hval)
      exact ⟨hnot.also (by grind), by simpa using hnext⟩
  | retRet val thenArgs elseArgs hl =>
      simp only [BIrTerminator.operands, List.forall_mem_append, List.forall_mem_cons] at hops
      obtain ⟨⟨hval, hthen⟩, helse⟩ := hops
      simp only [processTerminator, lookup_eq_ok hval, lookups_eq_ok hthen, lookups_eq_ok helse,
        ok_bind, List.length_map, if_pos hl] at hrun
      cases hrun
      have hone := tidies_emit (s := .one) rfl (List.nil_subset []) prov e he (by simp)
      have hwires : ∀ w ∈ (thenArgs.map fun v => varMap.getD v 0).zip
          (elseArgs.map fun v => varMap.getD v 0), w.1 ∈ List.range e.nextId ∧
            w.2 ∈ List.range e.nextId := by
        intro w hw
        have hboth := List.of_mem_zip hw
        constructor
        · exact List.mem_range.mpr (hmapped thenArgs hthen _ hboth.1)
        · exact List.mem_range.mpr (hmapped elseArgs helse _ hboth.2)
      have hmuxes : Tidies base _ _ fun vs => vs :=
        tidies_muxes (List.mem_range.mpr (hwire val hval)) prov hwires
      have hmux := hmuxes (e.emit .one prov).2 hone.neat fun v hv =>
        (List.mem_range.mp hv).trans_le hone.grows
      exact ⟨(hone.trans hmux).also (by grind), hlen⟩

/-- The unrolled loop. -/
theorem unroll_leads (h : StepProgram b) (hret : ∀ args, b.terminator ≠ .jmp ⟨.ret, args⟩)
    (hread : ∀ s ∈ b.kinds, s.isRead) (prov : P) (n : ℕ) (he : e.Neat base)
    (hc : ∀ v ∈ current, v < e.nextId) (hlen : current.length = b.params) {exits : List Exit}
    {final : List ℕ} (hrun : unroll b prov n e current = .ok (exits, final, r)) :
    e.Leads base r (exits.flatMap (fun exit => exit.done :: exit.result) ++ final) := by
  induction n generalizing e current exits with
  | zero =>
      cases hrun
      exact ⟨he, le_rfl, hc⟩
  | succ n ih =>
      simp only [unroll, Except.bind_eq_ok] at hrun
      obtain ⟨⟨vs, e₁⟩, hbody, ⟨exit, e₂⟩, hterm, ⟨exits', final', e₃⟩, hrest, hret'⟩ := hrun
      cases hret'
      obtain ⟨h₁, hvs⟩ := emitBody_leads he hc (hlen ▸ h.wellFormed.1) hread hbody
      obtain ⟨h₂, hnext⟩ := processTerminator_leads h₁.neat h₁.outs
        (fun v hv => (hc v hv).trans_le h₁.grows) hlen h.accepts hret
        (by rw [hvs, hlen]; exact h.wellFormed.2) prov hterm
      have h₃ := ih h₂.neat (fun v hv => h₂.outs v (by simp [hv])) hnext hrest
      apply ((h₁.trans h₂).trans h₃).also
      rw [List.flatMap_cons]
      grind

end Emitter

/-- Lowering a well-formed step program of gates and reads gives gates and reads in SSA
order, with ids in `u32`, and outputs among their vars. -/
theorem lowerToCircuitImpl_tidy {blocks : BIrBlocks P} {b : BIrBlock P} (hb : blocks.blocks = [b])
    (h : StepProgram b) (hnc : blocks.isCircuit = false) (hread : ∀ s ∈ b.kinds, s.isRead)
    {limit : ℕ} {mode : LoweringMode} {control : Option P} {out : BIrBlocks P}
    (hrun : lowerToCircuitImpl blocks limit mode control = .ok out) :
    ∃ stmts outs, out = ⟨[⟨b.params, stmts, .jmp ⟨.ret, outs⟩⟩], blocks.preInit⟩ ∧
      Tidy b.params (stmts.map Node.kind) ∧ b.params + stmts.length ≤ u32Max ∧
      ∀ v ∈ outs, v < b.params + stmts.length := by
  rw [lowerToCircuitImpl, hnc] at hrun
  simp only [Bool.false_eq_true, if_false, hb, Except.bind_eq_ok] at hrun
  obtain ⟨prov, -, ⟨gated, done, e'⟩, hemit, hret⟩ := hrun
  split at hret
  · cases hret
  next hfits =>
  cases hret
  simp only [emitCircuit, Except.bind_eq_ok] at hemit
  obtain ⟨⟨exits, final, e⟩, hunroll, hselect⟩ := hemit
  cases hselect
  have hstart := Emitter.unroll_leads h (not_ret_of_not_circuit hb hnc) hread prov limit
    (Emitter.Neat.new b.params) (fun v hv => List.mem_range.mp hv)
    List.length_range hunroll
  have hall := Emitter.selectFirst_leads prov hstart.neat hstart.outs
  have hlen : (selectFirst e prov exits final).2.2.nextId =
      b.params + (selectFirst e prov exits final).2.2.stmts.length := by
    rw [hall.neat.nextId, Emitter.kinds, List.length_map]
  refine ⟨_, _, rfl, hall.neat.tidy, hlen ▸ Nat.le_of_not_lt hfits, ?_⟩
  have houts := hall.outs
  rw [hlen] at houts
  cases mode
  · exact (List.forall_mem_cons.mp houts).2
  · exact houts

end

end VolarIR.Circuit
