import VolarIR.Circuit.Emission
import VolarIR.Library.Loop
import VolarIR.Library.Fallible

/-!
# The unrolled loop

Each copy of the block's body evaluates as the body does (`emitBody_ends`), the
terminator's wires carry the flag, the result and the next state of one loop iteration
(`processTerminator_ends`), and so the unrolled circuit carries the loop's whole trace
(`unroll_ends`), iterations past the exit included. The cascade picks the first exit.
-/
namespace VolarIR.Circuit
open Boolar Fallible Cascade

/-- A terminator the pass accepts, for a block with that many parameters. -/
inductive Accepts (params : ℕ) : BIrTerminator ℕ → Prop where
  | ret (args : List ℕ) : Accepts params (.jmp ⟨.ret, args⟩)
  | loop (next : List ℕ) (h : next.length = params) : Accepts params (.jmp ⟨.block 0, next⟩)
  | retLoop (val : ℕ) (result next : List ℕ) (h : next.length = params) :
      Accepts params (.condJmp val ⟨.ret, result⟩ ⟨.block 0, next⟩)
  | loopRet (val : ℕ) (next result : List ℕ) (h : next.length = params) :
      Accepts params (.condJmp val ⟨.block 0, next⟩ ⟨.ret, result⟩)
  | retRet (val : ℕ) (thenArgs elseArgs : List ℕ) (h : thenArgs.length = elseArgs.length) :
      Accepts params (.condJmp val ⟨.ret, thenArgs⟩ ⟨.ret, elseArgs⟩)

/-- A well-formed step program: SSA order, an accepted terminator, and projections of
calls made in the block. -/
structure StepProgram {P : Type} (b : BIrBlock P) : Prop where
  wellFormed : b.WellFormed
  accepts : Accepts b.params b.terminator
  projects : ∀ s ∈ b.kinds, ∀ v ∈ s.handles, b.params ≤ v

def bitsOf (vals : List Value) (vs : List ℕ) : List Bool := vs.map fun v => (look vals v).bit

/-- Done flag, result and next state of an iteration, as the pass reads its terminator. -/
def exitOf (vals : List Value) (current : List Bool) :
    BIrTerminator ℕ → Bool × List Bool × List Bool
  | .jmp ⟨.ret, args⟩ => (true, bitsOf vals args, bitsOf vals args)
  | .jmp ⟨_, args⟩ => (false, current, bitsOf vals args)
  | .condJmp val ⟨.ret, thenArgs⟩ ⟨.ret, elseArgs⟩ =>
      (true, if (look vals val).bit then bitsOf vals thenArgs else bitsOf vals elseArgs, current)
  | .condJmp val ⟨.ret, thenArgs⟩ ⟨_, elseArgs⟩ =>
      ((look vals val).bit, bitsOf vals thenArgs, bitsOf vals elseArgs)
  | .condJmp val ⟨_, thenArgs⟩ ⟨_, elseArgs⟩ =>
      (!(look vals val).bit, bitsOf vals elseArgs, bitsOf vals thenArgs)

section
variable {P : Type} (world : Externals) (b : BIrBlock P)

def bodyFrame (s : List Bool × EvalState) : Frame := runStmts world s.1 s.2 b.kinds

/-- One iteration, executed whether or not the loop has left. -/
def loopStep (s : List Bool × EvalState) : Bool × List Bool × List Bool × EvalState :=
  let f := bodyFrame world b s
  let exit := exitOf f.vals s.1 b.terminator
  (exit.1, exit.2.1, exit.2.2, f.st)

end

section
variable {P : Type} {world : Externals} {b : BIrBlock P}

theorem bitsOf_length (vals : List Value) (vs : List ℕ) : (bitsOf vals vs).length = vs.length := by
  simp [bitsOf]

theorem evalTerminator_eq (vals : List Value) (current : List Bool) {t : BIrTerminator ℕ}
    (h : Accepts b.params t) :
    evalTerminator vals t =
      let exit := exitOf vals current t
      some (if exit.1 then .ret exit.2.1 else .jump 0 exit.2.2) := by
  cases h with
  | ret args | loop next => rfl
  | retLoop val args next | loopRet val next args | retRet val args next =>
      by_cases hv : (look vals val).bit <;>
        simp [evalTerminator, exitOf, resolveTarget, bitsOf, hv]

/-- The next state has a bit for each parameter, unless the block always returns. -/
theorem exitOf_next_length {vals : List Value} {current : List Bool} {t : BIrTerminator ℕ}
    (h : Accepts b.params t) (hc : current.length = b.params)
        (hret : ∀ args, t ≠ .jmp ⟨.ret, args⟩) :
    (exitOf vals current t).2.2.length = b.params := by
  cases h with
  | ret args => exact absurd rfl (hret args)
  | loop next h | retLoop val result next h | loopRet val next result h =>
      exact (bitsOf_length vals next).trans h
  | retRet val thenArgs elseArgs h => exact hc

def resultWidth (params : ℕ) : BIrTerminator ℕ → ℕ
  | .jmp ⟨.ret, args⟩ => args.length
  | .jmp _ => params
  | .condJmp _ ⟨.ret, thenArgs⟩ _ => thenArgs.length
  | .condJmp _ _ ⟨_, elseArgs⟩ => elseArgs.length

theorem exitOf_result_length {vals : List Value} {current : List Bool} {t : BIrTerminator ℕ}
    (h : Accepts b.params t) (hc : current.length = b.params) :
    (exitOf vals current t).2.1.length = resultWidth b.params t := by
  cases h with
  | ret args | retLoop val args next | loopRet val next args => exact bitsOf_length vals args
  | loop next => exact hc
  | retRet val thenArgs elseArgs h =>
      simp only [exitOf, resultWidth]
      split_ifs
      · exact bitsOf_length vals thenArgs
      · exact (bitsOf_length vals elseArgs).trans h.symm

/-- The program returns `r` within `n` iterations just when the loop does. -/
theorem returns_iff {blocks : BIrBlocks P} (hb : blocks.blocks = [b])
    (h : Accepts b.params b.terminator) (n : ℕ) {s : List Bool × EvalState}
    (hs : s.1.length = b.params) (r : List Bool) :
    (∃ τ, runBlocks world blocks n (.running 0 s.1 s.2) = .returned r τ) ↔
      runFor (loopStep world b) n s = some r := by
  induction n generalizing s with
  | zero => simp [runBlocks, runFor]
  | succ n ih =>
      have hstep : stepBlock world blocks (.running 0 s.1 s.2) =
          if (loopStep world b s).1 then
            .returned (loopStep world b s).2.1 (loopStep world b s).2.2.2
          else .running 0 (loopStep world b s).2.2.1 (loopStep world b s).2.2.2 := by
        have hterm := evalTerminator_eq (b := b) (bodyFrame world b s).vals s.1 h
        simp only [stepBlock, hb, List.getElem?_cons_zero, evalBlock, if_pos hs]
        rw [show evalStmts world ⟨paramValues s.1, s.2⟩ b.kinds = bodyFrame world b s from rfl,
          hterm]
        unfold loopStep
        dsimp only
        split_ifs <;> rfl
      rw [runBlocks, hstep, runFor]
      split_ifs with hd
      · rw [runBlocks_returned]
        simp
      · refine ih (s := (loopStep world b s).2.2) (exitOf_next_length h hs ?_)
        rintro args hret
        refine hd ?_
        rw [loopStep, hret]
        rfl

theorem lookup_eq_ok {varMap : List ℕ} {v : ℕ} (h : v < varMap.length) :
    lookup varMap v = .ok (varMap.getD v 0) := by
  simp [lookup, expect, h]

theorem lookups_eq_ok {varMap vs : List ℕ} (h : ∀ v ∈ vs, v < varMap.length) :
    vs.mapM (lookup varMap) = .ok (vs.map fun v => varMap.getD v 0) :=
  mapM_eq_ok fun v hv => lookup_eq_ok (h v hv)

variable {x : List Bool} {σ : EvalState}

/-- A right table gives wires that carry the source vars' bits. -/
theorem carries_of_renamed {H : ℕ → Prop} {ks : List Stmt} {varMap : List ℕ} {f : Frame}
    (h : Renamed world x σ H ks varMap f) {vs : List ℕ} (hv : ∀ v ∈ vs, v < varMap.length) :
    Carries world x σ ks (vs.map fun v => varMap.getD v 0) (bitsOf f.vals vs) := by
  unfold Carries bitsOf
  rw [List.forall₂_map_left_iff, List.forall₂_map_right_iff, List.forall₂_same]
  exact fun v hm => ⟨h.defined v (hv v hm), h.bit v (hv v hm)⟩

theorem renamed_of_carries {ks : List Stmt} {current : List ℕ} {s : List Bool × EvalState}
    (h : Carries world x σ ks current s.1) (hst : (runStmts world x σ ks).st = s.2) :
    Renamed world x σ (current.length ≤ ·) ks current ⟨paramValues s.1, s.2⟩ := by
  have hlen := h.length_eq
  have hget : ∀ v < current.length, HasBit world x σ ks (current.getD v 0) (s.1.getD v false) := by
    intro v hv
    have := h.get hv (hlen ▸ hv)
    simpa [hv, hlen ▸ hv] using this
  refine ⟨by simp [hlen], fun v hv => (hget v hv).1, fun v hv => ?_, fun v hv hH => ?_, hst⟩
  · rw [look_paramValues]
    exact (hget v hv).2
  · exact absurd hv (Nat.not_lt.mpr hH)

/-- A copy of the body: its table is right for the body's frame. -/
theorem emitBody_ends {e : Emitter P} (he : e.Ok world x σ) {H : ℕ → Prop} {varMap : List ℕ}
    {f : Frame} (hr : Renamed world x σ H e.kinds varMap f) {stmts : List (Node Stmt P)}
    (hd : Defined varMap.length (stmts.map Node.kind))
    (hH : ∀ s ∈ stmts.map Node.kind, ∀ v ∈ s.handles, H v) :
    Ends (fun _ => False) (emitBody e varMap stmts) fun r =>
      r.2.Ok world x σ ∧ e.kinds <+: r.2.kinds ∧
        Renamed world x σ H r.2.kinds r.1 (evalStmts world f (stmts.map Node.kind)) := by
  induction stmts generalizing e varMap f with
  | nil => exact ⟨he, List.prefix_refl _, hr⟩
  | cons node rest ih =>
      rw [List.map_cons, List.forall_mem_cons] at hH
      obtain ⟨hops, hd⟩ := hd
      obtain ⟨he', hp, hr'⟩ := he.emitSubstituted hr node.prov hops hH.1
      have hsubst : substStmt node.kind varMap =
          .ok (node.kind.mapVars fun v => varMap.getD v 0) :=
        BIrStmt.map_eq_ok fun v hv => lookup_eq_ok (hops v hv)
      rw [emitBody, hsubst, ok_bind]
      refine (ih he' hr' (by simpa using hd) hH.2).mono fun r hr => ?_
      exact ⟨hr.1, hp.trans hr.2.1, hr.2.2⟩

def ExitCarries (world : Externals) (x : List Bool) (σ : EvalState) (ks : List Stmt) (exit : Exit)
    (v : Bool × List Bool × List Bool) : Prop :=
  HasBit world x σ ks exit.done v.1 ∧ Carries world x σ ks exit.result v.2.1 ∧
    Carries world x σ ks exit.next v.2.2

/-- The terminator's wires are read off the table, with at most a few more gates. -/
theorem processTerminator_ends {e : Emitter P} (he : e.Ok world x σ) {H : ℕ → Prop}
    {varMap : List ℕ} {f : Frame} (hr : Renamed world x σ H e.kinds varMap f)
    {current : List ℕ} {bits : List Bool} (hc : Carries world x σ e.kinds current bits)
    {t : BIrTerminator ℕ} (h : Accepts b.params t) (hops : ∀ v ∈ t.operands, v < varMap.length)
    (prov : P) :
    Ends (fun _ => False) (processTerminator t varMap e current prov) fun r =>
      Quiet world x σ e r.2 ∧
        ExitCarries world x σ r.2.kinds r.1 (exitOf f.vals bits t) := by
  have hbit : ∀ v < varMap.length, HasBit world x σ e.kinds (varMap.getD v 0) (look f.vals v).bit :=
    fun v hv => ⟨hr.defined v hv, hr.bit v hv⟩
  cases h with
  | ret args =>
      replace hops : ∀ v ∈ args, v < varMap.length := hops
      have hargs := carries_of_renamed hr hops
      obtain ⟨q, hone⟩ := he.emit_bit (s := .one) rfl prov rfl
      simp only [processTerminator, lookups_eq_ok hops, ok_bind]
      exact ⟨q, hone, hargs.mono q.grows, hargs.mono q.grows⟩
  | loop next =>
      replace hops : ∀ v ∈ next, v < varMap.length := hops
      have hargs := carries_of_renamed hr hops
      obtain ⟨q, hzero⟩ := he.emit_bit (s := .zero) rfl prov rfl
      simp only [processTerminator, lookups_eq_ok hops, ok_bind]
      exact ⟨q, hzero, hc.mono q.grows, hargs.mono q.grows⟩
  | retLoop val result next =>
      simp only [BIrTerminator.operands, List.forall_mem_append, List.forall_mem_cons] at hops
      obtain ⟨⟨hval, hres⟩, hnext⟩ := hops
      simp only [processTerminator, lookup_eq_ok hval, lookups_eq_ok hres, lookups_eq_ok hnext,
        ok_bind]
      exact ⟨.refl he, hbit val hval, carries_of_renamed hr hres, carries_of_renamed hr hnext⟩
  | loopRet val next result =>
      simp only [BIrTerminator.operands, List.forall_mem_append, List.forall_mem_cons] at hops
      obtain ⟨⟨hval, hnext⟩, hres⟩ := hops
      obtain ⟨q, hnot⟩ := he.emit_not (hbit val hval) prov
      simp only [processTerminator, lookup_eq_ok hval, lookups_eq_ok hres, lookups_eq_ok hnext,
        ok_bind]
      exact ⟨q, hnot, (carries_of_renamed hr hres).mono q.grows,
        (carries_of_renamed hr hnext).mono q.grows⟩
  | retRet val thenArgs elseArgs hl =>
      simp only [BIrTerminator.operands, List.forall_mem_append, List.forall_mem_cons] at hops
      obtain ⟨⟨hval, hthen⟩, helse⟩ := hops
      obtain ⟨q, hone⟩ := he.emit_bit (s := .one) rfl prov rfl
      obtain ⟨q', hres⟩ := q.ok.muxes ((hbit val hval).mono q.grows) prov
        ((carries_of_renamed hr hthen).mono q.grows) ((carries_of_renamed hr helse).mono q.grows)
        (by simp [bitsOf_length, hl])
      simp only [processTerminator, lookup_eq_ok hval, lookups_eq_ok hthen, lookups_eq_ok helse,
        ok_bind, List.length_map, if_pos hl]
      exact ⟨q.trans q', hone.mono q'.grows, hres, hc.mono (q.trans q').grows⟩

/-- The unrolled circuit carries the trace of the loop, by induction on the limit. -/
theorem unroll_ends (h : StepProgram b) (hret : ∀ args, b.terminator ≠ .jmp ⟨.ret, args⟩)
    (prov : P) (n : ℕ) {e : Emitter P} (he : e.Ok world x σ) {current : List ℕ}
    {s : List Bool × EvalState} (hc : Carries world x σ e.kinds current s.1)
    (hs : s.1.length = b.params) (hst : (runStmts world x σ e.kinds).st = s.2) :
    Ends (fun _ => False) (unroll b prov n e current) fun r =>
      r.2.2.Ok world x σ ∧ e.kinds <+: r.2.2.kinds ∧
        List.Forall₂ (fun exit v => HasBit world x σ r.2.2.kinds exit.done v.1 ∧
          Carries world x σ r.2.2.kinds exit.result v.2) r.1 (trace (loopStep world b) n s) ∧
        ∃ bits, bits.length = b.params ∧ Carries world x σ r.2.2.kinds r.2.1 bits := by
  induction n generalizing e current s with
  | zero => exact ⟨he, List.prefix_refl _, .nil, s.1, hs, hc⟩
  | succ n ih =>
      have hlen : current.length = b.params := hc.length_eq.trans hs
      have hr := renamed_of_carries hc hst
      rw [unroll]
      refine (emitBody_ends he hr (hlen ▸ h.wellFormed.1)
        fun t ht v hv => hlen ▸ h.projects t ht v hv).bind fun r₁ hr₁ => ?_
      obtain ⟨he₁, hp₁, hr₁⟩ := hr₁
      have hmap : r₁.1.length = b.params + b.stmts.length := by
        rw [hr₁.length]
        simp [hs]
      refine (processTerminator_ends he₁ hr₁ (hc.mono hp₁) h.accepts
        (hmap ▸ h.wellFormed.2) prov).bind fun r₂ hr₂ => ?_
      obtain ⟨q, hdone, hresult, hnext⟩ := hr₂
      refine (ih q.ok (s := (loopStep world b s).2.2) hnext (exitOf_next_length h.accepts hs hret)
        (q.st.trans hr₁.st)).bind fun r₃ hr₃ => ?_
      obtain ⟨he₃, hp₃, hexits, hfinal⟩ := hr₃
      refine ⟨he₃, (hp₁.trans q.grows).trans hp₃, ?_, hfinal⟩
      exact .cons ⟨hdone.mono hp₃, hresult.mono hp₃⟩ hexits

theorem trace_width (h : Accepts b.params b.terminator)
    (hret : ∀ args, b.terminator ≠ .jmp ⟨.ret, args⟩) {n : ℕ} {s : List Bool × EvalState}
    (hs : s.1.length = b.params) :
    ∀ p ∈ trace (loopStep world b) n s, p.2.length = resultWidth b.params b.terminator := by
  induction n generalizing s with
  | zero => simp [trace]
  | succ n ih =>
      rw [trace, List.forall_mem_cons]
      exact ⟨exitOf_result_length h hs, ih (exitOf_next_length h hs hret)⟩

theorem muxWires_eq {result gated : List ℕ} (h : result.length = gated.length) :
    (gated.zipIdx.map fun p => (result.getD p.2 p.1, p.1)) = result.zip gated := by
  apply List.ext_getElem
  · simp [h]
  · intro i h₁ h₂
    have hi : i < result.length := by
      rw [List.length_zip] at h₂
      omega
    simp [hi]

/-- The cascade selects the first exit, by induction from the last iteration. -/
theorem muxCascade_spec {e : Emitter P} (he : e.Ok world x σ) (prov : P) {w : ℕ}
    {fallback : List ℕ} {bits : List Bool} (hf : Carries world x σ e.kinds fallback bits)
    (hw : bits.length = w) {exits : List Exit} {vs : List (Bool × List Bool)}
    (h : List.Forall₂ (fun exit v => HasBit world x σ e.kinds exit.done v.1 ∧
      Carries world x σ e.kinds exit.result v.2) exits vs) (hvs : ∀ v ∈ vs, v.2.length = w) :
    let r := muxCascade e prov fallback exits
    Quiet world x σ e r.2 ∧ Carries world x σ r.2.kinds r.1 (firstExit bits vs) ∧
      (firstExit bits vs).length = w := by
  induction h with
  | nil => exact ⟨.refl he, hf, hw⟩
  | @cons exit v exits vs hev _ ih =>
      rw [List.forall_mem_cons] at hvs
      obtain ⟨q, hrest, hlen⟩ := ih hvs.2
      have hres := Carries.mono hev.2 q.grows
      obtain ⟨q', hsel⟩ := q.ok.muxes (hev.1.mono q.grows) prov hres hrest
        (hvs.1.trans hlen.symm)
      have hwires := muxWires_eq (hres.length_eq.trans
        ((hvs.1.trans hlen.symm).trans hrest.length_eq.symm))
      rw [← hwires] at hsel q'
      refine ⟨q.trans q', hsel, ?_⟩
      rw [firstExit]
      split_ifs
      · exact hvs.1
      · exact hlen

theorem orCascade_spec {e : Emitter P} (he : e.Ok world x σ) (prov : P) {acc : ℕ} {y : Bool}
    (ha : HasBit world x σ e.kinds acc y) {dones : List ℕ} {ys : List Bool}
    (h : Carries world x σ e.kinds dones ys) :
    let r := orCascade e prov dones acc
    Quiet world x σ e r.2 ∧ HasBit world x σ r.2.kinds r.1 (y || ys.any id) := by
  induction dones generalizing e acc y ys with
  | nil =>
      cases h
      rw [List.any_nil, Bool.or_false]
      exact ⟨.refl he, ha⟩
  | cons done dones ih =>
      cases h with
      | cons hd hds =>
          obtain ⟨q, hor⟩ := he.or ha hd prov
          obtain ⟨q', hrest⟩ := ih q.ok hor (Carries.mono hds q.grows)
          refine ⟨q.trans q', ?_⟩
          rw [List.any_cons, ← Bool.or_assoc]
          exact hrest

theorem carries_resize {ks : List Stmt} {vs : List ℕ} {bits : List Bool} {w : ℕ}
    (h : Carries world x σ ks vs bits) (hpos : w ≤ vs.length ∨ 0 < x.length + ks.length) :
    ∃ bits, bits.length = w ∧ Carries world x σ ks (resize vs w) bits := by
  refine ⟨(resize vs w).map fun v => (look (runStmts world x σ ks).vals v).bit, ?_, ?_⟩
  · simp [resize]
    omega
  · unfold Carries
    rw [List.forall₂_map_right_iff, List.forall₂_same]
    refine fun v hv => ⟨?_, rfl⟩
    have hdef : ∀ v ∈ vs, v < x.length + ks.length := fun v hv => by
      obtain ⟨i, hi, rfl⟩ := List.getElem_of_mem hv
      exact (List.Forall₂.get h hi (h.length_eq ▸ hi)).1
    rcases List.mem_append.mp hv with hv | hv
    · exact hdef v (List.mem_of_mem_take hv)
    · obtain ⟨hne, rfl⟩ := List.mem_replicate.mp hv
      cases vs with
      | nil => exact hpos.resolve_left (by simpa using hne)
      | cons u us =>
          rw [List.getLastD_eq_getLast?, List.getLast?_eq_getLast_of_ne_nil (List.cons_ne_nil u us)]
          exact hdef _ (List.getLast_mem _)

/-- After the loop: the overall flag, and the first exit's result on the gated wires. -/
theorem selectFirst_spec {e : Emitter P} (he : e.Ok world x σ) (prov : P) {w : ℕ}
    {exits : List Exit} {vs : List (Bool × List Bool)} {final : List ℕ} {bits : List Bool}
    (h : List.Forall₂ (fun exit v => HasBit world x σ e.kinds exit.done v.1 ∧
      Carries world x σ e.kinds exit.result v.2) exits vs) (hvs : ∀ v ∈ vs, v.2.length = w)
    (hf : Carries world x σ e.kinds final bits) :
    let r := selectFirst e prov exits final
    HasBit world x σ r.2.2.kinds r.2.1 (vs.any Prod.fst) ∧
      ∃ fallback, Carries world x σ r.2.2.kinds r.1 (firstExit fallback vs) := by
  cases h with
  | nil =>
      obtain ⟨fallback, hl, hc⟩ := carries_resize hf (.inl (Nat.le_refl _))
      obtain ⟨q, hzero⟩ := he.emit_bit (s := .zero) rfl prov rfl
      exact ⟨hzero, fallback, hc.mono q.grows⟩
  | @cons exit v rest vs' hev hrest =>
      have hw : exit.result.length = w := hev.2.length_eq.trans (hvs v List.mem_cons_self)
      have hpos : 0 < x.length + e.kinds.length := Nat.zero_lt_of_lt hev.1.1
      obtain ⟨fallback, hl, hc⟩ := carries_resize hf (w := w) (.inr hpos)
      obtain ⟨q, hsel, -⟩ := muxCascade_spec he prov hc hl (.cons hev hrest) hvs
      have hdones : Carries world x σ e.kinds (rest.map Exit.done) (vs'.map Prod.fst) := by
        unfold Carries
        rw [List.forall₂_map_left_iff, List.forall₂_map_right_iff]
        exact hrest.imp fun _ _ hv => hv.1
      obtain ⟨q', hor⟩ := orCascade_spec q.ok prov (hev.1.mono q.grows) (hdones.mono q.grows)
      rw [← hw] at hsel q' hor
      refine ⟨?_, fallback, hsel.mono q'.grows⟩
      rw [List.any_cons]
      simpa [selectFirst, Function.comp_def] using hor

/-- The program returns these bits within `n` blocks. -/
def Returns (world : Externals) (blocks : BIrBlocks P) (n : ℕ) (x : List Bool) (σ : EvalState)
    (bits : List Bool) : Prop :=
  ∃ τ, runBlocks world blocks n (.running 0 x σ) = .returned bits τ

theorem Returns.unique {blocks : BIrBlocks P} {n : ℕ} {bits bits' : List Bool}
    (h : Returns world blocks n x σ bits) (h' : Returns world blocks n x σ bits') :
    bits = bits' := by
  obtain ⟨τ, hτ⟩ := h
  obtain ⟨τ', hτ'⟩ := h'
  rw [hτ] at hτ'
  injection hτ'

theorem circuit_returns {params : ℕ} {stmts : List (Node Stmt P)} {pre : List BIrPreInitSegment}
    {ret : List ℕ} {bits : List Bool} (hx : x.length = params)
    (hc : Carries world x σ (stmts.map Node.kind) ret bits) :
    Returns world ⟨[⟨params, stmts, .jmp ⟨.ret, ret⟩⟩], pre⟩ 1 x σ bits := by
  have hbits : bitsOf (runStmts world x σ (stmts.map Node.kind)).vals ret = bits := by
    unfold bitsOf
    induction hc with
    | nil => rfl
    | cons hv _ ih => rw [List.map_cons, ih, hv.2]
  refine ⟨(runStmts world x σ (stmts.map Node.kind)).st, ?_⟩
  simp only [runBlocks, stepBlock, List.getElem?_cons_zero, evalBlock, if_pos hx, evalTerminator,
    resolveTarget, Option.map_some, BIrBlock.kinds]
  rw [← hbits]
  rfl

theorem not_ret_of_not_circuit {blocks : BIrBlocks P} (hb : blocks.blocks = [b])
    (h : blocks.isCircuit = false) : ∀ args, b.terminator ≠ .jmp ⟨.ret, args⟩ := by
  rintro args hret
  obtain ⟨params, stmts, terminator⟩ := b
  obtain rfl : terminator = _ := hret
  simp [BIrBlocks.isCircuit, BIrBlocks.isMovfuscated, hb] at h

theorem carries_range (world : Externals) {x : List Bool} (σ : EvalState) {params : ℕ}
    (hx : x.length = params) : Carries world x σ [] (List.range params) x := by
  unfold Carries
  rw [List.forall₂_iff_get]
  refine ⟨by simp [hx], fun i h₁ h₂ => ?_⟩
  have hi : i < x.length := h₂
  simp [HasBit, runStmts, hi]

def retArgs (mode : LoweringMode) (done : ℕ) (gated : List ℕ) : List ℕ :=
  match mode with
  | .withTerminationFlag => done :: gated
  | .unconditional => gated

/-- The gates are emitted, with the overall flag and the first exit's result on the wires. -/
theorem emitCircuit_ok (h : StepProgram b) (hret : ∀ args, b.terminator ≠ .jmp ⟨.ret, args⟩)
    (prov : P) (limit : ℕ) :
    ∃ gated done e, emitCircuit b prov limit = .ok (gated, done, e) ∧
      ∀ (world : Externals) (x : List Bool) (σ : EvalState), x.length = b.params →
        HasBit world x σ e.kinds done ((trace (loopStep world b) limit (x, σ)).any Prod.fst) ∧
        ∃ fallback, Carries world x σ e.kinds gated
          (firstExit fallback (trace (loopStep world b) limit (x, σ))) := by
  have hunroll := fun (world : Externals) (x : List Bool) (σ : EvalState)
      (hx : x.length = b.params) =>
    unroll_ends (s := (x, σ)) h hret prov limit (Emitter.Ok.new world σ hx)
      (carries_range world σ hx) hx rfl
  obtain ⟨⟨exits, final, e⟩, hrun, -⟩ := (hunroll
    ⟨fun _ _ _ => false, fun _ _ _ _ => false, fun _ _ _ => false⟩
    (List.replicate b.params false) (.init .empty) List.length_replicate).exists_ok
      fun _ he => he.elim
  refine ⟨(selectFirst e prov exits final).1, (selectFirst e prov exits final).2.1,
    (selectFirst e prov exits final).2.2, ?_, fun world x σ hx => ?_⟩
  · rw [emitCircuit, hrun]
    rfl
  · obtain ⟨he, -, hexits, bits, -, hfinal⟩ := (hunroll world x σ hx).of_ok hrun
    exact selectFirst_spec he prov hexits (trace_width h.accepts hret hx) hfinal

/-- The parameters and the gates of the unrolled program, and the counter after them, are in
`u32`. -/
def LoweringFits (b : BIrBlock P) (limit : ℕ) (control : Option P) : Prop :=
  ∀ prov gated done e, ctrlProvOf b control = some prov →
    emitCircuit b prov limit = .ok (gated, done, e) → e.nextId ≤ u32Max

theorem lowerToCircuitImpl_eq {blocks : BIrBlocks P} (hb : blocks.blocks = [b])
    (hnc : blocks.isCircuit = false) {control : Option P} {prov : P}
    (hprov : ctrlProvOf b control = some prov) {limit : ℕ} {gated : List ℕ} {done : ℕ}
    {e : Emitter P} (hrun : emitCircuit b prov limit = .ok (gated, done, e))
    (mode : LoweringMode) :
    lowerToCircuitImpl blocks limit mode control =
      if u32Max < e.nextId then .error .panic
      else .ok ⟨[⟨b.params, e.stmts, .jmp ⟨.ret, retArgs mode done gated⟩⟩], blocks.preInit⟩ := by
  rw [lowerToCircuitImpl, hnc]
  simp only [Bool.false_eq_true, if_false, hb, hprov, expect, ok_bind, hrun]
  split_ifs <;> rfl

/-- Lowering succeeds when the ids fit, with the overall flag and the first exit's result on the
outputs. -/
theorem lower_ok {blocks : BIrBlocks P} (hb : blocks.blocks = [b]) (h : StepProgram b)
    (hnc : blocks.isCircuit = false) {control : Option P} (hprov : (ctrlProvOf b control).isSome)
    {limit : ℕ} (hfits : LoweringFits b limit control) :
    ∃ stmts done gated,
      (∀ mode, lowerToCircuitImpl blocks limit mode control =
        .ok ⟨[⟨b.params, stmts, .jmp ⟨.ret, retArgs mode done gated⟩⟩], blocks.preInit⟩) ∧
      ∀ (world : Externals) (x : List Bool) (σ : EvalState), x.length = b.params →
        HasBit world x σ (stmts.map Node.kind) done
          ((trace (loopStep world b) limit (x, σ)).any Prod.fst) ∧
        ∃ fallback, Carries world x σ (stmts.map Node.kind) gated
          (firstExit fallback (trace (loopStep world b) limit (x, σ))) := by
  obtain ⟨prov, hprov⟩ := Option.isSome_iff_exists.mp hprov
  obtain ⟨gated, done, e, hrun, heval⟩ :=
    emitCircuit_ok h (not_ret_of_not_circuit hb hnc) prov limit
  refine ⟨e.stmts, done, gated, fun mode => ?_, heval⟩
  rw [lowerToCircuitImpl_eq hb hnc hprov hrun mode,
    if_neg (Nat.not_lt.mpr (hfits prov gated done e hprov hrun))]

/-- With the flag the circuit returns `flag :: outs`, without it `outs`; the flag says
whether the program returns within the limit, and then `outs` is what it returns; the
boundaries describe both circuits. -/
def ExactLowering (blocks : BIrBlocks P) (params limit : ℕ) (control : Option P) : Prop :=
  ∃ flagged plain w,
    lowerToCircuitImpl blocks limit .withTerminationFlag control = .ok flagged ∧
    lowerToCircuitImpl blocks limit .unconditional control = .ok plain ∧
    skipBoundary flagged .withTerminationFlag = ⟨w, true⟩ ∧
    skipBoundary plain .unconditional = ⟨w, false⟩ ∧
    ∀ (world : Externals) (x : List Bool) (σ : EvalState), x.length = params →
      ∃ flag outs, outs.length = w ∧ Returns world flagged 1 x σ (flag :: outs) ∧
        Returns world plain 1 x σ outs ∧
        (flag = true ↔ ∃ r, Returns world blocks limit x σ r) ∧
        ∀ r, Returns world blocks limit x σ r → outs = r

end

def flipLoop : BIrBlocks Unit :=
  ⟨[⟨1, [.new (.not 0) ()], .condJmp 0 ⟨.ret, [0]⟩ ⟨.block 0, [1]⟩⟩], []⟩

theorem loweringFits_flipLoop :
    LoweringFits ⟨1, [.new (.not 0) ()], .condJmp 0 ⟨.ret, [0]⟩ ⟨.block 0, [1]⟩⟩ 3 none := by
  intro prov gated done e hprov hrun
  have hall : ((emitCircuit
      (⟨1, [.new (.not 0) ()], .condJmp 0 ⟨.ret, [0]⟩ ⟨.block 0, [1]⟩⟩ : BIrBlock Unit) () 3).map
        fun r => decide (r.2.2.nextId ≤ u32Max)) = .ok true := by decide +kernel
  rw [hrun] at hall
  exact of_decide_eq_true (Except.ok.inj hall)

end VolarIR.Circuit
