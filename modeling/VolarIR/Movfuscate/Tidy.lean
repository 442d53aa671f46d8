import VolarIR.Movfuscate.BoolarRuns

/-!
# The step circuit is in SSA order

Everything the step circuit is built from reads vars that were handed out before, so a
well-formed program of gates and reads is combined into one block of gates and reads whose
operands are defined before their use. Which vars an action may read and which it hands out
is all that is followed here.
-/
namespace VolarIR.Movfuscate
open Boolar Stateful DispatchBitPrimitives DispatchSlotPrimitives

def TermResult.vars (t : TermResult) : List ℕ :=
  t.done :: t.nextPcBits ++ t.nextState ++ t.retVals

namespace BIrCtx
variable {P : Type}

structure Neat (base : ℕ) (c : BIrCtx P) : Prop where
  nextId : c.nextId = base + c.kinds.length
  tidy : Boolar.Tidy base c.kinds

/-- Over the vars `ins` of a neat context, whatever the action returns is a neat context with
the vars `outs`. -/
def Tidies {α : Type} (base : ℕ) (ins : List ℕ) (m : Emit (BIrCtx P) α) (outs : α → List ℕ) :
    Prop :=
  ∀ c : BIrCtx P, c.Neat base → (∀ v ∈ ins, v < c.nextId) → ∀ a d, m.run c = some (a, d) →
    d.Neat base ∧ c.nextId ≤ d.nextId ∧ ∀ v ∈ outs a, v < d.nextId

variable {α β : Type} {base : ℕ} {ins : List ℕ} {outs : α → List ℕ}

theorem tidies_pure {a : α} (h : outs a ⊆ ins) : Tidies (P := P) base ins (pure a) outs := by
  intro c hc hins b d hrun
  cases hrun
  exact ⟨hc, le_rfl, fun v hv => hins v (h hv)⟩

theorem tidies_failure : Tidies (P := P) base ins failure outs := by
  intro c hc hins b d hrun
  cases hrun

theorem tidies_orPanic {o : Option α} (h : ∀ a ∈ o, outs a ⊆ ins) :
    Tidies (P := P) base ins (orPanic o) outs := by
  cases o with
  | none => exact tidies_failure
  | some a => exact tidies_pure (h a rfl)

theorem Tidies.bind {m : Emit (BIrCtx P) α} {k : α → Emit (BIrCtx P) β} {outs' : β → List ℕ}
    (h : Tidies base ins m outs) (hk : ∀ a, Tidies base (outs a ++ ins) (k a) outs') :
    Tidies base ins (m >>= k) outs' := by
  intro c hc hins b e hrun
  rw [StateT.run_bind] at hrun
  obtain ⟨⟨a, d⟩, hm, hrun⟩ := Option.bind_eq_some_iff.mp hrun
  obtain ⟨hd, hle, houts⟩ := h c hc hins a d hm
  have hins' : ∀ v ∈ outs a ++ ins, v < d.nextId :=
    List.forall_mem_append.mpr ⟨houts, fun v hv => (hins v hv).trans_le hle⟩
  obtain ⟨he, hle', houts'⟩ := hk a d hd hins' b e hrun
  exact ⟨he, hle.trans hle', houts'⟩

theorem Tidies.weaken {m : Emit (BIrCtx P) α} {ins' : List ℕ} (h : Tidies base ins m outs)
    (hsub : ins ⊆ ins') : Tidies base ins' m outs :=
  fun c hc hins => h c hc fun v hv => hins v (hsub hv)

theorem tidies_mapM {f : β → Emit (BIrCtx P) α} {xs : List β}
    (h : ∀ x ∈ xs, Tidies base ins (f x) outs) :
    Tidies base ins (xs.mapM f) fun ys => ys.flatMap outs := by
  induction xs with
  | nil => exact tidies_pure (List.nil_subset _)
  | cons x xs ih =>
      rw [List.mapM_cons]
      apply (h x List.mem_cons_self).bind
      intro y
      apply ((ih fun z hz => h z (List.mem_cons_of_mem x hz)).weaken
        (List.subset_append_right _ _)).bind
      intro ys
      apply tidies_pure
      simp

theorem tidies_foldlM {f : β → α → Emit (BIrCtx P) β} {outs : β → List ℕ} {xs : List α} {b : β}
    (hb : outs b ⊆ ins) (h : ∀ x ∈ xs, ∀ b, Tidies base (outs b ++ ins) (f b x) outs) :
    Tidies base ins (xs.foldlM f b) outs := by
  induction xs generalizing ins b with
  | nil => exact tidies_pure hb
  | cons x xs ih =>
      rw [List.foldlM_cons]
      apply ((h x List.mem_cons_self b).weaken
        (List.append_subset.mpr ⟨hb, List.Subset.refl _⟩)).bind
      intro b'
      apply ih (List.subset_append_left _ _)
      intro y hy b''
      exact (h y (List.mem_cons_of_mem x hy) b'').weaken (by simp)

theorem tidies_push {s : Stmt} (prov : P) (hs : s.isRead) (hops : s.operands ⊆ ins) :
    Tidies base ins (push s prov) fun v => [v] := by
  intro c hc hins v d hrun
  cases hrun
  have hlen : (c.pushed s prov).kinds = c.kinds ++ [s] := kinds_pushed c s prov
  refine ⟨⟨?_, ?_⟩, Nat.le_succ _, by simp [pushed]⟩
  · rw [hlen, List.length_append, ← Nat.add_assoc, ← hc.nextId]
    rfl
  · rw [hlen]
    exact hc.tidy.push hs fun v hv => hc.nextId ▸ hins v (hops hv)

theorem tidies_control {s : Stmt} (hs : s.isGate) (hops : s.operands ⊆ ins) :
    Tidies (P := P) base ins (pushControl s) fun v => [v] :=
  fun c => tidies_push c.ctrlProv (BIrStmt.isRead_of_isGate hs) hops c

theorem tidies_and {a b : ℕ} (ha : a ∈ ins) (hb : b ∈ ins) :
    Tidies (P := P) base ins (emitAndBit a b) fun v => [v] := by
  change Tidies base ins (if a = b then pure a else pushControl (.and a b)) _
  split
  · exact tidies_pure (by simpa using ha)
  · exact tidies_control rfl (by simp [BIrStmt.operands, ha, hb])

theorem tidies_xor {a b : ℕ} (ha : a ∈ ins) (hb : b ∈ ins) :
    Tidies (P := P) base ins (emitXorBit a b) fun v => [v] := by
  change Tidies base ins (if a = b then pushControl .zero else pushControl (.xor a b)) _
  split
  · exact tidies_control rfl (List.nil_subset _)
  · exact tidies_control rfl (by simp [BIrStmt.operands, ha, hb])

theorem tidies_not {a : ℕ} (ha : a ∈ ins) : Tidies (P := P) base ins (emitNot a) fun v => [v] :=
  tidies_control rfl (by simpa [BIrStmt.operands] using ha)

theorem tidies_zero : Tidies (P := P) base ins emitZeroBit fun v => [v] :=
  tidies_control rfl (List.nil_subset _)

theorem tidies_one : Tidies (P := P) base ins emitOneBit fun v => [v] :=
  tidies_control rfl (List.nil_subset _)

theorem tidies_selectBit {cond a b : ℕ} (hc : cond ∈ ins) (ha : a ∈ ins) (hb : b ∈ ins) :
    Tidies (P := P) base ins (emitSelectBit cond a b) fun v => [v] := by
  apply (tidies_xor ha hb).bind
  intro xab
  apply (tidies_and (by simp [hc]) (by simp)).bind
  intro sel
  exact tidies_xor (by simp) (by simp [hb])

theorem tidies_pcBit {v : ℕ} (hv : v ∈ ins) (i j : ℕ) :
    Tidies (P := P) base ins (emitPcBit v i j) fun v => [v] := by
  unfold emitPcBit
  split
  · exact tidies_pure (by simpa using hv)
  · exact tidies_not hv

theorem tidies_isBlockFrom {acc i j : ℕ} {vs : List ℕ} (hacc : acc ∈ ins) (hvs : vs ⊆ ins) :
    Tidies (P := P) base ins (emitIsBlockFrom i j acc vs) fun v => [v] := by
  induction vs generalizing acc ins j with
  | nil => exact tidies_pure (by simpa using hacc)
  | cons v vs ih =>
      rw [List.cons_subset] at hvs
      apply (tidies_pcBit hvs.1 i j).bind
      intro bit
      apply (tidies_and (by simp [hacc]) (by simp)).bind
      intro acc'
      exact ih (by simp) (by grind)

theorem tidies_isBlock {i : ℕ} {vs : List ℕ} (hvs : vs ⊆ ins) :
    Tidies (P := P) base ins (emitIsBlock vs i) fun v => [v] := by
  cases vs with
  | nil => exact tidies_one
  | cons v vs =>
      rw [List.cons_subset] at hvs
      apply (tidies_pcBit hvs.1 i 0).bind
      intro bit
      exact tidies_isBlockFrom (by simp) (by grind)

theorem tidies_vars {f : β → Emit (BIrCtx P) ℕ} {xs : List β}
    (h : ∀ x ∈ xs, Tidies base ins (f x) fun v => [v]) :
    Tidies base ins (xs.mapM f) fun vs => vs := by
  simpa using tidies_mapM h

theorem tidies_encode (i width : ℕ) :
    Tidies (P := P) base ins (encodePcBits i width) fun vs => vs := by
  apply tidies_vars
  intro j _
  split
  · exact tidies_one
  · exact tidies_zero

theorem tidies_zeros (n : ℕ) : Tidies (P := P) base ins (emitZeros n) fun vs => vs :=
  tidies_vars fun _ _ => tidies_zero

theorem tidies_lookups {vals : List ℕ} (args : List ℕ) (hvals : vals ⊆ ins) :
    Tidies (P := P) base ins (lookups vals args) fun vs => vs := by
  apply tidies_vars
  intro a _
  apply tidies_orPanic
  intro v hv
  simpa using hvals (List.mem_of_getElem? hv)

theorem tidies_target (t : BIrTarget ℕ) {vals : List ℕ} (hvals : vals ⊆ ins)
    (pcWidth stateWidth retWidth : ℕ) :
    Tidies (P := P) base ins (processBiirTarget t vals pcWidth stateWidth retWidth)
      TermResult.vars := by
  unfold processBiirTarget
  cases t.block with
  | ret =>
      apply tidies_one.bind
      intro done
      apply (tidies_encode 0 pcWidth).bind
      intro nextPc
      apply (tidies_zeros stateWidth).bind
      intro nextState
      apply (tidies_lookups t.args (by grind)).bind
      intro ret
      apply (tidies_zeros (retWidth - ret.length)).bind
      intro padding
      exact tidies_pure (by grind [TermResult.vars])
  | block j =>
      apply tidies_zero.bind
      intro done
      apply (tidies_encode j pcWidth).bind
      intro nextPc
      apply (tidies_lookups t.args (by grind)).bind
      intro nextState
      apply (tidies_zeros (stateWidth - nextState.length)).bind
      intro padding
      apply (tidies_zeros retWidth).bind
      intro ret
      exact tidies_pure (by grind [TermResult.vars])
  | dyn v => exact tidies_failure

theorem tidies_selectBits {cond : ℕ} (n : ℕ) {ts es : List ℕ} (hc : cond ∈ ins) (ht : ts ⊆ ins)
    (he : es ⊆ ins) : Tidies (P := P) base ins (emitSelectBits cond n ts es) fun vs => vs := by
  induction n generalizing ins ts es with
  | zero => exact tidies_pure (List.nil_subset _)
  | succ n ih =>
      cases ts with
      | nil => exact tidies_failure
      | cons t ts =>
          cases es with
          | nil => exact tidies_failure
          | cons e es =>
              rw [List.cons_subset] at ht he
              apply (tidies_selectBit hc ht.1 he.1).bind
              intro v
              apply (ih (by simp [hc]) (by grind) (by grind)).bind
              intro vs
              exact tidies_pure (by grind)

theorem tidies_selectResults {cond : ℕ} {t e : TermResult} (hc : cond ∈ ins) (ht : t.vars ⊆ ins)
    (he : e.vars ⊆ ins) (pcWidth stateWidth retWidth : ℕ) :
    Tidies (P := P) base ins (emitSelectResults cond pcWidth stateWidth retWidth t e)
      TermResult.vars := by
  unfold TermResult.vars at ht he
  apply (tidies_selectBit hc (by grind) (by grind)).bind
  intro done
  apply (tidies_selectBits pcWidth (by grind) (by grind) (by grind)).bind
  intro nextPc
  apply (tidies_selectBits stateWidth (by grind) (by grind) (by grind)).bind
  intro nextState
  apply (tidies_selectBits retWidth (by grind) (by grind) (by grind)).bind
  intro ret
  exact tidies_pure (by grind [TermResult.vars])

theorem tidies_terminator (t : BIrTerminator ℕ) {vals : List ℕ} (hvals : vals ⊆ ins)
    (pcWidth stateWidth retWidth : ℕ) :
    Tidies (P := P) base ins (emitTerminator t vals pcWidth stateWidth retWidth)
      TermResult.vars := by
  cases t with
  | jmp target => exact tidies_target target hvals pcWidth stateWidth retWidth
  | condJmp val thenTarget elseTarget =>
      have hcond : Tidies (P := P) base ins (orPanic vals[val]?) fun v => [v] := by
        apply tidies_orPanic
        intro v hv
        simpa using hvals (List.mem_of_getElem? hv)
      apply hcond.bind
      intro cond
      apply (tidies_target thenTarget (by grind) pcWidth stateWidth retWidth).bind
      intro t
      apply (tidies_target elseTarget (by grind) pcWidth stateWidth retWidth).bind
      intro e
      exact tidies_selectResults (by grind) (by grind) (by grind) pcWidth stateWidth retWidth

theorem tidies_stmts {varMap : List ℕ} {stmts : List (Node Stmt P)}
    (hdef : Defined varMap.length (stmts.map Node.kind))
    (hread : ∀ s ∈ stmts.map Node.kind, s.isRead) (hsub : varMap ⊆ ins) :
    Tidies base ins (stmts.foldlM emitStmt varMap) fun vs => vs := by
  induction stmts generalizing ins varMap with
  | nil => exact tidies_pure hsub
  | cons stmt stmts ih =>
      rw [List.map_cons, List.forall_mem_cons] at hread
      rw [List.foldlM_cons, emitStmt, substBiir_eq_some hdef.1, orPanic_some, pure_bind, bind_assoc]
      apply (tidies_push stmt.prov ((BIrStmt.isRead_mapVars _ _).trans hread.1)
        (List.Subset.trans (operands_renamed hdef.1) hsub)).bind
      intro id
      rw [pure_bind]
      apply ih
      · rw [List.length_append]
        exact hdef.2
      · exact hread.2
      · grind

variable {blocks : BIrBlocks P}

theorem tidies_accumulateBits {isActive : ℕ} {accs bits : List ℕ} (hx : isActive ∈ ins)
    (ha : accs ⊆ ins) (hb : bits ⊆ ins) :
    Tidies (P := P) base ins (accumulateBits isActive accs bits) fun vs => vs := by
  induction accs generalizing ins bits with
  | nil => exact tidies_pure (List.nil_subset _)
  | cons acc accs ih =>
      cases bits with
      | nil => exact tidies_failure
      | cons bit bits =>
          rw [List.cons_subset] at ha hb
          apply (tidies_and hx hb.1).bind
          intro g
          apply (tidies_xor (by simp [ha.1]) (by simp)).bind
          intro acc'
          apply (ih (by simp [hx]) (by grind) (by grind)).bind
          intro accs'
          exact tidies_pure (by grind)

theorem tidies_accumulateState {isActive : ℕ} {tys : List Unit} {stateVars accs nexts : List ℕ}
    (hx : isActive ∈ ins) (hs : stateVars ⊆ ins) (ha : accs ⊆ ins) (hn : nexts ⊆ ins) :
    Tidies (P := P) base ins (accumulateState isActive tys stateVars accs nexts) fun vs => vs := by
  induction tys generalizing ins stateVars accs nexts with
  | nil => exact tidies_pure (List.nil_subset _)
  | cons ty tys ih =>
      match stateVars, accs, nexts with
      | [], _, _ | _ :: _, [], _ | _ :: _, _ :: _, [] => exact tidies_failure
      | stateVar :: stateVars, acc :: accs, next :: nexts =>
          rw [List.cons_subset] at hs ha hn
          have hslot : Tidies (P := P) base ins (accumulateSlot isActive ty stateVar acc next)
              fun v => [v] := by
            unfold accumulateSlot
            split
            · exact tidies_pure (by simpa using ha.1)
            · apply (tidies_xor hn.1 hs.1).bind
              intro diff
              apply (tidies_and (by simp [hx]) (by simp)).bind
              intro g
              exact tidies_xor (by simp [ha.1]) (by simp)
          apply hslot.bind
          intro acc'
          apply (ih (by simp [hx]) (by grind) (by grind) (by grind)).bind
          intro accs'
          exact tidies_pure (by grind)

theorem tidies_accumulateReturns {isActive : ℕ} {tys : List Unit} {accs vals : List ℕ}
    (hx : isActive ∈ ins) (ha : accs ⊆ ins) (hv : vals ⊆ ins) :
    Tidies (P := P) base ins (accumulateReturns isActive tys accs vals) fun vs => vs := by
  induction tys generalizing ins accs vals with
  | nil => exact tidies_pure (List.nil_subset _)
  | cons ty tys ih =>
      match accs, vals with
      | [], _ | _ :: _, [] => exact tidies_failure
      | acc :: accs, val :: vals =>
          rw [List.cons_subset] at ha hv
          apply (tidies_and hx hv.1).bind
          intro g
          apply (tidies_xor (by simp [ha.1]) (by simp)).bind
          intro acc'
          apply (ih (by simp [hx]) (by grind) (by grind)).bind
          intro accs'
          exact tidies_pure (by grind)

theorem tidies_accumulate {stateVars : List ℕ} {tys rets : List Unit} {acc : TermResult}
    {br : BlockResult} (hs : stateVars ⊆ ins) (ha : acc.vars ⊆ ins) (hx : br.isActive ∈ ins)
    (ht : br.term.vars ⊆ ins) :
    Tidies (P := P) base ins (accumulate stateVars tys rets acc br) TermResult.vars := by
  unfold TermResult.vars at ha ht
  apply (tidies_and hx (by grind)).bind
  intro g
  apply (tidies_xor (by grind) (by grind)).bind
  intro done
  apply (tidies_accumulateBits (by grind) (by grind) (by grind)).bind
  intro nextPc
  apply (tidies_accumulateState (by grind) (by grind) (by grind) (by grind)).bind
  intro nextState
  apply (tidies_accumulateReturns (by grind) (by grind) (by grind)).bind
  intro ret
  exact tidies_pure (by grind [TermResult.vars])

theorem tidies_block (hwf : ∀ b ∈ blocks.blocks, b.WellFormed)
    (hread : ∀ b ∈ blocks.blocks, ∀ s ∈ b.kinds, s.isRead) {stateVars : List ℕ} {pcWidth : ℕ}
    (hpc : List.range pcWidth ⊆ ins) (hs : stateVars ⊆ ins) (tys rets : List Unit) (i : ℕ) :
    Tidies base ins (emitBlock blocks pcWidth stateVars tys rets i : Emit (BIrCtx P) BlockResult)
      fun br => br.isActive :: br.term.vars := by
  apply (tidies_isBlock hpc).bind
  intro isActive
  cases hb : blocks.blocks[i]? with
  | none =>
      change Tidies base _ ((orPanic blocks.blocks[i]? >>= _) >>= _) _
      rw [hb]
      intro c _ _ a d hrun
      cases hrun
  | some b =>
      have hmem := List.mem_of_getElem? hb
      have hstmts : Tidies base (isActive :: ins)
          (MovfuscCtx.emitBlockStmts blocks i stateVars isActive : Emit (BIrCtx P) (List ℕ))
          fun vs => vs := by
        change Tidies base _ (do
          let block ← orPanic blocks.blocks[i]?
          let params ← orPanic (prefixVars block.params stateVars)
          block.stmts.foldlM emitStmt params) _
        rw [hb, orPanic_some, pure_bind, prefixVars]
        split
        · next hle =>
            have htake := List.Subset.trans (List.take_subset b.params stateVars) hs
            rw [orPanic_some, pure_bind]
            apply tidies_stmts _ (hread b hmem) (by grind)
            rw [List.length_take, Nat.min_eq_left hle]
            exact (hwf b hmem).1
        · exact tidies_failure
      apply hstmts.bind
      intro vals
      have hterm : Tidies base (vals ++ isActive :: ins)
          (MovfuscCtx.emitBlockTerminator blocks i vals pcWidth tys rets :
            Emit (BIrCtx P) TermResult) TermResult.vars := by
        change Tidies base _ (do
          let block ← orPanic blocks.blocks[i]?
          emitTerminator block.terminator vals pcWidth tys.length rets.length) _
        rw [hb, orPanic_some, pure_bind]
        exact tidies_terminator b.terminator (by grind) pcWidth tys.length rets.length
      apply hterm.bind
      intro t
      exact tidies_pure (by grind)

theorem tidies_step (hwf : ∀ b ∈ blocks.blocks, b.WellFormed)
    (hread : ∀ b ∈ blocks.blocks, ∀ s ∈ b.kinds, s.isRead)
    (hpc : List.range (pcBitsNeeded blocks.blocks.length) ⊆ ins)
    (hs : List.range' (pcBitsNeeded blocks.blocks.length) blocks.stateWidth ⊆ ins) :
    Tidies base ins (emitBoolarStep blocks) TermResult.vars := by
  rw [← List.length_replicate (n := blocks.stateWidth) (a := ())] at hs
  apply tidies_zero.bind
  intro bitZero
  apply (tidies_mapM fun i _ => tidies_block hwf hread (by grind) (by grind) _ _ i).bind
  intro results
  apply (tidies_vars fun _ _ => tidies_zero).bind
  intro rets
  apply tidies_foldlM
  · grind [TermResult.vars]
  · intro br hbr acc
    have hvars :
        br.isActive :: br.term.vars ⊆ results.flatMap fun br => br.isActive :: br.term.vars :=
      fun v hv => List.mem_flatMap.mpr ⟨br, hbr, hv⟩
    apply tidies_accumulate <;> grind

end BIrCtx

end VolarIR.Movfuscate
