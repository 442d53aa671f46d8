import VolarIR.Movfuscate.Boolar
import VolarIR.Boolar.Eval
import VolarIR.Circuit.Emission

/-!
# What the Boolar step circuit computes

The vars emitted hold the bits they are meant to hold. A block is copied over its slots
and so computes what it computes in the source from the same bits, active or not: its
statements read the storage, and never change it.
-/
namespace VolarIR.Movfuscate
open Boolar Stateful DispatchBitPrimitives DispatchSlotPrimitives Circuit

namespace BIrCtx
variable {P : Type}

@[simp] theorem kinds_pushed (c : BIrCtx P) (s : Stmt) (p : P) :
    (c.pushed s p).kinds = c.kinds ++ [s] := by
  simp [kinds, pushed, Node.new]

section
variable (world : Externals) (x : List Bool) (σ : EvalState)

def Ok (c : BIrCtx P) : Prop := c.nextId = x.length + c.kinds.length

structure Quiet (c d : BIrCtx P) : Prop where
  ok : d.Ok x
  grows : c.kinds <+: d.kinds
  st : (runStmts world x σ d.kinds).st = (runStmts world x σ c.kinds).st

/-- The statements emitted so far are run from the combined block's parameters `x`. -/
def reading : Reading (BIrCtx P) Unit Bool where
  ok c := c.Ok x
  bit c v b := HasBit world x σ c.kinds v b
  slot c _ v b := HasBit world x σ c.kinds v b
  fits _ := True
  grows c d := c.kinds <+: d.kinds
  quiet c d := Quiet world x σ c d
  zero _ := false
  add _ a b := a ^^ b

end

section
variable {world : Externals} {x : List Bool} {σ : EvalState} {c : BIrCtx P}

theorem pushControl_ensures {s : Stmt} {b : Bool} (hc : c.Ok x) (hs : s.isGate)
    (hb : (evalStmt world σ (s.mapVars (look (runStmts world x σ c.kinds).vals))).1.bit = b) :
    Ensures (pushControl s) c fun v d => Quiet world x σ c d ∧ HasBit world x σ d.kinds v b := by
  apply ensures_modifyGet
  have hk : (c.pushed s c.ctrlProv).kinds = c.kinds ++ [s] := kinds_pushed ..
  have hrun : runStmts world x σ (c.kinds ++ [s]) =
      ⟨(runStmts world x σ c.kinds).vals ++
        [(evalStmt world σ (s.mapVars (look (runStmts world x σ c.kinds).vals))).1],
        (runStmts world x σ c.kinds).st⟩ := by
    rw [runStmts_concat, stepStmt, evalStmt_gate hs]
  have hid : c.nextId = (runStmts world x σ c.kinds).vals.length := by
    rw [runStmts_length]
    exact hc
  constructor
  · refine ⟨?_, ?_, ?_⟩
    · rw [Ok, hk, List.length_append, List.length_singleton, ← Nat.add_assoc, ← hc]
      rfl
    · rw [hk]
      exact List.prefix_append _ _
    · rw [hk, hrun]
  · rw [hk]
    constructor
    · rw [hc, List.length_append, List.length_singleton]
      omega
    · rw [hrun, hid, look_append_length]
      exact hb

theorem hasBit_unique {ks : List Stmt} {v : ℕ} {a b : Bool} (ha : HasBit world x σ ks v a)
    (hb : HasBit world x σ ks v b) : a = b := ha.2.symm.trans hb.2

theorem Quiet.refl (hc : c.Ok x) : Quiet world x σ c c := ⟨hc, List.prefix_refl _, rfl⟩

theorem Quiet.trans {d e : BIrCtx P} (h : Quiet world x σ c d) (h' : Quiet world x σ d e) :
    Quiet world x σ c e := ⟨h'.ok, h.grows.trans h'.grows, h'.st.trans h.st⟩

theorem andBit_ensures {a b : ℕ} {y z : Bool} (hc : c.Ok x)
    (ha : HasBit world x σ c.kinds a y) (hb : HasBit world x σ c.kinds b z) :
    Ensures (emitAndBit a b) c fun v d =>
      Quiet world x σ c d ∧ HasBit world x σ d.kinds v (y && z) := by
  change Ensures (if a = b then pure a else pushControl (.and a b)) c _
  split
  · next heq =>
      subst heq
      rw [ensures_pure, hasBit_unique hb ha, Bool.and_self]
      exact ⟨Quiet.refl hc, ha⟩
  · apply pushControl_ensures hc rfl
    simp only [BIrStmt.mapVars, evalStmt, ha.2, hb.2]

theorem xorBit_ensures {a b : ℕ} {y z : Bool} (hc : c.Ok x)
    (ha : HasBit world x σ c.kinds a y) (hb : HasBit world x σ c.kinds b z) :
    Ensures (emitXorBit a b) c fun v d =>
      Quiet world x σ c d ∧ HasBit world x σ d.kinds v (y ^^ z) := by
  change Ensures (if a = b then pushControl .zero else pushControl (.xor a b)) c _
  split
  · next heq =>
      subst heq
      rw [hasBit_unique hb ha, Bool.xor_self]
      exact pushControl_ensures hc rfl rfl
  · apply pushControl_ensures hc rfl
    simp only [BIrStmt.mapVars, evalStmt, ha.2, hb.2]

theorem reading_lawful : (reading world x σ : Reading (BIrCtx P) Unit Bool).Lawful where
  grows_refl c := List.prefix_refl _
  grows_trans h h' := h.trans h'
  quiet_refl hc := Quiet.refl hc
  quiet_trans h h' := h.trans h'
  quiet_grows h := h.grows
  quiet_ok h := h.ok
  bit_mono hg hv := hv.mono hg
  slot_mono hg hv := hv.mono hg
  slot_unique ha hb := hasBit_unique ha hb
  add_zero _ := Bool.xor_false _
  zero_add _ := Bool.false_xor _
  add_cancel _ _ := by simp [reading]
  cancel_add _ _ := by simp [reading, Bool.xor_comm]
  zeroBit hc := pushControl_ensures hc rfl rfl
  oneBit hc := pushControl_ensures hc rfl rfl
  andBit hc ha hb := andBit_ensures hc ha hb
  xorBit hc ha hb := xorBit_ensures hc ha hb
  notBit hc ha := pushControl_ensures hc rfl (by simp only [BIrStmt.mapVars, evalStmt, ha.2])
  zeroSlot _ hc := pushControl_ensures hc rfl rfl
  gate {c a v ty y z} hc ha hv := by
    have hmux : (y && z) = if y then z else false := by cases y <;> rfl
    have hand := andBit_ensures hc ha hv
    rwa [hmux] at hand
  fieldAdd hc ha hb := xorBit_ensures hc ha hb

theorem slots_iff {vs : List ℕ} {bs : List Bool} {n : ℕ} :
    (reading world x σ).slots c (List.replicate n ()) vs bs ↔
      Carries world x σ c.kinds vs bs ∧ bs.length = n := by
  induction n generalizing vs bs with
  | zero =>
      cases vs with
      | nil =>
          cases bs with
          | nil => simp [Reading.slots, Carries]
          | cons b bs => simp [Reading.slots, Carries]
      | cons v vs => simp [Reading.slots, Carries]; rintro ⟨⟩; simp
  | succ n ih =>
      cases vs with
      | nil => cases bs <;> simp [Reading.slots, List.replicate_succ, Carries]
      | cons v vs =>
          cases bs with
          | nil => simp [Reading.slots, List.replicate_succ]
          | cons b bs =>
              rw [List.replicate_succ, Reading.slots, ih, Carries, List.forall₂_cons, and_assoc,
                List.length_cons, Nat.add_right_cancel_iff]
              rfl

abbrev Copied (world : Externals) (x : List Bool) (σ : EvalState) (ks : List Stmt)
    (varMap : List ℕ) (f : Frame) : Prop := Renamed world x σ (fun _ => True) ks varMap f

theorem substBiir_eq_some {stmt : Stmt} {varMap : List ℕ}
    (h : ∀ v ∈ stmt.operands, v < varMap.length) :
    substBiir stmt varMap = some (stmt.mapVars fun v => varMap.getD v 0) := by
  apply BIrStmt.map_eq_pure
  intro v hv
  rw [List.getD_eq_getElem _ _ (h v hv), List.getElem?_eq_getElem (h v hv)]
  rfl

theorem emitStmt_ensures {varMap : List ℕ} {f : Frame} {stmt : Node Stmt P} (hc : c.Ok x)
    (h : Copied world x σ c.kinds varMap f) (hop : ∀ v ∈ stmt.kind.operands, v < varMap.length) :
    Ensures (emitStmt varMap stmt) c fun vs d =>
      d.Ok x ∧ c.kinds <+: d.kinds ∧
        Copied world x σ d.kinds vs (stepStmt world f stmt.kind) := by
  unfold emitStmt
  rw [substBiir_eq_some hop, orPanic_some, pure_bind]
  apply Ensures.bind (ensures_modifyGet _ ⟨rfl, rfl⟩ : Ensures (push _ stmt.prov) c fun v d =>
    v = c.nextId ∧ d = c.pushed (stmt.kind.mapVars fun v => varMap.getD v 0) stmt.prov)
  rintro id d ⟨rfl, rfl⟩
  rw [ensures_pure]
  have hk := kinds_pushed c (stmt.kind.mapVars fun v => varMap.getD v 0) stmt.prov
  refine ⟨?_, ?_, ?_⟩
  · rw [Ok, hk, List.length_append, List.length_singleton, ← Nat.add_assoc, ← hc]
    rfl
  · rw [hk]
    exact List.prefix_append _ _
  · rw [hk, hc]
    exact h.emit hop fun _ _ => trivial

theorem emitStmts_ensures {varMap : List ℕ} {f : Frame} {stmts : List (Node Stmt P)}
    (hc : c.Ok x) (h : Copied world x σ c.kinds varMap f)
    (hdef : Defined f.vals.length (stmts.map Node.kind)) :
    Ensures (stmts.foldlM emitStmt varMap) c fun vs d =>
      d.Ok x ∧ c.kinds <+: d.kinds ∧
        Copied world x σ d.kinds vs (evalStmts world f (stmts.map Node.kind)) := by
  induction stmts generalizing c varMap f with
  | nil =>
      rw [List.foldlM_nil, ensures_pure]
      exact ⟨hc, List.prefix_refl _, h⟩
  | cons stmt stmts ih =>
      rw [List.foldlM_cons]
      apply (emitStmt_ensures hc h fun v hv => h.length ▸ hdef.1 v hv).bind
      intro vs d ⟨hokd, hgd, hd⟩
      have hrest := hdef.2
      rw [← stepStmt_length world f stmt.kind] at hrest
      apply (ih hokd hd hrest).mono
      intro vs' e ⟨hoke, hge, he⟩
      exact ⟨hoke, hgd.trans hge, he⟩

theorem carries_params (world : Externals) (pre bits post : List Bool) (σ : EvalState)
    (ks : List Stmt) :
    Carries world (pre ++ (bits ++ post)) σ ks (List.range' pre.length bits.length) bits := by
  unfold Carries
  rw [List.forall₂_iff_get]
  refine ⟨List.length_range', fun i h₁ h₂ => ?_⟩
  have hi : i < bits.length := h₂
  have hvar : (List.range' pre.length bits.length).get ⟨i, h₁⟩ = pre.length + i := by simp
  rw [hvar]
  have hin : pre.length + i < (paramValues (pre ++ (bits ++ post))).length := by
    rw [paramValues_length, List.length_append, List.length_append]
    omega
  constructor
  · rw [List.length_append, List.length_append]
    omega
  · rw [runStmts, evalStmts_look hin, look_paramValues, List.getD_append_right _ _ _ _ (by omega),
      Nat.add_sub_cancel_left, List.getD_append _ _ _ _ hi, List.getD_eq_getElem _ _ hi,
      List.get_eq_getElem]

theorem copied_params {pc state : List Bool} {p : ℕ} (hp : p ≤ state.length) (ks : List Stmt) :
    Copied world (pc ++ state) σ ks ((List.range' pc.length state.length).take p)
      ⟨paramValues (state.take p), (runStmts world (pc ++ state) σ ks).st⟩ := by
  have hlen : ((List.range' pc.length state.length).take p).length = p := by
    rw [List.length_take, List.length_range', Nat.min_eq_left hp]
  have hvar : ∀ v < p, ((List.range' pc.length state.length).take p).getD v 0 = pc.length + v := by
    intro v hv
    rw [List.getD_eq_getElem _ _ (by omega), List.getElem_take, List.getElem_range', Nat.one_mul]
  have hlook : ∀ v < p, look (runStmts world (pc ++ state) σ ks).vals (pc.length + v) =
      look (paramValues (state.take p)) v := by
    intro v hv
    have hin : pc.length + v < (paramValues (pc ++ state)).length := by
      rw [paramValues_length, List.length_append]
      omega
    rw [runStmts, evalStmts_look hin, look_paramValues, look_paramValues]
    congr 1
    rw [List.getD_append_right _ _ _ _ (Nat.le_add_right _ _), Nat.add_sub_cancel_left,
      List.getD_eq_getElem _ _ (by omega), List.getD_eq_getElem _ _ (by
        rw [List.length_take]
        omega), List.getElem_take]
  refine ⟨?_, ?_, ?_, ?_, rfl⟩
  · rw [hlen, paramValues_length, List.length_take, Nat.min_eq_left hp]
  · intro v hv
    rw [hlen] at hv
    rw [hvar v hv, List.length_append]
    omega
  · intro v hv
    rw [hlen] at hv
    rw [hvar v hv, hlook v hv]
  · intro v hv _
    rw [hlen] at hv
    rw [hvar v hv, hlook v hv]

variable (world σ) in
/-- Copying a block computes what the block computes from the same bits. -/
theorem emitBlockStmts_ensures {blocks : BIrBlocks P} {pc state : List Bool} {i : ℕ}
    (isActive : ℕ) {b : BIrBlock P} (hb : blocks.blocks[i]? = some b) (hwf : b.WellFormed)
    (hp : b.params ≤ state.length) (hc : c.Ok (pc ++ state)) :
    Ensures (MovfuscCtx.emitBlockStmts blocks i (List.range' pc.length state.length) isActive) c
      fun vs d => d.Ok (pc ++ state) ∧ c.kinds <+: d.kinds ∧
        Copied world (pc ++ state) σ d.kinds vs (evalStmts world
          ⟨paramValues (state.take b.params), (runStmts world (pc ++ state) σ c.kinds).st⟩
          b.kinds) := by
  have hprefix : prefixVars b.params (List.range' pc.length state.length) =
      some ((List.range' pc.length state.length).take b.params) := by
    rw [prefixVars, if_pos (by rw [List.length_range']; exact hp)]
  change Ensures (do
    let block ← orPanic blocks.blocks[i]?
    let params ← orPanic (prefixVars block.params (List.range' pc.length state.length))
    block.stmts.foldlM emitStmt params) c _
  rw [hb, orPanic_some, pure_bind, hprefix, orPanic_some, pure_bind]
  apply emitStmts_ensures hc (copied_params hp c.kinds)
  rw [paramValues_length, List.length_take, Nat.min_eq_left hp]
  exact hwf.1

/-- What a block that ends so hands to the sums, padded to the shared widths. -/
def stepResult (pcWidth stateWidth retWidth : ℕ) : Boolar.BlockResult → StepResult Bool
  | .ret bits =>
      ⟨true, (List.range pcWidth).map (0 : ℕ).testBit, List.replicate stateWidth false,
        bits ++ List.replicate (retWidth - bits.length) false⟩
  | .jump j args =>
      ⟨false, (List.range pcWidth).map j.testBit,
        args ++ List.replicate (stateWidth - args.length) false, List.replicate retWidth false⟩

abbrev Delivers (world : Externals) (x : List Bool) (σ : EvalState) (c : BIrCtx P)
    (pcWidth stateWidth retWidth : ℕ) (t : TermResult) (m : StepResult Bool) : Prop :=
  (reading world x σ).Holds c pcWidth (List.replicate stateWidth ()) (List.replicate retWidth ())
    t m

variable (world σ) in
theorem emitZeros_ensures (hc : c.Ok x) (n : ℕ) :
    Ensures (emitZeros n) c fun vs d =>
      Quiet world x σ c d ∧ Carries world x σ d.kinds vs (List.replicate n false) := by
  apply ensures_mapM_range fun n vs d =>
    Quiet world x σ c d ∧ Carries world x σ d.kinds vs (List.replicate n false)
  · exact ⟨Quiet.refl hc, .nil⟩
  · intro i _ vs d ⟨hqd, hvs⟩
    have hzero := (reading_lawful : (reading world x σ).Lawful).zeroBit hqd.ok
    apply hzero.mono
    intro v e ⟨hqe, hv⟩
    refine ⟨hqd.trans hqe, ?_⟩
    rw [List.replicate_succ']
    exact List.rel_append (hvs.mono hqe.grows) (.cons hv .nil)

def argBits (f : Frame) (args : List ℕ) : List Bool := args.map fun v => (look f.vals v).bit

theorem lookups_ensures {vals args : List ℕ} {f : Frame}
    (h : Copied world x σ c.kinds vals f) (hargs : ∀ v ∈ args, v < vals.length) :
    Ensures (lookups vals args) c fun vs d =>
      d = c ∧ Carries world x σ c.kinds vs (argBits f args) := by
  unfold lookups
  induction args with
  | nil =>
      rw [List.mapM_nil, ensures_pure]
      exact ⟨rfl, .nil⟩
  | cons a args ih =>
      have ha := hargs a List.mem_cons_self
      rw [List.mapM_cons, List.getElem?_eq_getElem ha, orPanic_some, pure_bind]
      apply (ih fun v hv => hargs v (List.mem_cons_of_mem a hv)).bind
      rintro vs d ⟨rfl, hvs⟩
      rw [ensures_pure]
      have hbit := h.bit a ha
      have hdef := h.defined a ha
      rw [List.getD_eq_getElem _ _ ha] at hbit hdef
      exact ⟨rfl, .cons ⟨hdef, hbit⟩ hvs⟩

theorem slots_padded {vs zs : List ℕ} {bs : List Bool} {n : ℕ}
    (hv : Carries world x σ c.kinds vs bs) (hlen : bs.length ≤ n)
    (hz : Carries world x σ c.kinds zs (List.replicate (n - vs.length) false)) :
    (reading world x σ).slots c (List.replicate n ()) (vs ++ zs)
      (bs ++ List.replicate (n - bs.length) false) := by
  have hvlen : vs.length = bs.length := List.Forall₂.length_eq hv
  rw [hvlen] at hz
  rw [slots_iff]
  refine ⟨List.rel_append hv hz, ?_⟩
  rw [List.length_append, List.length_replicate]
  omega

theorem slots_zeros {vs : List ℕ} {n : ℕ}
    (hv : Carries world x σ c.kinds vs (List.replicate n false)) :
    (reading world x σ).slots c (List.replicate n ()) vs (List.replicate n false) :=
  slots_iff.mpr ⟨hv, List.length_replicate⟩

def Fits (stateWidth retWidth : ℕ) (t : BIrTarget ℕ) : Prop :=
  match t.block with
  | .ret => t.args.length ≤ retWidth
  | _ => t.args.length ≤ stateWidth

theorem processBiirTarget_ensures {t : BIrTarget ℕ} {vals : List ℕ} {f : Frame}
    {pcWidth stateWidth retWidth : ℕ} {r : Boolar.BlockResult} (hc : c.Ok x)
    (h : Copied world x σ c.kinds vals f) (hargs : ∀ v ∈ t.args, v < vals.length)
    (hfits : Fits stateWidth retWidth t) (hr : resolveTarget f.vals t = some r) :
    Ensures (processBiirTarget t vals pcWidth stateWidth retWidth) c fun out d =>
      Quiet world x σ c d ∧ Delivers world x σ d pcWidth stateWidth retWidth out
        (stepResult pcWidth stateWidth retWidth r) := by
  have hlaw : (reading world x σ : Reading (BIrCtx P) Unit Bool).Lawful := reading_lawful
  obtain ⟨dest, args⟩ := t
  cases dest with
  | ret =>
      cases hr
      unfold processBiirTarget
      apply (hlaw.oneBit hc).bind
      intro done d ⟨hqd, hdone⟩
      apply (hlaw.encode hqd.ok 0 pcWidth).bind
      intro nextPc e ⟨hqe, hnextPc⟩
      apply (emitZeros_ensures world σ hqe.ok stateWidth).bind
      intro nextState f' ⟨hqf, hnextState⟩
      have hq := (hqd.trans hqe).trans hqf
      apply (lookups_ensures (h.mono hq.grows hq.st) hargs).bind
      rintro ret _ ⟨rfl, hret⟩
      apply (emitZeros_ensures world σ hqf.ok (retWidth - ret.length)).bind
      intro padding g ⟨hqg, hpadding⟩
      rw [ensures_pure]
      refine ⟨hq.trans hqg, ?_, ?_, ?_, ?_, ?_⟩
      · simp [stepResult]
      · exact hdone.mono ((hqe.trans hqf).trans hqg).grows
      · exact hnextPc.imp fun _ _ hv => HasBit.mono hv (hqf.trans hqg).grows
      · exact slots_zeros (hnextState.mono hqg.grows)
      · exact slots_padded (hret.mono hqg.grows) (by simpa [argBits, Fits] using hfits) hpadding
  | block j =>
      cases hr
      unfold processBiirTarget
      apply (hlaw.zeroBit hc).bind
      intro done d ⟨hqd, hdone⟩
      apply (hlaw.encode hqd.ok j pcWidth).bind
      intro nextPc e ⟨hqe, hnextPc⟩
      have hq := hqd.trans hqe
      apply (lookups_ensures (h.mono hq.grows hq.st) hargs).bind
      rintro nextState _ ⟨rfl, hnextState⟩
      apply (emitZeros_ensures world σ hqe.ok (stateWidth - nextState.length)).bind
      intro padding f' ⟨hqf, hpadding⟩
      apply (emitZeros_ensures world σ hqf.ok retWidth).bind
      intro ret g ⟨hqg, hret⟩
      rw [ensures_pure]
      have hqeg := hqf.trans hqg
      refine ⟨hq.trans hqeg, ?_, ?_, ?_, ?_, ?_⟩
      · simp [stepResult]
      · exact hdone.mono (hqe.trans hqeg).grows
      · exact hnextPc.imp fun _ _ hv => HasBit.mono hv hqeg.grows
      · exact slots_padded (hnextState.mono hqeg.grows) (by simpa [argBits, Fits] using hfits)
          (hpadding.mono hqg.grows)
      · exact slots_zeros hret
  | dyn v => cases hr

/-- The bits of one side, selected by `cond`. -/
theorem emitSelectBits_ensures {cond n : ℕ} {y : Bool} {ts es : List ℕ} {as bs : List Bool}
    (hc : c.Ok x) (hcond : HasBit world x σ c.kinds cond y)
    (ha : Carries world x σ c.kinds ts as) (hb : Carries world x σ c.kinds es bs)
    (halen : as.length = n) (hblen : bs.length = n) :
    Ensures (emitSelectBits cond n ts es) c fun vs d =>
      Quiet world x σ c d ∧ Carries world x σ d.kinds vs (if y then as else bs) := by
  induction n generalizing c ts es as bs with
  | zero =>
      obtain rfl := List.length_eq_zero_iff.mp halen
      obtain rfl := List.length_eq_zero_iff.mp hblen
      rw [emitSelectBits, ensures_pure, ite_self]
      exact ⟨Quiet.refl hc, .nil⟩
  | succ n ih =>
      cases ha with
      | nil => cases halen
      | @cons t a ts as hta ha =>
          cases hb with
          | nil => cases hblen
          | @cons e b es bs heb hb =>
              rw [emitSelectBits]
              have hlaw : (reading world x σ : Reading (BIrCtx P) Unit Bool).Lawful :=
                reading_lawful
              apply (hlaw.selectBit hc hcond hta heb).bind
              intro v d ⟨hqd, hv⟩
              have hrest := ih hqd.ok (hcond.mono hqd.grows) (Carries.mono ha hqd.grows)
                (Carries.mono hb hqd.grows) (Nat.succ.inj halen) (Nat.succ.inj hblen)
              apply hrest.bind
              intro vs e ⟨hqe, hvs⟩
              rw [ensures_pure]
              refine ⟨hqd.trans hqe, ?_⟩
              have hhead := HasBit.mono hv hqe.grows
              cases y with
              | true => exact .cons hhead hvs
              | false => exact .cons hhead hvs

theorem Delivers.state {t : TermResult} {m : StepResult Bool} {pcWidth stateWidth retWidth : ℕ}
    (h : Delivers world x σ c pcWidth stateWidth retWidth t m) :
    Carries world x σ c.kinds t.nextState m.nextState ∧ m.nextState.length = stateWidth :=
  slots_iff.mp h.nextState

theorem Delivers.returned {t : TermResult} {m : StepResult Bool}
    {pcWidth stateWidth retWidth : ℕ}
    (h : Delivers world x σ c pcWidth stateWidth retWidth t m) :
    Carries world x σ c.kinds t.retVals m.ret ∧ m.ret.length = retWidth :=
  slots_iff.mp h.ret

/-- Either side's results, selected by `cond`. -/
theorem emitSelectResults_ensures {cond : ℕ} {y : Bool} {t e : TermResult} {m n : StepResult Bool}
    {pcWidth stateWidth retWidth : ℕ} (hc : c.Ok x) (hcond : HasBit world x σ c.kinds cond y)
    (ht : Delivers world x σ c pcWidth stateWidth retWidth t m)
    (he : Delivers world x σ c pcWidth stateWidth retWidth e n) :
    Ensures (emitSelectResults cond pcWidth stateWidth retWidth t e) c fun out d =>
      Quiet world x σ c d ∧
        Delivers world x σ d pcWidth stateWidth retWidth out (if y then m else n) := by
  have hlaw : (reading world x σ : Reading (BIrCtx P) Unit Bool).Lawful := reading_lawful
  apply (hlaw.selectBit hc hcond ht.done he.done).bind
  intro done d ⟨hqd, hdone⟩
  have hpc := emitSelectBits_ensures hqd.ok (hcond.mono hqd.grows)
    (Carries.mono ht.nextPc hqd.grows) (Carries.mono he.nextPc hqd.grows) ht.width he.width
  apply hpc.bind
  intro nextPc e' ⟨hqe, hnextPc⟩
  have hqe' := hqd.trans hqe
  have hstate := emitSelectBits_ensures hqe.ok (hcond.mono hqe'.grows)
    (ht.state.1.mono hqe'.grows) (he.state.1.mono hqe'.grows) ht.state.2 he.state.2
  apply hstate.bind
  intro nextState f ⟨hqf, hnextState⟩
  have hqf' := hqe'.trans hqf
  have hret := emitSelectBits_ensures hqf.ok (hcond.mono hqf'.grows)
    (ht.returned.1.mono hqf'.grows) (he.returned.1.mono hqf'.grows) ht.returned.2 he.returned.2
  apply hret.bind
  intro ret g ⟨hqg, hretVals⟩
  rw [ensures_pure]
  refine ⟨hqf'.trans hqg, ?_⟩
  have hdone := HasBit.mono hdone ((hqe.trans hqf).trans hqg).grows
  have hnextPc := hnextPc.mono (hqf.trans hqg).grows
  have hnextState := hnextState.mono hqg.grows
  cases y with
  | true =>
      exact ⟨ht.width, hdone, hnextPc, slots_iff.mpr ⟨hnextState, ht.state.2⟩,
        slots_iff.mpr ⟨hretVals, ht.returned.2⟩⟩
  | false =>
      exact ⟨he.width, hdone, hnextPc, slots_iff.mpr ⟨hnextState, he.state.2⟩,
        slots_iff.mpr ⟨hretVals, he.returned.2⟩⟩

/-- A terminator's results are those of the target it takes. -/
theorem emitTerminator_ensures {terminator : BIrTerminator ℕ} {vals : List ℕ} {f : Frame}
    (pcWidth : ℕ) {stateWidth retWidth : ℕ} {r : Boolar.BlockResult} (hc : c.Ok x)
    (h : Copied world x σ c.kinds vals f) (hops : ∀ v ∈ terminator.operands, v < vals.length)
    (hfits : ∀ t ∈ terminator.targets, Fits stateWidth retWidth t)
    (hstatic : ∀ t ∈ terminator.targets, ∃ r, resolveTarget f.vals t = some r)
    (hr : evalTerminator f.vals terminator = some r) :
    Ensures (emitTerminator terminator vals pcWidth stateWidth retWidth) c fun out d =>
      Quiet world x σ c d ∧ Delivers world x σ d pcWidth stateWidth retWidth out
        (stepResult pcWidth stateWidth retWidth r) := by
  cases terminator with
  | jmp t => exact processBiirTarget_ensures hc h hops (hfits t (List.mem_singleton_self t)) hr
  | condJmp val t e =>
      simp only [BIrTerminator.operands, List.forall_mem_cons, List.forall_mem_append] at hops
      simp only [BIrTerminator.targets, List.forall_mem_cons] at hfits hstatic
      have hval := hops.1.1
      obtain ⟨rt, hrt⟩ := hstatic.1
      obtain ⟨re, hre⟩ := hstatic.2.1
      have hbit := h.bit val hval
      have hdef := h.defined val hval
      rw [List.getD_eq_getElem _ _ hval] at hbit hdef
      rw [emitTerminator, List.getElem?_eq_getElem hval, orPanic_some, pure_bind]
      apply (processBiirTarget_ensures hc h hops.1.2 hfits.1 hrt).bind
      intro tout d hthen
      rcases hthen with ⟨hqd, htout⟩
      have hcopied := h.mono hqd.grows hqd.st
      apply (processBiirTarget_ensures hqd.ok hcopied hops.2 hfits.2.1 hre).bind
      intro eout e' helse
      rcases helse with ⟨hqe, heout⟩
      have hq := hqd.trans hqe
      have hcond : HasBit world x σ c.kinds vals[val] (look f.vals val).bit := ⟨hdef, hbit⟩
      have htout' := (reading_lawful : (reading world x σ).Lawful).holds_mono hqe.grows htout
      apply (emitSelectResults_ensures hqe.ok (hcond.mono hq.grows) htout' heout).mono
      intro out g hselect
      rcases hselect with ⟨hqg, hout⟩
      refine ⟨hq.trans hqg, ?_⟩
      rw [evalTerminator, hrt, hre] at hr
      cases hsel : (look f.vals val).bit with
      | true =>
          rw [hsel] at hout hr
          rw [← Option.some.inj hr]
          exact hout
      | false =>
          rw [hsel] at hout hr
          rw [← Option.some.inj hr]
          exact hout

theorem emitBlockTerminator_eq {blocks : BIrBlocks P} {i : ℕ} {b : BIrBlock P}
    (hb : blocks.blocks[i]? = some b) (vals : List ℕ) (pcWidth stateWidth retWidth : ℕ) :
    (MovfuscCtx.emitBlockTerminator blocks i vals pcWidth (List.replicate stateWidth ())
      (List.replicate retWidth ()) : Emit (BIrCtx P) TermResult) =
      emitTerminator b.terminator vals pcWidth stateWidth retWidth := by
  change (do
    let block ← orPanic blocks.blocks[i]?
    emitTerminator block.terminator vals pcWidth (List.replicate stateWidth ()).length
      (List.replicate retWidth ()).length) = _
  rw [hb, orPanic_some, pure_bind, List.length_replicate, List.length_replicate]

end
end BIrCtx
end VolarIR.Movfuscate
