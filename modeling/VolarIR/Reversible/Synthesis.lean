import VolarIR.Reversible.Support
import VolarIR.Library.Fallible

/-!
# What one synthesis step does

The statement loop either puts a result on a fresh ancilla, after the gates
`stmtGates` over wires borrowed from the pool, or consumes an operand's wire in
place (`synthStmt_cases`). From that one description follow the structural
invariant `Synth.Wf` and the success of the loop on statements in SSA order.
-/
namespace VolarIR.Rev
open Boolar Words BitStore Fallible

/-- One use of `a` is counted, and the uses of the other vars stay. -/
theorem getD_bumped {uses : List ℕ} {a : ℕ} (ha : a < uses.length) (vs : List ℕ) (v : ℕ) :
    (uses.modify a (· + 1)).getD v 0 + vs.count v = uses.getD v 0 + (a :: vs).count v := by
  rw [List.count_cons, List.getD_eq_getElem?_getD, List.getElem?_modify,
    List.getD_eq_getElem?_getD]
  by_cases hva : a = v
  · subst hva
    simp [ha]
    omega
  · simp [hva]

theorem foldlM_bump (vs uses : List ℕ) (h : ∀ v ∈ vs, v < uses.length)
    (hfits : ∀ v, uses.getD v 0 + vs.count v ≤ u32Max) :
    ∃ r, vs.foldlM bump uses = .ok r ∧ r.length = uses.length ∧
      ∀ v < uses.length, r.getD v 0 = uses.getD v 0 + vs.count v := by
  induction vs generalizing uses with
  | nil => exact ⟨uses, rfl, rfl, fun v _ => by simp⟩
  | cons a vs ih =>
      have ha := h a List.mem_cons_self
      have hone := hfits a
      rw [List.count_cons_self] at hone
      obtain ⟨r, hr, hl, hc⟩ := ih (uses.modify a (· + 1)) (fun v hv => by
        simpa using h v (List.mem_cons_of_mem a hv)) (fun v => by
        rw [getD_bumped ha]
        exact hfits v)
      refine ⟨r, ?_, by simpa using hl, fun v hv => ?_⟩
      · rw [List.foldlM_cons, bump, if_pos ⟨ha, by omega⟩]
        exact hr
      · rw [hc v (by simpa using hv), getD_bumped ha]

/-- The counting ends in a panic, or no count went beyond `u32`. -/
theorem foldlM_bump_cases (vs uses : List ℕ) :
    vs.foldlM bump uses = .error .panic ∨
      (∃ r, vs.foldlM bump uses = .ok r) ∧ ∀ v ∈ vs, uses.getD v 0 + vs.count v ≤ u32Max := by
  induction vs generalizing uses with
  | nil => exact .inr ⟨⟨uses, rfl⟩, by simp⟩
  | cons a vs ih =>
      rw [List.foldlM_cons, bump]
      split_ifs with ha
      · rcases ih (uses.modify a (· + 1)) with hpanic | ⟨hok, hfits⟩
        · exact .inl hpanic
        · refine .inr ⟨hok, fun v hv => ?_⟩
          rw [← getD_bumped ha.1]
          by_cases hmem : v ∈ vs
          · exact hfits v hmem
          · obtain rfl := (List.mem_cons.mp hv).resolve_right hmem
            rw [getD_bumped ha.1, List.count_cons_self, List.count_eq_zero.mpr hmem]
            omega
      · exact .inl rfl

/-- The use counts stay within `u32`. -/
def UsesFit {P : Type} (c : BCircuit P) : Prop :=
  ∀ v, (c.kinds.flatMap usedVars ++ c.outputs).count v ≤ u32Max

/-- The use counts and the ids of the results stay within `u32`. -/
structure FitsU32 {P : Type} (c : BCircuit P) : Prop where
  uses : UsesFit c
  ids : ∀ i < c.kinds.length, c.params + i ≤ u32Max

theorem countUses_panics {P : Type} {c : BCircuit P} (h : ¬UsesFit c) :
    countUses c = .error .panic := by
  rw [countUses]
  refine (foldlM_bump_cases _ _).resolve_right fun hok => h fun v => ?_
  by_cases hv : v ∈ c.kinds.flatMap usedVars ++ c.outputs
  · exact (Nat.le_add_left _ _).trans (hok.2 v hv)
  · rw [List.count_eq_zero.mpr hv]
    exact Nat.zero_le _

theorem resultVar_ok {params i : ℕ} (h : params + i ≤ u32Max) :
    resultVar params i = .ok (params + i) := if_pos h

/-- The pool `q` is `p` with the wires `ws` borrowed, and given back if `restored`. -/
structure Borrow (p q : AncillaPool) (ws : List ℕ) (restored : Bool) : Prop where
  base : q.base = p.base
  fresh_le : p.nextFresh ≤ q.nextFresh
  was_idle : ∀ w ∈ ws, p.Idle w
  range : ∀ w ∈ ws, p.base ≤ w ∧ w < q.nextFresh
  nodup : ws.Nodup
  idle : ∀ v, q.Idle v → p.Idle v ∧ (v ∈ ws → restored = true)

namespace Borrow

theorem none (p : AncillaPool) (r : Bool) : Borrow p p [] r where
  base := rfl
  fresh_le := le_rfl
  was_idle := by simp
  range := by simp
  nodup := List.nodup_nil
  idle := fun v hv => ⟨hv, by simp⟩

theorem one (p : AncillaPool) : Borrow p p.acquire.2 [p.acquire.1] false where
  base := p.acquire_base
  fresh_le := p.acquire_nextFresh_le
  was_idle := by simpa using p.acquire_wire.1
  range := by simpa using p.acquire_wire.2.2
  nodup := List.nodup_singleton _
  idle := fun v hv => by
    have h := (p.acquire_idle v).mp hv
    exact ⟨h.1, fun hm => (h.2 (List.mem_singleton.mp hm)).elim⟩

theorem acquire {p q : AncillaPool} {ws : List ℕ} (h : Borrow p q ws false) :
    Borrow p q.acquire.2 (ws ++ [q.acquire.1]) false where
  base := q.acquire_base.trans h.base
  fresh_le := h.fresh_le.trans q.acquire_nextFresh_le
  was_idle := by
    simp only [List.mem_append, List.mem_singleton]
    rintro w (hw | rfl)
    · exact h.was_idle w hw
    · exact (h.idle _ q.acquire_wire.1).1
  range := by
    simp only [List.mem_append, List.mem_singleton]
    rintro w (hw | rfl)
    · exact ⟨(h.range w hw).1, (h.range w hw).2.trans_le q.acquire_nextFresh_le⟩
    · exact h.base ▸ q.acquire_wire.2.2
  nodup := by
    refine List.nodup_append'.mpr ⟨h.nodup, List.nodup_singleton _, ?_⟩
    intro w hw hq
    obtain rfl := List.mem_singleton.mp hq
    exact absurd ((h.idle _ q.acquire_wire.1).2 hw) Bool.false_ne_true
  idle := fun v hv => by
    have hq := (q.acquire_idle v).mp hv
    refine ⟨(h.idle v hq.1).1, ?_⟩
    simp only [List.mem_append, List.mem_singleton]
    rintro (hw | rfl)
    · exact (h.idle v hq.1).2 hw
    · exact (hq.2 rfl).elim

theorem release {p q r : AncillaPool} {ws : List ℕ} (h : Borrow p q ws false)
    (hb : r.base = q.base) (hn : r.nextFresh = q.nextFresh)
    (hr : ∀ v, r.Idle v → q.Idle v ∨ v ∈ ws) : Borrow p r ws true where
  base := hb.trans h.base
  fresh_le := hn ▸ h.fresh_le
  was_idle := h.was_idle
  range := fun w hw => hn ▸ h.range w hw
  nodup := h.nodup
  idle := fun v hv => by
    rcases hr v hv with hq | hw
    · exact ⟨(h.idle v hq).1, fun _ => rfl⟩
    · exact ⟨h.was_idle v hw, fun _ => rfl⟩

end Borrow

def lowerable : Stmt → Bool
  | .oracleCall .. | .oracleProjectedBit .. | .actionCall .. | .actionBit .. | .rng .. => false
  | _ => true

def scratchNeed (share : Bool) : Stmt → ℕ × Bool
  | .or _ _ => (2, share)
  | .storageRead .. => (1, share)
  | .storageWrite .. => (1, false)
  | _ => (0, true)

/-- The gates of a statement whose result goes to the fresh ancilla `wr`: `m` maps
vars to wires and `bs` are the borrowed wires. -/
def stmtGates (share : Bool) (m : ℕ → ℕ) (wr : ℕ) (bs : List ℕ) : Stmt → List RGate
  | .one => [.x wr]
  | .xor a b => [.cnot (m a) wr, .cnot (m b) wr]
  | .and a b => [.ccnot (m a) (m b) wr]
  | .not a => [.cnot (m a) wr, .x wr]
  | .or a b =>
      orGates (m a) (m b) (bs.getD 0 0) (bs.getD 1 0) wr ++
        if share then orRestore (m a) (m b) (bs.getD 0 0) (bs.getD 1 0) else []
  | .storageRead storage lane addr =>
      [.storageSwap storage lane (addr.map m) (bs.getD 0 0), .cnot (bs.getD 0 0) wr,
        .storageSwap storage lane (addr.map m) (bs.getD 0 0)]
  | .storageWrite storage lane src addr =>
      [.cnot (m src) (bs.getD 0 0), .storageSwap storage lane (addr.map m) (bs.getD 0 0)]
  | .oracleBit name args bit occ => [.externalXor .oracle name (args.map m) wr bit occ]
  | .rngBit name bit occ => [.externalXor .rng name [] wr bit occ]
  | .actionStoreBit name guard args fallback storage lane addr bit occ =>
      [.externalStorageXor name (m guard) (args.map m) (m fallback) storage lane (addr.map m)
        bit occ]
  | _ => []

namespace Synth

def wireOf (st : Synth) (v : ℕ) : ℕ := st.map.getD v 0

variable {st st' : Synth} {params i : ℕ} {uses : List ℕ} {share : Bool}

theorem wire_eq_ok {v : ℕ} (h : v < st.map.length) : st.wire v = .ok (st.wireOf v) := by
  simp [wire, wireOf, expect, h]

theorem wires_eq_ok {vs : List ℕ} (h : ∀ v ∈ vs, v < st.map.length) :
    st.wires vs = .ok (vs.map st.wireOf) :=
  mapM_eq_ok fun v hv => wire_eq_ok (h v hv)

def fresh (st : Synth) (pool : AncillaPool) (gates : List RGate) : Synth :=
  { st with scratch := pool }.finishFresh gates

/-- The result of `s` goes to a fresh ancilla. -/
def FreshStep (share : Bool) (st : Synth) (s : Stmt) (st' : Synth) : Prop :=
  ∃ pool bs, Borrow st.scratch pool bs (scratchNeed share s).2 ∧
    bs.length = (scratchNeed share s).1 ∧
    st' = st.fresh pool (stmtGates share st.wireOf st.nextAnc bs s)

def consumes (params : ℕ) (uses : List ℕ) (st : Synth) : Stmt → Option ℕ
  | .xor a b => reuseCandidate params uses a b (st.wireOf a) (st.wireOf b)
  | _ => none

/-- `s` is an XOR that consumes the wire of its operand `c`; `o` is the other operand. -/
def InPlaceStep (params : ℕ) (uses : List ℕ) (st : Synth) (s : Stmt) (st' : Synth)
    (c o : ℕ) : Prop :=
  (s = .xor c o ∨ s = .xor o c) ∧ params ≤ c ∧ uses.getD c 0 = 1 ∧
    st' = st.finishInPlace [.cnot (st.wireOf o) (st.wireOf c)] (st.wireOf c)

end Synth

theorem checkOperand_ok {r v : ℕ} (h : v < r) : checkOperand r v = .ok () := by
  unfold checkOperand
  rw [if_neg (by omega), if_neg (by omega)]

theorem checkOperandList_ok {r : ℕ} {vs : List ℕ} (h : ∀ v ∈ vs, v < r) :
    checkOperandList r vs = .ok () := by
  induction vs with
  | nil => rfl
  | cons v vs ih =>
      rw [checkOperandList, checkOperand_ok (h v List.mem_cons_self)]
      exact ih fun u hu => h u (List.mem_cons_of_mem v hu)

theorem reuseCandidate_some {params a b wa wb c : ℕ} {uses : List ℕ}
    (h : reuseCandidate params uses a b wa wb = some c) :
    (c = a ∨ c = b) ∧ params ≤ c ∧ uses.getD c 0 = 1 := by
  unfold reuseCandidate at h
  simp only at h
  split_ifs at h with h₁ h₂ h₃ <;> obtain rfl := Option.some.inj h <;> simp_all

open Synth in
/-- Everything one step of the loop can do on a lowerable statement in SSA order. -/
theorem synthStmt_cases (uses : List ℕ) (share : Bool) {params i : ℕ} {st : Synth} {s : Stmt}
    (hl : st.map.length = params + i) (hs : lowerable s)
    (hd : ∀ v ∈ s.operands, v < params + i) :
    ∃ st', synthStmt params uses share i st s = .ok st' ∧
      (FreshStep share st s st' ∧ consumes params uses st s = none ∨
        ∃ c o, InPlaceStep params uses st s st' c o ∧ consumes params uses st s = some c) := by
  have hw : ∀ v ∈ s.operands, st.wire v = .ok (st.wireOf v) := fun v hv =>
    wire_eq_ok (hl ▸ hd v hv)
  have hc : ∀ v ∈ s.operands, checkOperand (params + i) v = .ok () := fun v hv =>
    checkOperand_ok (hd v hv)
  have hcs : ∀ vs : List ℕ, vs ⊆ s.operands → checkOperandList (params + i) vs = .ok () :=
    fun vs hvs => checkOperandList_ok fun v hv => hd v (hvs hv)
  have hws : ∀ vs : List ℕ, vs ⊆ s.operands → st.wires vs = .ok (vs.map st.wireOf) :=
    fun vs hvs => wires_eq_ok fun v hv => hl ▸ hd v (hvs hv)
  -- forms that borrow nothing differ only in the gates
  have plain : (scratchNeed share s).1 = 0 →
      FreshStep share st s (st.finishFresh (stmtGates share st.wireOf st.nextAnc [] s)) :=
    fun h => ⟨st.scratch, [], .none _ _, h.symm, rfl⟩
  cases s with
  | zero => exact ⟨_, rfl, .inl ⟨plain rfl, rfl⟩⟩
  | one => exact ⟨_, rfl, .inl ⟨plain rfl, rfl⟩⟩
  | xor a b =>
      have ha : a ∈ (BIrStmt.xor a b : Stmt).operands := by simp [BIrStmt.operands]
      have hb : b ∈ (BIrStmt.xor a b : Stmt).operands := by simp [BIrStmt.operands]
      cases hr : reuseCandidate params uses a b (st.wireOf a) (st.wireOf b) with
      | none =>
          refine ⟨_, ?_, .inl ⟨plain rfl, hr⟩⟩
          simp only [synthStmt, hc a ha, hc b hb, hw a ha, hw b hb, bind, Except.bind, hr]
          rfl
      | some c =>
          obtain ⟨hab, hp, hu⟩ := reuseCandidate_some hr
          have hcw : st.wire c = .ok (st.wireOf c) := by
            rcases hab with rfl | rfl
            · exact hw _ ha
            · exact hw _ hb
          refine ⟨st.finishInPlace
              [.cnot (if c = a then st.wireOf b else st.wireOf a) (st.wireOf c)] (st.wireOf c),
            ?_, .inr ⟨c, if c = a then b else a, ⟨?_, hp, hu, ?_⟩, hr⟩⟩
          · simp only [synthStmt, hc a ha, hc b hb, hw a ha, hw b hb, bind, Except.bind, hr, hcw]
            rfl
          · by_cases hca : c = a
            · subst hca
              simp
            · obtain rfl := hab.resolve_left hca
              simp [hca]
          · split_ifs <;> rfl
  | and a b =>
      have ha : a ∈ (BIrStmt.and a b : Stmt).operands := by simp [BIrStmt.operands]
      have hb : b ∈ (BIrStmt.and a b : Stmt).operands := by simp [BIrStmt.operands]
      refine ⟨_, ?_, .inl ⟨plain rfl, rfl⟩⟩
      simp only [synthStmt, hc a ha, hc b hb, hw a ha, hw b hb, bind, Except.bind]
      rfl
  | not a =>
      have ha : a ∈ (BIrStmt.not a : Stmt).operands := by simp [BIrStmt.operands]
      refine ⟨_, ?_, .inl ⟨plain rfl, rfl⟩⟩
      simp only [synthStmt, hc a ha, hw a ha, bind, Except.bind]
      rfl
  | or a b =>
      have ha : a ∈ (BIrStmt.or a b : Stmt).operands := by simp [BIrStmt.operands]
      have hb : b ∈ (BIrStmt.or a b : Stmt).operands := by simp [BIrStmt.operands]
      have h₂ := (Borrow.one st.scratch).acquire
      cases share with
      | false =>
          refine ⟨_, ?_, .inl ⟨⟨_, _, h₂, rfl, rfl⟩, rfl⟩⟩
          simp only [synthStmt, hc a ha, hc b hb, hw a ha, hw b hb, bind, Except.bind]
          simp [stmtGates, Synth.fresh, pure, Except.pure]
      | true =>
          have hna : st.scratch.acquire.1 ∈ st.scratch.acquire.2.acquire.2.live :=
            AncillaPool.live_mono_acquire _ st.scratch.acquire_wire.2.1
          obtain ⟨p, hp, hpb, hpn, hpl, hpi⟩ := AncillaPool.release_of_live hna
          have hnb : st.scratch.acquire.2.acquire.1 ∈ p.live := by
            rw [hpl, Finset.mem_erase]
            refine ⟨fun e => ?_, st.scratch.acquire.2.acquire_wire.2.1⟩
            have hn := h₂.nodup
            simp [e] at hn
          obtain ⟨q, hq, hqb, hqn, -, hqi⟩ := AncillaPool.release_of_live hnb
          have hB : Borrow st.scratch q
              ([st.scratch.acquire.1] ++ [st.scratch.acquire.2.acquire.1]) true := by
            refine h₂.release (hqb.trans hpb) (hqn.trans hpn) fun v hv => ?_
            rcases (hqi v).mp hv with hv | rfl
            · rcases (hpi v).mp hv with hv | rfl
              · exact .inl hv
              · exact .inr (by simp)
            · exact .inr (by simp)
          refine ⟨_, ?_, .inl ⟨⟨_, _, hB, rfl, rfl⟩, rfl⟩⟩
          simp only [synthStmt, hc a ha, hc b hb, hw a ha, hw b hb, bind, Except.bind, hp, hq,
            expect]
          simp [stmtGates, Synth.fresh, pure, Except.pure]
  | storageRead storage lane addr =>
      have h₁ := Borrow.one st.scratch
      have ha := hcs addr (by simp [BIrStmt.operands])
      have hm := hws addr (by simp [BIrStmt.operands])
      cases share with
      | false =>
          refine ⟨_, ?_, .inl ⟨⟨_, _, h₁, rfl, rfl⟩, rfl⟩⟩
          simp only [synthStmt, ha, hm, bind, Except.bind]
          simp [stmtGates, Synth.fresh, pure, Except.pure]
      | true =>
          obtain ⟨p, hp, hpb, hpn, -, hpi⟩ :=
            AncillaPool.release_of_live st.scratch.acquire_wire.2.1
          have hB : Borrow st.scratch p [st.scratch.acquire.1] true :=
            h₁.release hpb hpn fun v hv => by simpa using (hpi v).mp hv
          refine ⟨_, ?_, .inl ⟨⟨_, _, hB, rfl, rfl⟩, rfl⟩⟩
          simp only [synthStmt, ha, hm, bind, Except.bind, hp, expect]
          simp [stmtGates, Synth.fresh, pure, Except.pure]
  | storageWrite storage lane src addr =>
      have hsrc : src ∈ (BIrStmt.storageWrite storage lane src addr : Stmt).operands := by
        simp [BIrStmt.operands]
      have ha := hcs addr (by simp [BIrStmt.operands])
      have hm := hws addr (by simp [BIrStmt.operands])
      refine ⟨_, ?_, .inl ⟨⟨_, _, Borrow.one st.scratch, rfl, rfl⟩, rfl⟩⟩
      simp only [synthStmt, hc src hsrc, hw src hsrc, ha, hm, bind, Except.bind]
      simp [stmtGates, Synth.fresh, pure, Except.pure]
  | oracleBit name args bit occ =>
      have ha := hcs args (by simp [BIrStmt.operands])
      have hm := hws args (by simp [BIrStmt.operands])
      refine ⟨_, ?_, .inl ⟨plain rfl, rfl⟩⟩
      simp only [synthStmt, ha, hm, bind, Except.bind]
      rfl
  | rngBit name bit occ => exact ⟨_, rfl, .inl ⟨plain rfl, rfl⟩⟩
  | actionStoreBit name guard args fallback storage lane addr bit occ =>
      have hg := hc guard (by simp [BIrStmt.operands])
      have hf := hc fallback (by simp [BIrStmt.operands])
      have ha := hcs args (by intro v hv; simp [BIrStmt.operands, hv])
      have hd := hcs addr (by intro v hv; simp [BIrStmt.operands, hv])
      have hwg := hw guard (by simp [BIrStmt.operands])
      have hwf := hw fallback (by simp [BIrStmt.operands])
      have hma := hws args (by intro v hv; simp [BIrStmt.operands, hv])
      have hmd := hws addr (by intro v hv; simp [BIrStmt.operands, hv])
      refine ⟨_, ?_, .inl ⟨plain rfl, rfl⟩⟩
      simp only [synthStmt, hg, hf, ha, hd, hwg, hwf, hma, hmd, bind, Except.bind]
      rfl
  | oracleCall | oracleProjectedBit | actionCall | actionBit | rng => simp [lowerable] at hs

/-- After `i` statements: parameters sit on their own wires, every other var on a
statement ancilla, and every gate lives on issued wires without writing the x register. -/
structure Synth.Wf (params base i : ℕ) (st : Synth) : Prop where
  map_length : st.map.length = params + i
  params_le : params ≤ st.nextAnc
  anc_le : st.nextAnc ≤ params + i
  pool_base : st.scratch.base = base
  map_param : ∀ v < params, st.wireOf v = v
  map_range : ∀ v, params ≤ v → v < params + i → params ≤ st.wireOf v ∧ st.wireOf v < st.nextAnc
  region : ∀ g ∈ st.gates, ∀ w ∈ g.wires,
    w < st.nextAnc ∨ base ≤ w ∧ w < st.scratch.nextFresh
  target : ∀ g ∈ st.gates, ∀ w ∈ g.targets, params ≤ w
  apart : ∀ g ∈ st.gates, g.Apart

namespace Synth
variable {params base i : ℕ} {uses : List ℕ} {share : Bool} {st st' : Synth} {s : Stmt}

theorem Wf.map_lt (h : st.Wf params base i) {v : ℕ} (hv : v < params + i) :
    st.wireOf v < st.nextAnc := by
  by_cases hp : v < params
  · rw [h.map_param v hp]
    exact hp.trans_le h.params_le
  · exact (h.map_range v (Nat.le_of_not_lt hp) hv).2

theorem wireOf_push (st' : Synth) {n w : ℕ} (hl : st.map.length = n)
    (hm : st'.map = st.map ++ [w]) :
    (∀ v < n, st'.wireOf v = st.wireOf v) ∧ st'.wireOf n = w := by
  subst hl
  refine ⟨fun v hv => ?_, ?_⟩
  · simp [wireOf, hm, List.getElem?_append_left hv]
  · simp [wireOf, hm]

theorem stmtGates_wires (m : ℕ → ℕ) (wr : ℕ) {bs : List ℕ}
    (hb : bs.length = (scratchNeed share s).1) :
    ∀ g ∈ stmtGates share m wr bs s,
      (∀ w ∈ g.wires, w = wr ∨ w ∈ bs ∨ w ∈ s.operands.map m) ∧
        ∀ w ∈ g.targets, w = wr ∨ w ∈ bs := by
  cases s with
  | or a b =>
      obtain ⟨na, nb, rfl⟩ := List.length_eq_two.mp hb
      cases share <;>
        simp [stmtGates, orGates, orRestore, RGate.wires, RGate.targets, BIrStmt.operands]
  | storageRead storage lane addr =>
      obtain ⟨t, rfl⟩ := List.length_eq_one_iff.mp hb
      simp [stmtGates, RGate.wires, RGate.targets, BIrStmt.operands]
      exact fun a ha => .inr (.inr ⟨a, ha, rfl⟩)
  | storageWrite storage lane src addr =>
      obtain ⟨t, rfl⟩ := List.length_eq_one_iff.mp hb
      simp [stmtGates, RGate.wires, RGate.targets, BIrStmt.operands]
      exact fun a ha => .inr (.inr (.inr ⟨a, ha, rfl⟩))
  | oracleBit name args bit occ =>
      simp [stmtGates, RGate.wires, RGate.targets, BIrStmt.operands]
      exact fun a ha => .inr (.inr ⟨a, ha, rfl⟩)
  | actionStoreBit name guard args fallback storage lane addr bit occ =>
      simp only [stmtGates, List.forall_mem_singleton, RGate.wires, RGate.targets,
        BIrStmt.operands]
      simp
      grind
  | zero => simp [stmtGates]
  | one => simp [stmtGates, RGate.wires, RGate.targets]
  | xor a b => simp [stmtGates, RGate.wires, RGate.targets, BIrStmt.operands]
  | and a b => simp [stmtGates, RGate.wires, RGate.targets, BIrStmt.operands]
  | not a => simp [stmtGates, RGate.wires, RGate.targets, BIrStmt.operands]
  | rngBit name bit occ => simp [stmtGates, RGate.wires, RGate.targets]
  | oracleCall | oracleProjectedBit | actionCall | actionBit | rng => simp [stmtGates]

theorem stmtGates_apart {m : ℕ → ℕ} {wr : ℕ} {bs : List ℕ}
    (hb : bs.length = (scratchNeed share s).1) (hn : (wr :: bs).Nodup)
    (hm : ∀ v ∈ s.operands, m v ≠ wr ∧ m v ∉ bs) :
    ∀ g ∈ stmtGates share m wr bs s, g.Apart := by
  cases s with
  | or a b =>
      obtain ⟨na, nb, rfl⟩ := List.length_eq_two.mp hb
      have ha := hm a (by simp [BIrStmt.operands])
      have hb' := hm b (by simp [BIrStmt.operands])
      simp only [List.nodup_cons, List.mem_cons, List.not_mem_nil, or_false, not_or] at hn ha hb'
      cases share <;>
        simp [stmtGates, orGates, orRestore, RGate.Apart, hn.1.1, hn.1.2, ha.2.1, hb'.2.2]
  | storageRead storage lane addr =>
      obtain ⟨t, rfl⟩ := List.length_eq_one_iff.mp hb
      have ht : ∀ v ∈ addr, m v ≠ t := fun v hv => by simpa using (hm v hv).2
      have hwt : t ≠ wr := fun e => by simp [e] at hn
      simpa [stmtGates, RGate.Apart] using ⟨ht, hwt, ht⟩
  | storageWrite storage lane src addr =>
      obtain ⟨t, rfl⟩ := List.length_eq_one_iff.mp hb
      have ht : ∀ v ∈ src :: addr, m v ≠ t := fun v hv => by simpa using (hm v hv).2
      simpa [stmtGates, RGate.Apart] using ht
  | oracleBit name args bit occ =>
      simp [stmtGates, RGate.Apart]
      exact fun a ha => (hm a ha).1
  | actionStoreBit => simp [stmtGates, RGate.Apart]
  | zero => simp [stmtGates]
  | one => simp [stmtGates, RGate.Apart]
  | xor a b | and a b =>
      have ha := hm a (by simp [BIrStmt.operands])
      have hb := hm b (by simp [BIrStmt.operands])
      simp [stmtGates, RGate.Apart, ha.1, hb.1, ha.1.symm, hb.1.symm]
  | not a =>
      have ha := hm a (by simp [BIrStmt.operands])
      simp [stmtGates, RGate.Apart, ha.1]
  | rngBit name bit occ => simp [stmtGates, RGate.Apart]
  | oracleCall | oracleProjectedBit | actionCall | actionBit | rng => simp [stmtGates]

theorem FreshStep.wf (h : st.Wf params base i) (hb : params + i < base)
    (hd : ∀ v ∈ s.operands, v < params + i) (hf : FreshStep share st s st') :
    st'.Wf params base (i + 1) := by
  obtain ⟨pool, bs, hB, hl, rfl⟩ := hf
  have hbase := hB.base.trans h.pool_base
  have hanc := h.anc_le
  have hmap := h.map_length
  have hmem : ∀ w ∈ s.operands.map st.wireOf, w < st.nextAnc := by
    intro w hw
    obtain ⟨v, hv, rfl⟩ := List.mem_map.mp hw
    exact h.map_lt (hd v hv)
  have hbs : ∀ w ∈ bs, base ≤ w ∧ w < pool.nextFresh := fun w hw =>
    h.pool_base ▸ hB.range w hw
  have hgates := stmtGates_wires st.wireOf st.nextAnc hl
  obtain ⟨hold, hlast⟩ :=
    wireOf_push (st.fresh pool (stmtGates share st.wireOf st.nextAnc bs s)) hmap rfl
  constructor
  · simp [fresh, finishFresh, hmap, Nat.add_assoc]
  · exact h.params_le.trans (Nat.le_succ _)
  · change st.nextAnc + 1 ≤ _
    omega
  · exact hbase
  · intro v hv
    exact (hold v (by omega)).trans (h.map_param v hv)
  · intro v hp hv
    by_cases hvi : v < params + i
    · rw [hold v hvi]
      have := h.map_range v hp hvi
      exact ⟨this.1, this.2.trans (Nat.lt_succ_self _)⟩
    · obtain rfl : v = params + i := by omega
      rw [hlast]
      exact ⟨h.params_le, Nat.lt_succ_self _⟩
  · intro g hg w hw
    change w < st.nextAnc + 1 ∨ base ≤ w ∧ w < pool.nextFresh
    have hle := hB.fresh_le
    rcases List.mem_append.mp hg with hg | hg
    · rcases h.region g hg w hw with hr | hr
      · exact .inl (by omega)
      · exact .inr (by omega)
    · rcases (hgates g hg).1 w hw with rfl | hw | hw
      · exact .inl (Nat.lt_succ_self _)
      · exact .inr (hbs w hw)
      · exact .inl ((hmem w hw).trans (Nat.lt_succ_self _))
  · intro g hg w hw
    have hp := h.params_le
    rcases List.mem_append.mp hg with hg | hg
    · exact h.target g hg w hw
    · rcases (hgates g hg).2 w hw with rfl | hw
      · exact hp
      · have := hbs w hw
        omega
  · intro g hg
    rcases List.mem_append.mp hg with hg | hg
    · exact h.apart g hg
    · refine stmtGates_apart hl (List.nodup_cons.mpr ⟨fun hw => ?_, hB.nodup⟩) ?_ g hg
      · have := hbs _ hw
        omega
      · intro v hv
        have hlt := h.map_lt (hd v hv)
        refine ⟨hlt.ne, fun hw => ?_⟩
        have := hbs _ hw
        omega

theorem InPlaceStep.wf {c o : ℕ} (h : st.Wf params base i)
    (hc : c < params + i) (ho : o < params + i) (hne : st.wireOf o ≠ st.wireOf c)
    (hs : InPlaceStep params uses st s st' c o) : st'.Wf params base (i + 1) := by
  obtain ⟨-, hp, -, rfl⟩ := hs
  have hmap := h.map_length
  obtain ⟨hold, hlast⟩ :=
    wireOf_push (st.finishInPlace [.cnot (st.wireOf o) (st.wireOf c)] (st.wireOf c)) hmap rfl
  have hwc := h.map_range c hp hc
  constructor
  · simp [finishInPlace, hmap, Nat.add_assoc]
  · exact h.params_le
  · exact h.anc_le.trans (Nat.le_succ _)
  · exact h.pool_base
  · intro v hv
    exact (hold v (by omega)).trans (h.map_param v hv)
  · intro v hv hvi
    by_cases hlt : v < params + i
    · rw [hold v hlt]
      exact h.map_range v hv hlt
    · obtain rfl : v = params + i := by omega
      rw [hlast]
      exact hwc
  · intro g hg w hw
    rcases List.mem_append.mp hg with hg | hg
    · exact h.region g hg w hw
    · obtain rfl := List.mem_singleton.mp hg
      simp only [RGate.wires, List.mem_cons, List.not_mem_nil, or_false] at hw
      rcases hw with rfl | rfl
      · exact .inl (h.map_lt ho)
      · exact .inl hwc.2
  · intro g hg w hw
    rcases List.mem_append.mp hg with hg | hg
    · exact h.target g hg w hw
    · obtain rfl := List.mem_singleton.mp hg
      obtain rfl := List.mem_singleton.mp hw
      exact hwc.1
  · intro g hg
    rcases List.mem_append.mp hg with hg | hg
    · exact h.apart g hg
    · obtain rfl := List.mem_singleton.mp hg
      exact hne

/-- The vars in `dead` lost their wires to in-place XORs: nothing in `rest` reads
them any more, and the other vars have wires of their own. -/
structure Owned (params i : ℕ) (uses rest : List ℕ) (st : Synth) (dead : List ℕ) : Prop where
  inj : ∀ u v, u < params + i → v < params + i → u ∉ dead → v ∉ dead →
    st.wireOf u = st.wireOf v → u = v
  unread : ∀ v ∈ dead, v ∉ rest
  counted : ∀ v, rest.count v ≤ uses.getD v 0

variable {rest dead : List ℕ}

theorem FreshStep.owned (h : st.Wf params base i)
    (ho : st.Owned params i uses (s.operands ++ rest) dead) (hf : FreshStep share st s st') :
    st'.Owned params (i + 1) uses rest dead := by
  obtain ⟨pool, bs, -, -, rfl⟩ := hf
  have hmap := h.map_length
  obtain ⟨hold, hlast⟩ :=
    wireOf_push (st.fresh pool (stmtGates share st.wireOf st.nextAnc bs s)) hmap rfl
  have last : ∀ v < params + (i + 1), v < params + i ∨ v = params + i := by omega
  refine ⟨fun u v hu hv hud hvd e => ?_, fun v hv hr => ?_, fun v => ?_⟩
  · rcases last u hu with hu | rfl <;> rcases last v hv with hv | rfl
    · exact ho.inj u v hu hv hud hvd (by rwa [hold u hu, hold v hv] at e)
    · rw [hold u hu, hlast] at e
      exact absurd e (h.map_lt hu).ne
    · rw [hold v hv, hlast] at e
      exact absurd e.symm (h.map_lt hv).ne
    · rfl
  · exact ho.unread v hv (List.mem_append_right _ hr)
  · have := ho.counted v
    rw [List.count_append] at this
    omega

/-- The consumed operand occurs once, so it is not the other operand and is read no more. -/
theorem InPlaceStep.consumed_once {c o : ℕ}
    (ho : st.Owned params i uses (s.operands ++ rest) dead)
    (hs : InPlaceStep params uses st s st' c o) :
    o ≠ c ∧ c ∉ rest ∧ c ∈ s.operands ∧ o ∈ s.operands := by
  obtain ⟨hx, -, hu, -⟩ := hs
  have hc := ho.counted c
  rw [hu, List.count_append] at hc
  have hmem : s.operands = [c, o] ∨ s.operands = [o, c] := by
    rcases hx with rfl | rfl <;> simp [BIrStmt.operands]
  have hone : o ≠ c := by
    rintro rfl
    rcases hmem with e | e <;> simp [e] at hc <;> omega
  have hpos : s.operands.count c = 1 := by
    rcases hmem with e | e <;> simp [e, hone]
  refine ⟨hone, ?_, ?_, ?_⟩
  · exact List.count_eq_zero.mp (by omega)
  all_goals rcases hmem with e | e <;> simp [e]

theorem InPlaceStep.owned {c o : ℕ} (h : st.Wf params base i)
    (hd : ∀ v ∈ s.operands, v < params + i)
    (ho : st.Owned params i uses (s.operands ++ rest) dead)
    (hs : InPlaceStep params uses st s st' c o) :
    st'.Owned params (i + 1) uses rest (dead ++ [c]) := by
  obtain ⟨-, hcr, hcs, -⟩ := hs.consumed_once ho
  obtain ⟨-, -, -, rfl⟩ := hs
  have hmap := h.map_length
  obtain ⟨hold, hlast⟩ :=
    wireOf_push (st.finishInPlace [.cnot (st.wireOf o) (st.wireOf c)] (st.wireOf c)) hmap rfl
  have hcd : c ∉ dead := fun hm => ho.unread c hm (List.mem_append_left _ hcs)
  have last : ∀ v < params + (i + 1), v < params + i ∨ v = params + i := by omega
  refine ⟨fun u v hu hv hud hvd e => ?_, fun v hv hr => ?_, fun v => ?_⟩
  · simp only [List.mem_append, List.mem_singleton, not_or] at hud hvd
    rcases last u hu with hu | rfl <;> rcases last v hv with hv | rfl
    · exact ho.inj u v hu hv hud.1 hvd.1 (by rwa [hold u hu, hold v hv] at e)
    · rw [hold u hu, hlast] at e
      exact absurd (ho.inj u c hu (hd c hcs) hud.1 hcd e) hud.2
    · rw [hold v hv, hlast] at e
      exact absurd (ho.inj v c hv (hd c hcs) hvd.1 hcd e.symm) hvd.2
    · rfl
  · rcases List.mem_append.mp hv with hv | hv
    · exact ho.unread v hv (List.mem_append_right _ hr)
    · obtain rfl := List.mem_singleton.mp hv
      exact hcr hr
  · have := ho.counted v
    rw [List.count_append] at this
    omega

theorem Owned.wire_ne {c o : ℕ} (ho : st.Owned params i uses (s.operands ++ rest) dead)
    (hd : ∀ v ∈ s.operands, v < params + i) (hcs : c ∈ s.operands) (hos : o ∈ s.operands)
    (hne : o ≠ c) : st.wireOf o ≠ st.wireOf c := fun e =>
  hne (ho.inj o c (hd o hos) (hd c hcs) (fun hm => ho.unread o hm (List.mem_append_left _ hos))
    (fun hm => ho.unread c hm (List.mem_append_left _ hcs)) e)

end Synth

end VolarIR.Rev
