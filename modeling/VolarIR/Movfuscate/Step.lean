import VolarIR.Movfuscate.Layout
import VolarIR.Movfuscate.Dispatch

/-!
# The step circuit

The generic algorithm of `movfuscate.rs`: every block is emitted over the shared state
slots, decoded by its own index, and the results are summed up gated by the decoders. At
a PC that holds the index of a block, the sums are that block's own results, whatever the
other blocks compute there.
-/
namespace VolarIR.Movfuscate
open Stateful DispatchBitPrimitives DispatchSlotPrimitives

/-- Minimum number of bits needed to address `n` distinct blocks. -/
def pcBitsNeeded (n : ℕ) : ℕ := if n ≤ 1 then 0 else Nat.log2 (n - 1) + 1

theorem le_two_pow_pcBitsNeeded (n : ℕ) : n ≤ 2 ^ pcBitsNeeded n := by
  unfold pcBitsNeeded
  split
  · omega
  · have hlt := @Nat.lt_log2_self (n - 1)
    omega

structure TermResult where
  done : ℕ
  nextPcBits : List ℕ
  nextState : List ℕ
  retVals : List ℕ

structure BlockResult where
  isActive : ℕ
  term : TermResult

/-- The trait over which the algorithm is generic. -/
class MovfuscCtx (C : Type) (Blocks SlotTy : outParam Type) extends
    DispatchSlotPrimitives C SlotTy where
  numBlocks : Blocks → ℕ
  emitBlockStmts (blocks : Blocks) (blockIdx : ℕ) (stateVars : List ℕ) (isActive : ℕ) :
    Emit C (List ℕ)
  emitBlockTerminator (blocks : Blocks) (blockIdx : ℕ) (blockVals : List ℕ) (pcWidth : ℕ)
    (stateSlotTypes returnSlotTypes : List SlotTy) : Emit C TermResult
  buildOutput (ctx : C) (combinedParams doneVar : ℕ) (loopVars retVars : List ℕ) : Blocks

section
variable {C Blocks SlotTy : Type}

/-! ## The sums

An index past the end of a block's results is a panic. -/

/-- `acc[j] ^= is_active & bits[j]`. -/
def accumulateBits [DispatchBitPrimitives C] (isActive : ℕ) :
    (accs bits : List ℕ) → Emit C (List ℕ)
  | [], _ => pure []
  | _ :: _, [] => failure
  | acc :: accs, bit :: bits => do
      let g ← emitAndBit isActive bit
      let acc ← emitXorBit acc g
      let accs ← accumulateBits isActive accs bits
      pure (acc :: accs)

/-- One state slot: the sum starts at the incoming value, so a block contributes its
difference from it, and a block that passes the slot through contributes nothing. -/
def accumulateSlot [DispatchSlotPrimitives C SlotTy] (isActive : ℕ) (ty : SlotTy)
    (stateVar acc next : ℕ) : Emit C ℕ :=
  if next = stateVar then pure acc
  else do
    let diff ← emitFieldAdd next stateVar ty
    let g ← emitGate isActive diff ty
    emitFieldAdd acc g ty

def accumulateState [DispatchSlotPrimitives C SlotTy] (isActive : ℕ) :
    List SlotTy → (stateVars accs next : List ℕ) → Emit C (List ℕ)
  | [], _, _, _ => pure []
  | ty :: tys, stateVar :: stateVars, acc :: accs, next :: nexts => do
      let acc ← accumulateSlot isActive ty stateVar acc next
      let accs ← accumulateState isActive tys stateVars accs nexts
      pure (acc :: accs)
  | _ :: _, _, _, _ => failure

/-- The return slots, summed from zero. -/
def accumulateReturns [DispatchSlotPrimitives C SlotTy] (isActive : ℕ) :
    List SlotTy → (accs vals : List ℕ) → Emit C (List ℕ)
  | [], _, _ => pure []
  | ty :: tys, acc :: accs, val :: vals => do
      let g ← emitGate isActive val ty
      let acc ← emitFieldAdd acc g ty
      let accs ← accumulateReturns isActive tys accs vals
      pure (acc :: accs)
  | _ :: _, _, _ => failure

/-- One block's contribution to the running sums. -/
def accumulate [DispatchSlotPrimitives C SlotTy] (stateVars : List ℕ)
    (stateSlotTypes returnSlotTypes : List SlotTy) (acc : TermResult) (br : BlockResult) :
    Emit C TermResult := do
  let g ← emitAndBit br.isActive br.term.done
  let done ← emitXorBit acc.done g
  let nextPcBits ← accumulateBits br.isActive acc.nextPcBits br.term.nextPcBits
  let nextState ← accumulateState br.isActive stateSlotTypes stateVars acc.nextState
    br.term.nextState
  let retVals ← accumulateReturns br.isActive returnSlotTypes acc.retVals br.term.retVals
  pure ⟨done, nextPcBits, nextState, retVals⟩

section
variable [MovfuscCtx C Blocks SlotTy]
open MovfuscCtx

def emitBlock (blocks : Blocks) (pcWidth : ℕ) (stateVars : List ℕ)
    (stateSlotTypes returnSlotTypes : List SlotTy) (i : ℕ) : Emit C BlockResult := do
  let isActive ← emitIsBlock (List.range pcWidth) i
  let blockVals ← emitBlockStmts blocks i stateVars isActive
  let term ← emitBlockTerminator blocks i blockVals pcWidth stateSlotTypes returnSlotTypes
  pure ⟨isActive, term⟩

/-- Everything the combined block computes: its exit flag, its loop vars and its results. -/
def emitStep (blocks : Blocks) (pcWidth : ℕ) (stateSlotTypes returnSlotTypes : List SlotTy) :
    Emit C TermResult := do
  let stateVars := List.range' pcWidth stateSlotTypes.length
  let bitZero ← emitZeroBit
  let results ← (List.range (numBlocks C blocks)).mapM
    (emitBlock blocks pcWidth stateVars stateSlotTypes returnSlotTypes)
  let retVals ← returnSlotTypes.mapM emitZeroSlot
  let seed : TermResult := ⟨bitZero, List.replicate pcWidth bitZero, stateVars, retVals⟩
  results.foldlM (accumulate stateVars stateSlotTypes returnSlotTypes) seed

/-- `movfuscate`; an empty block list is a panic. -/
def movfuscate (ctx : C) (blocks : Blocks) (stateSlotTypes returnSlotTypes : List SlotTy) :
    Option Blocks :=
  let n := numBlocks C blocks
  if n = 0 then none
  else if n = 1 then some blocks
  else do
    let pcWidth := pcBitsNeeded n
    let (out, ctx) ← (emitStep blocks pcWidth stateSlotTypes returnSlotTypes).run ctx
    pure (buildOutput ctx (pcWidth + stateSlotTypes.length) out.done
      (out.nextPcBits ++ out.nextState) out.retVals)

end
end

/-- What a block's results hold: its exit flag, the bits of the next PC, the next state
and the returned values. -/
structure StepResult (V : Type) where
  done : Bool
  nextPc : List Bool
  nextState : List V
  ret : List V

section
variable {C Blocks SlotTy V : Type}

def Reading.slots (R : Reading C SlotTy V) (c : C) : List SlotTy → List ℕ → List V → Prop
  | [], [], [] => True
  | ty :: tys, v :: vs, x :: xs => R.slot c ty v x ∧ R.slots c tys vs xs
  | _, _, _ => False

theorem Reading.slots_iff {R : Reading C SlotTy V} {c : C} {tys : List SlotTy} {vs : List ℕ}
    {xs : List V} : R.slots c tys vs xs ↔ vs.length = tys.length ∧ xs.length = tys.length ∧
      ∀ (i : ℕ) ty v x, tys[i]? = some ty → vs[i]? = some v → xs[i]? = some x →
        R.slot c ty v x := by
  induction tys generalizing vs xs with
  | nil =>
      match vs, xs with
      | [], [] => simp [Reading.slots]
      | _ :: _, _ => simp [Reading.slots]
      | [], _ :: _ => simp [Reading.slots]
  | cons ty tys ih =>
      match vs, xs with
      | [], _ => simp [Reading.slots]
      | _ :: _, [] => simp [Reading.slots]
      | v :: vs, x :: xs =>
          simp only [Reading.slots, ih, List.length_cons, Nat.add_right_cancel_iff]
          constructor
          · rintro ⟨hhead, hvs, hxs, hall⟩
            refine ⟨hvs, hxs, ?_⟩
            intro i ty' v' x' hty hv hx
            cases i with
            | zero =>
                cases hty
                cases hv
                cases hx
                exact hhead
            | succ i => exact hall i ty' v' x' hty hv hx
          · rintro ⟨hvs, hxs, hall⟩
            exact ⟨hall 0 ty v x rfl rfl rfl, hvs, hxs, fun i => hall (i + 1)⟩

/-- The vars of a result hold the values of another. -/
structure Reading.Holds (R : Reading C SlotTy V) (c : C) (pcWidth : ℕ)
    (stateSlotTypes returnSlotTypes : List SlotTy) (t : TermResult) (m : StepResult V) : Prop where
  width : m.nextPc.length = pcWidth
  done : R.bit c t.done m.done
  nextPc : List.Forall₂ (R.bit c) t.nextPcBits m.nextPc
  nextState : R.slots c stateSlotTypes t.nextState m.nextState
  ret : R.slots c returnSlotTypes t.retVals m.ret

def Reading.seed (R : Reading C SlotTy V) (pcWidth : ℕ) (returnSlotTypes : List SlotTy)
    (state : List V) : StepResult V :=
  ⟨false, List.replicate pcWidth false, state, returnSlotTypes.map R.zero⟩

namespace Reading.Lawful
variable [DispatchSlotPrimitives C SlotTy] {R : Reading C SlotTy V} {c d : C}
  {stateSlotTypes returnSlotTypes : List SlotTy} {pcWidth : ℕ}

theorem slots_mono (h : R.Lawful) (hg : R.grows c d) {tys : List SlotTy} {vs : List ℕ}
    {xs : List V} (hs : R.slots c tys vs xs) : R.slots d tys vs xs := by
  induction tys generalizing vs xs with
  | nil =>
      match vs, xs, hs with
      | [], [], _ => trivial
  | cons ty tys ih =>
      match vs, xs, hs with
      | _ :: _, _ :: _, hs => exact ⟨h.slot_mono hg hs.1, ih hs.2⟩

theorem holds_mono (h : R.Lawful) (hg : R.grows c d) {t : TermResult} {m : StepResult V}
    (ht : R.Holds c pcWidth stateSlotTypes returnSlotTypes t m) :
    R.Holds d pcWidth stateSlotTypes returnSlotTypes t m where
  width := ht.width
  done := h.bit_mono hg ht.done
  nextPc := ht.nextPc.imp fun _ _ hv => h.bit_mono hg hv
  nextState := h.slots_mono hg ht.nextState
  ret := h.slots_mono hg ht.ret

/-- A gated sum of bits from zero: the active block's bits, or the sum so far. -/
theorem accumulateBits (h : R.Lawful) {isActive : ℕ} {x : Bool} {accs bits : List ℕ}
    {as bs : List Bool} (hc : R.ok c) (hx : R.bit c isActive x)
    (ha : List.Forall₂ (R.bit c) accs as) (hb : List.Forall₂ (R.bit c) bits bs)
    (hlen : as.length = bs.length)
    (hfirst : x = true → as = List.replicate as.length false) :
    Ensures (accumulateBits isActive accs bits) c fun vs d =>
      R.quiet c d ∧ List.Forall₂ (R.bit d) vs (if x then bs else as) := by
  induction accs generalizing c bits as bs with
  | nil =>
      cases ha
      obtain rfl := List.length_eq_zero_iff.mp hlen.symm
      rw [Movfuscate.accumulateBits, ensures_pure, ite_self]
      exact ⟨h.quiet_refl hc, .nil⟩
  | cons acc accs ih =>
      cases ha with
      | @cons _ a _ as hacc ha =>
          cases hb with
          | nil => cases hlen
          | @cons bit b bits bs hbit hb =>
              rw [Movfuscate.accumulateBits]
              apply (h.andBit hc hx hbit).bind
              intro g d ⟨hqd, hg⟩
              apply (h.xorBit (h.quiet_ok hqd) (h.bit_quiet hqd hacc) hg).bind
              intro acc' e ⟨hqe, hacc'⟩
              have hq := h.quiet_trans hqd hqe
              have hfirst' : x = true → as = List.replicate as.length false := fun hx =>
                (List.cons.inj (hfirst hx)).2
              have hrest := ih (h.quiet_ok hqe) (h.bit_quiet hq hx)
                (ha.imp fun _ _ hv => h.bit_quiet hq hv)
                (hb.imp fun _ _ hv => h.bit_quiet hq hv) (Nat.succ.inj hlen) hfirst'
              apply hrest.bind
              intro vs f ⟨hqf, hvs⟩
              rw [ensures_pure]
              refine ⟨h.quiet_trans hq hqf, ?_⟩
              have hhead := h.bit_quiet hqf hacc'
              cases x with
              | true =>
                  have hzero : a = false := (List.cons.inj (hfirst rfl)).1
                  subst hzero
                  exact .cons (by simpa using hhead) hvs
              | false => exact .cons (by simpa using hhead) hvs

theorem accumulateSlot (h : R.Lawful) {isActive : ℕ} {x : Bool} {ty : SlotTy}
    {stateVar acc next : ℕ} {s a n : V} (hc : R.ok c) (hx : R.bit c isActive x)
    (hs : R.slot c ty stateVar s) (ha : R.slot c ty acc a) (hn : R.slot c ty next n)
    (hfirst : x = true → a = s) :
    Ensures (accumulateSlot isActive ty stateVar acc next) c fun v d =>
      R.quiet c d ∧ R.slot d ty v (if x then n else a) := by
  unfold Movfuscate.accumulateSlot
  split
  · next heq =>
      subst heq
      rw [ensures_pure]
      refine ⟨h.quiet_refl hc, ?_⟩
      cases x with
      | true =>
          rw [if_pos rfl, h.slot_unique hn hs, ← hfirst rfl]
          exact ha
      | false => exact ha
  · apply (h.fieldAdd hc hn hs).bind
    intro diff d ⟨hqd, hdiff⟩
    apply (h.gate (h.quiet_ok hqd) (h.bit_quiet hqd hx) hdiff).bind
    intro g e ⟨hqe, hg⟩
    have hq := h.quiet_trans hqd hqe
    apply (h.fieldAdd (h.quiet_ok hqe) (h.slot_quiet hq ha) hg).mono
    intro v f ⟨hqf, hv⟩
    refine ⟨h.quiet_trans hq hqf, ?_⟩
    cases x with
    | true =>
        rw [if_pos rfl, hfirst rfl, h.cancel_add hs hn] at hv
        exact hv
    | false =>
        rw [if_neg Bool.false_ne_true, h.add_zero ha] at hv
        exact hv

/-- The sums of the state slots start at the incoming values. -/
theorem accumulateState (h : R.Lawful) {isActive : ℕ} {x : Bool} {tys : List SlotTy}
    {stateVars accs nexts : List ℕ} {ss as ns : List V} (hc : R.ok c)
    (hx : R.bit c isActive x) (hs : R.slots c tys stateVars ss) (ha : R.slots c tys accs as)
    (hn : R.slots c tys nexts ns) (hfirst : x = true → as = ss) :
    Ensures (accumulateState isActive tys stateVars accs nexts) c fun vs d =>
      R.quiet c d ∧ R.slots d tys vs (if x then ns else as) := by
  induction tys generalizing c stateVars accs nexts ss as ns with
  | nil =>
      match stateVars, accs, nexts, ss, as, ns, hs, ha, hn with
      | [], [], [], [], [], [], _, _, _ =>
          rw [Movfuscate.accumulateState, ensures_pure, ite_self]
          exact ⟨h.quiet_refl hc, trivial⟩
  | cons ty tys ih =>
      match stateVars, accs, nexts, ss, as, ns, hs, ha, hn with
      | stateVar :: stateVars, acc :: accs, next :: nexts, s :: ss, a :: as, n :: ns,
          hs, ha, hn =>
        rw [Movfuscate.accumulateState]
        have hone := h.accumulateSlot hc hx hs.1 ha.1 hn.1 fun hx =>
          (List.cons.inj (hfirst hx)).1
        apply hone.bind
        intro v d ⟨hqd, hv⟩
        have hg := h.quiet_grows hqd
        have hrest := ih (h.quiet_ok hqd) (h.bit_quiet hqd hx) (h.slots_mono hg hs.2)
          (h.slots_mono hg ha.2) (h.slots_mono hg hn.2) fun hx => (List.cons.inj (hfirst hx)).2
        apply hrest.bind
        intro vs e ⟨hqe, hvs⟩
        rw [ensures_pure]
        refine ⟨h.quiet_trans hqd hqe, ?_⟩
        have hhead := h.slot_quiet hqe hv
        cases x with
        | true => exact ⟨hhead, hvs⟩
        | false => exact ⟨hhead, hvs⟩

/-- The sums of the return slots start at zero. -/
theorem accumulateReturns (h : R.Lawful) {isActive : ℕ} {x : Bool} {tys : List SlotTy}
    {accs vals : List ℕ} {as rs : List V} (hc : R.ok c) (hx : R.bit c isActive x)
    (ha : R.slots c tys accs as) (hr : R.slots c tys vals rs)
    (hfirst : x = true → as = tys.map R.zero) :
    Ensures (accumulateReturns isActive tys accs vals) c fun vs d =>
      R.quiet c d ∧ R.slots d tys vs (if x then rs else as) := by
  induction tys generalizing c accs vals as rs with
  | nil =>
      match accs, vals, as, rs, ha, hr with
      | [], [], [], [], _, _ =>
          rw [Movfuscate.accumulateReturns, ensures_pure, ite_self]
          exact ⟨h.quiet_refl hc, trivial⟩
  | cons ty tys ih =>
      match accs, vals, as, rs, ha, hr with
      | acc :: accs, val :: vals, a :: as, r :: rs, ha, hr =>
        rw [Movfuscate.accumulateReturns]
        apply (h.gate hc hx hr.1).bind
        intro g d ⟨hqd, hg⟩
        apply (h.fieldAdd (h.quiet_ok hqd) (h.slot_quiet hqd ha.1) hg).bind
        intro v e ⟨hqe, hv⟩
        have hq := h.quiet_trans hqd hqe
        have hgrows := h.quiet_grows hq
        have hrest := ih (h.quiet_ok hqe) (h.bit_quiet hq hx) (h.slots_mono hgrows ha.2)
          (h.slots_mono hgrows hr.2) fun hx => (List.cons.inj (hfirst hx)).2
        apply hrest.bind
        intro vs f ⟨hqf, hvs⟩
        rw [ensures_pure]
        refine ⟨h.quiet_trans hq hqf, ?_⟩
        have hhead := h.slot_quiet hqf hv
        cases x with
        | true =>
            rw [if_pos rfl, (List.cons.inj (hfirst rfl)).1, h.zero_add hr.1] at hhead
            exact ⟨hhead, hvs⟩
        | false =>
            rw [if_neg Bool.false_ne_true, h.add_zero ha.1] at hhead
            exact ⟨hhead, hvs⟩

/-- The sums after one more block: its own results if it is the active one. -/
theorem accumulate (h : R.Lawful) {stateVars : List ℕ} {acc : TermResult} {br : BlockResult}
    {x : Bool} {state : List V} {a t : StepResult V} (hc : R.ok c)
    (hx : R.bit c br.isActive x) (hs : R.slots c stateSlotTypes stateVars state)
    (ha : R.Holds c pcWidth stateSlotTypes returnSlotTypes acc a)
    (ht : R.Holds c pcWidth stateSlotTypes returnSlotTypes br.term t)
    (hfirst : x = true → a = R.seed pcWidth returnSlotTypes state) :
    Ensures (accumulate stateVars stateSlotTypes returnSlotTypes acc br) c fun out d =>
      R.quiet c d ∧
        R.Holds d pcWidth stateSlotTypes returnSlotTypes out (if x then t else a) := by
  unfold Movfuscate.accumulate
  apply (h.andBit hc hx ht.done).bind
  intro g d ⟨hqd, hg⟩
  apply (h.xorBit (h.quiet_ok hqd) (h.bit_quiet hqd ha.done) hg).bind
  intro done e ⟨hqe, hdone⟩
  have hqe := h.quiet_trans hqd hqe
  have hbits : Ensures (Movfuscate.accumulateBits br.isActive acc.nextPcBits br.term.nextPcBits) e
      fun vs f => R.quiet e f ∧
        List.Forall₂ (R.bit f) vs (if x then t.nextPc else a.nextPc) := by
    apply h.accumulateBits (h.quiet_ok hqe) (h.bit_quiet hqe hx)
    · exact ha.nextPc.imp fun _ _ hv => h.bit_quiet hqe hv
    · exact ht.nextPc.imp fun _ _ hv => h.bit_quiet hqe hv
    · rw [ha.width, ht.width]
    · intro hx
      rw [ha.width, hfirst hx]
      rfl
  apply hbits.bind
  intro nextPc f ⟨hef, hnextPc⟩
  have hqf := h.quiet_trans hqe hef
  have hgf := h.quiet_grows hqf
  have hstate := h.accumulateState (h.quiet_ok hqf) (h.bit_quiet hqf hx) (h.slots_mono hgf hs)
    (h.slots_mono hgf ha.nextState) (h.slots_mono hgf ht.nextState) fun hx => by
      rw [hfirst hx]
      rfl
  apply hstate.bind
  intro nextState i ⟨hfi, hnextState⟩
  have hqi := h.quiet_trans hqf hfi
  have hgi := h.quiet_grows hqi
  have hret := h.accumulateReturns (h.quiet_ok hqi) (h.bit_quiet hqi hx)
    (h.slots_mono hgi ha.ret) (h.slots_mono hgi ht.ret) fun hx => by
      rw [hfirst hx]
      rfl
  apply hret.bind
  intro retVals j ⟨hij, hretVals⟩
  rw [ensures_pure]
  refine ⟨h.quiet_trans hqi hij, ?_⟩
  have hfj := h.quiet_trans hfi hij
  have hdone := h.bit_quiet (h.quiet_trans hef hfj) hdone
  have hnextPc := hnextPc.imp fun _ _ hv => h.bit_quiet hfj hv
  have hnextState := h.slots_mono (h.quiet_grows hij) hnextState
  cases x with
  | true =>
      rw [hfirst rfl] at hdone
      exact ⟨ht.width, by simpa [Reading.seed] using hdone, hnextPc, hnextState, hretVals⟩
  | false => exact ⟨ha.width, by simpa using hdone, hnextPc, hnextState, hretVals⟩

end Reading.Lawful

section
variable (R : Reading C SlotTy V) (phase : Bool → C → Prop) (cur pcWidth : ℕ)
  (stateSlotTypes returnSlotTypes : List SlotTy) (m : StepResult V)

def Reading.KeepsPhase : Prop := ∀ ⦃b c d⦄, R.quiet c d → phase b c → phase b d

/-- Block `i` has computed something, and block `cur` has computed `m`. -/
def Reading.BlockHolds (c : C) (i : ℕ) (t : TermResult) : Prop :=
  ∃ m', (i = cur → m' = m) ∧ R.Holds c pcWidth stateSlotTypes returnSlotTypes t m'

/-- The first `n` blocks have been emitted after `c`. -/
structure Reading.Emitted (c : C) (n : ℕ) (results : List BlockResult) (d : C) : Prop where
  grows : R.grows c d
  ok : R.ok d
  phase : phase (decide (cur < n)) d
  length : results.length = n
  active : ∀ i br, results[i]? = some br → R.bit d br.isActive (decide (i = cur))
  holds : ∀ i br, results[i]? = some br →
    R.BlockHolds cur pcWidth stateSlotTypes returnSlotTypes m d i br.term

end

theorem getElem?_snoc {α : Type} {xs : List α} {x y : α} {i : ℕ}
    (h : (xs ++ [x])[i]? = some y) : xs[i]? = some y ∨ i = xs.length ∧ x = y := by
  rw [List.getElem?_append] at h
  split at h
  · exact .inl h
  · next hi =>
      obtain ⟨hlt, heq⟩ := List.getElem?_eq_some_iff.mp h
      rw [List.length_singleton] at hlt
      rw [List.getElem_singleton] at heq
      exact .inr ⟨by omega, heq⟩

theorem forall₂_replicate {α β : Type} {r : α → β → Prop} {a : α} {b : β} (h : r a b) (n : ℕ) :
    List.Forall₂ r (List.replicate n a) (List.replicate n b) := by
  induction n with
  | zero => exact .nil
  | succ n ih => exact .cons h ih

theorem getElem?_of_snoc_prefix {α : Type} {done xs : List α} {x : α}
    (h : done ++ [x] <+: xs) : xs[done.length]? = some x := by
  obtain ⟨rest, rfl⟩ := h
  simp

section
variable [MovfuscCtx C Blocks SlotTy] {R : Reading C SlotTy V} {phase : Bool → C → Prop}
  {stateSlotTypes returnSlotTypes : List SlotTy} {cur pcWidth : ℕ} {m : StepResult V} {c d : C}
  {blocks : Blocks} {state : List V}
open MovfuscCtx

/-- What the caller has to know of each block: emitted under its decoder, its statements
move the phase on if it is the current block, and its results hold something. -/
def Reading.BlockEnsures (R : Reading C SlotTy V) (phase : Bool → C → Prop) (cur pcWidth : ℕ)
    (stateSlotTypes returnSlotTypes : List SlotTy) (m : StepResult V) (blocks : Blocks) (c : C)
    (i : ℕ) : Prop :=
  ∀ d isActive, R.grows c d → R.ok d → phase (decide (cur < i)) d →
    R.bit d isActive (decide (i = cur)) →
    Ensures (do
      let blockVals ← emitBlockStmts blocks i (List.range' pcWidth stateSlotTypes.length) isActive
      emitBlockTerminator blocks i blockVals pcWidth stateSlotTypes returnSlotTypes) d
      fun t e => R.grows d e ∧ R.ok e ∧ phase (decide (cur < i + 1)) e ∧
        R.BlockHolds cur pcWidth stateSlotTypes returnSlotTypes m e i t

theorem Reading.BlockHolds.mono (h : R.Lawful) (hg : R.grows c d) {i : ℕ} {t : TermResult}
    (ht : R.BlockHolds cur pcWidth stateSlotTypes returnSlotTypes m c i t) :
    R.BlockHolds cur pcWidth stateSlotTypes returnSlotTypes m d i t := by
  obtain ⟨m', hm', hholds⟩ := ht
  exact ⟨m', hm', h.holds_mono hg hholds⟩

namespace Reading.Lawful

/-- All blocks are emitted, each under its own decoder. -/
theorem emitBlocks (h : R.Lawful) (hphase : R.KeepsPhase phase)
    (hcur : cur < numBlocks C blocks) (hn : numBlocks C blocks ≤ 2 ^ pcWidth) (hc : R.ok c)
    (hbefore : phase false c)
    (hpc : List.Forall₂ (R.bit c) (List.range pcWidth) ((List.range pcWidth).map cur.testBit))
    (hblock : ∀ i < numBlocks C blocks, R.BlockEnsures phase cur pcWidth stateSlotTypes
      returnSlotTypes m blocks c i) :
    Ensures ((List.range (numBlocks C blocks)).mapM (emitBlock blocks pcWidth
      (List.range' pcWidth stateSlotTypes.length) stateSlotTypes returnSlotTypes)) c
      (R.Emitted phase cur pcWidth stateSlotTypes returnSlotTypes m c (numBlocks C blocks)) := by
  apply ensures_mapM_range
    (R.Emitted phase cur pcWidth stateSlotTypes returnSlotTypes m c)
  · exact ⟨h.grows_refl c, hc, by simpa using hbefore, rfl, fun i br hbr => by simp at hbr,
      fun i br hbr => by simp at hbr⟩
  · intro i hi results d hd
    unfold emitBlock
    have hpc' := hpc.imp fun _ _ hv => h.bit_mono hd.grows hv
    apply (h.isBlock hd.ok hpc' (hi.trans_le hn) (hcur.trans_le hn)).bind
    intro isActive e ⟨hqe, hactive⟩
    have hge := h.grows_trans hd.grows (h.quiet_grows hqe)
    have hrun := hblock i hi e isActive hge (h.quiet_ok hqe) (hphase hqe hd.phase) hactive
    rw [← bind_assoc]
    apply hrun.bind
    intro t f ⟨hgf, hokf, hpf, hterm⟩
    rw [ensures_pure]
    have hgdf := h.grows_trans (h.quiet_grows hqe) hgf
    have hcases : ∀ j br, (results ++ [⟨isActive, t⟩])[j]? = some br →
        results[j]? = some br ∨ j = i ∧ br = ⟨isActive, t⟩ := fun j br hbr => by
      rcases getElem?_snoc hbr with hbr | ⟨hj, hbr⟩
      · exact .inl hbr
      · exact .inr ⟨hj.trans hd.length, hbr.symm⟩
    refine ⟨h.grows_trans hd.grows hgdf, hokf, hpf, by simp [hd.length], ?_, ?_⟩
    · intro j br hbr
      rcases hcases j br hbr with hbr | ⟨rfl, rfl⟩
      · exact h.bit_mono hgdf (hd.active j br hbr)
      · exact h.bit_mono hgf hactive
    · intro j br hbr
      rcases hcases j br hbr with hbr | ⟨rfl, rfl⟩
      · exact (hd.holds j br hbr).mono h hgdf
      · exact hterm

/-- The sums pick out the results of the current block. -/
theorem sumBlocks (h : R.Lawful) {n : ℕ} {results : List BlockResult} {seed : TermResult}
    (hcur : cur < n) (hd : R.Emitted phase cur pcWidth stateSlotTypes returnSlotTypes m c n
      results d)
    (hq : R.quiet d d)
    (hstate : R.slots d stateSlotTypes (List.range' pcWidth stateSlotTypes.length) state)
    (hseed : R.Holds d pcWidth stateSlotTypes returnSlotTypes seed
      (R.seed pcWidth returnSlotTypes state)) :
    Ensures (results.foldlM (Movfuscate.accumulate (List.range' pcWidth stateSlotTypes.length)
      stateSlotTypes returnSlotTypes) seed) d fun out e =>
        R.quiet d e ∧ R.Holds e pcWidth stateSlotTypes returnSlotTypes out m := by
  have hsum : Ensures (results.foldlM (Movfuscate.accumulate
      (List.range' pcWidth stateSlotTypes.length) stateSlotTypes returnSlotTypes) seed) d
      fun out e => R.quiet d e ∧ R.Holds e pcWidth stateSlotTypes returnSlotTypes out
        (if cur < results.length then m else R.seed pcWidth returnSlotTypes state) := by
    apply ensures_foldlM fun done out e => R.quiet d e ∧
      R.Holds e pcWidth stateSlotTypes returnSlotTypes out
        (if cur < done.length then m else R.seed pcWidth returnSlotTypes state)
    · exact ⟨hq, by simpa using hseed⟩
    · intro done br acc e hpre ⟨hqe, hacc⟩
      have hbr := getElem?_of_snoc_prefix hpre
      have hge := h.quiet_grows hqe
      obtain ⟨m', hm', hterm⟩ := hd.holds done.length br hbr
      have hadd := h.accumulate (h.quiet_ok hqe) (h.bit_mono hge (hd.active done.length br hbr))
        (h.slots_mono hge hstate) hacc (h.holds_mono hge hterm) fun hx => by
          rw [decide_eq_true_eq] at hx
          rw [if_neg (by omega)]
      apply hadd.mono
      intro out f ⟨hqf, hout⟩
      refine ⟨h.quiet_trans hqe hqf, ?_⟩
      rw [List.length_append, List.length_singleton]
      rcases Nat.lt_trichotomy cur done.length with hlt | heq | hgt
      · rw [decide_eq_false (by omega), if_neg Bool.false_ne_true, if_pos hlt] at hout
        rwa [if_pos (by omega)]
      · rw [decide_eq_true heq.symm, if_pos rfl, hm' heq.symm] at hout
        rwa [if_pos (by omega)]
      · rw [decide_eq_false (by omega), if_neg Bool.false_ne_true, if_neg (by omega)] at hout
        rwa [if_neg (by omega)]
  apply hsum.mono
  intro out e ⟨hqe, hout⟩
  rw [hd.length, if_pos hcur] at hout
  exact ⟨hqe, hout⟩

theorem zeroSlots (h : R.Lawful) (hc : R.ok c) {tys : List SlotTy} (hfits : ∀ ty ∈ tys, R.fits ty) :
    Ensures (tys.mapM emitZeroSlot) c fun vs d =>
      R.quiet c d ∧ R.slots d tys vs (tys.map R.zero) := by
  induction tys generalizing c with
  | nil =>
      rw [List.mapM_nil, ensures_pure]
      exact ⟨h.quiet_refl hc, trivial⟩
  | cons ty tys ih =>
      rw [List.mapM_cons]
      apply (h.zeroSlot (hfits ty List.mem_cons_self) hc).bind
      intro v d ⟨hqd, hv⟩
      apply (ih (h.quiet_ok hqd) fun t ht => hfits t (List.mem_cons_of_mem ty ht)).bind
      intro vs e ⟨hqe, hvs⟩
      rw [ensures_pure]
      exact ⟨h.quiet_trans hqd hqe, h.slot_quiet hqe hv, hvs⟩

/-- With the PC at `cur`, the step circuit computes what block `cur` computes. `phase`
follows what the blocks' statements do to the world: `false` before block `cur` has run,
`true` after. -/
theorem step (h : R.Lawful) (hphase : R.KeepsPhase phase)
    (hcur : cur < numBlocks C blocks) (hn : numBlocks C blocks ≤ 2 ^ pcWidth) (hc : R.ok c)
    (hbefore : phase false c)
    (hpc : List.Forall₂ (R.bit c) (List.range pcWidth) ((List.range pcWidth).map cur.testBit))
    (hstate : R.slots c stateSlotTypes (List.range' pcWidth stateSlotTypes.length) state)
    (hret : ∀ ty ∈ returnSlotTypes, R.fits ty)
    (hblock : ∀ i < numBlocks C blocks, R.BlockEnsures phase cur pcWidth stateSlotTypes
      returnSlotTypes m blocks c i) :
    Ensures (emitStep blocks pcWidth stateSlotTypes returnSlotTypes) c fun out d =>
      R.grows c d ∧ R.ok d ∧ phase true d ∧
        R.Holds d pcWidth stateSlotTypes returnSlotTypes out m := by
  unfold emitStep
  apply (h.zeroBit hc).bind
  intro bitZero d ⟨hqd, hzero⟩
  have hgd := h.quiet_grows hqd
  have hblock' : ∀ i < numBlocks C blocks, R.BlockEnsures phase cur pcWidth stateSlotTypes
      returnSlotTypes m blocks d i := fun i hi e isActive hge =>
    hblock i hi e isActive (h.grows_trans hgd hge)
  have hpc' := hpc.imp fun _ _ hv => h.bit_mono hgd hv
  have hresults := h.emitBlocks hphase hcur hn (h.quiet_ok hqd) (hphase hqd hbefore) hpc' hblock'
  apply hresults.bind
  intro results e he
  apply (h.zeroSlots he.ok hret).bind
  intro retVals f ⟨hqf, hretVals⟩
  have hgef := h.quiet_grows hqf
  have hgdf := h.grows_trans he.grows hgef
  have hf : R.Emitted phase cur pcWidth stateSlotTypes returnSlotTypes m d (numBlocks C blocks)
      results f :=
    { grows := hgdf
      ok := h.quiet_ok hqf
      phase := hphase hqf he.phase
      length := he.length
      active := fun i br hbr => h.bit_mono hgef (he.active i br hbr)
      holds := fun i br hbr => (he.holds i br hbr).mono h hgef }
  have hstate' := h.slots_mono (h.grows_trans hgd hgdf) hstate
  have hseed : R.Holds f pcWidth stateSlotTypes returnSlotTypes
      ⟨bitZero, List.replicate pcWidth bitZero, List.range' pcWidth stateSlotTypes.length, retVals⟩
      (R.seed pcWidth returnSlotTypes state) :=
    { width := List.length_replicate
      done := h.bit_mono hgdf hzero
      nextPc := forall₂_replicate (h.bit_mono hgdf hzero) pcWidth
      nextState := hstate'
      ret := hretVals }
  apply (h.sumBlocks hcur hf (h.quiet_refl hf.ok) hstate' hseed).mono
  intro out g ⟨hqg, hout⟩
  have hphase' : phase true g := by
    have hp := hphase hqg hf.phase
    rwa [decide_eq_true hcur] at hp
  exact ⟨h.grows_trans (h.grows_trans hgd hgdf) (h.quiet_grows hqg), h.quiet_ok hqg, hphase', hout⟩

end Reading.Lawful
end
end

/-! ## Slot allocation

Which state slots of the combined block a parameter lives in. Parameters at one position
share their slot when their types agree, and a block-typed parameter takes one bit for each
bit of the PC. -/

open Ir

def isBlockType (types : TypeTable) (ty : TypeId) : Bool := (types.blockParams ty).isSome

inductive SlotSig where
  | block
  | scalar (tid : TypeId)
  deriving DecidableEq, Repr

def SlotSig.of (ty : TypeId) (types : TypeTable) (pcWidth : ℕ) (bitTypeId : TypeId) : SlotSig :=
  if isBlockType types ty then
    if pcWidth = 1 then .scalar bitTypeId else .block
  else .scalar ty

def SlotSig.slotCount (pcWidth : ℕ) : SlotSig → ℕ
  | .block => pcWidth
  | .scalar _ => 1

def SlotSig.slotTypes (pcWidth : ℕ) (bitTypeId : TypeId) : SlotSig → List TypeId
  | .block => List.replicate pcWidth bitTypeId
  | .scalar tid => [tid]

structure SlotGroup where
  sig : SlotSig
  offset : ℕ
  count : ℕ
  deriving DecidableEq, Repr

/-- Groups are numbered by the slots they take, so the next offset is the number of slots
so far. -/
structure SlotClasses where
  stateSlotTypes : List TypeId
  slotOf : List (List (ℕ × ℕ))
  sigFallback : SortedMap (List ℕ) (List (ℕ × ℕ))

section
variable {P : Type} (types : TypeTable) (bitTypeId : TypeId) (pcWidth : ℕ)

/-- Make a group for one more parameter unless there is one for its signature. -/
def addGroup (groups : List SlotGroup) (slots : List TypeId) (ty : TypeId) :
    List SlotGroup × List TypeId :=
  let sig := SlotSig.of ty types pcWidth bitTypeId
  if groups.any fun g => g.sig = sig then (groups, slots)
  else (groups ++ [⟨sig, slots.length, sig.slotCount pcWidth⟩],
    slots ++ sig.slotTypes pcWidth bitTypeId)

/-- The groups at position `k`, in the order of the blocks. -/
def groupsAt (blocks : List (IRBlock P)) (k : ℕ) (slots : List TypeId) :
    List SlotGroup × List TypeId :=
  blocks.foldl (fun acc b => match b.params[k]? with
    | none => acc
    | some ty => addGroup types bitTypeId pcWidth acc.1 acc.2 ty) ([], slots)

/-- The groups at the first `n` positions. -/
def positionGroups (blocks : List (IRBlock P)) : (n : ℕ) → List (List SlotGroup) × List TypeId
  | 0 => ([], [])
  | n + 1 =>
      let acc := positionGroups blocks n
      let here := groupsAt types bitTypeId pcWidth blocks n acc.2
      (acc.1 ++ [here.1], here.2)

/-- The slots of the parameters from position `p` on; one without a group is a panic. -/
def resolveSlots (positions : List (List SlotGroup)) : (p : ℕ) → List TypeId →
    Option (List (ℕ × ℕ))
  | _, [] => some []
  | p, ty :: tys => do
      let groups ← positions[p]?
      let g ← groups.find? fun g => g.sig = SlotSig.of ty types pcWidth bitTypeId
      let rest ← resolveSlots positions (p + 1) tys
      some ((g.offset, g.count) :: rest)

def signatureSlots (blocks : List (IRBlock P)) (slotOf : List (List (ℕ × ℕ))) :
    SortedMap (List ℕ) (List (ℕ × ℕ)) :=
  (blocks.zip slotOf).foldl (fun m e =>
    m.upsert (e.1.params.map TypeId.id) fun old => old.getD e.2) .empty

/-- `compute_static_slot_classes`. -/
def computeStaticSlotClasses (blocks : IRBlocks P) : Option SlotClasses := do
  let maxParamCount := (blocks.blocks.map fun b => b.params.length).foldr max 0
  let (positions, slots) := positionGroups types bitTypeId pcWidth blocks.blocks maxParamCount
  let slotOf ← blocks.blocks.mapM fun b =>
    resolveSlots types bitTypeId pcWidth positions 0 b.params
  some ⟨slots, slotOf, signatureSlots blocks.blocks slotOf⟩

/-- A statement that only stores counts as a bit. -/
def inferStmtResultType (bitTypeId : TypeId) (stmt : IRStmt) : TypeId :=
  stmt.outputType.getD bitTypeId

def inferBlockVarTypes (bitTypeId : TypeId) (block : IRBlock P) : List TypeId :=
  block.params ++ block.kinds.map (inferStmtResultType bitTypeId)

/-- The vars that a block's own `Return` edge passes; jump tables are not looked at. -/
def returnArgs : IRTerminator → Option (List ℕ)
  | .jmp ⟨.ret, args⟩ => some args
  | .jumpCond _ ⟨.ret, args⟩ _ => some args
  | .jumpCond _ _ ⟨.ret, args⟩ => some args
  | _ => none

def expandType (ty : TypeId) : List TypeId :=
  if isBlockType types ty then List.replicate pcWidth bitTypeId else [ty]

/-- `compute_return_slot_types`: the slots of the first `Return` edge found. -/
def computeReturnSlotTypes (blocks : IRBlocks P) : Option (List TypeId) :=
  match blocks.blocks.findSome? fun b => (returnArgs b.terminator).map fun args => (b, args) with
  | none => some []
  | some (b, args) => do
      let tys ← args.mapM fun v => (inferBlockVarTypes bitTypeId b)[v]?
      some (tys.flatMap (expandType types bitTypeId pcWidth))

end
end VolarIR.Movfuscate
