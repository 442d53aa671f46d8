import VolarIR.Movfuscate.Typed
import VolarIR.Movfuscate.Lanes

/-!
# What the typed dispatch gates compute

The vars of the combined block hold values of their types, and the gates and the slot
operations compute on them as the shared algorithm expects: slot values add by exclusive or.
-/
namespace VolarIR.Movfuscate
open Ir Stateful DispatchBitPrimitives DispatchSlotPrimitives

namespace IrCtx
variable {P : Type}

@[simp] theorem kinds_pushed (c : IrCtx P) (s : IRStmt) (ty : TypeId) :
    (c.pushed s ty).kinds = c.kinds ++ [s] := by
  simp [kinds, pushed, Node.new]

/-- What the config is made of: a bit type, the type of a stored block reference, a PC that
holds block ids, and values for the combined parameters. -/
structure Setup (g : IrConfig P) (x : List (List Bool)) : Prop where
  bit : g.irTypes.isBit g.bitTypeId = true
  ref : BinaryType g.irTypes g.vecPcTypeId
  refWidth : g.irTypes.bitWidth g.vecPcTypeId = g.pcWidth
  small : g.pcWidth ≤ 32
  length : x.length = g.combinedParamTypes.length

section
variable (world : Externals) (x : List (List Bool)) (σ : EvalState) (g : IrConfig P)

/-- The statements emitted so far, run from the combined block's parameters `x`. -/
def frame (c : IrCtx P) : Ssa.Frame Value EvalState :=
  (language g.irTypes world).run ⟨paramValues g.combinedParamTypes x, σ⟩ c.kinds

structure Ok (c : IrCtx P) : Prop where
  config : c.config = g
  nextId : c.nextId = g.combinedParamTypes.length + c.kinds.length
  varTypes : c.varTypes.length = c.nextId

structure Grows (c d : IrCtx P) : Prop where
  kinds : c.kinds <+: d.kinds
  varTypes : c.varTypes <+: d.varTypes

structure Holds (c : IrCtx P) (v : ℕ) (val : Value) : Prop where
  lt : v < (frame world x σ g c).vals.length
  look : Ssa.look (frame world x σ g c).vals v = val

structure HasBit (c : IrCtx P) (v : ℕ) (b : Bool) : Prop where
  lt : v < (frame world x σ g c).vals.length
  value : IsBitValue g.irTypes (Ssa.look (frame world x σ g c).vals v) b
  type : ∃ ty, c.varTypes[v]? = some ty ∧ g.irTypes.isBit ty = true

structure HasSlot (c : IrCtx P) (ty : TypeId) (v : ℕ) (bits : List Bool) : Prop where
  binary : BinaryType g.irTypes ty
  lt : v < (frame world x σ g c).vals.length
  value : IsValue g.irTypes ty (Ssa.look (frame world x σ g c).vals v) bits
  type : c.varTypes[v]? = some ty

structure Quiet (c d : IrCtx P) : Prop where
  ok : d.Ok g
  grows : Grows c d
  st : (frame world x σ g d).st = (frame world x σ g c).st
  tracked : d.blockVarToBits = c.blockVarToBits

def zeroBits (types : TypeTable) (ty : TypeId) : List Bool :=
  List.replicate (types.bitWidth ty) false

def reading : Reading (IrCtx P) TypeId (List Bool) where
  ok c := c.Ok g
  bit := HasBit world x σ g
  slot := HasSlot world x σ g
  fits ty := BinaryType g.irTypes ty
  grows := Grows
  quiet := Quiet world x σ g
  zero := zeroBits g.irTypes
  add _ := List.zipWith xor

end

section
variable {world : Externals} {x : List (List Bool)} {σ : EvalState} {g : IrConfig P}
  {c d : IrCtx P} {s : IRStmt} {ty : TypeId}

theorem Grows.refl (c : IrCtx P) : Grows c c := ⟨List.prefix_refl _, List.prefix_refl _⟩

theorem Grows.trans {e : IrCtx P} (h : Grows c d) (h' : Grows d e) : Grows c e :=
  ⟨h.kinds.trans h'.kinds, h.varTypes.trans h'.varTypes⟩

theorem Quiet.refl (hc : c.Ok g) : Quiet world x σ g c c := ⟨hc, .refl c, rfl, rfl⟩

theorem Quiet.trans {e : IrCtx P} (h : Quiet world x σ g c d) (h' : Quiet world x σ g d e) :
    Quiet world x σ g c e :=
  ⟨h'.ok, h.grows.trans h'.grows, h'.st.trans h.st, h'.tracked.trans h.tracked⟩

variable (world σ) in
theorem frame_length (hg : Setup g x) (hc : c.Ok g) :
    (frame world x σ g c).vals.length = c.nextId := by
  rw [frame, Ssa.Language.run_length, length_paramValues hg.length, hc.nextId]

section
variable {α : Type} {Q : α → IrCtx P → Prop}

theorem get_bind {k : IrCtx P → Emit (IrCtx P) α} (h : Ensures (k c) c Q) :
    Ensures (get >>= k) c Q := (ensures_get.mpr h).bind fun _ _ h => h

theorem modify_bind {f : IrCtx P → IrCtx P} {k : PUnit → Emit (IrCtx P) α}
    (h : Ensures (k ⟨⟩) (f c) Q) : Ensures (modify f >>= k) c Q :=
  (ensures_modifyGet (Q := fun a d => Ensures (k a) d Q) _ h).bind fun _ _ h => h

theorem getConfig_bind (hc : c.Ok g) {k : IrConfig P → Emit (IrCtx P) α}
    (h : Ensures (k g) c Q) : Ensures (getConfig >>= k) c Q := by
  unfold getConfig
  rw [bind_assoc]
  apply get_bind
  rw [pure_bind, hc.config]
  exact h

end

theorem look_grows (h : Grows c d) {v : ℕ} (hv : v < (frame world x σ g c).vals.length) :
    v < (frame world x σ g d).vals.length ∧
      Ssa.look (frame world x σ g d).vals v = Ssa.look (frame world x σ g c).vals v := by
  obtain ⟨rest, hrest⟩ := h.kinds
  constructor
  · rw [frame, ← hrest, Ssa.Language.run_append, Ssa.Language.run_length]
    exact Nat.lt_add_right _ hv
  · rw [frame, ← hrest, Ssa.Language.run_append]
    exact Ssa.Language.run_look _ hv

theorem getElem?_of_prefix {α : Type} {xs ys : List α} (h : xs <+: ys) {i : ℕ} {a : α}
    (ha : xs[i]? = some a) : ys[i]? = some a := by
  obtain ⟨rest, rfl⟩ := h
  rw [List.getElem?_append_left (List.getElem?_eq_some_iff.mp ha).1]
  exact ha

theorem Holds.mono {v : ℕ} {val : Value} (h : Holds world x σ g c v val) (hg : Grows c d) :
    Holds world x σ g d v val :=
  ⟨(look_grows hg h.lt).1, (look_grows hg h.lt).2.trans h.look⟩

theorem HasBit.mono {v : ℕ} {b : Bool} (h : HasBit world x σ g c v b) (hg : Grows c d) :
    HasBit world x σ g d v b := by
  obtain ⟨ty, hty, hbit⟩ := h.type
  refine ⟨(look_grows hg h.lt).1, ?_, ty, getElem?_of_prefix hg.varTypes hty, hbit⟩
  rw [(look_grows hg h.lt).2]
  exact h.value

theorem HasSlot.mono {v : ℕ} {bits : List Bool} (h : HasSlot world x σ g c ty v bits)
    (hg : Grows c d) : HasSlot world x σ g d ty v bits := by
  refine ⟨h.binary, (look_grows hg h.lt).1, ?_, getElem?_of_prefix hg.varTypes h.type⟩
  rw [(look_grows hg h.lt).2]
  exact h.value

theorem HasBit.unique {v : ℕ} {a b : Bool} (ha : HasBit world x σ g c v a)
    (hb : HasBit world x σ g c v b) : a = b := by
  have h := ha.value.bits.symm.trans hb.value.bits
  exact (List.cons.inj h).1

theorem HasSlot.unique {v : ℕ} {as bs : List Bool} (ha : HasSlot world x σ g c ty v as)
    (hb : HasSlot world x σ g c ty v bs) : as = bs := ha.value.bits.symm.trans hb.value.bits

theorem grows_pushed (c : IrCtx P) (s : IRStmt) (ty : TypeId) : Grows c (c.pushed s ty) := by
  constructor
  · rw [kinds_pushed]
    exact List.prefix_append _ _
  · exact List.prefix_append _ _

theorem Ok.pushed (hc : c.Ok g) (s : IRStmt) (ty : TypeId) : (c.pushed s ty).Ok g := by
  refine ⟨hc.config, ?_, ?_⟩
  · rw [kinds_pushed, List.length_append, List.length_singleton, ← Nat.add_assoc, ← hc.nextId]
    rfl
  · change (c.varTypes ++ [ty]).length = c.nextId + 1
    rw [List.length_append, hc.varTypes, List.length_singleton]

theorem frame_pushed (c : IrCtx P) (s : IRStmt) (ty : TypeId) :
    frame world x σ g (c.pushed s ty) =
      (language g.irTypes world).step (frame world x σ g c) s := by
  rw [frame, kinds_pushed, Ssa.Language.run_append]
  rfl

variable (world σ) in
theorem holds_pushed (hg : Setup g x) (hc : c.Ok g) (s : IRStmt) (ty : TypeId) :
    Holds world x σ g (c.pushed s ty) c.nextId (evalStmt g.irTypes world
      (frame world x σ g c).st (Ssa.look (frame world x σ g c).vals) s).1 := by
  have hlen := frame_length world σ hg hc
  constructor
  · rw [frame_pushed, Ssa.Language.step_length, hlen]
    exact Nat.lt_succ_self _
  · rw [frame_pushed, ← hlen]
    exact Ssa.look_append_length _ _

theorem varTypes_pushed (hc : c.Ok g) (s : IRStmt) (ty : TypeId) :
    (c.pushed s ty).varTypes[c.nextId]? = some ty := by
  change (c.varTypes ++ [ty])[c.nextId]? = some ty
  rw [← hc.varTypes]
  simp

theorem pushTyped_ensures (s : IRStmt) (ty : TypeId) :
    Ensures (pushTyped s ty) c fun v d => v = c.nextId ∧ d = c.pushed s ty :=
  ensures_modifyGet _ ⟨rfl, rfl⟩

theorem quiet_pushed (hc : c.Ok g) (ty : TypeId)
    (hs : (evalStmt g.irTypes world (frame world x σ g c).st
      (Ssa.look (frame world x σ g c).vals) s).2 = (frame world x σ g c).st) :
    Quiet world x σ g c (c.pushed s ty) := by
  refine ⟨hc.pushed s ty, grows_pushed c s ty, ?_, rfl⟩
  rw [frame_pushed]
  exact hs

theorem pushBit_ensures (hg : Setup g x) (hc : c.Ok g) {b : Bool} (hty : g.irTypes.isBit ty = true)
    (hs : evalStmt g.irTypes world (frame world x σ g c).st
      (Ssa.look (frame world x σ g c).vals) s = (⟨[b], some ty, []⟩, (frame world x σ g c).st)) :
    Ensures (pushTyped s ty) c fun v d => Quiet world x σ g c d ∧ HasBit world x σ g d v b := by
  apply (pushTyped_ensures s ty).mono
  rintro v d ⟨rfl, rfl⟩
  have hholds := holds_pushed world σ hg hc s ty
  rw [hs] at hholds
  refine ⟨quiet_pushed hc ty (by rw [hs]), hholds.lt, ?_, ty, varTypes_pushed hc s ty, hty⟩
  rw [hholds.look]
  exact ⟨⟨ty, rfl, hty⟩, rfl⟩

/-- A statement that computes a slot value. -/
theorem pushSlot_ensures (hg : Setup g x) (hc : c.Ok g) {bits : List Bool}
    (hty : BinaryType g.irTypes ty) (hlen : bits.length = g.irTypes.bitWidth ty)
    (hs : evalStmt g.irTypes world (frame world x σ g c).st
      (Ssa.look (frame world x σ g c).vals) s = (⟨bits, some ty, []⟩, (frame world x σ g c).st)) :
    Ensures (pushTyped s ty) c fun v d =>
      Quiet world x σ g c d ∧ HasSlot world x σ g d ty v bits := by
  apply (pushTyped_ensures s ty).mono
  rintro v d ⟨rfl, rfl⟩
  have hholds := holds_pushed world σ hg hc s ty
  rw [hs] at hholds
  refine ⟨quiet_pushed hc ty (by rw [hs]), hty, hholds.lt, ?_, varTypes_pushed hc s ty⟩
  rw [hholds.look]
  exact ⟨rfl, rfl, hlen⟩

@[simp] theorem entries_single (key : List ℕ) : (single key).entries = [(key, 1)] := rfl

theorem entries_pair {a b : ℕ} (h : a ≠ b) :
    (pair a b).entries = [([a], 1), ([b], 1)] ∨ (pair a b).entries = [([b], 1), ([a], 1)] := by
  change SortedMap.upsertList [b] (fun _ => (1 : U8)) [([a], 1)] = _ ∨
    SortedMap.upsertList [b] (fun _ => (1 : U8)) [([a], 1)] = _
  rw [SortedMap.upsertList]
  split_ifs with hba heq
  · exact .inr rfl
  · exact absurd (List.cons.inj heq).1.symm h
  · exact .inl rfl

theorem perm_min_max (a b : ℕ) : [min a b, max a b].Perm [a, b] := by
  rcases le_total a b with hab | hab
  · rw [min_eq_left hab, max_eq_right hab]
  · rw [min_eq_right hab, max_eq_left hab]
    exact .swap _ _ _

theorem foldlM_promote {types : TypeTable} {varTypes : List TypeId} {vars : List ℕ} {start : TypeId}
    (hstart : types.isBit start = true)
    (h : ∀ v ∈ vars, ∃ ty, varTypes[v]? = some ty ∧ types.isBit ty = true) :
    ∃ ty, vars.foldlM (fun result var => do promoteType result (← varTypes[var]?) types) start =
      some ty ∧ types.isBit ty = true := by
  induction vars generalizing start with
  | nil => exact ⟨start, rfl, hstart⟩
  | cons v vars ih =>
      obtain ⟨vty, hvty, hbit⟩ := h v List.mem_cons_self
      obtain ⟨ty, hty, hres⟩ := ih hbit fun u hu => h u (List.mem_cons_of_mem v hu)
      refine ⟨ty, ?_, hres⟩
      rw [List.foldlM_cons, hvty]
      simp only [Option.bind_eq_bind, Option.bind_some, promoteType, if_pos hstart]
      exact hty

/-- A polynomial of bits that computes a bit whichever bit type it gets. -/
theorem emitPoly_ensures (hg : Setup g x) (hc : c.Ok g) {coeffs : PolyCoeffs} {lo : BitVec 128}
    {b : Bool} (hvars : ∀ v ∈ coeffs.entries.flatMap Prod.fst, ∃ y, HasBit world x σ g c v y)
    (hval : ∀ ty, g.irTypes.isBit ty = true → evalTerms g.irTypes ty ⟨0, lo⟩
      (PolyCoeffs.terms coeffs (Ssa.look (frame world x σ g c).vals)) = some [b]) :
    Ensures (emitPoly coeffs lo) c fun v d =>
      Quiet world x σ g c d ∧ HasBit world x σ g d v b := by
  have htypes : ∀ v ∈ coeffs.entries.flatMap Prod.fst,
      ∃ ty, c.varTypes[v]? = some ty ∧ g.irTypes.isBit ty = true := by
    intro v hv
    obtain ⟨y, hy⟩ := hvars v hv
    exact hy.type
  obtain ⟨ty, hty, hbit⟩ := foldlM_promote hg.bit htypes
  apply get_bind
  rw [hc.config, inferPolyResultType, hty, orPanic_some, pure_bind]
  apply pushBit_ensures hg hc hbit
  simp only [evalStmt, evalKind, hval ty hbit, IRStmt.outputType, Option.getD_some]

theorem HasBit.lane {v k : ℕ} {b : Bool} (h : HasBit world x σ g c v b) :
    (Ssa.look (frame world x σ g c).vals v).lane k = b := Value.lane_scalar h.value.bits k

theorem andBit_ensures (hg : Setup g x) (hc : c.Ok g) {a b : ℕ} {y z : Bool}
    (ha : HasBit world x σ g c a y) (hb : HasBit world x σ g c b z) :
    Ensures (emitAndBit a b) c fun v d =>
      Quiet world x σ g c d ∧ HasBit world x σ g d v (y && z) := by
  change Ensures (if a = b then pure a else emitPoly (single [min a b, max a b]) 0) c _
  split
  · next heq =>
      subst heq
      rw [ensures_pure, hb.unique ha, Bool.and_self]
      exact ⟨Quiet.refl hc, ha⟩
  · apply emitPoly_ensures hg hc
    · intro v hv
      have hmem : v ∈ [a, b] := by
        rw [entries_single, List.flatMap_singleton] at hv
        exact (perm_min_max a b).mem_iff.mp hv
      rcases List.mem_pair.mp hmem with rfl | rfl
      · exact ⟨y, ha⟩
      · exact ⟨z, hb⟩
    · intro ty hty
      have hall : ([min a b, max a b].map (Ssa.look (frame world x σ g c).vals)).all (·.lane 0) =
          (y && z) := by
        rw [((perm_min_max a b).map _).all_eq]
        simp [ha.lane, hb.lane]
      rw [evalTerms_of_isBit hty, PolyCoeffs.terms, entries_single]
      simp [evalBitPoly, odd, Constant.bit, ← hall]

theorem mem_entries_pair {a b : ℕ} (h : a ≠ b) {v : ℕ}
    (hv : v ∈ (pair a b).entries.flatMap Prod.fst) : v = a ∨ v = b := by
  rcases entries_pair h with heq | heq
  · simpa [heq] using hv
  · simpa [heq, or_comm] using hv

theorem HasSlot.hasBit (hg : Setup g x) {v : ℕ} {b : Bool}
    (h : HasSlot world x σ g c g.bitTypeId v [b]) : HasBit world x σ g c v b :=
  ⟨h.lt, ⟨⟨g.bitTypeId, h.value.type, hg.bit⟩, h.value.bits⟩, g.bitTypeId, h.type, hg.bit⟩

variable (world σ) in
theorem constBitSlot_ensures (hg : Setup g x) (hc : c.Ok g) (lo : BitVec 128) :
    Ensures (emitConstBit lo) c fun v d =>
      Quiet world x σ g c d ∧ HasSlot world x σ g d g.bitTypeId v [lo.getLsbD 0] := by
  apply getConfig_bind hc
  have hlen : [lo.getLsbD 0].length = g.irTypes.bitWidth g.bitTypeId :=
    (bitWidth_of_isBit hg.bit).symm
  apply pushSlot_ensures hg hc (.of_isBit hg.bit) hlen
  simp [evalStmt, evalKind, IRStmt.outputType, constBits, bitWidth_of_isBit hg.bit,
    Constant.bit]

variable (world σ) in
theorem emitConstBit_ensures (hg : Setup g x) (hc : c.Ok g) (lo : BitVec 128) :
    Ensures (emitConstBit lo) c fun v d =>
      Quiet world x σ g c d ∧ HasBit world x σ g d v (lo.getLsbD 0) :=
  (constBitSlot_ensures world σ hg hc lo).mono fun _ _ h => ⟨h.1, h.2.hasBit hg⟩

theorem xorBit_ensures (hg : Setup g x) (hc : c.Ok g) {a b : ℕ} {y z : Bool}
    (ha : HasBit world x σ g c a y) (hb : HasBit world x σ g c b z) :
    Ensures (emitXorBit a b) c fun v d =>
      Quiet world x σ g c d ∧ HasBit world x σ g d v (y ^^ z) := by
  change Ensures (if a = b then emitConstBit 0 else emitPoly (pair a b) 0) c _
  split
  · next heq =>
      subst heq
      rw [hb.unique ha, Bool.xor_self]
      exact emitConstBit_ensures world σ hg hc 0
  · next hne =>
      apply emitPoly_ensures hg hc
      · intro v hv
        rcases mem_entries_pair hne hv with rfl | rfl
        · exact ⟨y, ha⟩
        · exact ⟨z, hb⟩
      · intro ty hty
        rw [evalTerms_of_isBit hty, PolyCoeffs.terms]
        rcases entries_pair hne with heq | heq
        · simp [heq, evalBitPoly, odd, Constant.bit, ha.lane, hb.lane]
        · simp [heq, evalBitPoly, odd, Constant.bit, ha.lane, hb.lane, Bool.xor_comm]

theorem notBit_ensures (hg : Setup g x) (hc : c.Ok g) {a : ℕ} {y : Bool}
    (ha : HasBit world x σ g c a y) :
    Ensures (emitNot a) c fun v d => Quiet world x σ g c d ∧ HasBit world x σ g d v (!y) := by
  change Ensures (emitPoly (single [a]) 1) c _
  apply emitPoly_ensures hg hc
  · intro v hv
    rw [entries_single, List.flatMap_singleton, List.mem_singleton] at hv
    exact ⟨y, hv ▸ ha⟩
  · intro ty hty
    rw [evalTerms_of_isBit hty, PolyCoeffs.terms, entries_single]
    simp [evalBitPoly, odd, Constant.bit, ha.lane]

@[simp] theorem length_zeroBits (types : TypeTable) (ty : TypeId) :
    (zeroBits types ty).length = types.bitWidth ty := List.length_replicate

theorem zeroSlot_ensures (hg : Setup g x) (hc : c.Ok g) (hty : BinaryType g.irTypes ty) :
    Ensures (emitZeroSlot ty) c fun v d =>
      Quiet world x σ g c d ∧ HasSlot world x σ g d ty v (zeroBits g.irTypes ty) := by
  apply pushSlot_ensures hg hc hty (length_zeroBits _ _)
  simp only [evalStmt, evalKind, IRStmt.outputType, constBits_zero]
  rfl

theorem HasSlot.of_bit {v : ℕ} {b : Bool} {bits : List Bool} (hb : HasBit world x σ g c v b)
    (hs : HasSlot world x σ g c ty v bits) :
    bits = if b then bits else zeroBits g.irTypes ty := by
  have hbits : bits = [b] := hs.value.bits.symm.trans hb.value.bits
  have hwidth : 1 = g.irTypes.bitWidth ty := by
    rw [← hs.value.length, hbits]
    rfl
  cases b with
  | true => rfl
  | false =>
      rw [hbits, zeroBits, ← hwidth]
      rfl

theorem gate_ensures (hg : Setup g x) (hc : c.Ok g) {a v : ℕ} {y : Bool} {bits : List Bool}
    (ha : HasBit world x σ g c a y) (hv : HasSlot world x σ g c ty v bits) :
    Ensures (emitGate a v ty) c fun u d => Quiet world x σ g c d ∧
      HasSlot world x σ g d ty u (if y then bits else zeroBits g.irTypes ty) := by
  change Ensures (if a = v then pure a else
    pushTyped (.poly ty (single [min a v, max a v]) .zero) ty) c _
  split
  · next heq =>
      subst heq
      rw [ensures_pure, ← HasSlot.of_bit ha hv]
      exact ⟨Quiet.refl hc, hv⟩
  · apply pushSlot_ensures hg hc hv.binary
    · cases y with
      | true => exact hv.value.length
      | false => exact length_zeroBits _ _
    · have hval := hv.binary.evalTerms_gate ha.value hv.value
        ((perm_min_max a v).map (Ssa.look (frame world x σ g c).vals))
      simp only [evalStmt, evalKind, PolyCoeffs.terms, entries_single, List.map_cons, List.map_nil,
        IRStmt.outputType] at hval ⊢
      rw [hval]
      rfl

theorem fieldAdd_ensures (hg : Setup g x) (hc : c.Ok g) {a b : ℕ} {as bs : List Bool}
    (ha : HasSlot world x σ g c ty a as) (hb : HasSlot world x σ g c ty b bs) :
    Ensures (emitFieldAdd a b ty) c fun v d => Quiet world x σ g c d ∧
      HasSlot world x σ g d ty v (List.zipWith xor as bs) := by
  change Ensures (if a = b then emitZeroSlot ty else pushTyped (.poly ty (pair a b) .zero) ty) c _
  split
  · next heq =>
      subst heq
      have hself : List.zipWith xor as as = List.replicate as.length false := by simp
      rw [hb.unique ha, hself, ha.value.length]
      exact zeroSlot_ensures hg hc ha.binary
  · next hne =>
      apply pushSlot_ensures hg hc ha.binary
      · rw [List.length_zipWith, ha.value.length, hb.value.length, Nat.min_self]
      · have hperm : (PolyCoeffs.terms (pair a b) (Ssa.look (frame world x σ g c).vals)).Perm
            [([Ssa.look (frame world x σ g c).vals a], 1),
              ([Ssa.look (frame world x σ g c).vals b], 1)] := by
          rw [PolyCoeffs.terms]
          rcases entries_pair hne with heq | heq
          · rw [heq]
            rfl
          · rw [heq]
            exact .swap _ _ _
        have hval := ha.binary.evalTerms_sum ha.value hb.value hperm
        simp only [evalStmt, evalKind, hval, IRStmt.outputType]
        rfl

theorem zipWith_xor_zero {bits : List Bool} {n : ℕ} (h : bits.length = n) :
    List.zipWith xor bits (List.replicate n false) = bits := by
  subst h
  induction bits with
  | nil => rfl
  | cons b bits ih => rw [List.length_cons, List.replicate_succ, List.zipWith_cons_cons, ih,
      Bool.xor_false]

theorem zero_zipWith_xor {bits : List Bool} {n : ℕ} (h : bits.length = n) :
    List.zipWith xor (List.replicate n false) bits = bits := by
  rw [List.zipWith_comm_of_comm Bool.xor_comm]
  exact zipWith_xor_zero h

theorem zipWith_xor_cancel {as bs : List Bool} (h : as.length = bs.length) :
    List.zipWith xor (List.zipWith xor as bs) bs = as := by
  induction as generalizing bs with
  | nil => rfl
  | cons a as ih =>
      cases bs with
      | nil => cases h
      | cons b bs =>
          rw [List.zipWith_cons_cons, List.zipWith_cons_cons, ih (Nat.succ.inj h), Bool.xor_assoc,
            Bool.xor_self, Bool.xor_false]

variable (world σ) in
theorem reading_lawful (hg : Setup g x) :
    (reading world x σ g : Reading (IrCtx P) TypeId (List Bool)).Lawful where
  grows_refl := Grows.refl
  grows_trans h h' := h.trans h'
  quiet_refl hc := Quiet.refl hc
  quiet_trans h h' := h.trans h'
  quiet_grows h := h.grows
  quiet_ok h := h.ok
  bit_mono hd hv := hv.mono hd
  slot_mono hd hv := hv.mono hd
  slot_unique ha hb := HasSlot.unique ha hb
  add_zero hv := zipWith_xor_zero hv.value.length
  zero_add hv := zero_zipWith_xor hv.value.length
  add_cancel ha hb := zipWith_xor_cancel (ha.value.length.trans hb.value.length.symm)
  cancel_add {c ty u v as bs} ha hb := by
    change List.zipWith xor as (List.zipWith xor bs as) = bs
    rw [List.zipWith_comm_of_comm Bool.xor_comm]
    exact zipWith_xor_cancel (hb.value.length.trans ha.value.length.symm)
  zeroBit hc := emitConstBit_ensures world σ hg hc 0
  oneBit hc := emitConstBit_ensures world σ hg hc 1
  andBit hc ha hb := andBit_ensures hg hc ha hb
  xorBit hc ha hb := xorBit_ensures hg hc ha hb
  notBit hc ha := notBit_ensures hg hc ha
  zeroSlot hty hc := zeroSlot_ensures hg hc hty
  gate hc ha hv := gate_ensures hg hc ha hv
  fieldAdd hc ha hb := fieldAdd_ensures hg hc ha hb

end
end IrCtx
end VolarIR.Movfuscate
