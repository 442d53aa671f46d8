import VolarIR.Vaffle.Emission
import VolarIR.Vaffle.Operations

/-!
# Operations in the block

In inline mode the result of an operation is that of its circuit, a wide statement, or a
constant that decides it. The circuit is right as long as no carry gate collapses.
-/
namespace VolarIR.Vaffle
open Common Lir Bits VaffleTarget

def Computes (reading : OutputReading) (depth : ℕ) (table : Table) (r : List ℕ × VaffleTarget)
    (bits : List Bool) : Prop :=
  ∃ table', r.2.evaluate reading depth table = some table' ∧ table'.holdings.HoldsBits r.1 bits

namespace IntOp

def watchedCircuit (op : IntOp) (lhs rhs : List ℕ) : StateM (Watched VaffleTarget ℕ) (List ℕ) :=
  evalOp op.circuit (op.operands lhs rhs)

def InlineClean (op : IntOp) (reading : OutputReading) (depth : ℕ) (t : VaffleTarget)
    (table : Table) (lhs rhs : List ℕ) : Prop :=
  ∀ table' ∈ (op.watchedCircuit lhs rhs ⟨t, []⟩).2.base.evaluate reading depth table,
    ∀ g ∈ gatesOf t (op.watchedCircuit lhs rhs), ¬Faulty table'.holdings.on g

section
variable {reading : OutputReading} {depth : ℕ} {t : VaffleTarget} {table : Table} {op : IntOp}
  {lhs rhs : List ℕ} {l r : List Bool}

theorem operands_rel {α β : Type} {R : List α → List β → Prop} {lhs rhs : List α}
    {lhs' rhs' : List β} (op : IntOp) (hl : R lhs lhs') (hr : R rhs rhs') :
    List.Forall₂ R (op.operands lhs rhs) (op.operands lhs' rhs') := by
  have both : List.Forall₂ R [lhs, rhs] [lhs', rhs'] := .cons hl (.cons hr .nil)
  cases op with
  | not => exact .cons hl .nil
  | icmp pred =>
      simp only [operands]
      split
      · exact .cons hr (.cons hl .nil)
      · exact both
  | _ => exact both

theorem Defined.ne_nil (h : op.Defined l r) : ∀ o ∈ op.operands l r, o ≠ [] := by
  have hl := h.1
  have hargs := h.2
  have hlen (hlen : r.length = l.length) : r ≠ [] := by
    intro hr
    rw [hr] at hlen
    exact hl (List.length_eq_zero_iff.mp hlen.symm)
  have both (hr : r ≠ []) : ∀ o ∈ [l, r], o ≠ [] := by simp [hl, hr]
  cases op with
  | not => simpa [operands] using hl
  | icmp pred =>
      simp only [operands]
      split
      · simp [hl, hlen hargs]
      · exact both (hlen hargs)
  | udiv => exact both (hlen hargs.1)
  | sdiv => exact both (hlen hargs.1)
  | shl => exact both hargs.1
  | lshr => exact both hargs.1
  | ashr => exact both hargs.1
  | _ => exact both (hlen hargs)

theorem length_operands (lhs rhs : List ℕ) (h : op ≠ not) : (op.operands lhs rhs).length = 2 := by
  cases op with
  | not => exact absurd rfl h
  | icmp pred =>
      simp only [operands]
      split <;> rfl
  | _ => rfl

theorem operand_ne {ops : List (List ℕ)} {bits : List (List Bool)}
    (h : List.Forall₂ (fun ws bs => ws.length = bs.length) ops bits) (hne : ∀ o ∈ bits, o ≠ [])
    {i : ℕ} (hi : i < ops.length) : ops.getD i [] ≠ [] := by
  have hlen := (List.forall₂_iff_get.mp h).2 i hi (h.length_eq ▸ hi)
  have hbit := hne _ (List.getElem_mem (l := bits) (n := i) (h.length_eq ▸ hi))
  rw [List.getD_eq_getElem _ _ hi]
  intro hnil
  apply hbit
  rw [List.get_eq_getElem, List.get_eq_getElem, hnil] at hlen
  exact List.length_eq_zero_iff.mp hlen.symm

theorem circuit_computes (hassigns : t.Assigns table) (hl : table.holdings.HoldsBits lhs l)
    (hr : table.holdings.HoldsBits rhs r) (hdef : op.Defined l r)
    (hclean : op.InlineClean reading depth t table lhs rhs) :
    Computes reading depth table (evalOp op.circuit (op.operands lhs rhs) t) (op.result l r) := by
  have hlen : List.Forall₂ (fun ws bs => ws.length = bs.length) (op.operands lhs rhs)
      (op.operands l r) := operands_rel op hl.length_eq hr.length_eq
  have hpos : 0 < (op.operands lhs rhs).length := by
    by_cases hnot : op = not
    · rw [hnot]
      exact Nat.one_pos
    · rw [length_operands lhs rhs hnot]
      exact Nat.two_pos
  have hane := operand_ne hlen hdef.ne_nil hpos
  have hxne : op.circuit ≠ .not → (op.operands lhs rhs).getD 1 [] ≠ [] := by
    intro hnot
    have hop : op ≠ not := fun heq => hnot (by rw [heq]; rfl)
    exact operand_ne hlen hdef.ne_nil (by rw [length_operands lhs rhs hop]; exact Nat.one_lt_two)
  obtain ⟨answer, hanswer⟩ : ∃ answer, answer =
    evalFunc reading (evalOp op.circuit (op.operands lhs rhs) t).2.funcs depth := ⟨_, rfl⟩
  have sound : (arena reading answer table).Sound := arena_sound
  have htab : (arena reading answer table).Tab t table.holdings :=
    ⟨table, Holding.initial hassigns, rfl⟩
  have hinv : (arena reading answer table).onBits.Inv (⟨t, []⟩, ()) :=
    ⟨table.holdings, htab, fun g hg => absurd hg List.not_mem_nil⟩
  have hbits := (Arena.onBits_sound sound).evalOp hinv op.circuit
    (operands_rel op (Arena.wires_start sound htab hl) (Arena.wires_start sound htab hr)) hane hxne
  have hself : (Watched.unwatched : Simulation (Watched VaffleTarget ℕ) ℕ VaffleTarget ℕ).Inv
    (⟨t, []⟩, t) := rfl
  have hplain := Watched.unwatched_sound.evalOp hself op.circuit
    (operands_rel op (Arena.wires_self t lhs) (Arena.wires_self t rhs)) hane hxne
  obtain ⟨_, ⟨table', h', rfl⟩, hgood⟩ := Arena.holds_of_runs hbits hplain
  have hrun := h'.evaluated.run
  rw [hanswer] at hrun
  refine ⟨table', hrun, ?_⟩
  rw [← onBits_circuit hdef]
  apply hgood
  have hstate : (op.watchedCircuit lhs rhs ⟨t, []⟩).2.base =
    (evalOp op.circuit (op.operands lhs rhs) t).2 := hplain.later.inv
  apply hclean table'
  rw [hstate]
  exact hrun

end

end IntOp

namespace VaffleTarget
variable {reading : OutputReading} {depth : ℕ} {t : VaffleTarget} {table : Table}
  {lhs rhs ws : List ℕ} {l r bits : List Bool}

theorem constBits_eq (hassigns : t.Assigns table) (h : table.holdings.HoldsBits ws bits)
    {bs : List Bool} (hbs : ws.mapM t.constBit = some bs) : bs = bits := by
  have hstart : Holding .bit (fun _ _ => none) table t table := Holding.initial hassigns
  induction h generalizing bs with
  | nil =>
      cases hbs
      rfl
  | cons hw _ ih =>
      rw [List.mapM_cons, Option.bind_eq_bind, Option.bind_eq_some_iff] at hbs
      obtain ⟨b, hb, hbs⟩ := hbs
      rw [Option.bind_eq_bind, Option.bind_eq_some_iff] at hbs
      obtain ⟨rest, hrest, hbs⟩ := hbs
      cases hbs
      rw [ih hrest, ← hw.on_eq, hstart.knows _ b hb]

theorem value_of_constU64 (hassigns : t.Assigns table) (h : table.holdings.HoldsBits ws bits)
    {v : ℕ} (hconst : t.constU64 ws = some v) : value bits = v := by
  unfold constU64 at hconst
  split at hconst
  case isTrue => cases hconst
  case isFalse =>
    obtain ⟨bs, hbs, rfl⟩ := Option.map_eq_some_iff.mp hconst
    rw [constBits_eq hassigns h hbs]

theorem value_of_isPublicConst (hassigns : t.Assigns table)
    (h : table.holdings.HoldsBits ws bits) {v : ℕ} (hconst : t.isPublicConst ws v = true) :
    value bits = v := by
  unfold isPublicConst at hconst
  rw [Bool.and_eq_true, decide_eq_true_eq] at hconst
  exact value_of_constU64 hassigns h hconst.1

theorem consts_computes (hassigns : t.Assigns table) (n : ℕ) (bit : Bool)
    (side : Option SideId) :
    Computes reading depth table
      (((do
        let bits ← bcConsts n bit
        bits.forM (setNodeSide side)
        return bits) : StateM VaffleTarget (List ℕ)) t) (List.replicate n bit) := by
  obtain ⟨answer, hanswer⟩ : ∃ answer, answer = evalFunc reading
    ((((bcConsts n bit : StateM VaffleTarget (List ℕ)) t).1.forM (setNodeSide side))
      ((bcConsts n bit : StateM VaffleTarget (List ℕ)) t).2).2.funcs depth := ⟨_, rfl⟩
  have hstart : Holding reading answer table t table := Holding.initial hassigns
  have hrun := hstart.mapM_emitValue
    (l := List.range n) (f := fun _ => .const (boolConstant bit) .bit)
    (e := fun _ => .ofBits [bit])
    (fun _ _ ext => evalValue_const (table ++ ext) bit)
    (by
      intro _ _ c ty hc
      cases hc
      cases bit <;> rfl)
  have hmarked := hrun.congr (kinds_setNodeSide side
    ((bcConsts n bit : StateM VaffleTarget (List ℕ)) t).1 _)
  have heval := hmarked.evaluated.run
  rw [hanswer] at heval
  refine ⟨_, heval, ?_⟩
  have hnew := holdsBits_new table (List.range n) fun _ => bit
  have hbits : (List.range n).map (fun _ => bit) = List.replicate n bit := by
    rw [List.map_const', List.length_range]
  rw [hbits, List.length_range] at hnew
  have hids : ((bcConsts n bit : StateM VaffleTarget (List ℕ)) t).1 =
      List.range' table.length n := by
    rw [hassigns.length]
    refine (mapM_emitValue_fst (List.range n) t).trans ?_
    rw [List.length_range]
  show Holdings.HoldsBits _ ((bcConsts n bit : StateM VaffleTarget (List ℕ)) t).1 _
  rw [hids]
  exact hnew

theorem annihilated_computes (hassigns : t.Assigns table) {v : ℕ} (bit : Bool)
    (other : StateM VaffleTarget (List ℕ))
    (h : lhs.length ≤ 64 ∧ (t.isPublicConst lhs v ∨ t.isPublicConst rhs v)) :
    Computes reading depth table (annihilated lhs rhs v bit other t)
      (List.replicate lhs.length bit) := by
  have hrun : annihilated lhs rhs v bit other t =
      ((do
        let bits ← bcConsts lhs.length bit
        bits.forM (setNodeSide t.publicSide)
        return bits) : StateM VaffleTarget (List ℕ)) t := congrFun (if_pos h) t
  rw [hrun]
  exact consts_computes hassigns lhs.length bit t.publicSide

theorem annihilated_eq {v : ℕ} (bit : Bool) (other : StateM VaffleTarget (List ℕ))
    (h : ¬(lhs.length ≤ 64 ∧ (t.isPublicConst lhs v ∨ t.isPublicConst rhs v))) :
    annihilated lhs rhs v bit other t = other t := congrFun (if_neg h) t

theorem wideOr_binop (op : WideBinOp) (n : ℕ) (bitwise : StateM VaffleTarget (List ℕ)) :
    wideOr (emitWideBinopPoly lhs rhs op n) bitwise t =
      if n ≤ 1 ∨ 64 < n then bitwise t else wideBinop lhs rhs op n t := by
  unfold wideOr emitWideBinopPoly
  split <;> rfl

theorem wideOr_not (n : ℕ) (bitwise : StateM VaffleTarget (List ℕ)) :
    wideOr (emitWideNotPoly ws n) bitwise t =
      if n ≤ 1 ∨ 64 < n then bitwise t else wideNot ws n t := by
  unfold wideOr emitWideNotPoly
  split <;> rfl

/-- The wide statement or the circuit, whichever it is. -/
theorem wide_computes (hassigns : t.Assigns table) {n : ℕ}
    {wide bitwise : StateM VaffleTarget (List ℕ)}
    (hbitwise : Computes reading depth table (bitwise t) bits)
    (hwide : 1 < n → n ≤ 64 → ∀ answer, Holding reading answer table t table →
      ∃ table', Holding reading answer table (wide t).2 table' ∧
        table'.holdings.HoldsBits (wide t).1 bits) :
    Computes reading depth table (if n ≤ 1 ∨ 64 < n then bitwise t else wide t) bits := by
  by_cases hn : n ≤ 1 ∨ 64 < n
  · rw [if_pos hn]
    exact hbitwise
  · rw [if_neg hn]
    obtain ⟨table', h', hbits⟩ := hwide (by omega) (by omega) _ (Holding.initial hassigns)
    exact ⟨table', h'.evaluated.run, hbits⟩

theorem extractBits_inline (h : t.helperMode = .inline) (op : HelperOp)
    (operands : List (List ℕ)) : extractBits op operands t = (none, t) := by
  have hmode : t.helperMode ≠ .extract := by
    rw [h]
    nofun
  exact congrFun (if_pos hmode) t

theorem extractOr_inline (h : t.helperMode = .inline) (op : HelperOp) (operands : List (List ℕ))
    (circuit : StateM VaffleTarget (List ℕ)) : extractOr op operands circuit t = circuit t := by
  unfold extractOr
  simp only [bind, StateT.bind, extractBits_inline h]

end VaffleTarget

namespace IntOp
variable {reading : OutputReading} {depth : ℕ} {t : VaffleTarget} {table : Table} {op : IntOp}
  {lhs rhs : List ℕ} {l r : List Bool}

def Annihilated (op : IntOp) (t : VaffleTarget) (lhs rhs : List ℕ) : Prop :=
  op = mul ∧ lhs.length ≤ 64 ∧ (t.isPublicConst lhs 0 ∨ t.isPublicConst rhs 0)

theorem ofWord_zero (n : ℕ) : ofWord 0#n = List.replicate n false := by
  symm
  apply eq_ofWord_of_getD
  · simp
  · intro i hi
    simp [hi]

theorem ofWord_allOnes (n : ℕ) : ofWord (BitVec.allOnes n) = List.replicate n true := by
  symm
  apply eq_ofWord_of_getD
  · simp
  · intro i hi
    simp [hi]

theorem word_eq_zero {n : ℕ} {bits : List Bool} (h : value bits = 0) : word n bits = 0#n := by
  rw [word, h]

theorem word_eq_allOnes {n : ℕ} {bits : List Bool} (h : value bits = 2 ^ n - 1) :
    word n bits = BitVec.allOnes n := by
  apply BitVec.eq_of_toNat_eq
  rw [word, h, BitVec.toNat_ofNat, BitVec.toNat_allOnes]
  exact Nat.mod_eq_of_lt (by have := Nat.two_pow_pos n; omega)

theorem mul_of_zero (h : value l = 0 ∨ value r = 0) :
    mul.result l r = List.replicate l.length false := by
  rw [← ofWord_zero]
  cases h with
  | inl h => exact congrArg ofWord (by rw [word_eq_zero h, BitVec.zero_mul])
  | inr h => exact congrArg ofWord (by rw [word_eq_zero h, BitVec.mul_zero])

theorem and_of_zero (h : value l = 0 ∨ value r = 0) :
    and.result l r = List.replicate l.length false := by
  rw [← ofWord_zero]
  cases h with
  | inl h => exact congrArg ofWord (by rw [word_eq_zero h, BitVec.zero_and])
  | inr h => exact congrArg ofWord (by rw [word_eq_zero h, BitVec.and_zero])

theorem or_of_ones (h : value l = 2 ^ l.length - 1 ∨ value r = 2 ^ l.length - 1) :
    or.result l r = List.replicate l.length true := by
  rw [← ofWord_allOnes]
  cases h with
  | inl h => exact congrArg ofWord (by rw [word_eq_allOnes h, BitVec.allOnes_or])
  | inr h => exact congrArg ofWord (by rw [word_eq_allOnes h, BitVec.or_allOnes])

def ofWide : WideBinOp → IntOp
  | .and => and
  | .or => or
  | .xor => xor

theorem result_ofWide (w : WideBinOp) (h : r.length = l.length) :
    (ofWide w).result l r =
      (List.range l.length).map fun k => w.onBit (l.getD k false) (r.getD k false) := by
  have pointwise {v : BitVec l.length}
      (hv : ∀ k, w.onBit (l.getD k false) (r.getD k false) = v.getLsbD k) :
      ofWord v = (List.range l.length).map fun k => w.onBit (l.getD k false) (r.getD k false) := by
    apply List.map_congr_left
    intro k _
    exact (hv k).symm
  cases w with
  | and =>
      apply pointwise
      intro k
      rw [BitVec.getLsbD_and, getLsbD_word rfl, getLsbD_word h]
      rfl
  | or =>
      apply pointwise
      intro k
      rw [BitVec.getLsbD_or, getLsbD_word rfl, getLsbD_word h]
      rfl
  | xor =>
      apply pointwise
      intro k
      rw [BitVec.getLsbD_xor, getLsbD_word rfl, getLsbD_word h]
      rfl

theorem result_not : not.result l r = (List.range l.length).map fun k => !l.getD k false := by
  apply List.map_congr_left
  intro k hk
  rw [BitVec.getLsbD_not, getLsbD_word rfl, decide_eq_true (List.mem_range.mp hk), Bool.true_and]

theorem ofWide_computes (hassigns : t.Assigns table) (hl : table.holdings.HoldsBits lhs l)
    (hr : table.holdings.HoldsBits rhs r) (w : WideBinOp) (hlen : r.length = l.length)
    {bitwise : StateM VaffleTarget (List ℕ)}
    (hbitwise : Computes reading depth table (bitwise t) ((ofWide w).result l r)) :
    Computes reading depth table
      (wideOr (emitWideBinopPoly lhs rhs w lhs.length) bitwise t) ((ofWide w).result l r) := by
  have hlhs : lhs.length = l.length := hl.length_eq
  rw [wideOr_binop]
  apply wide_computes hassigns hbitwise
  intro hn hn' answer h
  rw [result_ofWide w hlen, hlhs]
  exact wideBinop_holds h (hlhs ▸ hn) (hlhs ▸ hn') hl hr rfl hlen w

theorem not_computes (hassigns : t.Assigns table) (hl : table.holdings.HoldsBits lhs l)
    {bitwise : StateM VaffleTarget (List ℕ)}
    (hbitwise : Computes reading depth table (bitwise t) (not.result l r)) :
    Computes reading depth table
      (wideOr (emitWideNotPoly lhs lhs.length) bitwise t) (not.result l r) := by
  have hlhs : lhs.length = l.length := hl.length_eq
  rw [wideOr_not]
  apply wide_computes hassigns hbitwise
  intro hn hn' answer h
  rw [result_not, hlhs]
  exact wideNot_holds h (hlhs ▸ hn) (hlhs ▸ hn') hl rfl

theorem inline_computes (hmode : t.helperMode = .inline) (hassigns : t.Assigns table)
    (hl : table.holdings.HoldsBits lhs l) (hr : table.holdings.HoldsBits rhs r)
    (hdef : op.Defined l r)
    (hclean : op.Annihilated t lhs rhs ∨ op.InlineClean reading depth t table lhs rhs) :
    Computes reading depth table (op.run lhs rhs t) (op.result l r) := by
  have hlhs : lhs.length = l.length := hl.length_eq
  have factor {v : ℕ} (h : lhs.length ≤ 64 ∧ (t.isPublicConst lhs v ∨ t.isPublicConst rhs v)) :
      value l = v ∨ value r = v :=
    h.2.imp (value_of_isPublicConst hassigns hl) (value_of_isPublicConst hassigns hr)
  have plain (hop : ¬op.Annihilated t lhs rhs) :
      Computes reading depth table (evalOp op.circuit (op.operands lhs rhs) t) (op.result l r) :=
    circuit_computes hassigns hl hr hdef (hclean.resolve_left hop)
  have simple (hop : op ≠ mul)
      (hrun : op.run lhs rhs t = evalOp op.circuit (op.operands lhs rhs) t) :
      Computes reading depth table (op.run lhs rhs t) (op.result l r) := by
    rw [hrun]
    exact plain fun h => hop h.1
  cases op with
  | add => exact simple nofun (extractOr_inline hmode _ _ _)
  | sub => exact simple nofun (extractOr_inline hmode _ _ _)
  | shl => exact simple nofun (extractOr_inline hmode _ _ _)
  | lshr => exact simple nofun (extractOr_inline hmode _ _ _)
  | ashr => exact simple nofun (extractOr_inline hmode _ _ _)
  | icmp pred =>
      apply simple nofun
      refine (extractOr_inline hmode _ _ _).trans ?_
      cases pred <;> rfl
  | udiv =>
      apply simple nofun
      show VaffleTarget.udiv lhs rhs t = _
      unfold VaffleTarget.udiv
      simp only [bind, StateT.bind, extractBits_inline hmode]
      rfl
  | sdiv =>
      apply simple nofun
      show VaffleTarget.sdiv lhs rhs t = _
      unfold VaffleTarget.sdiv
      simp only [bind, StateT.bind, extractBits_inline hmode]
      rfl
  | mul =>
      by_cases hzero : lhs.length ≤ 64 ∧ (t.isPublicConst lhs 0 ∨ t.isPublicConst rhs 0)
      · rw [mul_of_zero (factor hzero), ← hlhs]
        exact annihilated_computes hassigns false _ hzero
      · have hrun : mul.run lhs rhs t = evalOp HelperOp.mul [lhs, rhs] t :=
          (annihilated_eq false _ hzero).trans (extractOr_inline hmode _ _ _)
        rw [hrun]
        exact plain fun h => hzero h.2
  | and =>
      have hrun : and.run lhs rhs t = annihilated lhs rhs 0 false
          (wideOr (emitWideBinopPoly lhs rhs .and lhs.length) (bcAndVec lhs rhs)) t :=
        extractOr_inline hmode _ _ _
      rw [hrun]
      by_cases hzero : lhs.length ≤ 64 ∧ (t.isPublicConst lhs 0 ∨ t.isPublicConst rhs 0)
      · rw [and_of_zero (factor hzero), ← hlhs]
        exact annihilated_computes hassigns false _ hzero
      · rw [annihilated_eq false _ hzero]
        exact ofWide_computes hassigns hl hr .and hdef.2 (plain nofun)
  | or =>
      have hrun : or.run lhs rhs t = annihilated lhs rhs (2 ^ min lhs.length 64 - 1) true
          (wideOr (emitWideBinopPoly lhs rhs .or lhs.length) (bcOrVec lhs rhs)) t :=
        extractOr_inline hmode _ _ _
      rw [hrun]
      by_cases hones : lhs.length ≤ 64 ∧ (t.isPublicConst lhs (2 ^ min lhs.length 64 - 1) ∨
          t.isPublicConst rhs (2 ^ min lhs.length 64 - 1))
      · have hfactor := factor hones
        rw [Nat.min_eq_left hones.1, hlhs] at hfactor
        rw [or_of_ones hfactor, ← hlhs]
        exact annihilated_computes hassigns true _ hones
      · rw [annihilated_eq true _ hones]
        exact ofWide_computes hassigns hl hr .or hdef.2 (plain nofun)
  | xor =>
      have hrun : xor.run lhs rhs t =
          wideOr (emitWideBinopPoly lhs rhs .xor lhs.length) (bcXorVec lhs rhs) t :=
        extractOr_inline hmode _ _ _
      rw [hrun]
      exact ofWide_computes hassigns hl hr .xor hdef.2 (plain nofun)
  | not =>
      have hrun : not.run lhs rhs t =
          wideOr (emitWideNotPoly lhs lhs.length) (bcNotVec lhs) t :=
        extractOr_inline hmode _ _ _
      rw [hrun]
      exact not_computes hassigns hl (plain nofun)

end IntOp
end VolarIR.Vaffle
