import VolarIR.Vaffle.InlineSound

/-!
# Operations by helper calls

In extract mode an operation is a call of a helper function. The helper takes its parameters
apart, runs the circuit and puts the result together; the caller projects the result's bits.
-/
namespace VolarIR.Vaffle
open Common Lir Bits

theorem width_widthType (n : ℕ) : (widthType n).width = n := by
  unfold widthType
  split <;> rfl

structure Table.HoldsWord (table : Table) (w : ℕ) (bits : List Bool) : Prop where
  lt : w < table.length
  bits_eq : (table.look w).bits = bits

theorem Table.HoldsWord.append {table : Table} {w : ℕ} {bits : List Bool}
    (h : table.HoldsWord w bits) (ext : Table) : Table.HoldsWord (table ++ ext) w bits :=
  ⟨by rw [List.length_append]; exact Nat.lt_add_right _ h.lt, by
    rw [Table.look_append h.lt]
    exact h.bits_eq⟩

theorem Table.holdsWord_new (table : Table) (bits : List Bool) (results : List (List Bool)) :
    Table.HoldsWord (table ++ [⟨bits, results⟩]) table.length bits :=
  ⟨by simp, by rw [Table.look_length]⟩

theorem Table.holdsWord_single {table : Table} {w : ℕ} {b : Bool} :
    table.HoldsWord w [b] ↔ table.holdings.Holds w b := by
  rw [Table.holds_iff]
  exact ⟨fun h => ⟨h.lt, h.bits_eq⟩, fun h => ⟨h.1, h.2⟩⟩

def helperStart (widths : List ℕ) : HelperBuilder :=
  ⟨(widths.map widthType).mapIdx fun idx ty => .param ty idx⟩

def helperOperands (widths : List ℕ) : StateM HelperBuilder (List (List ℕ)) :=
  widths.zipIdx.mapM fun p => explode p.2 p.1

def helperResult (width : ℕ) (resultBits : List ℕ) : StateM HelperBuilder ℕ :=
  if resultBits.length = 1 then return resultBits.headD 0
  else HelperBuilder.emit (.merge resultBits (widthType width))

theorem helperBody_eq (op : HelperOp) (widths : List ℕ) :
    helperBody op widths = (do
      let operands ← helperOperands widths
      let resultBits ← evalOp op operands
      helperResult (helperResultWidth op widths) resultBits) := rfl

namespace HelperBuilder
variable {reading : OutputReading} {answer : ℕ → List (List Bool) → Option (List (List Bool))}
  {start : Table} {b : HelperBuilder} {table : Table}

theorem explode_holds (h : Evaluated reading answer start b.values table) {src : ℕ}
    {bits : List Bool} (hsrc : table.HoldsWord src bits) (hne : bits ≠ [])
    (hlen : bits.length ≤ 256) :
    ∃ ext, Evaluated reading answer start (explode src bits.length b).2.values (table ++ ext) ∧
      Holdings.HoldsBits (Table.holdings (table ++ ext)) (explode src bits.length b).1 bits := by
  by_cases hone : bits.length ≤ 1
  · have hrun : explode src bits.length b = ([src], b) := congrFun (if_pos hone) b
    obtain ⟨bit, rfl⟩ : ∃ bit, bits = [bit] := by
      apply List.length_eq_one_iff.mp
      have hpos := List.length_pos_iff.mpr hne
      omega
    rw [hrun]
    refine ⟨[], by simpa using h, ?_⟩
    rw [List.append_nil]
    exact .cons (Table.holdsWord_single.mp hsrc) .nil
  · have hrun : explode src bits.length b = ((List.range bits.length).mapM fun i =>
        emit (.shuffle [(BitVec.ofNat 8 i, src)] .bit)) b := congrFun (if_neg hone) b
    have hnext := evaluated_emit h (l := List.range bits.length)
      (f := fun i => .shuffle [(BitVec.ofNat 8 i, src)] .bit)
      (e := fun i => .ofBits [bits.getD i false])
      (by
        intro i hi ext
        rw [VaffleTarget.evalValue_shuffle ((List.mem_range.mp hi).trans_le hlen),
          Table.look_append hsrc.lt, hsrc.bits_eq])
    have hself : ((List.range bits.length).map fun i => bits.getD i false) = bits := fit_self bits
    have hnew := holdsBits_new table (List.range bits.length) fun i => bits.getD i false
    rw [hself, h.length] at hnew
    rw [hrun, mapM_emit]
    exact ⟨_, hnext, hnew⟩

/-- All parameters are taken apart. -/
theorem operands_hold {ops : List (List Bool)} {k : ℕ}
    (h : Evaluated reading answer start b.values table)
    (hops : ∀ i (hi : i < ops.length), table.HoldsWord (k + i) ops[i])
    (hne : ∀ o ∈ ops, o ≠ []) (hlen : ∀ o ∈ ops, o.length ≤ 256) :
    ∃ ext, Evaluated reading answer start
        (((ops.map List.length).zipIdx k).mapM (fun p => explode p.2 p.1) b).2.values
        (table ++ ext) ∧
      List.Forall₂ (Table.holdings (table ++ ext)).HoldsBits
        (((ops.map List.length).zipIdx k).mapM (fun p => explode p.2 p.1) b).1 ops := by
  induction ops generalizing k b table with
  | nil => exact ⟨[], by rw [List.append_nil]; exact h, .nil⟩
  | cons o ops ih =>
      have hword := hops 0 (Nat.succ_pos _)
      obtain ⟨ext, h₁, ho⟩ := explode_holds h hword (hne o List.mem_cons_self)
        (hlen o List.mem_cons_self)
      have hrest : ∀ i (hi : i < ops.length),
          Table.HoldsWord (table ++ ext) (k + 1 + i) ops[i] := by
        intro i hi
        have hnext := hops (i + 1) (Nat.succ_lt_succ hi)
        rw [List.getElem_cons_succ] at hnext
        rw [Nat.add_right_comm k 1 i]
        exact hnext.append ext
      obtain ⟨ext', h₂, hos⟩ := ih h₁ hrest (fun p hp => hne p (List.mem_cons_of_mem o hp))
        fun p hp => hlen p (List.mem_cons_of_mem o hp)
      rw [List.append_assoc] at h₂ hos
      rw [List.map_cons, List.zipIdx_cons, List.mapM_cons]
      refine ⟨ext ++ ext', h₂, .cons ?_ hos⟩
      have hold := Table.holdsBits_append ho ext'
      rw [List.append_assoc] at hold
      exact hold

theorem result_holds (h : Evaluated reading answer start b.values table) {ws : List ℕ}
    {bits : List Bool} (hbits : table.holdings.HoldsBits ws bits) :
    ∃ table', Evaluated reading answer start (helperResult bits.length ws b).2.values table' ∧
      (table'.look (helperResult bits.length ws b).1).bits = bits := by
  have hlen : ws.length = bits.length := hbits.length_eq
  by_cases hone : ws.length = 1
  · have hrun : helperResult bits.length ws b = (ws.headD 0, b) := congrFun (if_pos hone) b
    rw [hrun]
    refine ⟨table, h, ?_⟩
    cases hbits with
    | nil => cases hone
    | cons hw hrest =>
        cases hrest with
        | nil => exact (Table.holds_iff.mp hw).2
        | cons => simp at hone
  · have hrun : helperResult bits.length ws b = emit (.merge ws (widthType bits.length)) b :=
      congrFun (if_neg hone) b
    rw [hrun]
    refine ⟨_, h.emit (VaffleTarget.evalValue_merge hbits _ (width_widthType _)), ?_⟩
    show (Table.look _ b.values.length).bits = bits
    rw [← h.length, Table.look_length]
    rfl

end HelperBuilder

section
variable {reading : OutputReading}

theorem evalValue_mono (answer : ℕ → List (List Bool) → Option (List (List Bool)))
    {table : Table} {v : Value} {e : Entry}
    (h : evalValue reading (fun _ _ => none) table v = some e) :
    evalValue reading answer table v = some e := by
  cases v with
  | call func args => cases h
  | _ => exact h

theorem evalValues_mono (answer : ℕ → List (List Bool) → Option (List (List Bool)))
    {table table' : Table} {values : List Value}
    (h : evalValues reading (fun _ _ => none) table values = some table') :
    evalValues reading answer table values = some table' := by
  induction values generalizing table with
  | nil => exact h
  | cons v values ih =>
      rw [evalValues, List.foldlM_cons, Option.bind_eq_bind, Option.bind_eq_some_iff] at h
      obtain ⟨next, hnext, hrest⟩ := h
      rw [Option.bind_eq_bind, Option.bind_eq_some_iff] at hnext
      obtain ⟨e, he, hpure⟩ := hnext
      have hstep := evalValue_mono answer he
      have hlater := ih hrest
      rw [evalValues, List.foldlM_cons, hstep]
      cases hpure
      exact hlater

end

namespace IntOp

/-- The circuit of the helper, after its parameters are taken apart, with its gates written
down. -/
def watchedHelper (op : IntOp) (widths : List ℕ) :
    StateM (Watched HelperBuilder ℕ) (List ℕ) :=
  evalOp op.helper (helperOperands widths (helperStart widths)).1

/-- A helper that works on these operands: every bit of theirs is read, the caller's reading of
its result is the bits, and no gate of its circuit collapses. -/
def HelperClean (op : IntOp) (reading : OutputReading) (l r : List Bool) : Prop :=
  (∀ o ∈ op.operands l r, o.length ≤ 256) ∧
  (reading = .result → op.helperWidth l r = 1) ∧
  ∀ table ∈ evalValues reading (fun _ _ => none) ((op.operands l r).map Entry.ofBits)
      ((op.watchedHelper ((op.operands l r).map List.length)
        ⟨(helperOperands ((op.operands l r).map List.length)
          (helperStart ((op.operands l r).map List.length))).2, []⟩).2.base.values.drop
        (op.operands l r).length),
    ∀ g ∈ gatesOf (helperOperands ((op.operands l r).map List.length)
        (helperStart ((op.operands l r).map List.length))).2
        (op.watchedHelper ((op.operands l r).map List.length)),
      ¬g.Collapses table.holdings.on

variable {reading : OutputReading} {op : IntOp} {l r : List Bool}

theorem evaluated_start (reading : OutputReading)
    (answer : ℕ → List (List Bool) → Option (List (List Bool))) (ops : List (List Bool)) :
    Evaluated reading answer (ops.map Entry.ofBits) (helperStart (ops.map List.length)).values
      (ops.map Entry.ofBits) := by
  have hlen : (helperStart (ops.map List.length)).values.length = ops.length := by
    simp [helperStart]
  refine ⟨?_, ?_, ?_⟩
  · rw [List.length_map, ← hlen, List.drop_length]
    rfl
  · rw [List.length_map, hlen]
  · rw [List.length_map, hlen]

theorem holdsWord_args (ops : List (List Bool)) (i : ℕ) (hi : i < ops.length) :
    Table.HoldsWord (ops.map Entry.ofBits) (0 + i) ops[i] := by
  rw [Nat.zero_add]
  constructor
  · rw [List.length_map]
    exact hi
  · rw [Table.look, List.getD_eq_getElem _ _ (by simpa using hi), List.getElem_map]
    rfl

/-- The values of a helper: the circuit's bits come back as one value. -/
theorem helperBody_holds (hdef : op.Defined l r) (hclean : op.HelperClean reading l r) :
    ∃ table, Evaluated reading (fun _ _ => none) ((op.operands l r).map Entry.ofBits)
        (helperBody op.helper ((op.operands l r).map List.length)
          (helperStart ((op.operands l r).map List.length))).2.values table ∧
      (table.look (helperBody op.helper ((op.operands l r).map List.length)
        (helperStart ((op.operands l r).map List.length))).1).bits =
          onBits (evalOp op.helper (op.operands l r)) := by
  have hwidth := (onBits_helper hdef).2
  have hgates := hclean.2.2
  unfold helperWidth at hwidth
  obtain ⟨ext, h₁, hops⟩ := HelperBuilder.operands_hold
    (evaluated_start reading (fun _ _ => none) (op.operands l r)) (holdsWord_args (op.operands l r))
    hdef.ne_nil hclean.1
  have hcount : (op.operands l r).length = if op = not then 1 else 2 := by
    split
    case isTrue hnot => rw [hnot]; rfl
    case isFalse hnot =>
      cases op with
      | not => exact absurd rfl hnot
      | icmp pred =>
          simp only [operands]
          split <;> rfl
      | _ => rfl
  rw [helperBody_eq]
  generalize (op.operands l r).map List.length = widths at h₁ hops hgates hwidth ⊢
  change Evaluated _ _ _ (helperOperands widths (helperStart widths)).2.values _ at h₁
  change List.Forall₂ _ (helperOperands widths (helperStart widths)).1 _ at hops
  have hrun : ((do
      let operands ← helperOperands widths
      let resultBits ← evalOp op.helper operands
      helperResult (helperResultWidth op.helper widths) resultBits) :
        StateM HelperBuilder ℕ) (helperStart widths) =
      helperResult (helperResultWidth op.helper widths)
        (evalOp op.helper (helperOperands widths (helperStart widths)).1
          (helperOperands widths (helperStart widths)).2).1
        (evalOp op.helper (helperOperands widths (helperStart widths)).1
          (helperOperands widths (helperStart widths)).2).2 := rfl
  rw [hrun]
  unfold watchedHelper at hgates
  generalize helperOperands widths (helperStart widths) = start at h₁ hops hgates ⊢
  have hlens : List.Forall₂ (fun ws bs => ws.length = bs.length) start.1 (op.operands l r) :=
    hops.imp fun _ _ h => h.length_eq
  have hane : start.1.getD 0 [] ≠ [] := by
    apply operand_ne hlens hdef.ne_nil
    rw [hlens.length_eq, hcount]
    split <;> omega
  have hxne : op.helper ≠ .not → start.1.getD 1 [] ≠ [] := by
    intro hnot
    have hop : op ≠ not := fun heq => hnot (by rw [heq]; rfl)
    apply operand_ne hlens hdef.ne_nil
    rw [hlens.length_eq, hcount, if_neg hop]
    exact Nat.one_lt_two
  have sound : (HelperBuilder.arena reading (fun _ _ => none)
    ((op.operands l r).map Entry.ofBits)).Sound := HelperBuilder.arena_sound
  have htab : (HelperBuilder.arena reading (fun _ _ => none)
      ((op.operands l r).map Entry.ofBits)).Tab start.2
      (Table.holdings ((op.operands l r).map Entry.ofBits ++ ext)) := ⟨_, h₁, rfl⟩
  have hinv : (HelperBuilder.arena reading (fun _ _ => none)
      ((op.operands l r).map Entry.ofBits)).onBits.Inv (⟨start.2, []⟩, ()) :=
    ⟨_, htab, fun g hg => absurd hg List.not_mem_nil⟩
  have hbits := (Arena.onBits_sound sound).evalOp hinv op.helper
    (hops.imp fun _ _ h => Arena.wires_start sound htab h) hane hxne
  have hself : (Watched.unwatched : Simulation (Watched HelperBuilder ℕ) ℕ HelperBuilder ℕ).Inv
    (⟨start.2, []⟩, start.2) := rfl
  have hplain := Watched.unwatched_sound.evalOp hself op.helper
    (List.forall₂_same.mpr fun ws _ => Arena.wires_self start.2 ws) hane hxne
  obtain ⟨_, ⟨table', h', rfl⟩, hgood⟩ := Arena.holds_of_runs hbits hplain
  have hstate : (evalOp op.helper start.1 (⟨start.2, []⟩ : Watched HelperBuilder ℕ)).2.base =
    (evalOp op.helper start.1 start.2).2 := hplain.later.inv
  have hwires := hgood <| by
    apply hgates table'
    rw [hstate, ← List.length_map (f := Entry.ofBits)]
    exact h'.run
  rw [← hwidth]
  exact HelperBuilder.result_holds h' hwires

theorem evalFunc_helper (hdef : op.Defined l r) (hclean : op.HelperClean reading l r)
    {funcs : List FuncDecl} {id : ℕ}
    (hfunc : funcs[id]? = some (.body (buildHelperBody op.helper
      ((op.operands l r).map List.length)))) (depth : ℕ) :
    evalFunc reading funcs (depth + 1) id (op.operands l r) =
      some [onBits (evalOp op.helper (op.operands l r))] := by
  obtain ⟨table, h, hret⟩ := helperBody_holds hdef hclean
  have hcount : (op.operands l r).length = (buildHelperBody op.helper
      ((op.operands l r).map List.length)).params.length := by
    simp [buildHelperBody]
  have hrun := h.run
  rw [List.length_map, hcount] at hrun
  have hvalues := evalValues_mono (evalFunc reading funcs depth) hrun
  rw [evalFunc, hfunc]
  simp only [if_pos hcount]
  change (evalValues reading (evalFunc reading funcs depth) _
    ((buildHelperBody op.helper ((op.operands l r).map List.length)).values.drop _)).bind _ = _
  have hbody : (buildHelperBody op.helper ((op.operands l r).map List.length)).values =
    (helperBody op.helper ((op.operands l r).map List.length)
      (helperStart ((op.operands l r).map List.length))).2.values := rfl
  rw [hbody, hvalues]
  exact congrArg (fun bits => some [bits]) hret

end IntOp

namespace VaffleTarget
variable {reading : OutputReading} {answer : ℕ → List (List Bool) → Option (List (List Bool))}
  {start : Table} {t : VaffleTarget} {table : Table}

theorem get_bind_apply {α : Type} (f : VaffleTarget → StateM VaffleTarget α) (t : VaffleTarget) :
    (get >>= f : StateM VaffleTarget α) t = f t t := rfl

theorem internCircuitHelper_spec (op : HelperOp) (widths : List ℕ) (t : VaffleTarget) :
    (internCircuitHelper op widths t).2.funcs[(internCircuitHelper op widths t).1]? =
        some (.body (buildHelperBody op widths)) ∧
      (internCircuitHelper op widths t).2.values = t.values := by
  unfold internCircuitHelper
  rw [get_bind_apply]
  cases hcache : t.helperCache ⟨op, widths⟩ with
  | some id => exact ⟨t.built _ _ hcache, rfl⟩
  | none => exact ⟨List.getElem?_concat_length, rfl⟩

theorem funcs_mergeOperand (ws : List ℕ) (t : VaffleTarget) :
    (mergeOperand ws t).2.funcs = t.funcs := by
  unfold mergeOperand
  split <;> rfl

theorem funcs_mergeOperands (ops : List (List ℕ)) (t : VaffleTarget) :
    (ops.mapM mergeOperand t).2.funcs = t.funcs := by
  induction ops generalizing t with
  | nil => rfl
  | cons ws ops ih =>
      rw [List.mapM_cons]
      exact (ih _).trans (funcs_mergeOperand ws t)

theorem mergeOperand_holds (h : Holding reading answer start t table) {ws : List ℕ}
    {bits : List Bool} (hbits : table.holdings.HoldsBits ws bits) (hne : bits ≠ []) :
    ∃ ext, Holding reading answer start (mergeOperand ws t).2 (table ++ ext) ∧
      Table.HoldsWord (table ++ ext) (mergeOperand ws t).1 bits := by
  have hlen : ws.length = bits.length := hbits.length_eq
  by_cases hone : ws.length ≤ 1
  · have hrun : mergeOperand ws t = (ws.headD 0, t) := congrFun (if_pos hone) t
    rw [hrun]
    refine ⟨[], by rw [List.append_nil]; exact h, ?_⟩
    rw [List.append_nil]
    cases hbits with
    | nil => exact absurd rfl hne
    | cons hw hrest =>
        cases hrest with
        | nil => exact Table.holdsWord_single.mpr hw
        | cons => simp at hone
  · have hrun : mergeOperand ws t = emitValue (.merge ws (widthType ws.length)) t :=
      congrFun (if_neg hone) t
    rw [hrun, hlen]
    refine ⟨_, h.emit (evalValue_merge hbits _ (width_widthType _)) ?_, ?_⟩
    · intro c ty hc
      cases hc
    · show Table.HoldsWord _ t.values.length bits
      rw [← h.length]
      exact table.holdsWord_new bits []

theorem mergeOperands_hold {ops : List (List ℕ)} {bits : List (List Bool)}
    (h : Holding reading answer start t table)
    (hbits : List.Forall₂ table.holdings.HoldsBits ops bits) (hne : ∀ o ∈ bits, o ≠ []) :
    ∃ ext, Holding reading answer start (ops.mapM mergeOperand t).2 (table ++ ext) ∧
      List.Forall₂ (Table.HoldsWord (table ++ ext)) (ops.mapM mergeOperand t).1 bits := by
  induction ops generalizing t table bits with
  | nil =>
      cases hbits
      exact ⟨[], by rw [List.append_nil]; exact h, .nil⟩
  | cons ws ops ih =>
      cases hbits with
      | @cons _ o _ os hws hrest =>
          obtain ⟨ext, h₁, hword⟩ := mergeOperand_holds h hws (hne o List.mem_cons_self)
          obtain ⟨ext', h₂, hwords⟩ := ih h₁
            (hrest.imp fun _ _ hp => Table.holdsBits_append hp ext)
            fun p hp => hne p (List.mem_cons_of_mem o hp)
          rw [List.append_assoc] at h₂ hwords
          rw [List.mapM_cons]
          refine ⟨ext ++ ext', h₂, .cons ?_ hwords⟩
          have hold := hword.append ext'
          rw [List.append_assoc] at hold
          exact hold

theorem args_bits {table : Table} {args : List ℕ} {bits : List (List Bool)}
    (h : List.Forall₂ table.HoldsWord args bits) :
    (args.map fun v => (table.look v).bits) = bits := by
  induction h with
  | nil => rfl
  | cons hw _ ih => rw [List.map_cons, ih, hw.bits_eq]

theorem evalValue_output {call : ℕ} {bits : List Bool}
    (hcall : (table.look call).results = [bits])
    (hone : reading = .result → bits.length = 1) {i : ℕ} (hi : i < bits.length) :
    evalValue reading answer table (.output call i) = some (.ofBits [bits.getD i false]) := by
  rw [evalValue, hcall]
  cases reading with
  | bit =>
      have hbit : ([bits].flatten[i]?).toList = [bits.getD i false] := by
        rw [List.flatten_singleton, List.getElem?_eq_getElem hi, List.getD_eq_getElem _ _ hi]
        rfl
      exact congrArg (fun bs => some (Entry.ofBits bs)) hbit
  | result =>
      obtain ⟨b, rfl⟩ := List.length_eq_one_iff.mp (hone rfl)
      obtain rfl : i = 0 := by simpa using hi
      rfl

end VaffleTarget

namespace IntOp
open VaffleTarget
variable {reading : OutputReading} {depth : ℕ} {t : VaffleTarget} {table : Table} {op : IntOp}
  {lhs rhs : List ℕ} {l r : List Bool}

theorem callHelper_computes (hassigns : t.Assigns table) (hl : table.holdings.HoldsBits lhs l)
    (hr : table.holdings.HoldsBits rhs r) (hdef : op.Defined l r)
    (hclean : op.HelperClean reading l r) :
    Computes reading (depth + 1) table (callHelper op.helper (op.operands lhs rhs) t)
      (onBits (evalOp op.helper (op.operands l r))) := by
  have hrel := operands_rel op hl hr
  have hwidths : (op.operands lhs rhs).map List.length = (op.operands l r).map List.length := by
    have hmap : List.Forall₂ Eq ((op.operands lhs rhs).map List.length)
        ((op.operands l r).map List.length) := by
      apply List.forall₂_map_left_iff.mpr
      apply List.forall₂_map_right_iff.mpr
      exact hrel.imp fun _ _ h => h.length_eq
    rwa [List.forall₂_eq_eq_eq] at hmap
  have hspec := internCircuitHelper_spec op.helper ((op.operands l r).map List.length) t
  have hone := hclean.2.1
  rw [← (onBits_helper hdef).2] at hone
  have hcall := evalFunc_helper hdef hclean hspec.1 depth
  unfold callHelper
  rw [hwidths]
  have hwidth : helperResultWidth op.helper ((op.operands l r).map List.length) = _ :=
    (onBits_helper hdef).2.symm
  rw [hwidth]
  simp only [bind, StateT.bind]
  generalize internCircuitHelper op.helper ((op.operands l r).map List.length) t = i
    at hspec hcall ⊢
  generalize onBits (evalOp op.helper (op.operands l r)) = bits at hone hcall ⊢
  have hstart : Holding reading (evalFunc reading i.2.funcs (depth + 1)) table i.2 table := by
    apply (Holding.initial hassigns).congr
    rw [kinds, kinds, hspec.2]
  obtain ⟨ext, h₁, hargs⟩ := mergeOperands_hold hstart hrel hdef.ne_nil
  have hfuncs := funcs_mergeOperands (op.operands lhs rhs) i.2
  show Computes _ _ _ ((List.range bits.length).mapM (fun k => emitValue
      (.output ((op.operands lhs rhs).mapM mergeOperand i.2).2.values.length k))
    (emitValue (.call i.1 ((op.operands lhs rhs).mapM mergeOperand i.2).1)
      ((op.operands lhs rhs).mapM mergeOperand i.2).2).2) bits
  generalize (op.operands lhs rhs).mapM mergeOperand i.2 = m at h₁ hargs hfuncs ⊢
  have hval : evalValue reading (evalFunc reading i.2.funcs (depth + 1)) (table ++ ext)
      (.call i.1 m.1) = some ⟨[], [bits]⟩ := by
    rw [evalValue, args_bits hargs, hcall]
    rfl
  have h₂ := h₁.emit hval (by intro c ty hc; cases hc)
  have hlook : Table.look (table ++ ext ++ [⟨[], [bits]⟩]) m.2.values.length = ⟨[], [bits]⟩ := by
    rw [← h₁.length, Table.look_length]
  have h₃ := h₂.mapM_emitValue (l := List.range bits.length)
    (f := fun k => .output m.2.values.length k) (e := fun k => .ofBits [bits.getD k false])
    (by
      intro k hk ext'
      apply evalValue_output _ hone (List.mem_range.mp hk)
      rw [Table.look_append, hlook]
      rw [← h₁.length]
      simp)
    (by intro _ _ c ty hc; cases hc)
  have hrun := h₃.evaluated.run
  have hall : ((List.range bits.length).mapM
      (fun k => emitValue (.output m.2.values.length k))
      (emitValue (.call i.1 m.1) m.2).2).2.funcs = i.2.funcs :=
    (funcs_mapM_emitValue _ _).trans hfuncs
  rw [← hall] at hrun
  refine ⟨_, hrun, ?_⟩
  show Holdings.HoldsBits _ ((List.range bits.length).mapM (fun k => emitValue _) _).1 bits
  rw [mapM_emitValue_fst, ← h₂.length]
  have hself : ((List.range bits.length).map fun k => bits.getD k false) = bits := fit_self bits
  have hnew := holdsBits_new (table ++ ext ++ [⟨[], [bits]⟩]) (List.range bits.length)
    fun k => bits.getD k false
  rwa [hself] at hnew

end IntOp

/-!
## Exact integer operations

An operation of the target is exact, in the block and by a helper call, as long as none of its
gates collapses two equal monomials into one.
-/

namespace VaffleTarget
variable {t : VaffleTarget}

def inMode (t : VaffleTarget) (mode : CircuitHelperMode) : VaffleTarget :=
  { t with helperMode := mode }

theorem Assigns.inMode {table : Table} (h : t.Assigns table) (mode : CircuitHelperMode) :
    (t.inMode mode).Assigns table := ⟨h.length, h.const⟩

theorem extractBits_extract (h : t.helperMode = .extract) (op : HelperOp)
    (operands : List (List ℕ)) :
    extractBits op operands t =
      (some (callHelper op operands t).1, (callHelper op operands t).2) := by
  have hmode : ¬t.helperMode ≠ .extract := by
    rw [h]
    simp
  exact congrFun (if_neg hmode) t

theorem extractOr_extract (h : t.helperMode = .extract) (op : HelperOp)
    (operands : List (List ℕ)) (circuit : StateM VaffleTarget (List ℕ)) :
    extractOr op operands circuit t = callHelper op operands t := by
  unfold extractOr
  simp only [bind, StateT.bind, extractBits_extract h]
  rfl

end VaffleTarget

namespace IntOp
open VaffleTarget
variable {reading : OutputReading} {depth : ℕ} {t : VaffleTarget} {table : Table} {op : IntOp}
  {lhs rhs : List ℕ} {l r : List Bool}

/-- The operation meets no defect: a constant decides it, or no gate of what it emits collapses
and a helper's operands and result are read as they were meant. -/
def Clean (op : IntOp) (reading : OutputReading) (depth : ℕ) (t : VaffleTarget) (table : Table)
    (lhs rhs : List ℕ) (l r : List Bool) : Prop :=
  op.Annihilated t lhs rhs ∨
    match t.helperMode with
    | .inline => op.InlineClean reading depth t table lhs rhs
    | .extract => op.HelperClean reading l r

theorem Computes.take {c : List ℕ × VaffleTarget} {bits : List Bool}
    (h : Computes reading depth table c bits) (n : ℕ) :
    Computes reading depth table (c.1.take n, c.2) (bits.take n) := by
  obtain ⟨table', heval, hbits⟩ := h
  exact ⟨table', heval, List.forall₂_take n hbits⟩

theorem extract_computes (hmode : t.helperMode = .extract) (hassigns : t.Assigns table)
    (hl : table.holdings.HoldsBits lhs l) (hr : table.holdings.HoldsBits rhs r)
    (hdef : op.Defined l r)
    (hclean : op.Annihilated t lhs rhs ∨ op.HelperClean reading l r) :
    Computes reading (depth + 1) table (op.run lhs rhs t) (op.result l r) := by
  have hlhs : lhs.length = l.length := hl.length_eq
  have call (hop : ¬op.Annihilated t lhs rhs) :
      Computes reading (depth + 1) table (callHelper op.helper (op.operands lhs rhs) t)
        (onBits (evalOp op.helper (op.operands l r))) :=
    callHelper_computes hassigns hl hr hdef (hclean.resolve_left hop)
  have simple (hop : ¬op.Annihilated t lhs rhs) (hhelper : op.helper = op.circuit)
      (hrun : op.run lhs rhs t = callHelper op.helper (op.operands lhs rhs) t) :
      Computes reading (depth + 1) table (op.run lhs rhs t) (op.result l r) := by
    rw [hrun, ← onBits_circuit hdef]
    have hcall := call hop
    rw [hhelper] at hcall ⊢
    exact hcall
  have half (hop : ¬op.Annihilated t lhs rhs) (hlen : (op.result l r).length = lhs.length)
      (hrun : op.run lhs rhs t =
        ((callHelper op.helper (op.operands lhs rhs) t).1.take lhs.length,
          (callHelper op.helper (op.operands lhs rhs) t).2)) :
      Computes reading (depth + 1) table (op.run lhs rhs t) (op.result l r) := by
    rw [hrun, ← (onBits_helper hdef).1, hlen]
    exact Computes.take (call hop) _
  cases op with
  | udiv =>
      apply half (fun h => nomatch h.1) ((length_ofWord _).trans hlhs.symm)
      show VaffleTarget.udiv lhs rhs t = _
      unfold VaffleTarget.udiv
      simp only [bind, StateT.bind, extractBits_extract hmode]
      rfl
  | sdiv =>
      apply half (fun h => nomatch h.1) ((length_ofWord _).trans hlhs.symm)
      show VaffleTarget.sdiv lhs rhs t = _
      unfold VaffleTarget.sdiv
      simp only [bind, StateT.bind, extractBits_extract hmode]
      rfl
  | mul =>
      by_cases hzero : lhs.length ≤ 64 ∧ (t.isPublicConst lhs 0 ∨ t.isPublicConst rhs 0)
      · rw [mul_of_zero (hzero.2.imp (value_of_isPublicConst hassigns hl)
          (value_of_isPublicConst hassigns hr)), ← hlhs]
        exact annihilated_computes hassigns false _ hzero
      · apply simple (fun h => hzero h.2) rfl
        exact (annihilated_eq false _ hzero).trans (extractOr_extract hmode _ _ _)
  | _ => exact simple (fun h => nomatch h.1) rfl (extractOr_extract hmode _ _ _)

/-- In both modes the operation is exact, wherever it meets no defect. -/
theorem run_exact (op : IntOp) (reading : OutputReading) (depth : ℕ) (t : VaffleTarget)
    (mode : CircuitHelperMode) (table : Table) (lhs rhs : List ℕ) (l r : List Bool)
    (hassigns : t.Assigns table) (hl : table.holdings.HoldsBits lhs l)
    (hr : table.holdings.HoldsBits rhs r) (hdef : op.Defined l r)
    (hclean : op.Clean reading (depth + 1) (t.inMode mode) table lhs rhs l r) :
    Computes reading (depth + 1) table (op.run lhs rhs (t.inMode mode)) (op.result l r) := by
  cases mode with
  | inline => exact inline_computes rfl (hassigns.inMode _) hl hr hdef hclean
  | extract => exact extract_computes rfl (hassigns.inMode _) hl hr hdef hclean

def freshTarget (n : ℕ) : VaffleTarget where
  funcs := []
  values := List.replicate n ⟨.other, none⟩
  currentSide := none
  publicSide := none
  helperMode := .inline
  helperCache _ := none
  built := helpersBuilt_nil

def bitTable (bits : List Bool) : Table := bits.map fun b => .ofBits [b]

theorem freshTarget_assigns (bits : List Bool) :
    (freshTarget bits.length).Assigns (bitTable bits) := by
  constructor
  · simp [freshTarget, bitTable]
  · intro id c ty hid
    rw [VaffleTarget.kind, freshTarget, List.getElem?_replicate] at hid
    split at hid <;> cases hid

theorem run_exact_add :
    (freshTarget 3).Assigns (bitTable [true, false, true]) ∧
      add.Defined [true, false] [true, false] ∧
      Computes .bit 1 (bitTable [true, false, true])
        (add.run [0, 1] [2, 1] ((freshTarget 3).inMode .inline)) [false, true] :=
  ⟨freshTarget_assigns [true, false, true], by decide,
    run_exact add .bit 0 (freshTarget 3) .inline (bitTable [true, false, true]) [0, 1] [2, 1]
      [true, false] [true, false] (freshTarget_assigns [true, false, true])
      (.cons (Table.holds_iff.mpr (by decide)) (.cons (Table.holds_iff.mpr (by decide)) .nil))
      (.cons (Table.holds_iff.mpr (by decide)) (.cons (Table.holds_iff.mpr (by decide)) .nil))
      (by decide)
      (Or.inr (by
        show ∀ table' ∈ _, ∀ g ∈ _, ¬_
        decide +kernel))⟩

/-- Doubling 3: in the carry out of bit 1 the two products with the carry in are one monomial,
and it is counted once where the two would cancel. -/
theorem double_not_exact :
    (freshTarget 3).Assigns (bitTable [true, true, false]) ∧
      add.Defined [true, true, false] [true, true, false] ∧
      ¬Computes .bit 1 (bitTable [true, true, false])
        (add.run [0, 1, 2] [0, 1, 2] ((freshTarget 3).inMode .inline))
        (add.result [true, true, false] [true, true, false]) := by
  refine ⟨freshTarget_assigns [true, true, false], by decide, ?_⟩
  rintro ⟨table', heval, hbits⟩
  have hwrong : ∀ table' ∈ (add.run [0, 1, 2] [0, 1, 2] ((freshTarget 3).inMode .inline)).2.evaluate
      .bit 1 (bitTable [true, true, false]),
      ((add.run [0, 1, 2] [0, 1, 2] ((freshTarget 3).inMode .inline)).1.flatMap
        fun v => (table'.look v).bits) ≠
          add.result [true, true, false] [true, true, false] := by decide +kernel
  exact hwrong table' heval (Table.flatMap_bits hbits)

end IntOp

end VolarIR.Vaffle
