import VolarIR.Reversible.Naive

/-!
# Statements out of order

What the lowering does with a circuit whose statements are not all supported and in SSA order:
the first of them decides. The order check lets a statement read its own result, for which
there is no wire yet.
-/
namespace VolarIR.Rev
open Boolar

/-- A statement with gates that reads earlier values only; its result `r` is an id. -/
def InOrder (r : ℕ) (s : Stmt) : Prop := r ≤ u32Max ∧ lowerable s ∧ ∀ v ∈ s.operands, v < r

instance (r : ℕ) (s : Stmt) : Decidable (InOrder r s) :=
  inferInstanceAs (Decidable (_ ∧ _ ∧ _))

def firstOffender : ℕ → List Stmt → Option (ℕ × Stmt)
  | _, [] => none
  | r, s :: rest => if InOrder r s then firstOffender (r + 1) rest else some (r, s)

theorem firstOffender_none {r : ℕ} {stmts : List Stmt} :
    firstOffender r stmts = none ↔ Defined r stmts ∧ (∀ s ∈ stmts, lowerable s) ∧
      ∀ i < stmts.length, r + i ≤ u32Max := by
  induction stmts generalizing r with
  | nil => simp [firstOffender, Defined]
  | cons s rest ih =>
      have hids : (∀ i < rest.length + 1, r + i ≤ u32Max) ↔
          r ≤ u32Max ∧ ∀ i < rest.length, r + 1 + i ≤ u32Max := by
        rw [Nat.forall_lt_succ_left]
        simp only [Nat.add_zero, Nat.add_assoc, Nat.add_comm 1]
      rw [firstOffender, Defined, List.forall_mem_cons, List.length_cons, hids]
      split
      case isTrue h =>
        rw [ih]
        exact ⟨fun hrest => ⟨⟨h.2.2, hrest.1⟩, ⟨h.2.1, hrest.2.1⟩, h.1, hrest.2.2⟩,
          fun hall => ⟨hall.1.2, hall.2.1.2, hall.2.2.2⟩⟩
      case isFalse h =>
        constructor
        · intro hnone
          cases hnone
        · intro hall
          exact absurd ⟨hall.2.2.1, hall.2.1.1, hall.1.1⟩ h

theorem firstOffender_some {base r : ℕ} {s : Stmt} {stmts : List Stmt}
    (h : firstOffender base stmts = some (r, s)) :
    base ≤ r ∧ stmts[r - base]? = some s ∧ ¬InOrder r s := by
  induction stmts generalizing base with
  | nil => cases h
  | cons a rest ih =>
      rw [firstOffender] at h
      split at h
      case isTrue =>
        have hrest := ih h
        have hidx : r - base = (r - (base + 1)) + 1 := by omega
        refine ⟨by omega, ?_, hrest.2.2⟩
        rw [hidx, List.getElem?_cons_succ]
        exact hrest.2.1
      case isFalse hbad =>
        cases h
        exact ⟨le_rfl, by rw [Nat.sub_self]; rfl, hbad⟩

theorem checkOperand_eq (r v : ℕ) :
    checkOperand r v = if r < v then .error (.error (.useBeforeDef r v)) else .ok () := by
  unfold checkOperand
  by_cases h : r < v
  · rw [if_pos h, if_pos h]
  · rw [if_neg h, if_neg h, if_neg (by omega)]

theorem checkOperandList_append (r : ℕ) (vs us : List ℕ) :
    checkOperandList r (vs ++ us) = (do
      checkOperandList r vs
      checkOperandList r us) := by
  induction vs with
  | nil => rfl
  | cons v vs ih =>
      rw [List.cons_append, checkOperandList, checkOperandList, ih, bind_assoc]

theorem checkOperandList_le {r : ℕ} {vs : List ℕ} (h : ∀ v ∈ vs, v ≤ r) :
    checkOperandList r vs = .ok () := by
  induction vs with
  | nil => rfl
  | cons v vs ih =>
      rw [checkOperandList, checkOperand_eq, if_neg (h v List.mem_cons_self).not_gt]
      exact ih fun u hu => h u (List.mem_cons_of_mem v hu)

theorem checkOperandList_gt {r : ℕ} {vs : List ℕ} (h : ∃ v ∈ vs, r < v) :
    ∃ v ∈ vs, r < v ∧ checkOperandList r vs = .error (.error (.useBeforeDef r v)) := by
  induction vs with
  | nil =>
      obtain ⟨v, hv, -⟩ := h
      cases hv
  | cons v vs ih =>
      rw [checkOperandList, checkOperand_eq]
      by_cases hlt : r < v
      · exact ⟨v, List.mem_cons_self, hlt, by rw [if_pos hlt]; rfl⟩
      · have hrest : ∃ u ∈ vs, r < u := by
          obtain ⟨u, hu, hru⟩ := h
          cases List.mem_cons.mp hu with
          | inl heq => exact absurd (heq ▸ hru) hlt
          | inr hmem => exact ⟨u, hmem, hru⟩
        obtain ⟨u, hu, hru, herr⟩ := ih hrest
        rw [if_neg hlt]
        exact ⟨u, List.mem_cons_of_mem v hu, hru, herr⟩

section
variable {st : Synth} {params i : ℕ} {uses : List ℕ} {share : Bool} {s : Stmt}

theorem wire_panic {v : ℕ} (h : st.map.length ≤ v) : st.wire v = .error .panic := by
  rw [Synth.wire, List.getElem?_eq_none h]
  rfl

theorem wire_cases (st : Synth) (v : ℕ) :
    (∃ w, v < st.map.length ∧ st.wire v = .ok w) ∨
      st.map.length ≤ v ∧ st.wire v = .error .panic := by
  by_cases h : v < st.map.length
  · exact Or.inl ⟨_, h, Synth.wire_eq_ok h⟩
  · exact Or.inr ⟨not_lt.mp h, wire_panic (not_lt.mp h)⟩

theorem wires_cases (st : Synth) (vs : List ℕ) :
    (∃ ws, (∀ v ∈ vs, v < st.map.length) ∧ st.wires vs = .ok ws) ∨ st.wires vs = .error .panic := by
  induction vs with
  | nil => exact Or.inl ⟨[], by simp, rfl⟩
  | cons v vs ih =>
      rw [Synth.wires, List.mapM_cons]
      rcases wire_cases st v with ⟨w, hv, hw⟩ | ⟨-, hw⟩
      · rw [hw]
        rcases ih with ⟨ws, hvs, hws⟩ | hws
        · rw [Synth.wires] at hws
          rw [hws]
          exact Or.inl ⟨w :: ws, List.forall_mem_cons.mpr ⟨hv, hvs⟩, rfl⟩
        · rw [Synth.wires] at hws
          rw [hws]
          exact Or.inr rfl
      · rw [hw]
        exact Or.inr rfl

theorem two_wires_panic {a b : ℕ} {f : ℕ → ℕ → SynthResult Synth}
    (h : st.map.length ≤ a ∨ st.map.length ≤ b) :
    (do
      let wa ← st.wire a
      let wb ← st.wire b
      f wa wb) = .error .panic := by
  rcases wire_cases st a with ⟨wa, ha, hwa⟩ | ⟨-, hwa⟩
  · rw [hwa]
    have hb := wire_panic (h.resolve_left ha.not_ge)
    rw [hb]
    rfl
  · rw [hwa]
    rfl

theorem wires_panic {vs : List ℕ} (h : ∃ v ∈ vs, st.map.length ≤ v) :
    st.wires vs = .error .panic := by
  rcases wires_cases st vs with ⟨ws, hvs, -⟩ | hws
  · obtain ⟨v, hv, hle⟩ := h
    exact absurd (hvs v hv) hle.not_gt
  · exact hws

theorem checkOperandList_pair (r a b : ℕ) : checkOperandList r [a, b] = (do
    checkOperand r a
    checkOperand r b) := by
  simp only [checkOperandList]
  cases checkOperand r a with
  | error e => rfl
  | ok =>
      cases checkOperand r b with
      | error e => rfl
      | ok => rfl

theorem synthStmt_checks (params i : ℕ) (uses : List ℕ) (share : Bool) (st : Synth)
    (hs : lowerable s) :
    ∃ rest : SynthResult Synth,
      synthStmt params uses share i st s = (do
        checkOperandList (params + i) s.operands
        rest) ∧
      ((∃ v ∈ s.operands, st.map.length ≤ v) → rest = .error .panic) := by
  have hpair {a b : ℕ} (h : ∃ v ∈ [a, b], st.map.length ≤ v) :
      st.map.length ≤ a ∨ st.map.length ≤ b := by simpa using h
  cases s with
  | zero => exact ⟨_, rfl, fun h => by simp [BIrStmt.operands] at h⟩
  | one => exact ⟨_, rfl, fun h => by simp [BIrStmt.operands] at h⟩
  | rngBit name bit occ => exact ⟨_, rfl, fun h => by simp [BIrStmt.operands] at h⟩
  | xor a b =>
      apply Exists.intro
      constructor
      · rw [BIrStmt.operands, checkOperandList_pair, bind_assoc]
        rfl
      · intro h
        exact two_wires_panic (hpair h)
  | and a b =>
      apply Exists.intro
      constructor
      · rw [BIrStmt.operands, checkOperandList_pair, bind_assoc]
        rfl
      · intro h
        exact two_wires_panic (hpair h)
  | or a b =>
      apply Exists.intro
      constructor
      · rw [BIrStmt.operands, checkOperandList_pair, bind_assoc]
        rfl
      · intro h
        exact two_wires_panic (hpair h)
  | not a =>
      apply Exists.intro
      constructor
      · rw [BIrStmt.operands, checkOperandList, bind_assoc]
        rfl
      · intro h
        have ha : st.map.length ≤ a := by simpa [BIrStmt.operands] using h
        rw [wire_panic ha]
  | storageRead storage lane addr =>
      apply Exists.intro
      constructor
      · rfl
      · intro h
        have hwires : st.wires addr = .error .panic := wires_panic h
        rw [hwires]
        rfl
  | storageWrite storage lane src addr =>
      apply Exists.intro
      constructor
      · rw [BIrStmt.operands, checkOperandList, bind_assoc]
        rfl
      · intro h
        rcases wire_cases st src with ⟨w, hlt, hw⟩ | ⟨-, hw⟩
        · have haddr := (List.exists_mem_cons_iff _ _ _).mp h
          have hwires := wires_panic (haddr.resolve_left hlt.not_ge)
          rw [hw, hwires]
          rfl
        · rw [hw]
          rfl
  | oracleBit name args bit occ =>
      apply Exists.intro
      constructor
      · rfl
      · intro h
        have hwires : st.wires args = .error .panic := wires_panic h
        rw [hwires]
        rfl
  | actionStoreBit name guard args fallback storage lane addr bit occ =>
      apply Exists.intro
      constructor
      · rw [BIrStmt.operands, List.cons_append, checkOperandList, checkOperandList_append,
          checkOperandList, bind_assoc, bind_assoc, bind_assoc]
        rfl
      · intro h
        rcases wire_cases st guard with ⟨wg, hg, hwg⟩ | ⟨-, hwg⟩
        · rcases wires_cases st args with ⟨ws, hargs, hws⟩ | hws
          · rcases wire_cases st fallback with ⟨wf, hf, hwf⟩ | ⟨-, hwf⟩
            · have haddr : ∃ v ∈ addr, st.map.length ≤ v := by
                obtain ⟨v, hv, hle⟩ := h
                simp only [BIrStmt.operands, List.cons_append, List.mem_cons,
                  List.mem_append] at hv
                rcases hv with rfl | hv | rfl | hv
                · exact absurd hle hg.not_ge
                · exact absurd hle (hargs v hv).not_ge
                · exact absurd hle hf.not_ge
                · exact ⟨v, hv, hle⟩
              rw [hwg, hws, hwf, wires_panic haddr]
              rfl
            · rw [hwg, hws, hwf]
              rfl
          · rw [hwg, hws]
            rfl
        · rw [hwg]
          rfl
  | oracleCall | oracleProjectedBit | actionCall | actionBit | rng => simp [lowerable] at hs

/-- What the first statement out of order does to the loop, if its result is an id. -/
theorem synthStmt_offender (uses : List ℕ) (share : Bool) (hlen : st.map.length = params + i)
    (hid : params + i ≤ u32Max) (h : ¬InOrder (params + i) s) :
    (¬lowerable s ∧ synthStmt params uses share i st s =
        .error (.error (.unsupportedStmt (params + i)))) ∨
      (lowerable s ∧ ∃ v ∈ s.operands, params + i < v ∧ synthStmt params uses share i st s =
        .error (.error (.useBeforeDef (params + i) v))) ∨
      (lowerable s ∧ (∀ v ∈ s.operands, v ≤ params + i) ∧
        synthStmt params uses share i st s = .error .panic) := by
  by_cases hs : lowerable s
  · obtain ⟨rest, hrun, hpanic⟩ := synthStmt_checks params i uses share st hs
    rw [hrun]
    by_cases hlater : ∃ v ∈ s.operands, params + i < v
    · obtain ⟨v, hv, hlt, herr⟩ := checkOperandList_gt hlater
      rw [herr]
      exact Or.inr (Or.inl ⟨hs, v, hv, hlt, rfl⟩)
    · have hle : ∀ v ∈ s.operands, v ≤ params + i := fun v hv =>
        not_lt.mp fun hlt => hlater ⟨v, hv, hlt⟩
      have hown : ∃ v ∈ s.operands, st.map.length ≤ v := by
        by_contra hnone
        apply h
        refine ⟨hid, hs, fun v hv => ?_⟩
        rw [← hlen]
        exact not_le.mp fun hge => hnone ⟨v, hv, hge⟩
      rw [checkOperandList_le hle, hpanic hown]
      exact Or.inr (Or.inr ⟨hs, hle, rfl⟩)
  · refine Or.inl ⟨hs, ?_⟩
    cases s <;> first | rfl | exact absurd rfl hs

theorem synthStmt_inOrder (uses : List ℕ) (share : Bool) (hlen : st.map.length = params + i)
    (h : InOrder (params + i) s) :
    ∃ st', synthStmt params uses share i st s = .ok st' ∧ st'.map.length = params + (i + 1) := by
  obtain ⟨st', hrun, hcases⟩ := synthStmt_cases uses share hlen h.2.1 h.2.2
  refine ⟨st', hrun, ?_⟩
  rcases hcases with ⟨hfresh, -⟩ | ⟨c, o, hplace, -⟩
  · obtain ⟨pool, bs, -, -, rfl⟩ := hfresh
    simp [Synth.fresh, Synth.finishFresh, hlen, Nat.add_assoc]
  · obtain ⟨-, -, -, rfl⟩ := hplace
    simp [Synth.finishInPlace, hlen, Nat.add_assoc]

end

/-- The loop ends as its first offender makes it end. -/
theorem synthFrom_offender (params : ℕ) (uses : List ℕ) (share : Bool) {stmts : List Stmt} {i : ℕ}
    {st : Synth} (hlen : st.map.length = params + i) {r : ℕ} {s : Stmt}
    (h : firstOffender (params + i) stmts = some (r, s)) :
    ∃ st' j, st'.map.length = params + j ∧ r = params + j ∧
      ∀ e, (resultVar params j >>= fun _ => synthStmt params uses share j st' s) = .error e →
        synthFrom params uses share i st stmts = .error e := by
  induction stmts generalizing i st with
  | nil => cases h
  | cons a rest ih =>
      rw [firstOffender] at h
      split at h
      case isTrue horder =>
        obtain ⟨st₁, hrun, hlen₁⟩ := synthStmt_inOrder uses share hlen horder
        obtain ⟨st', j, hj, hr, hloop⟩ := ih hlen₁ h
        refine ⟨st', j, hj, hr, fun e he => ?_⟩
        rw [synthFrom, resultVar_ok horder.1, hrun]
        exact hloop e he
      case isFalse =>
        cases h
        refine ⟨st, i, hlen, rfl, fun e he => ?_⟩
        rw [synthFrom, ← bind_assoc, he]
        rfl

section
variable {P : Type} {c : BCircuit P}

def InVarSpace (c : BCircuit P) : Prop :=
  (∀ s ∈ c.kinds, ∀ v ∈ s.operands, v < c.varSpace) ∧ ∀ v ∈ c.outputs, v < c.varSpace

instance (c : BCircuit P) : Decidable (InVarSpace c) := inferInstanceAs (Decidable (_ ∧ _))

/-- Every statement is supported and reads earlier values only. -/
def AllInOrder (c : BCircuit P) : Prop :=
  Defined c.params c.kinds ∧ ∀ s ∈ c.kinds, lowerable s

/-- The error names a statement of the circuit and what is wrong with it. -/
def Blames (c : BCircuit P) : ToReversibleError → Prop
  | .unsupportedStmt var => ∃ i s, c.kinds[i]? = some s ∧ var = c.params + i ∧ ¬lowerable s
  | .useBeforeDef user operand => ∃ i s, c.kinds[i]? = some s ∧ user = c.params + i ∧
      operand ∈ s.operands ∧ user ≤ operand
  | .statefulStmtInHardenedMode _ => False

/-- The lowering returns: the circuit when all statements are in order, an error that names one
that is not otherwise. -/
structure FailsClosed (c : BCircuit P) : Prop where
  returns : toReversible c ≠ .error .panic
  ok_iff : (∃ r, toReversible c = .ok r) ↔ AllInOrder c
  blames : ∀ e, toReversible c = .error (.error e) → Blames c e

theorem usedVars_subset (s : Stmt) : usedVars s ⊆ s.operands := by
  cases s <;> simp [usedVars, BIrStmt.operands]

theorem countUses_ok (h : InVarSpace c) (hfits : UsesFit c) :
    ∃ uses, countUses c = .ok uses := by
  obtain ⟨uses, hrun, -⟩ := foldlM_bump (c.kinds.flatMap usedVars ++ c.outputs)
    (List.replicate c.varSpace 0) (by
      intro v hv
      rw [List.length_replicate]
      rcases List.mem_append.mp hv with hv | hv
      · obtain ⟨s, hs, hv⟩ := List.mem_flatMap.mp hv
        exact h.1 s hs v (usedVars_subset s hv)
      · exact h.2 v hv) (fun v => by simpa [List.getD_replicate] using hfits v)
  exact ⟨uses, hrun⟩

theorem toReversible_eq (c : BCircuit P) : toReversible c = synthesizeNaive c false := by
  unfold toReversible toReversibleWithMode toReversibleWithOptions
  cases synthesizeNaive c false <;> rfl

theorem toReversible_ok (h : InVarSpace c) (horder : AllInOrder c) (hfits : FitsU32 c) :
    ∃ r, toReversible c = .ok r := by
  obtain ⟨rc, map, -, -, hrun, -⟩ := synthesizeNaive_spec ⟨horder.1, h.2⟩ horder.2 hfits false
  exact ⟨(rc, map), (toReversible_eq c).trans hrun⟩

/-- The ways an offender ends the lowering. -/
theorem toReversible_offender (h : InVarSpace c) (hfits : UsesFit c) {r : ℕ} {s : Stmt}
    (hbad : firstOffender c.params c.kinds = some (r, s)) :
    (u32Max < r ∧ toReversible c = .error .panic) ∨
    r ≤ u32Max ∧ ((¬lowerable s ∧ toReversible c = .error (.error (.unsupportedStmt r))) ∨
      (lowerable s ∧ ∃ v ∈ s.operands, r < v ∧
        toReversible c = .error (.error (.useBeforeDef r v))) ∨
      (lowerable s ∧ (∀ v ∈ s.operands, v ≤ r) ∧ toReversible c = .error .panic)) := by
  obtain ⟨uses, huses⟩ := countUses_ok h hfits
  have hmap : (Synth.init c.params (c.params + c.stmts.length) c.outputs.length).map.length =
      c.params + 0 := by simp [Synth.init]
  obtain ⟨st', j, hj, rfl, hloop⟩ := synthFrom_offender c.params uses false hmap hbad
  have hend : ∀ e, (resultVar c.params j >>= fun _ => synthStmt c.params uses false j st' s) =
      .error e → toReversible c = .error e := by
    intro e he
    rw [toReversible_eq, synthesizeNaive, huses, Fallible.ok_bind, hloop e he]
    rfl
  have hnot := (firstOffender_some hbad).2.2
  rcases Nat.lt_or_ge u32Max (c.params + j) with hid | hid
  · refine .inl ⟨hid, hend _ ?_⟩
    rw [resultVar, if_neg hid.not_ge]
    rfl
  have hrun : ∀ e, synthStmt c.params uses false j st' s = .error e →
      toReversible c = .error e := by
    intro e he
    refine hend e ?_
    rw [resultVar_ok hid, Fallible.ok_bind, he]
  refine .inr ⟨hid, ?_⟩
  rcases synthStmt_offender uses false hj hid hnot with
    ⟨hs, he⟩ | ⟨hs, v, hv, hlt, he⟩ | ⟨hs, hle, he⟩
  · exact Or.inl ⟨hs, hrun _ he⟩
  · exact Or.inr (Or.inl ⟨hs, v, hv, hlt, hrun _ he⟩)
  · exact Or.inr (Or.inr ⟨hs, hle, hrun _ he⟩)

/-- The first statement out of order has no `u32` for its result, or it is a supported one
that reads its own result and no later one. -/
def PanicsFirst (c : BCircuit P) : Prop :=
  ∃ r s, firstOffender c.params c.kinds = some (r, s) ∧
    (u32Max < r ∨ lowerable s ∧ ∀ v ∈ s.operands, v ≤ r)

/-- The lowering fails closed on exactly the circuits whose use counts fit and where no
statement that reads its own result, or has no id for it, is the first out of order. -/
theorem failsClosed_iff (h : InVarSpace c) :
    FailsClosed c ↔ UsesFit c ∧ ¬PanicsFirst c := by
  constructor
  · intro hclosed
    have hfits : UsesFit c := by
      by_contra hmany
      refine hclosed.returns ?_
      rw [toReversible_eq, synthesizeNaive, countUses_panics hmany]
      rfl
    refine ⟨hfits, ?_⟩
    rintro ⟨r, s, hbad, hcase⟩
    rcases toReversible_offender h hfits hbad with ⟨-, hpanic⟩ | ⟨hid, hend⟩
    · exact hclosed.returns hpanic
    obtain ⟨hs, hle⟩ := hcase.resolve_left hid.not_gt
    rcases hend with ⟨hno, -⟩ | ⟨-, v, hv, hlt, -⟩ | ⟨-, -, hpanic⟩
    · exact hno hs
    · exact (hle v hv).not_gt hlt
    · exact hclosed.returns hpanic
  · rintro ⟨hfits, hself⟩
    cases hbad : firstOffender c.params c.kinds with
    | none =>
        obtain ⟨hdefined, hlowerable, hids⟩ := firstOffender_none.mp hbad
        have horder : AllInOrder c := ⟨hdefined, hlowerable⟩
        obtain ⟨r, hr⟩ := toReversible_ok h horder ⟨hfits, hids⟩
        refine ⟨?_, ⟨fun _ => horder, fun _ => ⟨r, hr⟩⟩, ?_⟩
        · rw [hr]
          intro heq
          cases heq
        · intro e he
          rw [hr] at he
          cases he
    | some bad =>
        have hplace := firstOffender_some hbad
        have hidx : bad.1 = c.params + (bad.1 - c.params) := by omega
        have failed {e : ToReversibleError} (he : toReversible c = .error (.error e))
            (hblames : Blames c e) (hdisorder : ¬AllInOrder c) : FailsClosed c := by
          refine ⟨?_, ⟨?_, fun horder => absurd horder hdisorder⟩, ?_⟩
          · rw [he]
            intro heq
            cases heq
          · rintro ⟨r, hr⟩
            rw [he] at hr
            cases hr
          · intro e' he'
            rw [he] at he'
            cases he'
            exact hblames
        have hmem := List.mem_of_getElem? hplace.2.1
        rcases toReversible_offender h hfits hbad with ⟨hid, -⟩ |
          ⟨-, ⟨hno, he⟩ | ⟨hs, v, hv, hlt, he⟩ | ⟨hs, hle, -⟩⟩
        · exact absurd ⟨bad.1, bad.2, hbad, .inl hid⟩ hself
        · exact failed he ⟨_, _, hplace.2.1, hidx, hno⟩ fun horder => hno (horder.2 _ hmem)
        · refine failed he ⟨_, _, hplace.2.1, hidx, hv, hlt.le⟩ fun horder => ?_
          have hdefined := operands_lt_of_getElem horder.1 hplace.2.1 v hv
          omega
        · exact absurd ⟨bad.1, bad.2, hbad, .inr ⟨hs, hle⟩⟩ hself

end

def selfRead : BCircuit Unit := ⟨1, [.new (.and 0 1) ()], [], [1]⟩

/-- The order check passes and the lookup of the operand's wire panics. -/
theorem selfRead_not_failsClosed : InVarSpace selfRead ∧ ¬FailsClosed selfRead :=
  ⟨by decide, fun h => h.returns rfl⟩

def laterRead : BCircuit Unit := ⟨1, [.new (.not 2) (), .new (.not 1) ()], [], [1]⟩

theorem laterRead_failsClosed : InVarSpace laterRead ∧ FailsClosed laterRead := by
  refine ⟨by decide, (failsClosed_iff (by decide)).mpr ⟨?_, ?_⟩⟩
  · exact fun v => List.count_le_length.trans (by decide)
  · rintro ⟨r, s, hbad, hcase⟩
    cases hbad
    rcases hcase with hid | ⟨-, hle⟩
    · exact absurd hid (by decide)
    · exact absurd (hle 2 List.mem_cons_self) (by decide)

end VolarIR.Rev
