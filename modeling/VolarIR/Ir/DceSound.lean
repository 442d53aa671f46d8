import VolarIR.Ir.Dce
import VolarIR.Library.Fallible

/-!
# Volar IR dead-code elimination: what a sweep computes

The live set is closed under operands, so the rewriting never meets a dead var, and on the
live vars the new numbering is increasing. Compacting in place gives the live statements in
order.
-/
namespace VolarIR.Ir
open Fallible

section
variable {go : ℕ → Outcome Empty ℕ} {g : ℕ → ℕ}

theorem mapM_go {vars : List ℕ} (h : ∀ v ∈ vars, go v = .ok (g v)) :
    vars.mapM go = .ok (vars.map g) := mapM_eq_ok h

theorem PlainStmt.map_eq_ok {s : PlainStmt} (h : ∀ v ∈ s.1.operands, go v = .ok (g v)) :
    PlainStmt.map go s = .ok ⟨s.1.mapVars g, (IRStmt.isPoly_mapVars g s.1).trans s.2⟩ := by
  obtain ⟨s, hs⟩ := s
  dsimp only at h
  cases s with
  | poly => cases hs
  | const | rng => rfl
  | storageRead _ _ v | oracleOutput v _ _ | actionOutput v _ _ | transmute v _ _ | rol v _ _
  | ror v _ _ | splat v _ =>
      have hv : go v = .ok (g v) := h v List.mem_cons_self
      simp only [PlainStmt.map, hv]
      rfl
  | storageWrite _ src _ addr =>
      simp only [IRStmt.operands, List.forall_mem_cons] at h
      simp only [PlainStmt.map, h.1, h.2.1]
      rfl
  | merge parts ty =>
      have hparts : parts.mapM go = .ok (parts.map g) := mapM_go h
      simp only [PlainStmt.map, hparts]
      rfl
  | shuffle resultBits ty =>
      have hbits : (resultBits.mapM fun e => do return (e.1, ← go e.2)) =
          (.ok (resultBits.map fun e => (e.1, g e.2)) : Outcome Empty _) := by
        apply mapM_eq_ok
        intro e he
        rw [h e.2 (List.mem_map_of_mem he)]
        rfl
      simp only [PlainStmt.map, hbits]
      rfl
  | oracleCall name args outputTys resultTy =>
      have hargs : args.mapM go = .ok (args.map g) := mapM_go h
      simp only [PlainStmt.map, hargs]
      rfl
  | actionCall name guard args fallbacks outputTys resultTy =>
      simp only [IRStmt.operands, List.forall_mem_append, List.forall_mem_cons] at h
      simp only [PlainStmt.map, h.1.1, mapM_go h.1.2, mapM_go h.2]
      rfl
  | actionStore name guard args fallbacks outputTys targets =>
      simp only [IRStmt.operands, List.forall_mem_append, List.forall_mem_cons] at h
      have htargets : (targets.mapM fun e => do return (e.1, ← go e.2)) =
          (.ok (targets.map fun e => (e.1, g e.2)) : Outcome Empty _) := by
        apply mapM_eq_ok
        intro e he
        rw [h.2 e.2 (List.mem_map_of_mem he)]
        rfl
      simp only [PlainStmt.map, h.1.1.1, mapM_go h.1.1.2, mapM_go h.1.2, htargets]
      rfl

theorem StoredStmt.map_eq_ok {s : StoredStmt} (h : ∀ v ∈ s.operands, go v = .ok (g v)) :
    s.map go = .ok (s.mapVars g) := by
  cases s with
  | poly ty coeffs constant =>
      have hentries : (coeffs.iter.mapM fun e => do return (← e.1.mapM go, e.2)) =
          (.ok (coeffs.iter.map fun e => (e.1.map g, e.2)) : Outcome Empty _) := by
        apply mapM_eq_ok
        intro e he
        rw [mapM_go fun v hv => h v (List.mem_flatMap.mpr ⟨e, he, hv⟩)]
        rfl
      simp only [StoredStmt.map, hentries]
      rfl
  | plain s =>
      simp only [StoredStmt.map, PlainStmt.map_eq_ok h]
      rfl

theorem IRBranchTarget.map_eq_ok {t : IRBranchTarget} (h : ∀ v ∈ t.operands, go v = .ok (g v)) :
    t.map go = .ok (t.mapVars g) := by
  obtain ⟨dest, args⟩ := t
  cases dest with
  | block b =>
      have hargs : args.mapM go = .ok (args.map g) := mapM_go h
      simp only [IRBranchTarget.map, hargs]
      rfl
  | ret =>
      have hargs : args.mapM go = .ok (args.map g) := mapM_go h
      simp only [IRBranchTarget.map, hargs]
      rfl
  | dyn v =>
      simp only [IRBranchTarget.operands, List.forall_mem_cons] at h
      simp only [IRBranchTarget.map, mapDest, h.1, mapM_go h.2]
      rfl

theorem IRTerminator.map_eq_ok {t : IRTerminator} (h : ∀ v ∈ t.operands, go v = .ok (g v)) :
    t.map go = .ok (t.mapVars g) := by
  cases t with
  | jmp t =>
      have ht : t.map go = .ok (t.mapVars g) := IRBranchTarget.map_eq_ok h
      simp only [IRTerminator.map, ht]
      rfl
  | jumpCond condition t e =>
      simp only [IRTerminator.operands, List.cons_append, List.forall_mem_cons,
        List.forall_mem_append] at h
      simp only [IRTerminator.map, h.1, IRBranchTarget.map_eq_ok h.2.1,
        IRBranchTarget.map_eq_ok h.2.2]
      rfl
  | jumpTable index cases =>
      simp only [IRTerminator.operands, List.forall_mem_cons] at h
      have hcases : (cases.entries.mapM fun e => do return (e.1, ← e.2.map go)) =
          (.ok (cases.mapValues (IRBranchTarget.mapVars g)).entries : Outcome Empty _) := by
        apply mapM_eq_ok
        intro e he
        rw [IRBranchTarget.map_eq_ok fun v hv => h.2 v (List.mem_flatMap.mpr ⟨e, he, hv⟩)]
        rfl
      have hsame : (SortedMap.ofList (cases.mapValues (IRBranchTarget.mapVars g)).entries :
          SortedMap Constant IRBranchTarget) = cases.mapValues (IRBranchTarget.mapVars g) :=
        SortedMap.ext (SortedMap.entries_ofList_of_sorted (SortedMap.sorted _))
      simp only [IRTerminator.map, h.1, hcases]
      exact congrArg (fun m => Except.ok (IRTerminator.jumpTable (g index) m)) hsame

end

theorem flag_eq_true {flags : List Bool} {i : ℕ} :
    flag flags i = true ↔ flags[i]? = some true := by
  unfold flag
  rw [List.getD_eq_getElem?_getD]
  cases flags[i]? <;> simp

/-- Setting flags never clears one. -/
def FlagsLe (flags flags' : List Bool) : Prop :=
  flags'.length = flags.length ∧ ∀ i, flag flags i = true → flag flags' i = true

theorem FlagsLe.refl (flags : List Bool) : FlagsLe flags flags := ⟨rfl, fun _ h => h⟩

theorem FlagsLe.trans {a b c : List Bool} (h : FlagsLe a b) (h' : FlagsLe b c) : FlagsLe a c :=
  ⟨h'.1.trans h.1, fun i hi => h'.2 i (h.2 i hi)⟩

theorem flag_set {flags : List Bool} {i j : ℕ} (hj : j < flags.length) :
    flag (flags.set j true) i = (decide (i = j) || flag flags i) := by
  unfold flag
  rw [List.getD_eq_getElem?_getD, List.getD_eq_getElem?_getD, List.getElem?_set]
  by_cases h : j = i
  · subst h
    simp [hj]
  · simp [h, Ne.symm h]

theorem flagsLe_set (flags : List Bool) (j : ℕ) : FlagsLe flags (flags.set j true) := by
  by_cases hj : j < flags.length
  · refine ⟨List.length_set, fun i hi => ?_⟩
    rw [flag_set hj, hi, Bool.or_true]
  · rw [List.set_eq_of_length_le (Nat.le_of_not_lt hj)]
    exact .refl flags

section
variable {nParams bound : ℕ} {live : List Bool} {vars : List ℕ} {stmts : List StoredStmt}

theorem flagsLe_markBelow (v : ℕ) : FlagsLe live (markBelow nParams bound live v) := by
  unfold markBelow
  split_ifs
  · exact flagsLe_set live _
  · exact .refl live

theorem flagsLe_foldl_markBelow : FlagsLe live (vars.foldl (markBelow nParams bound) live) := by
  induction vars generalizing live with
  | nil => exact .refl live
  | cons v vars ih => exact (flagsLe_markBelow v).trans ih

theorem flag_foldl_markBelow {v : ℕ} (hv : v ∈ vars) (hn : nParams ≤ v)
    (hb : v - nParams < bound) (hlen : bound ≤ live.length) :
    flag (vars.foldl (markBelow nParams bound) live) (v - nParams) = true := by
  induction vars generalizing live with
  | nil => cases hv
  | cons u vars ih =>
      rw [List.foldl_cons]
      rcases List.mem_cons.mp hv with rfl | hv
      · apply flagsLe_foldl_markBelow.2
        rw [markBelow, if_pos ⟨hn, hb⟩, flag_set (hb.trans_le hlen)]
        simp
      · exact ih hv (hlen.trans_eq (flagsLe_markBelow u).1.symm)

theorem flag_foldl_markBelow_of_le {i : ℕ} (hi : bound ≤ i) (hlen : bound ≤ live.length) :
    flag (vars.foldl (markBelow nParams bound) live) i = flag live i := by
  induction vars generalizing live with
  | nil => rfl
  | cons v vars ih =>
      rw [List.foldl_cons, ih (hlen.trans_eq (flagsLe_markBelow v).1.symm)]
      unfold markBelow
      split_ifs with hv
      · rw [flag_set (hv.2.trans_le hlen), decide_eq_false (by omega), Bool.false_or]
      · rfl

theorem foldl_markBelow_sound {needed : ℕ → Prop} (hlive : ∀ j, flag live j = true → needed j)
    (hvars : ∀ v ∈ vars, nParams ≤ v → v - nParams < bound → needed (v - nParams)) :
    ∀ j, flag (vars.foldl (markBelow nParams bound) live) j = true → needed j := by
  induction vars generalizing live with
  | nil => exact hlive
  | cons v vars ih =>
      apply ih
      · intro j hj
        unfold markBelow at hj
        split_ifs at hj with hv
        · by_cases hlt : v - nParams < live.length
          · rw [flag_set hlt, Bool.or_eq_true, decide_eq_true_eq] at hj
            rcases hj with rfl | hj
            · exact hvars v List.mem_cons_self hv.1 hv.2
            · exact hlive j hj
          · rw [List.set_eq_of_length_le (Nat.le_of_not_lt hlt)] at hj
            exact hlive j hj
        · exact hlive j hj
      · exact fun u hu => hvars u (List.mem_cons_of_mem v hu)

theorem flagsLe_closeLive (i : ℕ) : FlagsLe live (closeLive nParams stmts i live) := by
  induction i generalizing live with
  | zero => exact .refl live
  | succ i ih =>
      rw [closeLive]
      split_ifs
      · exact flagsLe_foldl_markBelow.trans ih
      · exact ih

/-- The sweep over the first `i` statements leaves the flags from `i` on alone. -/
theorem flag_closeLive_of_le {i j : ℕ} (hj : i ≤ j) (hlen : i ≤ live.length) :
    flag (closeLive nParams stmts i live) j = flag live j := by
  induction i generalizing live with
  | zero => rfl
  | succ i ih =>
      rw [closeLive]
      split_ifs
      · rw [ih (Nat.le_of_succ_le hj), flag_foldl_markBelow_of_le (Nat.le_of_succ_le hj)
          (Nat.le_of_succ_le hlen)]
        rw [flagsLe_foldl_markBelow.1]
        exact Nat.le_of_succ_le hlen
      · exact ih (Nat.le_of_succ_le hj) (Nat.le_of_succ_le hlen)

theorem closeLive_closed {i : ℕ} (hlen : i ≤ live.length) {j : ℕ} (hj : j < i) {s : StoredStmt}
    (hs : stmts[j]? = some s) (hlive : flag (closeLive nParams stmts i live) j = true) {v : ℕ}
    (hv : v ∈ s.operands) (hn : nParams ≤ v) (hlt : v - nParams < j) :
    flag (closeLive nParams stmts i live) (v - nParams) = true := by
  induction i generalizing live with
  | zero => exact absurd hj (Nat.not_lt_zero j)
  | succ i ih =>
      have hi : i ≤ live.length := Nat.le_of_succ_le hlen
      rw [closeLive] at hlive ⊢
      rcases Nat.lt_succ_iff_lt_or_eq.mp hj with hj | rfl
      · split_ifs at hlive ⊢
        · exact ih (hi.trans_eq flagsLe_foldl_markBelow.1.symm) hj hlive
        · exact ih hi hj hlive
      · -- the statement itself: its operands are marked now and stay marked
        split_ifs at hlive ⊢ with hflag
        · apply (flagsLe_closeLive _).2
          rw [hs]
          exact flag_foldl_markBelow hv hn hlt hi
        · rw [flag_closeLive_of_le (Nat.le_refl _) hi] at hlive
          exact absurd hlive hflag

theorem flagsLe_keepOutput (keep : List Bool) (i : ℕ) :
    FlagsLe keep (keepOutput nParams stmts keep i) := by
  unfold keepOutput
  split
  · split_ifs
    · exact flagsLe_set keep i
    · exact .refl keep
  · exact .refl keep

/-- Statements that must survive: an effect, or the result of a call that must. -/
inductive Anchored (nParams : ℕ) (stmts : List StoredStmt) : ℕ → Prop
  | effect {i : ℕ} {s : StoredStmt} (stmt : stmts[i]? = some s) (keeps : s.isEffect = true) :
      Anchored nParams stmts i
  | output {i call : ℕ} {s : StoredStmt} (stmt : stmts[i]? = some s)
      (result : s.projects = some call) (defined : nParams ≤ call)
      (kept : Anchored nParams stmts (call - nParams)) : Anchored nParams stmts i

theorem StoredStmt.isEffect_of_projects {s : StoredStmt} {call : ℕ}
    (h : s.projects = some call) : s.isEffect = false := by
  cases s with
  | poly => rfl
  | plain s =>
      obtain ⟨s, hs⟩ := s
      cases s <;> first | rfl | cases h

theorem StoredStmt.mem_operands_of_projects {s : StoredStmt} {call : ℕ}
    (h : s.projects = some call) : call ∈ s.operands := by
  cases s with
  | poly => cases h
  | plain s =>
      obtain ⟨s, hs⟩ := s
      cases s with
      | actionOutput c idx ty =>
          obtain rfl := Option.some.inj h
          exact List.mem_cons_self
      | _ => cases h

theorem Anchored.cases_at {i : ℕ} {s : StoredStmt} (hs : stmts[i]? = some s) :
    Anchored nParams stmts i ↔ s.isEffect = true ∨
      ∃ call, s.projects = some call ∧ nParams ≤ call ∧
          Anchored nParams stmts (call - nParams) := by
  constructor
  · intro h
    cases h with
    | effect stmt keeps =>
        obtain rfl := Option.some.inj (stmt.symm.trans hs)
        exact Or.inl keeps
    | output stmt result defined kept =>
        obtain rfl := Option.some.inj (stmt.symm.trans hs)
        exact Or.inr ⟨_, result, defined, kept⟩
  · rintro (h | ⟨call, hcall, hn, hkept⟩)
    · exact .effect hs h
    · exact .output hs hcall hn hkept

/-- One turn of the first pass decides its own position. -/
theorem flag_keepOutput {keep : List Bool} {m : ℕ} {t : StoredStmt} (hm : m < keep.length)
    (ht : stmts[m]? = some t) (hown : flag keep m = true ↔ t.isEffect = true)
    (hcall : ∀ call, t.projects = some call → nParams ≤ call →
      (flag keep (call - nParams) = true ↔ Anchored nParams stmts (call - nParams))) (i : ℕ) :
    flag (keepOutput nParams stmts keep m) i = true ↔
      if i = m then Anchored nParams stmts m else flag keep i = true := by
  rw [keepOutput, ht, Option.bind_some, Anchored.cases_at ht]
  cases hproj : t.projects with
  | none =>
      by_cases hi : i = m
      · subst hi
        simp [hown]
      · simp [hi]
  | some call =>
      have heffect := StoredStmt.isEffect_of_projects hproj
      dsimp only
      by_cases hset : nParams ≤ call ∧ flag keep (call - nParams) = true
      · rw [if_pos hset, flag_set hm]
        by_cases hi : i = m
        · simp [hi, hset.1, (hcall call hproj hset.1).mp hset.2]
        · simp [hi]
      · rw [if_neg hset]
        by_cases hi : i = m
        · subst hi
          have hno : ¬ (nParams ≤ call ∧ Anchored nParams stmts (call - nParams)) := fun h =>
            hset ⟨h.1, (hcall call hproj h.1).mpr h.2⟩
          simpa [hown, heffect] using fun hn => fun hkept => hno ⟨hn, hkept⟩
        · simp [hi]

theorem flag_mustKeep_iff (hd : Ssa.Defined StoredStmt.operands nParams stmts) {i : ℕ}
    (hi : i < stmts.length) :
    flag (mustKeep nParams stmts) i = true ↔ Anchored nParams stmts i := by
  -- after `m` turns the flags below `m` are final and the others still mark the effects
  have hloop : ∀ m ≤ stmts.length, ∃ keep,
      (List.range m).foldl (keepOutput nParams stmts) (stmts.map StoredStmt.isEffect) = keep ∧
      keep.length = stmts.length ∧ (∀ i < m, flag keep i = true ↔ Anchored nParams stmts i) ∧
      ∀ i s, m ≤ i → stmts[i]? = some s → (flag keep i = true ↔ s.isEffect = true) := by
    intro m
    induction m with
    | zero =>
        refine fun _ => ⟨_, rfl, List.length_map .., nofun, fun i s _ hs => ?_⟩
        rw [List.range_zero, List.foldl_nil, flag_eq_true, List.getElem?_map, hs]
        simp
    | succ m ih =>
        intro hm
        obtain ⟨keep, hkeep, hlen, hdone, hrest⟩ := ih (Nat.le_of_succ_le hm)
        have ht : stmts[m]? = some stmts[m] := List.getElem?_eq_getElem hm
        have hturn := flag_keepOutput (hlen.symm ▸ hm) ht (hrest m _ (Nat.le_refl m) ht)
          fun call hcall hn => hdone _ (by
            have hlt := Ssa.operands_lt_of_getElem hd ht call
              (StoredStmt.mem_operands_of_projects hcall)
            omega)
        refine ⟨keepOutput nParams stmts keep m, ?_, (flagsLe_keepOutput keep m).1.trans hlen,
          fun i hi => ?_, fun i s hi hs => ?_⟩
        · rw [List.range_succ, List.foldl_append, hkeep]
          rfl
        · rw [hturn i]
          split_ifs with him
          · rw [him]
          · exact hdone i (by omega)
        · rw [hturn i, if_neg (by omega)]
          exact hrest i s (by omega) hs
  obtain ⟨keep, hkeep, -, hdone, -⟩ := hloop stmts.length (Nat.le_refl _)
  rw [mustKeep, hkeep]
  exact hdone i hi

theorem length_mustKeep : (mustKeep nParams stmts).length = stmts.length := by
  unfold mustKeep
  have hlen : (stmts.map StoredStmt.isEffect).length = stmts.length := List.length_map ..
  generalize stmts.map StoredStmt.isEffect = keep at hlen
  induction List.range stmts.length generalizing keep with
  | nil => exact hlen
  | cons i rest ih => exact ih _ ((flagsLe_keepOutput keep i).1.trans hlen)

theorem closeLive_sound {needed : ℕ → Prop}
    (hclosed : ∀ i s v, needed i → stmts[i]? = some s → v ∈ s.operands → nParams ≤ v →
      v - nParams < i → needed (v - nParams)) {i : ℕ} {live : List Bool}
    (hlive : ∀ j, flag live j = true → needed j) :
    ∀ j, flag (closeLive nParams stmts i live) j = true → needed j := by
  induction i generalizing live with
  | zero => exact hlive
  | succ i ih =>
      rw [closeLive]
      split_ifs with hflag
      · apply ih
        cases hs : stmts[i]? with
        | none => exact hlive
        | some s =>
            apply foldl_markBelow_sound hlive
            intro v hv hn hlt
            exact hclosed i s v (hlive i hflag) hs hv hn hlt
      · exact ih hlive

end

/-- The statements that survive: what must, what the terminator or an extra root names, and
what a surviving statement names. -/
inductive Needed {P : Type} (b : StoredBlock P) (extraLive : List ℕ) : ℕ → Prop
  | anchored {i : ℕ} (anchored : Anchored b.params.length b.kinds i) : Needed b extraLive i
  | root {v : ℕ} (named : v ∈ b.terminator.operands ++ extraLive)
      (defined : b.params.length ≤ v) (inside : v < b.varSpace) :
      Needed b extraLive (v - b.params.length)
  | operand {i v : ℕ} {s : StoredStmt} (user : Needed b extraLive i)
      (stmt : b.kinds[i]? = some s) (named : v ∈ s.operands) (defined : b.params.length ≤ v)
      (before : v - b.params.length < i) : Needed b extraLive (v - b.params.length)

section
variable {P : Type} {b : StoredBlock P} {extraLive : List ℕ}

theorem length_liveness : (liveness b extraLive).length = b.stmts.length := by
  rw [liveness, (flagsLe_closeLive _).1, flagsLe_foldl_markBelow.1, length_mustKeep,
    StoredBlock.length_kinds]

theorem flag_liveness_anchored (hwf : b.WellFormed) {i : ℕ} (hi : i < b.stmts.length)
    (h : Anchored b.params.length b.kinds i) : flag (liveness b extraLive) i = true := by
  apply (flagsLe_closeLive _).2
  apply flagsLe_foldl_markBelow.2
  exact (flag_mustKeep_iff hwf.1 (b.length_kinds.symm ▸ hi)).mpr h

theorem flag_liveness_root {v : ℕ} (hv : v ∈ b.terminator.operands ++ extraLive)
    (hn : b.params.length ≤ v) (hlt : v < b.varSpace) :
    flag (liveness b extraLive) (v - b.params.length) = true := by
  apply (flagsLe_closeLive _).2
  apply flag_foldl_markBelow hv hn
  · unfold StoredBlock.varSpace at hlt
    omega
  · rw [length_mustKeep, StoredBlock.length_kinds]

theorem flag_liveness_operand (hwf : b.WellFormed) {i : ℕ} {s : StoredStmt}
    (hs : b.kinds[i]? = some s) (hlive : flag (liveness b extraLive) i = true) {v : ℕ}
    (hv : v ∈ s.operands) (hn : b.params.length ≤ v) :
    flag (liveness b extraLive) (v - b.params.length) = true := by
  have hi : i < b.stmts.length := by
    rw [← StoredBlock.length_kinds]
    exact (List.getElem?_eq_some_iff.mp hs).1
  have hlt := Ssa.operands_lt_of_getElem hwf.1 hs v hv
  apply closeLive_closed _ hi hs hlive hv hn (by omega)
  rw [flagsLe_foldl_markBelow.1, length_mustKeep, StoredBlock.length_kinds]

theorem flag_liveness_iff (hwf : b.WellFormed) {i : ℕ} (hi : i < b.stmts.length) :
    flag (liveness b extraLive) i = true ↔ Needed b extraLive i := by
  constructor
  · have hlt : ∀ {flags : List Bool} {j : ℕ}, flags.length = b.stmts.length →
        flag flags j = true → j < b.stmts.length := by
      intro flags j hlen hj
      exact hlen ▸ (List.getElem?_eq_some_iff.mp (flag_eq_true.mp hj)).1
    have hkept : (mustKeep b.params.length b.kinds).length = b.stmts.length :=
      length_mustKeep.trans b.length_kinds
    apply closeLive_sound
    · intro i s v huser hs hv hn hbefore
      exact .operand huser hs hv hn hbefore
    · apply foldl_markBelow_sound
      · intro j hj
        exact .anchored ((flag_mustKeep_iff hwf.1 (b.length_kinds.symm ▸ hlt hkept hj)).mp hj)
      · intro v hv hn hbound
        apply Needed.root hv hn
        unfold StoredBlock.varSpace
        omega
  · intro h
    induction h with
    | anchored anchored => exact flag_liveness_anchored hwf hi anchored
    | root named defined inside => exact flag_liveness_root named defined inside
    | operand user stmt named defined before ih =>
        have huser := (List.getElem?_eq_some_iff.mp stmt).1
        rw [StoredBlock.length_kinds] at huser
        exact flag_liveness_operand hwf stmt (ih huser) named defined

end

/-- How many of the first `i` are live. -/
def rank (live : List Bool) (i : ℕ) : ℕ := (live.take i).count true

theorem rank_succ (live : List Bool) (i : ℕ) :
    rank live (i + 1) = rank live i + (flag live i).toNat := by
  unfold rank flag
  rw [List.take_add_one, List.count_append, List.getD_eq_getElem?_getD]
  cases live[i]? with
  | none => rfl
  | some b => cases b <;> rfl

theorem rank_mono (live : List Bool) {i j : ℕ} (h : i ≤ j) : rank live i ≤ rank live j := by
  induction h with
  | refl => exact Nat.le_refl _
  | step _ ih =>
      rw [rank_succ]
      exact ih.trans (Nat.le_add_right _ _)

theorem rank_lt {live : List Bool} {i j : ℕ} (hi : flag live i = true) (h : i < j) :
    rank live i < rank live j := by
  have hsucc := rank_succ live i
  rw [hi, Bool.toNat_true] at hsucc
  have hle : rank live (i + 1) ≤ rank live j := rank_mono live h
  omega

theorem rank_le (live : List Bool) (i : ℕ) : rank live i ≤ i :=
  List.count_le_length.trans (List.length_take_le i live)

theorem number_eq_some {newIdx : ℕ} {live : List Bool} (h : newIdx + live.count true ≤ u32Max) :
    ∃ numbers, number newIdx live = some numbers ∧ numbers.length = live.length ∧
      ∀ i, numbers[i]? = live[i]?.map fun l : Bool =>
        if l then newIdx + rank live i else u32Max := by
  induction live generalizing newIdx with
  | nil => exact ⟨[], rfl, rfl, fun _ => rfl⟩
  | cons l live ih =>
      have hrank : ∀ i, rank (l :: live) (i + 1) = rank live i + l.toNat := fun i => by
        cases l <;> simp [rank]
      cases l with
      | false =>
          obtain ⟨numbers, hnumbers, hlen, hget⟩ := @ih newIdx (by simpa using h)
          refine ⟨u32Max :: numbers, ?_, congrArg Nat.succ hlen, fun i => ?_⟩
          · rw [number, hnumbers]
            rfl
          · cases i with
            | zero => rfl
            | succ i => simpa [hrank] using hget i
      | true =>
          rw [List.count_cons_self] at h
          obtain ⟨numbers, hnumbers, hlen, hget⟩ := @ih (newIdx + 1) (by omega)
          refine ⟨newIdx :: numbers, ?_, congrArg Nat.succ hlen, fun i => ?_⟩
          · rw [number, if_pos (by omega), hnumbers]
            rfl
          · cases i with
            | zero => simp [rank]
            | succ i =>
                rw [List.getElem?_cons_succ, hget, List.getElem?_cons_succ]
                apply congrArg (Option.map · live[i]?)
                funext l
                rw [hrank, Bool.toNat_true, show newIdx + 1 + rank live i =
                  newIdx + (rank live i + 1) by omega]

def Survives (nParams : ℕ) (live : List Bool) (v : ℕ) : Prop :=
  v < nParams ∨ nParams ≤ v ∧ flag live (v - nParams) = true

def newVar (nParams : ℕ) (live : List Bool) (v : ℕ) : ℕ :=
  if v < nParams then v else nParams + rank live (v - nParams)

section
variable {nParams : ℕ} {live : List Bool} {u v : ℕ}

theorem newVar_lt_mark (hfits : nParams + live.count true ≤ u32Max)
    (hv : Survives nParams live v) : newVar nParams live v < u32Max := by
  unfold newVar
  split_ifs with hn
  · omega
  · have hflag : flag live (v - nParams) = true := (hv.resolve_left hn).2
    have hlt := (List.getElem?_eq_some_iff.mp (flag_eq_true.mp hflag)).1
    have hrank := rank_lt hflag hlt
    have hall : rank live live.length = live.count true := by rw [rank, List.take_length]
    omega

def renamed (remap : List ℕ) (v : ℕ) : Option ℕ := remap[v]?.filter fun nv => nv ≠ u32Max

structure Renumbers (nParams : ℕ) (live : List Bool) (remap : List ℕ) : Prop where
  alive : ∀ v, Survives nParams live v → renamed remap v = some (newVar nParams live v)
  dead : ∀ v, ¬ Survives nParams live v → renamed remap v = none

theorem renumbers_denseRemap (hfits : nParams + live.count true ≤ u32Max) :
    ∃ remap, denseRemap nParams live = some remap ∧ Renumbers nParams live remap := by
  have hn : nParams % (u32Max + 1) = nParams := Nat.mod_eq_of_lt (by omega)
  have hparams : (List.range nParams).map (· % (u32Max + 1)) = List.range nParams := by
    refine (List.map_congr_left fun v hv => ?_).trans (List.map_id _)
    exact Nat.mod_eq_of_lt ((List.mem_range.mp hv).trans (by omega))
  obtain ⟨numbers, hnumbers, hlen, hget⟩ := number_eq_some hfits
  refine ⟨List.range nParams ++ numbers, ?_, ?_, ?_⟩
  · rw [denseRemap, hn, hnumbers, hparams]
    rfl
  · intro v hv
    have hlt := newVar_lt_mark hfits hv
    unfold newVar at hlt ⊢
    rw [renamed]
    split_ifs at hlt ⊢ with hparam
    · rw [List.getElem?_append_left (by simpa using hparam), List.getElem?_range hparam]
      simp [Nat.ne_of_lt hlt]
    · obtain ⟨hle, hflag⟩ := hv.resolve_left hparam
      rw [List.getElem?_append_right (by simpa using hle), List.length_range, hget,
        flag_eq_true.mp hflag]
      simp [Nat.ne_of_lt hlt]
  · intro v hv
    have hparam : ¬ v < nParams := fun h => hv (Or.inl h)
    have hle := Nat.le_of_not_lt hparam
    have hflag : flag live (v - nParams) = false := by
      rw [Bool.eq_false_iff]
      exact fun h => hv (Or.inr ⟨hle, h⟩)
    rw [renamed, List.getElem?_append_right (by simpa using hle), List.length_range, hget]
    rw [flag, List.getD_eq_getElem?_getD] at hflag
    cases hl : live[v - nParams]? with
    | none => rfl
    | some l =>
        rw [hl, Option.getD_some] at hflag
        simp [hflag]

theorem renumbers_range (hall : live.all id = true) (hfits : nParams + live.length ≤ u32Max) :
    Renumbers nParams live (List.range ((nParams + live.length) % (u32Max + 1))) := by
  have hflag : ∀ i < live.length, flag live i = true := by
    intro i hi
    rw [flag_eq_true, List.getElem?_eq_getElem hi]
    exact congrArg some (List.all_eq_true.mp hall _ (List.getElem_mem hi))
  have hrank : ∀ i ≤ live.length, rank live i = i := by
    intro i
    induction i with
    | zero => exact fun _ => rfl
    | succ i ih =>
        intro hi
        rw [rank_succ, ih (Nat.le_of_succ_le hi), hflag i hi]
        rfl
  rw [Nat.mod_eq_of_lt (by omega)]
  constructor
  · intro v hv
    have hlt : v < nParams + live.length := by
      rcases hv with hv | ⟨hn, hv⟩
      · omega
      · have := (List.getElem?_eq_some_iff.mp (flag_eq_true.mp hv)).1
        omega
    have hnew : newVar nParams live v = v := by
      unfold newVar
      split_ifs with hn
      · rfl
      · rw [hrank _ (by omega)]
        omega
    rw [renamed, List.getElem?_range hlt, hnew]
    have hmark : v ≠ u32Max := by omega
    simp [hmark]
  · intro v hv
    have hge : ¬ v < nParams + live.length := by
      intro hlt
      by_cases hn : v < nParams
      · exact hv (Or.inl hn)
      · exact hv (Or.inr ⟨Nat.le_of_not_lt hn, hflag _ (by omega)⟩)
    rw [renamed, List.getElem?_eq_none (by simpa using hge)]
    rfl

theorem Renumbers.remapVar {remap : List ℕ} (h : Renumbers nParams live remap)
    (hv : Survives nParams live v) : remapVar remap v = .ok (newVar nParams live v) := by
  have halive := h.alive v hv
  rw [renamed, Option.filter_eq_some_iff] at halive
  obtain ⟨hget, hmark⟩ := halive
  rw [decide_eq_true_eq] at hmark
  simp only [Ir.remapVar, hget, expect, ok_bind, if_neg hmark]

theorem newVar_lt (hu : Survives nParams live u) (h : u < v) :
    newVar nParams live u < newVar nParams live v := by
  unfold newVar
  split_ifs with hun hvn hvn
  · exact h
  · omega
  · omega
  · have hflag : flag live (u - nParams) = true := (hu.resolve_left hun).2
    have := rank_lt hflag (show u - nParams < v - nParams by omega)
    omega

end

def select {α : Type} : List Bool → List α → List α
  | true :: live, a :: rest => a :: select live rest
  | false :: live, _ :: rest => select live rest
  | _, _ => []

theorem length_select {α : Type} (live : List Bool) (xs : List α) :
    (select live xs).length = (live.take xs.length).count true := by
  induction live generalizing xs with
  | nil => simp [select]
  | cons l live ih =>
      cases xs with
      | nil => cases l <;> rfl
      | cons x xs => cases l <;> simp [select, ih]

theorem select_map {α β : Type} (f : α → β) (live : List Bool) (xs : List α) :
    select live (xs.map f) = (select live xs).map f := by
  induction live generalizing xs with
  | nil => cases xs <;> rfl
  | cons l live ih =>
      cases xs with
      | nil => cases l <;> rfl
      | cons x xs => cases l <;> simp [select, ih]

theorem select_take_succ {α : Type} {live : List Bool} {xs : List α} {r : ℕ} {x : α}
    (hx : xs[r]? = some x) (hl : r < live.length) :
    select live (xs.take (r + 1)) =
      select live (xs.take r) ++ if flag live r then [x] else [] := by
  induction live generalizing xs r with
  | nil => exact absurd hl (Nat.not_lt_zero r)
  | cons l live ih =>
      cases xs with
      | nil => cases hx
      | cons y xs =>
          cases r with
          | zero =>
              obtain rfl := Option.some.inj hx
              cases l <;> simp [select, flag]
          | succ r =>
              have htail : xs[r]? = some x := hx
              have hrest := ih htail (Nat.lt_of_succ_lt_succ hl)
              have hflag : flag (l :: live) (r + 1) = flag live r := by simp [flag]
              rw [hflag]
              cases l with
              | false => simpa [select] using hrest
              | true => simpa [select] using hrest

theorem getElem?_select {α : Type} {live : List Bool} {xs : List α} {i : ℕ}
    (h : flag live i = true) : (select live xs)[rank live i]? = xs[i]? := by
  induction live generalizing xs i with
  | nil => cases h
  | cons l live ih =>
      cases xs with
      | nil => cases l <;> simp [select]
      | cons x xs =>
          cases i with
          | zero =>
              have hl : l = true := by simpa [flag] using h
              subst hl
              rfl
          | succ i =>
              have hflag : flag live i = true := by simpa [flag] using h
              have hrank : rank (l :: live) (i + 1) = rank live i + l.toNat := by
                cases l <;> simp [rank]
              rw [hrank]
              cases l with
              | false => simpa [select] using ih hflag
              | true => simpa [select] using ih hflag

theorem exists_of_getElem?_select {α : Type} {live : List Bool} {xs : List α} {j : ℕ} {x : α}
    (h : (select live xs)[j]? = some x) :
    ∃ i, flag live i = true ∧ rank live i = j ∧ xs[i]? = some x := by
  induction live generalizing xs j with
  | nil => cases xs <;> cases h
  | cons l live ih =>
      cases xs with
      | nil => cases l <;> cases h
      | cons y xs =>
          have hlift : ∀ {i k}, flag live i = true → rank live i = k → xs[i]? = some x →
              flag (l :: live) (i + 1) = true ∧ rank (l :: live) (i + 1) = k + l.toNat ∧
                (y :: xs)[i + 1]? = some x := by
            intro i k hi hk hx
            refine ⟨by simpa [flag] using hi, ?_, hx⟩
            rw [← hk]
            cases l <;> simp [rank]
          cases l with
          | false =>
              obtain ⟨i, hi, hk, hx⟩ := ih h
              exact ⟨i + 1, hlift hi hk hx⟩
          | true =>
              cases j with
              | zero => exact ⟨0, rfl, rfl, h⟩
              | succ j =>
                  obtain ⟨i, hi, hk, hx⟩ := ih h
                  exact ⟨i + 1, hlift hi hk hx⟩

def renumberNode {P : Type} (g : ℕ → ℕ) (node : Node StoredStmt P) : Node StoredStmt P :=
  { node with kind := node.kind.mapVars g }

section
variable {P : Type} {live : List Bool} {remap : List ℕ} {g : ℕ → ℕ}
  {xs : List (Node StoredStmt P)} {firstProv : Option P}

/-- The loop state after `r` turns: what is written, and the rest untouched. -/
structure Compacted (live : List Bool) (g : ℕ → ℕ) (xs : List (Node StoredStmt P)) (r : ℕ)
    (state : List (Node StoredStmt P) × ℕ) : Prop where
  length : state.1.length = xs.length
  cursor : state.2 = rank live r
  written : state.1.take state.2 = (select live (xs.take r)).map (renumberNode g)
  rest : state.1.drop r = xs.drop r

theorem Compacted.step {r : ℕ} {state : List (Node StoredStmt P) × ℕ}
    (h : Compacted live g xs r state) (hr : r < xs.length) (hlen : live.length = xs.length)
    (hprov : firstProv.isSome)
    (hgo : ∀ node, xs[r]? = some node → flag live r = true → ∀ v ∈ node.kind.operands,
      remapVar remap v = .ok (g v)) :
    ∃ state', compactStep live remap firstProv state r = .ok state' ∧
      Compacted live g xs (r + 1) state' := by
  have hx : xs[r]? = some xs[r] := List.getElem?_eq_getElem hr
  have hselect := select_take_succ hx (hlen ▸ hr)
  have hrank := rank_succ live r
  by_cases hflag : flag live r = true
  · have hnode : state.1[r]? = some xs[r] := by
      have hhead := congrArg (fun l => l[0]?) h.rest
      simp only [List.getElem?_drop, Nat.add_zero] at hhead
      exact hhead.trans hx
    obtain ⟨prov, hprov⟩ := Option.isSome_iff_exists.mp hprov
    have hcursor : state.2 ≤ r := h.cursor ▸ rank_le live r
    have hmap := StoredStmt.map_eq_ok (hgo _ hx hflag)
    refine ⟨((state.1.set r ⟨.plain ⟨.const .zero ⟨0⟩, rfl⟩, prov, none⟩).set state.2
      (renumberNode g xs[r]), state.2 + 1), ?_, ?_, ?_, ?_, ?_⟩
    · simp only [compactStep, if_pos hflag, hprov, expect, hnode, ok_bind, hmap]
      rfl
    · simp [h.length]
    · rw [hrank, h.cursor, hflag, Bool.toNat_true]
    · -- the cursor is at most `r`, so nothing written is overwritten
      rw [hselect, if_pos hflag, List.map_append, ← h.written, List.take_add_one,
        List.take_set_of_le (Nat.le_refl _), List.take_set_of_le hcursor,
        List.getElem?_set_self (by simp [h.length]; omega)]
      rfl
    · rw [List.drop_set_of_lt (by omega), List.drop_set_of_lt (by omega)]
      have hdrop := congrArg (List.drop 1) h.rest
      rwa [List.drop_drop, List.drop_drop] at hdrop
  · refine ⟨state, by rw [compactStep, if_neg hflag], h.length, ?_, ?_, ?_⟩
    · rw [hrank, h.cursor, Bool.eq_false_iff.mpr hflag, Bool.toNat_false, Nat.add_zero]
    · rw [h.written, hselect, if_neg hflag, List.append_nil]
    · have hdrop := congrArg (List.drop 1) h.rest
      rwa [List.drop_drop, List.drop_drop] at hdrop

/-- The loop never fails, and leaves the renumbered live statements before the cursor. -/
theorem compact_run (hlen : live.length = xs.length) (hprov : xs ≠ [] → firstProv.isSome)
    (hgo : ∀ r node, xs[r]? = some node → flag live r = true → ∀ v ∈ node.kind.operands,
      remapVar remap v = .ok (g v)) {r : ℕ} (hr : r ≤ xs.length) :
    ∃ state, (List.range r).foldlM (compactStep live remap firstProv) (xs, 0) = .ok state ∧
      Compacted live g xs r state := by
  induction r with
  | zero => exact ⟨(xs, 0), rfl, rfl, rfl, by simp [select], rfl⟩
  | succ r ih =>
      obtain ⟨state, hstate, hc⟩ := ih (Nat.le_of_succ_le hr)
      have hne : xs ≠ [] := List.ne_nil_of_length_pos (Nat.zero_lt_of_lt hr)
      obtain ⟨state', hstep, hc'⟩ := hc.step hr hlen (hprov hne) (hgo r)
      refine ⟨state', ?_, hc'⟩
      rw [List.range_succ, List.foldlM_append, hstate, ok_bind, List.foldlM_cons, hstep]
      rfl

end

end VolarIR.Ir
