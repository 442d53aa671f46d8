import VolarIR.Ir.Cse

/-!
# Common-subexpression elimination: runs

The sweep keeps, statement by statement, that every old var sits at its new var with its value.
From this a swept block computes what it computed, and a swept program runs as it ran.
-/
namespace VolarIR.Ir

section
variable {P : Type} {table : TypeTable} {world : Externals}

/-- What the sweep knows after some statements: `f` is the frame of the block there, `f'` that
of the statements kept so far. -/
structure Swept (table : TypeTable) (world : Externals) (st : CseState P)
    (f f' : Ssa.Frame Value EvalState) : Prop where
  remap : st.remap.length = f.vals.length
  tracks : Ssa.Tracks (fun _ => True) (remapped st.remap) f.vals f'.vals
  state : f'.st = f.st
  /-- A statement that was seen still computes the var it is looked up to. -/
  seen : ∀ e ∈ st.canonMap, e.1.2.isPure = true ∧ e.2 < f'.vals.length ∧
    (∀ v ∈ e.1.2.operands, v < e.2) ∧
    ∀ σ, (evalStmt table world σ (Ssa.look f'.vals) e.1.2).1 = Ssa.look f'.vals e.2

theorem remapped_append {remap : List ℕ} {v w : ℕ} (h : v < remap.length) :
    remapped (remap ++ [w]) v = remapped remap v := by
  simp [remapped, List.getElem?_append_left h, h]

theorem remapped_append_length (remap : List ℕ) (w : ℕ) :
    remapped (remap ++ [w]) remap.length = w := by
  simp [remapped]

theorem operands_remapStmtOperands {remap : List ℕ} {s : IRStmt} {v : ℕ}
    (h : v ∈ (remapStmtOperands remap s).operands) : ∃ u ∈ s.operands, remapped remap u = v := by
  cases s with
  | poly ty coeffs c =>
      obtain ⟨e, he, hv⟩ := List.mem_flatMap.mp h
      obtain ⟨d, hd, hde⟩ := exists_of_mem_collectOdd he
      obtain ⟨old, hold, rfl⟩ := List.mem_map.mp hd
      rw [← hde, remapMonomial, List.mem_insertionSort] at hv
      obtain ⟨u, hu, rfl⟩ := List.mem_map.mp hv
      exact ⟨u, List.mem_flatMap.mpr ⟨old, hold, hu⟩, rfl⟩
  | _ =>
      simp only [remapStmtOperands] at h
      obtain ⟨u, hu, rfl⟩ := List.mem_map.mp (IRStmt.operands_mapVars_subset _ _ h)
      exact ⟨u, hu, rfl⟩

section
variable {st : CseState P} {f f' : Ssa.Frame Value EvalState} {kinds : List VarKind}

theorem Swept.share (h : Swept table world st f f') {s : IRStmt} {region w : ℕ}
    (heval : evalStmt table world f.st (Ssa.look f'.vals) (remapStmtOperands st.remap s) =
      evalStmt table world f.st (Ssa.look f.vals) s)
    (hseen : ((region, remapStmtOperands st.remap s), w) ∈ st.canonMap) :
    Swept table world { st with remap := st.remap ++ [w], changed := true }
      ((language table world).step f s) f' := by
  obtain ⟨hpure, hw, -, hvalue⟩ := h.seen _ hseen
  have hkeep : evalStmt table world f.st (Ssa.look f'.vals) (remapStmtOperands st.remap s) = _ :=
    evalStmt_pure world hpure f.st f.st (Ssa.look f'.vals)
  rw [heval] at hkeep
  refine ⟨by simp [h.remap], ?_, ?_, h.seen⟩
  · have htracks := h.tracks.congr (remapped (st.remap ++ [w])) fun v hv =>
      remapped_append (h.remap ▸ hv)
    apply htracks.share
    · rw [← h.remap, remapped_append_length]
      exact hw
    · rw [← h.remap, remapped_append_length, ← hvalue f.st]
      exact congrArg Prod.fst heval
  · exact h.state.trans (congrArg Prod.snd hkeep).symm

/-- The statement is kept, and from then on found. -/
theorem Swept.push (h : Swept table world st f f') {s : IRStmt} (region : ℕ)
    (hd : ∀ v ∈ s.operands, v < f.vals.length)
    (heval : evalStmt table world f.st (Ssa.look f'.vals) (remapStmtOperands st.remap s) =
      evalStmt table world f.st (Ssa.look f.vals) s) (stmts : List (Node IRStmt P)) (b : Bool) :
    Swept table world
      ⟨st.remap ++ [f'.vals.length],
        if (remapStmtOperands st.remap s).isPure then
          ((region, remapStmtOperands st.remap s), f'.vals.length) :: st.canonMap
        else st.canonMap, stmts, b⟩
      ((language table world).step f s)
      ((language table world).step f' (remapStmtOperands st.remap s)) := by
  have hstep : (language table world).step f' (remapStmtOperands st.remap s) =
      ⟨f'.vals ++ [(evalStmt table world f.st (Ssa.look f.vals) s).1],
        (evalStmt table world f.st (Ssa.look f.vals) s).2⟩ := by
    rw [← heval, ← h.state]
    rfl
  have hbelow : ∀ v ∈ (remapStmtOperands st.remap s).operands, v < f'.vals.length := by
    intro v hv
    obtain ⟨u, hu, rfl⟩ := operands_remapStmtOperands hv
    exact h.tracks.lt u (hd u hu) trivial
  -- earlier vars keep their values, so what was seen still computes its var
  have hold : ∀ {t : IRStmt}, (∀ v ∈ t.operands, v < f'.vals.length) → ∀ (x : Value) σ,
      evalStmt table world σ (Ssa.look (f'.vals ++ [x])) t =
        evalStmt table world σ (Ssa.look f'.vals) t := by
    intro t ht x σ
    have hagree : ∀ v ∈ t.operands, Ssa.look (f'.vals ++ [x]) v = Ssa.look f'.vals v :=
      fun v hv => Ssa.look_append_left (ht v hv)
    simp only [evalStmt, evalKind_congr table world t σ hagree]
  rw [hstep]
  refine ⟨by simp [h.remap, Ssa.Language.step], ?_, rfl, ?_⟩
  · have htracks := h.tracks.congr (remapped (st.remap ++ [f'.vals.length])) fun v hv =>
      remapped_append (h.remap ▸ hv)
    apply htracks.push
    intro _
    rw [← h.remap, remapped_append_length]
  · intro e he
    have hcases : e = ((region, remapStmtOperands st.remap s), f'.vals.length) ∧
        (remapStmtOperands st.remap s).isPure = true ∨ e ∈ st.canonMap := by
      dsimp only at he
      split_ifs at he with hpure
      · rcases List.mem_cons.mp he with rfl | he
        · exact .inl ⟨rfl, hpure⟩
        · exact .inr he
      · exact .inr he
    rw [List.length_append, List.length_singleton]
    rcases hcases with ⟨rfl, hpure⟩ | he
    · refine ⟨hpure, Nat.lt_succ_self _, hbelow, ?_⟩
      intro σ
      rw [hold hbelow, Ssa.look_append_length, ← heval,
        evalStmt_pure world hpure σ f.st (Ssa.look f'.vals)]
    · obtain ⟨hpure, hw, hops, hvalue⟩ := h.seen e he
      refine ⟨hpure, Nat.lt_succ_of_lt hw, hops, ?_⟩
      intro σ
      rw [hold fun v hv => (hops v hv).trans hw, Ssa.look_append_left hw]
      exact hvalue σ

end

theorem cseStmt_cases (nParams region oldVar : ℕ) (st : CseState P) (node : Node IRStmt P) :
    (∃ w, ((region, remapStmtOperands st.remap node.kind), w) ∈ st.canonMap ∧
      (remapStmtOperands st.remap node.kind).isPure = true ∧
      cseStmt nParams region oldVar st node =
        { st with remap := st.remap ++ [w], changed := true }) ∨
    cseStmt nParams region oldVar st node =
      ⟨st.remap ++ [nParams + st.newStmts.length],
        if (remapStmtOperands st.remap node.kind).isPure then
          ((region, remapStmtOperands st.remap node.kind), nParams + st.newStmts.length) ::
            st.canonMap
        else st.canonMap,
        st.newStmts ++ [{ node with kind := remapStmtOperands st.remap node.kind }],
        st.changed || decide (nParams + st.newStmts.length ≠ oldVar) ||
          decide (remapStmtOperands st.remap node.kind ≠ node.kind)⟩ := by
  unfold cseStmt
  dsimp only
  split
  · next w hw =>
      split_ifs at hw with hpure
      obtain ⟨before, after, heq, -⟩ := List.lookup_eq_some_iff.mp hw
      refine .inl ⟨w, ?_, hpure, rfl⟩
      rw [heq]
      exact List.mem_append_right _ List.mem_cons_self
  · exact .inr rfl

theorem cseState_succ {regionOf : ℕ → ℕ} {b : IRBlock P} {n : ℕ} {node : Node IRStmt P}
    (hnode : b.stmts[n]? = some node) : cseState regionOf b (n + 1) =
      cseStmt b.params.length (regionOf n) (b.params.length + n) (cseState regionOf b n) node := by
  have hzip : b.stmts.zipIdx[n]? = some (node, n) := by
    rw [List.getElem?_zipIdx, hnode]
    simp
  unfold cseState
  rw [List.take_add_one, hzip, List.foldl_append]
  rfl

/-- How the statements kept so far stand to those swept. -/
structure Numbering (b : IRBlock P) (n : ℕ) (st : CseState P) : Prop where
  length : st.remap.length = b.params.length + n
  lt : ∀ v < st.remap.length, remapped st.remap v < b.params.length + st.newStmts.length
  seen : ∀ e ∈ st.canonMap, e.2 < b.params.length + st.newStmts.length
  defined : Ssa.Defined IRStmt.operands b.params.length (st.newStmts.map Node.kind)
  impure : ((st.newStmts.map Node.kind).filter fun s => !s.isPure) =
    ((b.kinds.take n).filter fun s => !s.isPure).map (·.mapVars (remapped st.remap))
  unchanged : st.changed = false →
    st.remap = List.range (b.params.length + n) ∧ st.newStmts = b.stmts.take n

theorem remapped_range {n v : ℕ} : remapped (List.range n) v = v := by
  unfold remapped
  rw [List.getD_eq_getElem?_getD]
  by_cases h : v < n <;> simp [h]

theorem isPure_remapStmtOperands (remap : List ℕ) (s : IRStmt) :
    (remapStmtOperands remap s).isPure = s.isPure := by
  cases s <;> rfl

theorem remapStmtOperands_of_not_pure {remap : List ℕ} {s : IRStmt} (h : s.isPure = false) :
    remapStmtOperands remap s = s.mapVars (remapped remap) := by
  cases s <;> first | rfl | cases h

theorem numbering_zero (regionOf : ℕ → ℕ) (b : IRBlock P) :
    Numbering b 0 (cseState regionOf b 0) := by
  refine ⟨by simp [cseState], ?_, nofun, trivial, rfl, fun _ => ⟨rfl, rfl⟩⟩
  intro v hv
  have hlt : v < b.params.length := by simpa [cseState] using hv
  exact (remapped_range (n := b.params.length)).trans_lt hlt

theorem Numbering.impure_append {b : IRBlock P} {n : ℕ} {st : CseState P}
    (h : Numbering b n st) (hwf : b.WellFormed) (w : ℕ) :
    ((b.kinds.take n).filter fun s => !s.isPure).map (·.mapVars (remapped (st.remap ++ [w]))) =
      ((b.kinds.take n).filter fun s => !s.isPure).map (·.mapVars (remapped st.remap)) := by
  apply List.map_congr_left
  intro s hs
  apply IRStmt.mapVars_congr
  intro v hv
  obtain ⟨i, hi⟩ := List.mem_iff_getElem?.mp (List.mem_of_mem_filter hs)
  have hlt := (List.getElem?_eq_some_iff.mp hi).1
  rw [List.length_take] at hlt
  rw [List.getElem?_take_of_lt (by omega)] at hi
  have hop := Ssa.operands_lt_of_getElem hwf.1 hi v hv
  have hlen := h.length
  exact remapped_append (by omega)

theorem Numbering.step {regionOf : ℕ → ℕ} {b : IRBlock P} {n : ℕ} {node : Node IRStmt P}
    (h : Numbering b n (cseState regionOf b n)) (hwf : b.WellFormed)
    (hnode : b.stmts[n]? = some node) : Numbering b (n + 1) (cseState regionOf b (n + 1)) := by
  have hkind : b.kinds[n]? = some node.kind := by
    rw [IRBlock.kinds, List.getElem?_map, hnode, Option.map_some]
  have htake : b.kinds.take (n + 1) = b.kinds.take n ++ [node.kind] := by
    rw [List.take_add_one, hkind, Option.toList_some]
  have hops : ∀ v ∈ node.kind.operands, v < (cseState regionOf b n).remap.length := by
    rw [h.length]
    exact Ssa.operands_lt_of_getElem hwf.1 hkind
  rw [cseState_succ hnode]
  generalize hst : cseState regionOf b n = st at h hops
  have hnew : ∀ {w : ℕ} {m : ℕ}, (∀ v < st.remap.length, remapped st.remap v < m) → w < m →
      ∀ v < (st.remap ++ [w]).length, remapped (st.remap ++ [w]) v < m := by
    intro w m hold hw v hv
    rw [List.length_append, List.length_singleton] at hv
    rcases Nat.lt_succ_iff_lt_or_eq.mp hv with hlt | rfl
    · rw [remapped_append hlt]
      exact hold v hlt
    · rw [remapped_append_length]
      exact hw
  rcases cseStmt_cases b.params.length (regionOf n) (b.params.length + n) st node with
    ⟨w, hw, hpure, heq⟩ | heq
  · rw [heq]
    rw [isPure_remapStmtOperands] at hpure
    refine ⟨by simp [h.length, Nat.add_assoc], hnew h.lt (h.seen _ hw), h.seen, h.defined, ?_,
      by simp⟩
    rw [h.impure, htake, List.filter_append, List.map_append, h.impure_append hwf w]
    simp [hpure]
  · rw [heq]
    have hlength : (st.newStmts ++
        [{ node with kind := remapStmtOperands st.remap node.kind }]).length =
        st.newStmts.length + 1 := by simp
    refine ⟨by simp [h.length, Nat.add_assoc], ?_, ?_, ?_, ?_, ?_⟩
    · rw [hlength]
      exact hnew (fun v hv => (h.lt v hv).trans (by omega)) (by omega)
    · intro e he
      rw [hlength]
      dsimp only at he
      split_ifs at he
      · rcases List.mem_cons.mp he with rfl | he
        · exact Nat.lt_succ_self _
        · exact (h.seen e he).trans (by omega)
      · exact (h.seen e he).trans (by omega)
    · rw [List.map_append]
      refine Ssa.defined_append.mpr ⟨h.defined, ?_, trivial⟩
      intro v hv
      obtain ⟨u, hu, rfl⟩ := operands_remapStmtOperands hv
      rw [List.length_map]
      exact h.lt u (hops u hu)
    · rw [List.map_append, List.filter_append, h.impure, htake, List.filter_append,
        List.map_append, h.impure_append hwf]
      congr 1
      cases hpure : node.kind.isPure with
      | true => simp [isPure_remapStmtOperands, hpure]
      | false =>
          have hsame : node.kind.mapVars (remapped (st.remap ++ [b.params.length +
              st.newStmts.length])) = node.kind.mapVars (remapped st.remap) :=
            IRStmt.mapVars_congr fun v hv => remapped_append (hops v hv)
          have hkept := (isPure_remapStmtOperands st.remap node.kind).trans hpure
          rw [remapStmtOperands_of_not_pure hpure] at hkept ⊢
          simp [hpure, hkept, hsame]
    · intro hchanged
      simp only [Bool.or_eq_false_iff, decide_eq_false_iff_not, not_not] at hchanged
      obtain ⟨⟨hold, hvar⟩, hsame⟩ := hchanged
      obtain ⟨hremap, hstmts⟩ := h.unchanged hold
      refine ⟨?_, ?_⟩
      · rw [hremap, hvar, ← Nat.add_assoc, List.range_succ]
      · rw [hsame, hstmts, List.take_add_one, hnode]
        rfl

theorem Numbering.all (regionOf : ℕ → ℕ) {b : IRBlock P} (hwf : b.WellFormed) {n : ℕ}
    (hn : n ≤ b.stmts.length) : Numbering b n (cseState regionOf b n) := by
  induction n with
  | zero => exact numbering_zero regionOf b
  | succ n ih => exact (ih (by omega)).step hwf (List.getElem?_eq_getElem (by omega))

theorem cseBlockOnce_eq (regionOf : ℕ → ℕ) {b : IRBlock P} (hwf : b.WellFormed) :
    (cseBlockOnce regionOf b).1 = ⟨b.params, (cseState regionOf b b.stmts.length).newStmts,
        b.terminator.mapVars (remapped (cseState regionOf b b.stmts.length).remap)⟩ ∧
      (cseBlockOnce regionOf b).2.2 = (cseState regionOf b b.stmts.length).remap := by
  have hnum := Numbering.all regionOf hwf le_rfl
  unfold cseBlockOnce
  dsimp only
  split_ifs with hchanged
  · exact ⟨rfl, rfl⟩
  · obtain ⟨hremap, hstmts⟩ := hnum.unchanged (Bool.eq_false_iff.mpr hchanged)
    refine ⟨?_, rfl⟩
    rw [hremap, hstmts, List.take_length,
      IRTerminator.mapVars_eq_self fun v _ => remapped_range]

section
variable {b : IRBlock P} {args : List (List Bool)} {σ : EvalState}

variable (world) in
/-- Every old var sits at its new var with its value, all along the sweep. -/
theorem swept_all (regionOf : ℕ → ℕ) (hwf : b.WellFormed)
    (htyped : StmtsTyped table (b.params.map .data) b.kinds)
    (hkept : ∀ i node, b.stmts[i]? = some node →
      CountsKept table (cseState regionOf b i).remap node.kind)
    (hargs : ArgsFit table b.params args) (hσ : StorageFits table σ) {n : ℕ}
    (hn : n ≤ b.stmts.length) :
    Swept table world (cseState regionOf b n)
      ((language table world).run ⟨paramValues b.params args, σ⟩ (b.kinds.take n))
      ((language table world).run ⟨paramValues b.params args, σ⟩
        ((cseState regionOf b n).newStmts.map Node.kind)) := by
  have hstart := frameFits_params hargs hσ
  have hlen : (paramValues b.params args).length = b.params.length := by
    rw [hstart.length, List.length_map]
  induction n with
  | zero =>
      refine ⟨?_, ⟨?_, ?_⟩, rfl, nofun⟩
      · simp [cseState, hlen]
      · intro v hv _
        exact (remapped_range (n := b.params.length)).trans_lt hv
      · intro v _ _
        exact congrArg _ (remapped_range (n := b.params.length))
  | succ n ih =>
      have ih := ih (by omega)
      have hnode : b.stmts[n]? = some b.stmts[n] := List.getElem?_eq_getElem (by omega)
      have hkind : b.kinds[n]? = some b.stmts[n].kind := by
        rw [IRBlock.kinds, List.getElem?_map, hnode, Option.map_some]
      have htake : b.kinds.take (n + 1) = b.kinds.take n ++ [b.stmts[n].kind] := by
        rw [List.take_add_one, hkind, Option.toList_some]
      have hsplit : StmtsTyped table (b.params.map .data)
          (b.kinds.take n ++ [b.stmts[n].kind]) := by
        rw [← htake]
        rw [← List.take_append_drop (n + 1) b.kinds] at htyped
        exact (stmtsTyped_append.mp htyped).1
      obtain ⟨hbefore, hhere, -⟩ := stmtsTyped_append.mp hsplit
      have hfits := hstart.run world hbefore
      have hops : ∀ v ∈ b.stmts[n].kind.operands, v < ((language table world).run
          ⟨paramValues b.params args, σ⟩ (b.kinds.take n)).vals.length := by
        intro v hv
        have hlt := Ssa.operands_lt_of_getElem hwf.1 hkind v hv
        rw [Ssa.Language.run_length, List.length_take, IRBlock.length_kinds, hlen]
        omega
      have heval := evalStmt_remap world hfits hhere (hkept n _ hnode)
        (fun v hv => ih.tracks.look v (hops v hv) trivial)
        ((language table world).run ⟨paramValues b.params args, σ⟩ (b.kinds.take n)).st
      have hspace : ((language table world).run ⟨paramValues b.params args, σ⟩
          ((cseState regionOf b n).newStmts.map Node.kind)).vals.length =
            b.params.length + (cseState regionOf b n).newStmts.length := by
        rw [Ssa.Language.run_length, List.length_map, hlen]
      rw [htake, Ssa.Language.run_append, cseState_succ hnode]
      rcases cseStmt_cases b.params.length (regionOf n) (b.params.length + n)
        (cseState regionOf b n) b.stmts[n] with ⟨w, hw, -, heq⟩ | heq
      · rw [heq]
        exact ih.share heval hw
      · rw [heq, List.map_append, Ssa.Language.run_append, ← hspace]
        exact ih.push (regionOf n) hops heval _ _

variable (world) in
/-- The frames at the end of the two blocks. -/
theorem cseBlockOnce_frame (regionOf : ℕ → ℕ) (hwf : b.WellFormed)
    (htyped : StmtsTyped table (b.params.map .data) b.kinds)
    (hkept : ∀ i node, b.stmts[i]? = some node →
      CountsKept table (cseState regionOf b i).remap node.kind)
    (hargs : ArgsFit table b.params args) (hσ : StorageFits table σ) :
    Ssa.Tracks (fun _ => True) (remapped (cseBlockOnce regionOf b).2.2)
        (blockFrame table world b args σ).vals
        (blockFrame table world (cseBlockOnce regionOf b).1 args σ).vals ∧
      (blockFrame table world (cseBlockOnce regionOf b).1 args σ).st =
        (blockFrame table world b args σ).st := by
  obtain ⟨hblock, hremap⟩ := cseBlockOnce_eq regionOf hwf
  have hswept := swept_all world regionOf hwf htyped hkept hargs hσ le_rfl
  have htake : b.kinds.take b.stmts.length = b.kinds := by
    rw [← IRBlock.length_kinds, List.take_length]
  rw [htake] at hswept
  rw [hremap, hblock]
  exact ⟨hswept.tracks, hswept.state⟩

variable (world) in
/-- The swept block hands on what the block handed on. -/
theorem cseBlockOnce_eval (regionOf : ℕ → ℕ) (hwf : b.WellFormed)
    (htyped : StmtsTyped table (b.params.map .data) b.kinds)
    (hkept : ∀ i node, b.stmts[i]? = some node →
      CountsKept table (cseState regionOf b i).remap node.kind)
    (hargs : args.length = b.params.length → ArgsFit table b.params args)
    (hσ : StorageFits table σ) :
    evalBlock table world (cseBlockOnce regionOf b).1 args σ =
      evalBlock table world b args σ := by
  have hblock := (cseBlockOnce_eq regionOf hwf).1
  have hparams : (cseBlockOnce regionOf b).1.params = b.params := by rw [hblock]
  unfold evalBlock
  rw [hparams]
  split_ifs with hlen
  · obtain ⟨htracks, hstate⟩ := cseBlockOnce_frame world regionOf hwf htyped hkept
      (hargs hlen) hσ
    have hspace : (blockFrame table world b args σ).vals.length = b.varSpace := by
      rw [blockFrame, Ssa.Language.run_length, length_paramValues hlen, IRBlock.length_kinds]
      rfl
    have hterm : evalTerminator
          (Ssa.look (blockFrame table world (cseBlockOnce regionOf b).1 args σ).vals)
          (cseBlockOnce regionOf b).1.terminator =
        evalTerminator (Ssa.look (blockFrame table world b args σ).vals) b.terminator := by
      have hnew : (cseBlockOnce regionOf b).1.terminator =
          b.terminator.mapVars (remapped (cseBlockOnce regionOf b).2.2) := by
        rw [(cseBlockOnce_eq regionOf hwf).2, hblock]
      rw [hnew, evalTerminator_mapVars]
      exact evalTerminator_congr fun v hv =>
        htracks.look v (hspace.symm ▸ hwf.2 v hv) trivial
    dsimp only
    rw [hterm, hstate]
  · rfl

end

/-- Elimination is right about a program: `out` runs as it ran, and `remaps` sends every var to
one that holds its value. -/
structure CsePreserves (table : TypeTable) (blocks out : IRBlocks P) (remaps : List (List ℕ)) :
    Prop where
  length : out.blocks.length = blocks.blocks.length
  block : ∀ (i : ℕ) (b : IRBlock P), blocks.blocks[i]? = some b →
    ∃ c remap, out.blocks[i]? = some c ∧ remaps[i]? = some remap ∧ c.params = b.params ∧
      c.WellFormed ∧
      -- calls, draws and storage statements stay, in their order
      (c.kinds.filter fun s => !s.isPure) =
        (b.kinds.filter fun s => !s.isPure).map (·.mapVars (remapped remap)) ∧
      ∀ (world : Externals) (args : List (List Bool)) (σ : EvalState),
        ArgsFit table b.params args → StorageFits table σ → ∀ v < b.varSpace,
          remapped remap v < c.varSpace ∧
            Ssa.look (blockFrame table world c args σ).vals (remapped remap v) =
              Ssa.look (blockFrame table world b args σ).vals v
  run : ∀ (world : Externals) (budget : ℕ) (c : Config), ConfigFits table blocks c →
    runBlocks table world out budget c = runBlocks table world blocks budget c

/-- Where every polynomial over a prime field is rebuilt with the counts it had, elimination
preserves a well-typed program. -/
theorem cse_preserves (table : TypeTable) (blocks : IRBlocks P)
    (hwf : ∀ b ∈ blocks.blocks, b.WellFormed) (htyped : ProgramTyped table blocks)
    (hkept : ∀ b ∈ blocks.blocks, ∀ i node, b.stmts[i]? = some node →
      CountsKept table (cseState (fun _ => 0) b i).remap node.kind) :
    CsePreserves table blocks (cseBlocks blocks).1 (cseBlocks blocks).2.2 where
  length := by simp [cseBlocks]
  block i b hb := by
    have hmem := List.mem_of_getElem? hb
    have hnum := Numbering.all (fun _ => 0) (hwf b hmem) le_rfl
    obtain ⟨hblock, hremap⟩ := cseBlockOnce_eq (fun _ => 0) (hwf b hmem)
    refine ⟨(cseBlockOnce (fun _ => 0) b).1, (cseBlockOnce (fun _ => 0) b).2.2, by
      simp [cseBlocks, hb], by simp [cseBlocks, hb], by rw [hblock], ?_, ?_, ?_⟩
    · rw [hblock]
      refine ⟨hnum.defined, ?_⟩
      intro v hv
      rw [IRTerminator.operands_mapVars] at hv
      obtain ⟨u, hu, rfl⟩ := List.mem_map.mp hv
      apply hnum.lt u
      rw [hnum.length]
      exact (hwf b hmem).2 u hu
    · have htake : b.kinds.take b.stmts.length = b.kinds := by
        rw [← IRBlock.length_kinds, List.take_length]
      have himpure := hnum.impure
      rw [htake] at himpure
      rw [hremap, hblock]
      exact himpure
    · intro world args σ hargs hσ v hv
      have htracks := (cseBlockOnce_frame world (fun _ => 0) (hwf b hmem)
        (htyped b hmem).stmts (hkept b hmem) hargs hσ).1
      have hlen : args.length = b.params.length := by
        have hcount := congrArg List.length hargs
        simpa using hcount
      have hspace : (blockFrame table world b args σ).vals.length = b.varSpace := by
        rw [blockFrame, Ssa.Language.run_length, length_paramValues hlen, IRBlock.length_kinds]
        rfl
      have hspace' : (blockFrame table world (cseBlockOnce (fun _ => 0) b).1 args σ).vals.length =
          (cseBlockOnce (fun _ => 0) b).1.varSpace := by
        have hparams : (cseBlockOnce (fun _ => 0) b).1.params = b.params := by rw [hblock]
        rw [blockFrame, Ssa.Language.run_length, length_paramValues (by rw [hparams, hlen]),
          IRBlock.length_kinds]
        rfl
      rw [← hspace] at hv
      exact ⟨hspace' ▸ htracks.lt v hv trivial, htracks.look v hv trivial⟩
  run world budget c hc := by
    symm
    apply htyped.runBlocks_congr (by simp [cseBlocks]) _ budget hc
    intro i b d hb hd args σ hargs hσ
    have hmem := List.mem_of_getElem? hb
    obtain rfl : (cseBlockOnce (fun _ => 0) b).1 = d := by simpa [cseBlocks, hb] using hd
    have hcells : StorageFits table (σ.enter i) := hσ
    have heval := cseBlockOnce_eval world (fun _ => 0) (hwf b hmem) (htyped b hmem).stmts
      (hkept b hmem) hargs hcells
    rw [heval]

end

def sevenTable : TypeTable := ⟨[.primitive .bit, .primeField 3 [1]]⟩

theorem polyType_seven : PolyType sevenTable ⟨1⟩ :=
  .prime (w := 3) (by exact ⟨by decide, by decide, by decide, by decide⟩) rfl

def gatedSums : IRBlocks Unit :=
  ⟨[⟨[⟨1⟩, ⟨0⟩], [.new (.poly ⟨1⟩ (.ofList [([0], 1), ([1], 1)]) .zero) (),
      .new (.poly ⟨1⟩ (.ofList [([0], 1), ([1], 1)]) .zero) (),
      .new (.poly ⟨1⟩ (.ofList [([2, 3], 1)]) .zero) ()],
    .jmp ⟨.ret, [3, 4]⟩⟩]⟩

theorem cse_preserves_gatedSums : CsePreserves sevenTable gatedSums (cseBlocks gatedSums).1
    (cseBlocks gatedSums).2.2 := by
  have htyped : ∀ {kinds : List VarKind} {v : ℕ},
      kindAt kinds v = .data ⟨1⟩ ∨ kindAt kinds v = .data ⟨0⟩ →
      ∃ fty, kindAt kinds v = .data fty ∧ FactorTyped sevenTable ⟨1⟩ fty := by
    intro kinds v hv
    rcases hv with hv | hv
    · exact ⟨⟨1⟩, hv, .own rfl⟩
    · exact ⟨⟨0⟩, hv, .gate rfl⟩
  apply cse_preserves sevenTable gatedSums (by decide)
  · intro b hb
    obtain rfl := List.mem_singleton.mp hb
    refine ⟨⟨⟨polyType_seven, ?_⟩, ⟨polyType_seven, ?_⟩, ⟨polyType_seven, ?_⟩, trivial⟩, ?_⟩
    · exact fun e he v hv => htyped (by decide +revert)
    · exact fun e he v hv => htyped (by decide +revert)
    · exact fun e he v hv => htyped (by decide +revert)
    · intro t ht d target henters
      obtain rfl := List.mem_singleton.mp ht
      exact henters.elim
  · intro b hb i node hnode
    obtain rfl := List.mem_singleton.mp hb
    have hlt := (List.getElem?_eq_some_iff.mp hnode).1
    match i, hnode with
    | 0, hnode | 1, hnode | 2, hnode =>
        cases hnode
        show ∀ p ∈ moduli sevenTable ⟨1⟩, _
        decide +kernel
    | i + 3, hnode => simp at hlt

def emptyState : EvalState := ⟨fun _ => none, [], ⟨0, 0, 0⟩⟩

def twice : IRBlocks Unit :=
  ⟨[⟨[⟨1⟩], [.new (.poly ⟨1⟩ (.ofList [([0], 2)]) .zero) ()], .jmp ⟨.ret, [1]⟩⟩]⟩

theorem programTyped_twice : ProgramTyped sevenTable twice := by
  intro b hb
  obtain rfl := List.mem_singleton.mp hb
  refine ⟨⟨⟨polyType_seven, ?_⟩, trivial⟩, ?_⟩
  · intro e he v hv
    obtain rfl := List.mem_singleton.mp he
    obtain rfl := List.mem_singleton.mp hv
    exact ⟨⟨1⟩, rfl, .own rfl⟩
  · intro t ht d target henters
    obtain rfl := List.mem_singleton.mp ht
    exact henters.elim

/-- The even coefficient is dropped although it counts modulo seven. -/
theorem not_csePreserves_twice : (∀ b ∈ twice.blocks, b.WellFormed) ∧
    ProgramTyped sevenTable twice ∧
    ¬ CsePreserves sevenTable twice (cseBlocks twice).1 (cseBlocks twice).2.2 := by
  refine ⟨by decide, programTyped_twice, ?_⟩
  intro h
  have hfits : ConfigFits sevenTable twice (.running 0 [[true, false, false]] emptyState) := by
    refine ⟨nofun, ?_⟩
    intro b hb _
    cases hb
    rfl
  have hrun := congrArg Config.values (h.run silent 1 _ hfits)
  revert hrun
  decide +kernel

end VolarIR.Ir
