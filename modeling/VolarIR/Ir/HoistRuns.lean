import VolarIR.Ir.HoistSound

/-!
# Hoisting after batching: runs

The batched block keeps values of their types in its vars, a one-bit polynomial that became a
lane being a bit from then on. With this the hoisted block computes what the batched block
computes, wherever rebuilding its polynomials keeps their counts.
-/
namespace VolarIR.Ir

def StmtFits (table : TypeTable) (kinds : List VarKind) : IRStmt → Prop
  | .poly ty coeffs c => BitPoly table ty ∨ StmtTyped table kinds (.poly ty coeffs c)
  | .actionCall _ _ _ fallbacks outputTys _ =>
      List.Forall₂ (Passes table kinds) fallbacks outputTys
  | s => StmtTyped table kinds s

section
variable {table : TypeTable} {world : Externals} {kinds : List VarKind}
  {f : Ssa.Frame Value EvalState}

theorem FrameFits.passes (h : FrameFits table kinds f) {fallbacks : List ℕ}
    {outputTys : List TypeId} (hk : List.Forall₂ (Passes table kinds) fallbacks outputTys) :
    ((fallbacks.map (Ssa.look f.vals)).map Value.bits).map List.length =
      outputTys.map table.bitWidth := by
  induction hk with
  | nil => rfl
  | @cons v ty vars tys hpass _ ih =>
      obtain ⟨aty, hkind, hwidth⟩ := hpass
      have hvar := h.var v (lt_of_kindAt_data hkind)
      rw [hkind] at hvar
      simp only [List.map_cons, ih, hvar.2, hwidth]

variable (world) in
theorem FrameFits.evalFits (h : FrameFits table kinds f) {s : IRStmt}
    (hs : StmtFits table kinds s) :
    HasKind table (evalStmt table world f.st (Ssa.look f.vals) s).1 s.varKind ∧
      StorageFits table (evalStmt table world f.st (Ssa.look f.vals) s).2 := by
  cases s with
  | poly ty coeffs c =>
      cases hs with
      | inl hbits =>
          refine ⟨⟨rfl, ?_⟩, h.storage⟩
          simp only [evalStmt, evalKind, evalTerms_bits hbits.1 hbits.2, Option.getD_some]
          simp [evalBitPoly]
      | inr htyped => exact h.eval world htyped
  | actionCall name guard args fallbacks outputTys resultTy =>
      refine ⟨?_, h.storage⟩
      simp only [evalStmt, evalKind, actionOutputs]
      split_ifs
      · exact callOutputs_lengths _ outputTys
      · exact h.passes hs
  | _ => exact h.eval world hs

variable (world) in
theorem FrameFits.stepFits (h : FrameFits table kinds f) {s : IRStmt}
    (hs : StmtFits table kinds s) :
    FrameFits table (kinds ++ [s.varKind]) ((language table world).step f s) := by
  obtain ⟨hkind, hstorage⟩ := h.evalFits world hs
  refine ⟨?_, ?_, hstorage⟩
  · simp [h.length]
  · intro v hv
    rcases kindAt_snoc_cases hv with ⟨hlt, heq⟩ | ⟨rfl, heq⟩
    · rw [heq, Ssa.Language.step_look _ (h.length ▸ hlt)]
      exact h.var v hlt
    · rw [heq, ← h.length]
      simp only [Ssa.Language.step, Ssa.look_append_length]
      exact hkind

/-- Rebuilt with its counts, such a statement computes the same. -/
theorem evalStmt_remap_fits {remap : List ℕ} {look' : ℕ → Value} (hf : FrameFits table kinds f)
    {s : IRStmt} (hfits : StmtFits table kinds s) (hkept : CountsKept table remap s)
    (hlook : ∀ v ∈ s.operands, look' (remapped remap v) = Ssa.look f.vals v) (σ : EvalState) :
    evalStmt table world σ look' (remapStmtOperands remap s) =
      evalStmt table world σ (Ssa.look f.vals) s := by
  have hcongr := evalKind_congr table world s σ hlook
  cases s with
  | poly ty coeffs c =>
      cases hfits with
      | inl hbits =>
          have hvars : ∀ e ∈ coeffs.entries, ∀ v ∈ e.1,
              look' (remapped remap v) = Ssa.look f.vals v := fun e he v hv =>
            hlook v (List.mem_flatMap.mpr ⟨e, he, hv⟩)
          have hvalue := evalBitPoly_congr (c := c) fun k hk =>
            CountsKept.sameSums hkept hvars _ _ (valuation_laneAt hbits.1 hbits.2 hk)
          simp only [evalStmt, remapStmtOperands, evalKind, IRStmt.outputType,
            evalTerms_bits hbits.1 hbits.2, hvalue]
      | inr htyped => exact evalStmt_remap world hf htyped hkept hlook σ
  | _ =>
      simp only [evalStmt, ← hcongr, remapStmtOperands]
      simp [IRStmt.mapVars, evalKind, IRStmt.outputType, Function.comp_def]

end

section
variable {P : Type} {table : TypeTable} {b : IRBlock P} {accepted : List PolyBatch}
  {batched : Batched P}

def KeptKind (table types : TypeTable) (k k' : VarKind) : Prop :=
  k' = k ∨ ∃ ty bty, k = .data ty ∧ table.valueBitWidth ty = some 1 ∧ types.isBit bty = true ∧
    k' = .data bty

theorem BatchLaid.keptKind (h : BatchLaid table b accepted batched) {i q v : ℕ}
    (hq : (origins accepted b.kinds.length)[q]? = some (.kept i))
    (hv : kindAt (b.kindsBefore i) v ≠ .none) :
    KeptKind table batched.types (kindAt (b.kindsBefore i) v)
      (kindAt (batched.block.kindsBefore q)
        (movedVar accepted b.kinds.length b.params.length v)) := by
  have hi : i < b.kinds.length := mem_origins_kept.mp (List.mem_of_getElem? hq)
  have hlt := lt_of_kindAt rfl hv
  rw [length_kindsBefore hi.le] at hlt
  by_cases hp : v < b.params.length
  · have hp' : v < batched.block.params.length := by rwa [h.params]
    rw [movedVar_of_lt hp, kindAt_param hp, kindAt_param hp']
    apply Or.inl
    simp [h.params]
  · obtain ⟨u, rfl⟩ : ∃ u, v = b.params.length + u := ⟨v - b.params.length, by omega⟩
    have hu : u < b.kinds.length := by omega
    have hs : b.kinds[u]? = some b.kinds[u] := List.getElem?_eq_getElem hu
    have hmem : Origin.kept u ∈ origins accepted b.kinds.length := mem_origins_kept.mpr hu
    have hplace := getElem?_place hmem
    have hbefore : place accepted b.kinds.length (.kept u) < q := by
      rw [← place_of_getElem? hq, place_lt_iff hmem (List.mem_of_getElem? hq)]
      simp only [Origin.time_kept]
      omega
    have hlen : place accepted b.kinds.length (.kept u) < batched.block.kinds.length := by
      rw [← h.made.length_eq]
      exact (List.getElem?_eq_some_iff.mp hplace).1
    have hs' := List.getElem?_eq_getElem hlen
    obtain ⟨o, ho, hmade⟩ := h.origin hs'
    rw [hplace] at ho
    cases ho
    rw [movedVar_add, originVar, ← h.params, kindAt_stmt hbefore hs', h.params,
      kindAt_stmt (by omega) hs]
    generalize batched.block.kinds[place accepted b.kinds.length (.kept u)] = s' at hmade
    cases hmade with
    | kept stmt free =>
        rw [hs] at stmt
        cases stmt
        exact Or.inl (IRStmt.varKind_mapVars _ _)
    | @lane batch i ty lane mem member bit =>
        obtain ⟨m, hm, rfl⟩ := List.mem_map.mp member
        obtain ⟨coeffs, hfits⟩ := (h.ready.group batch mem).member m hm
        obtain ⟨c, hstmt⟩ := hfits.stmt
        rw [hs] at hstmt
        rw [Option.some.inj hstmt]
        exact Or.inr ⟨_, ty, rfl, hfits.width, bit, rfl⟩

/-- A polynomial of the block, renumbered. -/
theorem entries_moved (accepted : List PolyBatch)
    (hdefined : Ssa.Defined IRStmt.operands b.params.length b.kinds)
    {i : ℕ} {ty : TypeId} {coeffs : PolyCoeffs} {c : Constant}
    (hs : b.kinds[i]? = some (.poly ty coeffs c)) :
    (SortedMap.ofList (coeffs.entries.map fun e =>
        (e.1.map (movedVar accepted b.kinds.length b.params.length), e.2)) : PolyCoeffs).entries =
      coeffs.entries.map fun e =>
        (e.1.map (movedVar accepted b.kinds.length b.params.length), e.2) := by
  apply entries_mapVars
  intro u _ v hv huv
  have hlt := Ssa.operands_lt_of_getElem hdefined hs v hv
  have hi := (List.getElem?_eq_some_iff.mp hs).1
  exact movedVar_lt huv (by omega)

theorem BatchLaid.stmtFits (h : BatchLaid table b accepted batched)
    (hdefined : Ssa.Defined IRStmt.operands b.params.length b.kinds)
    (htyped : StmtsTyped table (b.params.map .data) b.kinds) {q : ℕ} {s' : IRStmt}
    (hs' : batched.block.kinds[q]? = some s') :
    StmtFits batched.types (batched.block.kindsBefore q) s' := by
  obtain ⟨o, ho, hmade⟩ := h.origin hs'
  cases hmade with
  | lane | merge => exact trivial
  | wide mem get bit vars => exact Or.inl (bitPoly_of_vec get bit)
  | @kept i s stmt free =>
      have hold := stmtTyped_of_getElem htyped stmt
      have hkind := fun {v : ℕ} (hv : kindAt (b.kindsBefore i) v ≠ .none) => h.keptKind ho hv
      cases s with
      | poly ty coeffs c =>
          obtain ⟨hty, hfactors⟩ := hold
          cases hidem : table.mulIsIdempotent ty with
          | true =>
              apply Or.inl
              cases hty with
              | bits prime idem =>
                  obtain ⟨hi, hp, -⟩ := idempotent_grows h.grows h.grows.length idem
                  exact ⟨hp, hi⟩
              | ring prime ring => exact absurd hidem (by rw [ring]; decide)
              | prime fields width =>
                  have hprime := mulIsIdempotent_of_prime (fields.containsPrimeField le_rfl)
                  exact absurd hidem (by rw [hprime]; decide)
          | false =>
              apply Or.inr
              refine ⟨polyType_grows h.grows hty, ?_⟩
              rw [entries_moved accepted hdefined stmt]
              intro e he v hv
              obtain ⟨d, hd, rfl⟩ := List.mem_map.mp he
              obtain ⟨u, hu, rfl⟩ := List.mem_map.mp hv
              obtain ⟨fty, hfty, hfactor⟩ := hfactors d hd u hu
              rcases hkind (v := u) (by rw [hfty]; nofun) with
                hsame | ⟨ty', bty, _, _, hbit, hlane⟩
              · rw [hsame]
                exact ⟨fty, hfty, factorTyped_polyType_grows h.grows hty hidem hfactor⟩
              · exact ⟨bty, hlane, .gate hbit⟩
      | oracleOutput call idx ty | actionOutput call idx ty =>
          obtain ⟨outputTys, hcall, hidx⟩ := hold
          refine ⟨outputTys, ?_, hidx⟩
          rcases hkind (v := call) (by rw [hcall]; nofun) with
            hsame | ⟨ty', bty, hdata, _, _, _⟩
          · rw [hsame, hcall]
          · rw [hcall] at hdata
            cases hdata
      | actionCall name guard args fallbacks outputTys resultTy =>
          have hpass : ∀ (vars : List ℕ) (tys : List TypeId),
              vars.map (kindAt (b.kindsBefore i)) = tys.map VarKind.data →
              List.Forall₂ (Passes batched.types (batched.block.kindsBefore q))
                (vars.map (movedVar accepted b.kinds.length b.params.length)) tys := by
            intro vars
            induction vars with
            | nil =>
                intro tys hk
                cases tys with
                | nil => exact .nil
                | cons ty rest => cases hk
            | cons v vars ih =>
                intro tys hk
                cases tys with
                | nil => cases hk
                | cons ty rest =>
                    rw [List.map_cons, List.map_cons, List.cons.injEq] at hk
                    refine .cons ?_ (ih rest hk.2)
                    rcases hkind (v := v) (by rw [hk.1]; nofun) with
                      hsame | ⟨ty', bty, hdata, hwidth, hbit, hlane⟩
                    · exact ⟨ty, hsame.trans hk.1, rfl⟩
                    · rw [hk.1] at hdata
                      cases hdata
                      refine ⟨bty, hlane, ?_⟩
                      rw [bitWidth_of_isBit hbit,
                        bitWidth_eq_of_valueBitWidth (valueBitWidth_grows h.grows hwidth)]
          exact hpass fallbacks outputTys hold
      | _ => exact trivial

variable (world : Externals) {args : List (List Bool)} {σ : EvalState}

/-- Every var of the batched block holds a value of its kind, all along. -/
theorem BatchLaid.frameFits (h : BatchLaid table b accepted batched)
    (hdefined : Ssa.Defined IRStmt.operands b.params.length b.kinds)
    (htyped : StmtsTyped table (b.params.map .data) b.kinds)
    (hargs : ArgsFit batched.types b.params args) (hσ : StorageFits batched.types σ) {q : ℕ}
    (hq : q ≤ batched.block.kinds.length) :
    FrameFits batched.types (batched.block.kindsBefore q)
      ((language batched.types world).run ⟨paramValues batched.block.params args, σ⟩
        (batched.block.kinds.take q)) := by
  induction q with
  | zero =>
      have hparams := frameFits_params (b := batched.block) (by rwa [h.params]) hσ
      rw [IRBlock.kindsBefore, List.take_zero]
      simpa using hparams
  | succ q ih =>
      have hs := List.getElem?_eq_getElem (l := batched.block.kinds) (i := q) (by omega)
      rw [Ssa.Language.run_take_succ _ hs, kindsBefore_succ hs]
      exact (ih (by omega)).stepFits world (h.stmtFits hdefined htyped hs)

def PrimeCountsOdd (table : TypeTable) : IRStmt → Prop
  | .poly ty coeffs _ =>
      ∀ p ∈ moduli table ty, ∀ e ∈ coeffs.entries, odd e.2 = true ∨ p ∣ e.2.toNat
  | _ => True

instance (table : TypeTable) : DecidablePred (PrimeCountsOdd table) := fun s =>
  match s with
  | .poly ty coeffs _ => inferInstanceAs (Decidable
      (∀ p ∈ moduli table ty, ∀ e ∈ coeffs.entries, odd e.2 = true ∨ p ∣ e.2.toNat))
  | .storageRead .. | .storageWrite .. | .const .. | .transmute .. | .rol .. | .ror .. | .merge ..
  | .splat .. | .shuffle .. | .oracleCall .. | .oracleOutput .. | .actionCall ..
  | .actionStore .. | .actionOutput .. | .rng .. => isTrue trivial

theorem countsKept_of_odd {remap : List ℕ} {ty : TypeId} {coeffs : PolyCoeffs} {c : Constant}
    (hsorted : ∀ e ∈ coeffs.entries, e.1.Pairwise (· ≤ ·))
    (hinj : Set.InjOn (remapped remap) {v | v ∈ polyVars coeffs})
    (hodd : PrimeCountsOdd table (.poly ty coeffs c)) :
    CountsKept table remap (.poly ty coeffs c) := by
  have hnodup := nodup_renamedMono hsorted hinj
  intro p hp t ht
  obtain ⟨e, he, rfl⟩ := List.mem_map.mp ht
  have hone : SortedMap.valuesAt (remapMonomial remap e.1)
      (coeffs.entries.map fun e => (remapMonomial remap e.1, e.2)) = [e.2] :=
    valuesAt_of_nodup hnodup ht
  have hzero : (0 : U8) ^^^ e.2 = e.2 := BitVec.zero_xor
  dsimp only
  rw [hone]
  simp only [keptCount, List.foldl_cons, List.foldl_nil, hzero, List.map_singleton,
    List.sum_singleton]
  split_ifs with heven
  · exact Nat.ModEq.refl _
  · rcases hodd p hp e he with h | h
    · exact absurd h heven
    · exact (Nat.modEq_zero_iff_dvd).mpr h

/-- The rebuilt statements of the batched block keep their counts. -/
theorem BatchLaid.countsKept (h : BatchLaid table b accepted batched)
    (hdefined : Ssa.Defined IRStmt.operands b.params.length b.kinds)
    (hsorted : ∀ s ∈ b.kinds, MonomialsSorted s)
    (htyped : StmtsTyped table (b.params.map .data) b.kinds)
    (hodd : ∀ s ∈ b.kinds, PrimeCountsOdd table s) {remap : List ℕ}
    (hinj : Set.InjOn (remapped remap) {v | v < batched.block.varSpace}) {q : ℕ} {s' : IRStmt}
    (hs' : batched.block.kinds[q]? = some s') : CountsKept batched.types remap s' := by
  have hops := Ssa.operands_lt_of_getElem (h.defined hdefined) hs'
  have hq := (List.getElem?_eq_some_iff.mp hs').1
  have hspace : ∀ v ∈ s'.operands, v < batched.block.varSpace := by
    intro v hv
    have hlt := hops v hv
    rw [IRBlock.varSpace, h.params, ← IRBlock.length_kinds]
    omega
  obtain ⟨o, ho, hmade⟩ := h.origin hs'
  cases hmade with
  | lane | merge => exact trivial
  | wide mem get bit vars =>
      have hnil := moduliFrom_eq_nil (bitPoly_of_vec get bit).1
      intro p hp
      rw [moduli, hnil] at hp
      cases hp
  | @kept i s stmt free =>
      cases s with
      | poly ty coeffs c =>
          have hentries := entries_moved accepted hdefined stmt
          have hin := List.mem_of_getElem? stmt
          apply countsKept_of_odd
          · rw [hentries]
            intro e he
            obtain ⟨d, hd, rfl⟩ := List.mem_map.mp he
            rw [List.pairwise_map]
            apply (hsorted _ hin d hd).imp_of_mem
            intro u v _ hv huv
            rcases Nat.lt_or_eq_of_le huv with hlt | rfl
            · have hvlt := Ssa.operands_lt_of_getElem hdefined stmt v
                (List.mem_flatMap.mpr ⟨d, hd, hv⟩)
              have hi := (List.getElem?_eq_some_iff.mp stmt).1
              exact (movedVar_lt hlt (by omega)).le
            · exact le_rfl
          · apply hinj.mono
            intro v hv
            obtain ⟨e, he, hve⟩ := mem_polyVars.mp hv
            exact hspace v (List.mem_flatMap.mpr ⟨e, he, hve⟩)
          · intro p hp e he
            rw [hentries] at he
            obtain ⟨d, hd, rfl⟩ := List.mem_map.mp he
            rw [moduli_grows h.grows (stmtTyped_of_getElem htyped stmt).1] at hp
            exact hodd _ hin p hp d hd
      | _ => exact trivial

theorem isPure_mapVars (f : ℕ → ℕ) (s : IRStmt) : (s.mapVars f).isPure = s.isPure := by
  cases s <;> rfl

theorem Made.kept_of_impure {types : TypeTable} {kinds : List IRStmt} {nParams : ℕ} {o : Origin}
    {s : IRStmt} (hs : Made kinds accepted nParams types o s) (himpure : s.isPure = false) :
    ∃ i t, o = .kept i ∧ kinds[i]? = some t ∧ t.isPure = false := by
  cases hs with
  | @kept i t stmt =>
      refine ⟨i, t, rfl, stmt, ?_⟩
      rwa [isPure_mapVars] at himpure
  | lane | merge | wide => cases himpure

/-- Statements that are not pure keep their order. -/
theorem BatchLaid.effects (h : BatchLaid table b accepted batched) {labels : List ℕ}
    (hlabelled : Labelled b labels) (hlead : EffectsLead b labels) {p q : ℕ} (hpq : p < q)
    {s t : IRStmt} (hs : batched.block.kinds[p]? = some s) (ht : batched.block.kinds[q]? = some t)
    (hsimpure : s.isPure = false) (htimpure : t.isPure = false) :
    hoistPlace (regionSets labels b.params.length batched) batched.block.stmts.length p <
      hoistPlace (regionSets labels b.params.length batched) batched.block.stmts.length q := by
  obtain ⟨o, ho, hmade⟩ := h.origin hs
  obtain ⟨o', ho', hmade'⟩ := h.origin ht
  obtain ⟨i, s₀, rfl, hs₀, hspure⟩ := hmade.kept_of_impure hsimpure
  obtain ⟨j, t₀, rfl, ht₀, htpure⟩ := hmade'.kept_of_impure htimpure
  have hmem := List.mem_of_getElem? ho
  have hmem' := List.mem_of_getElem? ho'
  have hlast : j < labels.length := by
    rw [hlabelled.length, ← IRBlock.length_kinds]
    exact mem_origins_kept.mp hmem'
  have hij : i < j := by
    have htime := (place_lt_iff hmem hmem').mp (by
      rw [place_of_getElem? ho, place_of_getElem? ho']
      exact hpq)
    simp only [Origin.time_kept] at htime
    omega
  have hqlt : q < batched.block.stmts.length := by
    rw [← IRBlock.length_kinds]
    exact (List.getElem?_eq_some_iff.mp ht).1
  have hkey := h.groupKey hlabelled.length ho
  have hkey' := h.groupKey hlabelled.length ho'
  by_cases hstays : labelAt labels i = 0 ∨ labelAt labels i = labelAt labels j
  · apply hoistPlace_lt_of_key hpq hqlt
    rw [hkey, hkey']
    exact hstays
  · rw [not_or] at hstays
    have hearlier : ∀ u ≤ i, labelAt labels u ≠ labelAt labels j := by
      intro u hu heq
      rcases Nat.lt_or_eq_of_le hu with hlt | rfl
      · exact hstays.2 (hlabelled.contiguous j hlast i hij u hlt heq)
      · exact hstays.2 heq
    have hregion : labelAt labels j ≠ 0 := fun hzero =>
      hstays.1 (hlead (s₀, i) (List.mem_zipIdx_iff_getElem?.mpr hs₀) (t₀, j)
        (List.mem_zipIdx_iff_getElem?.mpr ht₀) hspure htpure hij hzero)
    apply hoistPlace_lt_of_new hpq hqlt
    · rw [hkey']
      exact hregion
    · intro k hk
      have hklt : k < (origins accepted b.kinds.length).length :=
        hk.trans_lt (List.getElem?_eq_some_iff.mp ho).1
      have hok := List.getElem?_eq_getElem hklt
      generalize (origins accepted b.kinds.length)[k] = ok at hok
      have hsite : ok.site ≤ i := by
        have htime : ok.time ≤ (Origin.kept i).time := by
          rcases Nat.lt_or_eq_of_le hk with hlt | rfl
          · apply Nat.le_of_lt
            rw [← place_lt_iff (List.mem_of_getElem? hok) hmem, place_of_getElem? hok,
              place_of_getElem? ho]
            exact hlt
          · rw [ho] at hok
            rw [Option.some.inj hok]
        exact Origin.site_le_of_time htime
      rw [h.groupKey hlabelled.length hok, hkey']
      have hgroup : ∀ batch ∈ accepted, batch.minIdx ≤ i →
          groupLabel labels batch ≠ labelAt labels j := by
        intro batch hbatch hle heq
        rcases groupLabel_cases labels batch with hsame | hsplit
        · obtain ⟨m, hm, hmin⟩ := (h.ready.group batch hbatch).exists_lead
          exact hearlier m.1 (hmin ▸ hle) ((hsame m hm).trans heq)
        · exact hregion (heq.symm.trans hsplit.1)
      have hmade := (mem_origins.mp (List.mem_of_getElem? hok)).2
      cases ok with
      | kept u => exact hearlier u hsite
      | merge lead =>
          rcases hmade with ⟨u, hu⟩ | hin
          · cases hu
          · obtain ⟨batch, hbatch, rfl⟩ := List.mem_map.mp hin
            rw [originKey_made h.ready hbatch (Or.inl rfl)]
            exact hgroup batch hbatch hsite
      | wide lead =>
          rcases hmade with ⟨u, hu⟩ | hin
          · cases hu
          · obtain ⟨batch, hbatch, rfl⟩ := List.mem_map.mp hin
            rw [originKey_made h.ready hbatch (Or.inr rfl)]
            exact hgroup batch hbatch hsite

theorem hoistRemap_injOn {P : Type} {block : IRBlock P} {sets : List (List ℕ)} :
    Set.InjOn (remapped (hoistRemap block sets)) {v | v < block.varSpace} := by
  have hcases : ∀ v < block.varSpace, v < block.params.length ∧
      remapped (hoistRemap block sets) v = v ∨ ∃ i < block.stmts.length,
        v = block.params.length + i ∧ remapped (hoistRemap block sets) v =
          block.params.length + hoistPlace sets block.stmts.length i := by
    intro v hv
    by_cases hp : v < block.params.length
    · exact Or.inl ⟨hp, remapped_hoistRemap_of_lt hp⟩
    · rw [IRBlock.varSpace] at hv
      obtain ⟨i, rfl⟩ : ∃ i, v = block.params.length + i := ⟨v - block.params.length, by omega⟩
      exact Or.inr ⟨i, by omega, rfl, remapped_hoistRemap_add (by omega)⟩
  intro u hu v hv heq
  rcases hcases u hu with ⟨hup, hu'⟩ | ⟨i, hi, rfl, hu'⟩
  · rcases hcases v hv with ⟨hvp, hv'⟩ | ⟨j, hj, rfl, hv'⟩
    · exact hu'.symm.trans (heq.trans hv')
    · rw [hu', hv'] at heq
      omega
  · rcases hcases v hv with ⟨hvp, hv'⟩ | ⟨j, hj, rfl, hv'⟩
    · rw [hu', hv'] at heq
      omega
    · rw [hu', hv', Nat.add_left_cancel_iff] at heq
      have hget := getElem?_hoistPlace sets hi
      rw [heq, getElem?_hoistPlace sets hj] at hget
      rw [Option.some.inj hget]

/-- What the hoisted order has to respect, it respects. -/
theorem BatchLaid.sound (h : BatchLaid table b accepted batched) {labels : List ℕ}
    (hdefined : Ssa.Defined IRStmt.operands b.params.length b.kinds)
    (hsorted : ∀ s ∈ b.kinds, MonomialsSorted s)
    (htyped : StmtsTyped table (b.params.map .data) b.kinds)
    (hodd : ∀ s ∈ b.kinds, PrimeCountsOdd table s) (hlabelled : Labelled b labels)
    (hlead : EffectsLead b labels) (hholes : NoSplitHoles labels b.params.length accepted)
    (hargs : ArgsFit batched.types b.params args) (hσ : StorageFits batched.types σ) :
    (language batched.types world).Sound ⟨paramValues batched.block.params args, σ⟩
      batched.block.kinds
      (remapStmtOperands
        (hoistRemap batched.block (regionSets labels b.params.length batched)))
      (remapped (hoistRemap batched.block (regionSets labels b.params.length batched)))
      batched.block.params.length := by
  have hlt : ∀ {q : ℕ} {s : IRStmt}, batched.block.kinds[q]? = some s →
      q < batched.block.stmts.length := by
    intro q s hs
    rw [← IRBlock.length_kinds]
    exact (List.getElem?_eq_some_iff.mp hs).1
  have himpure : ∀ {s : IRStmt}, ¬ (language batched.types world).Pure s → s.isPure = false := by
    intro s hs
    by_contra hpure
    rw [Bool.not_eq_false] at hpure
    exact hs fun σ σ' look => evalStmt_pure world hpure σ σ' look
  constructor
  · intro q s hs v hv hbase
    obtain ⟨p, rfl⟩ : ∃ p, v = batched.block.params.length + p :=
      ⟨v - batched.block.params.length, by omega⟩
    have hq := hlt hs
    have hp := Ssa.operands_lt_of_getElem (h.defined hdefined) hs _ hv
    rw [h.params] at hv hp
    rw [remapped_hoistRemap_add hq, remapped_hoistRemap_add (by omega)]
    exact Nat.add_lt_add_left (h.before hdefined hlabelled hholes hs hv) _
  · intro p q s t hpq hs ht hsimpure htimpure
    rw [remapped_hoistRemap_add (hlt hs), remapped_hoistRemap_add (hlt ht)]
    exact Nat.add_lt_add_left
      (h.effects hlabelled hlead hpq hs ht (himpure hsimpure) (himpure htimpure)) _
  · intro q s hs st look' hlook
    have hle := (List.getElem?_eq_some_iff.mp hs).1.le
    exact evalStmt_remap_fits (h.frameFits world hdefined htyped hargs hσ hle)
      (h.stmtFits hdefined htyped hs)
      (h.countsKept hdefined hsorted htyped hodd hoistRemap_injOn hs) hlook st

/-- The hoisted block computes what the batched block computes. -/
theorem BatchLaid.evalBlock_hoisted (h : BatchLaid table b accepted batched) {labels : List ℕ}
    (hwf : b.WellFormed) (hsorted : ∀ s ∈ b.kinds, MonomialsSorted s)
    (htyped : StmtsTyped table (b.params.map .data) b.kinds)
    (hodd : ∀ s ∈ b.kinds, PrimeCountsOdd table s) (hlabelled : Labelled b labels)
    (hlead : EffectsLead b labels) (hholes : NoSplitHoles labels b.params.length accepted)
    (hargs : ArgsFit batched.types b.params args) (hσ : StorageFits batched.types σ) :
    evalBlock batched.types world (hoistSharedStatementsOnce batched.block
        (regionSets labels b.params.length batched)).block args σ =
      evalBlock batched.types world batched.block args σ := by
  by_cases heq : hoistOrder (regionSets labels b.params.length batched)
      batched.block.stmts.length = List.range batched.block.stmts.length
  · rw [(hoistSharedStatementsOnce_of_eq heq).1]
  · rw [(hoistSharedStatementsOnce_of_ne heq).1, evalBlock, evalBlock]
    split_ifs with hlen
    · have hold := h.wellFormed hwf
      obtain ⟨hst, hlook⟩ := (language batched.types world).run_reordered
        (length_paramValues hlen) (reordered_hoist _ _)
        (h.sound world hwf.1 hsorted htyped hodd hlabelled hlead hholes hargs hσ) hold.1
      have hterminator : evalTerminator (Ssa.look ((language batched.types world).run
            ⟨paramValues batched.block.params args, σ⟩ ((hoistedStmts batched.block
              (regionSets labels b.params.length batched)).map Node.kind)).vals)
          (batched.block.terminator.mapVars (remapped (hoistRemap batched.block
            (regionSets labels b.params.length batched)))) =
          evalTerminator (Ssa.look ((language batched.types world).run
            ⟨paramValues batched.block.params args, σ⟩ batched.block.kinds).vals)
            batched.block.terminator := by
        rw [evalTerminator_mapVars]
        apply evalTerminator_congr
        intro v hv
        apply hlook
        rw [IRBlock.length_kinds]
        exact hold.2 v hv
      simp only [blockFrame, IRBlock.kinds] at hterminator hst ⊢
      rw [hterminator, hst]
    · rfl

end
end VolarIR.Ir
