import VolarIR.Ir.DceSound
import VolarIR.Ir.StoredOrder

/-!
# Volar IR dead-code elimination preserves runs

A block and what elimination leaves of it run alike: every surviving var holds its value, and
the storage, the actions and the exit are the same. Dropping an unused draw must not shift the
samples of the others, so the rewritten program is run in the world where each surviving draw
gets the sample it got before.

The surviving polynomials are collected again by `map_var`, where of several entries for one
monomial only the last stays. So the list of a polynomial that survives must not repeat a
monomial, unless nothing is dropped and the block stays as it is.
-/
namespace VolarIR.Ir
open Fallible

def StoredStmt.isRng : StoredStmt → Bool
  | plain ⟨.rng .., _⟩ => true
  | _ => false

def drawMask : List Bool → List StoredStmt → List Bool
  | l :: live, s :: rest => if s.isRng then l :: drawMask live rest else drawMask live rest
  | _, _ => []

/-- Where the surviving draw number `k` stood among all draws. -/
def keptPos : List Bool → ℕ → ℕ
  | [], k => k
  | true :: _, 0 => 0
  | true :: mask, k + 1 => keptPos mask k + 1
  | false :: mask, k => keptPos mask k + 1

/-- The world in which draw `k` of a block gets the sample of draw `pos block k`. -/
def Externals.skip (world : Externals) (pos : ℕ → ℕ → ℕ) : Externals :=
  { world with sample := fun o => world.sample { o with draw := pos o.block o.draw } }

/-- States that differ at most in the number of draws made; `pos` accounts for the
difference over the statements still to come. -/
structure Sync (pos : ℕ → ℕ → ℕ) (mask : List Bool) (σ σ' : EvalState) : Prop where
  storage : σ'.storage = σ.storage
  actions : σ'.actions = σ.actions
  execution : σ'.next.execution = σ.next.execution
  block : σ'.next.block = σ.next.block
  draws : ∀ k, pos σ.next.block (σ'.next.draw + k) = σ.next.draw + keptPos mask k

section
variable {table : TypeTable} {world : Externals} {pos : ℕ → ℕ → ℕ} {mask : List Bool}
  {σ σ' : EvalState} {s : StoredStmt}

theorem Sync.eval (h : Sync pos mask σ σ') (look : ℕ → Value) (hs : s.isRng = false) :
    (s.eval table (world.skip pos) σ' look).1 = (s.eval table world σ look).1 ∧
      Sync pos mask (s.eval table world σ look).2 (s.eval table (world.skip pos) σ' look).2 := by
  cases s with
  | poly ty coeffs constant => exact ⟨rfl, h⟩
  | plain s =>
      obtain ⟨hstorage, hactions, hexec, hblock, hdraws⟩ := h
      obtain ⟨s, hplain⟩ := s
      cases s with
      | rng => cases hs
      | _ =>
          refine ⟨?_, ?_, ?_, hexec, hblock, hdraws⟩ <;>
            simp [StoredStmt.eval, evalStmt, evalKind, actionOutputs, Externals.skip,
              EvalState.write, hstorage, hactions]

theorem Sync.draw (h : Sync pos (true :: mask) σ σ') (look : ℕ → Value) (name : String)
    (ty : TypeId) :
    (evalStmt table (world.skip pos) σ' look (.rng name ty)).1 =
        (evalStmt table world σ look (.rng name ty)).1 ∧
      Sync pos mask (evalStmt table world σ look (.rng name ty)).2
        (evalStmt table (world.skip pos) σ' look (.rng name ty)).2 := by
  constructor
  · have hnow := h.draws 0
    have hnext : (⟨σ'.next.execution, σ'.next.block, pos σ'.next.block σ'.next.draw⟩ :
        Occurrence) = σ.next := by
      rw [Nat.add_zero] at hnow
      rw [h.execution, h.block, hnow]
      rfl
    simp only [evalStmt, evalKind, Externals.skip, hnext]
  · refine ⟨h.storage, h.actions, h.execution, h.block, fun k => ?_⟩
    have hk := h.draws (k + 1)
    simp only [evalStmt, evalKind, keptPos] at hk ⊢
    rw [show σ'.next.draw + 1 + k = σ'.next.draw + (k + 1) by omega, hk]
    omega

theorem Sync.dropped (h : Sync pos (if s.isRng then false :: mask else mask) σ σ')
    (look : ℕ → Value) (he : s.isEffect = false) :
    Sync pos mask (s.eval table world σ look).2 σ' := by
  cases s with
  | poly ty coeffs constant => exact h
  | plain s =>
      obtain ⟨s, hplain⟩ := s
      cases s with
      | rng name ty =>
          refine ⟨h.storage, h.actions, h.execution, h.block, fun k => ?_⟩
          have hk := h.draws k
          simp only [StoredStmt.isRng, if_true, keptPos] at hk
          simp only [StoredStmt.eval, evalStmt, evalKind]
          omega
      | storageWrite | actionCall | actionStore => cases he
      | _ => exact h

end

section
variable {table : TypeTable} {world : Externals} {pos : ℕ → ℕ → ℕ} {alive : ℕ → Prop}
  {g : ℕ → ℕ}

/-- What elimination promises about the statements still to come. -/
structure Droppable (alive : ℕ → Prop) (g : ℕ → ℕ) (live : List Bool) (rest : List StoredStmt)
    (n m : ℕ) : Prop where
  length : live.length = rest.length
  number : ∀ i, flag live i = true → g (n + i) = m + rank live i
  flagged : ∀ i < rest.length, alive (n + i) → flag live i = true
  operands : ∀ i s, rest[i]? = some s → flag live i = true → ∀ v ∈ s.operands,
    v < n + i ∧ alive v
  effects : ∀ i s, rest[i]? = some s → flag live i = false → s.isEffect = false

theorem Droppable.tail {l : Bool} {live : List Bool} {s : StoredStmt} {rest : List StoredStmt}
    {n m : ℕ} (h : Droppable alive g (l :: live) (s :: rest) n m) :
    Droppable alive g live rest (n + 1) (m + l.toNat) where
  length := Nat.succ.inj h.length
  number i hi := by
    have hg := h.number (i + 1) (by simpa [flag] using hi)
    have hrank : rank (l :: live) (i + 1) = rank live i + l.toNat := by cases l <;> simp [rank]
    rw [show n + 1 + i = n + (i + 1) by omega, hg, hrank]
    omega
  flagged i hi ha := by
    have hflag := h.flagged (i + 1) (Nat.succ_lt_succ hi)
      (by rwa [show n + (i + 1) = n + 1 + i by omega])
    simpa [flag] using hflag
  operands i s hs hi v hv := by
    have hop := h.operands (i + 1) s hs (by simpa [flag] using hi) v hv
    exact ⟨by omega, hop.2⟩
  effects i s hs hi := h.effects (i + 1) s hs (by simpa [flag] using hi)

/-- The run over a block's statements and the run over what follows the surviving ones go in
step. -/
theorem select_run {live : List Bool} {rest rest' : List StoredStmt}
    {f f' : Ssa.Frame Value EvalState}
    (h : Droppable alive g live rest f.vals.length f'.vals.length)
    (hfollows : List.Forall₂ (Follows table g) (select live rest) rest')
    (ht : Ssa.Tracks alive g f.vals f'.vals) (hs : Sync pos (drawMask live rest) f.st f'.st) :
    Ssa.Tracks alive g ((storedLanguage table world).run f rest).vals
        ((storedLanguage table (world.skip pos)).run f' rest').vals ∧
      Sync pos [] ((storedLanguage table world).run f rest).st
        ((storedLanguage table (world.skip pos)).run f' rest').st := by
  induction rest generalizing live rest' f f' with
  | nil =>
      cases live with
      | nil =>
          cases hfollows
          exact ⟨ht, hs⟩
      | cons l live => cases h.length
  | cons s rest ih =>
      cases live with
      | nil => cases h.length
      | cons l live =>
          have htail := h.tail
          rw [← (storedLanguage table world).step_length f s] at htail
          cases l with
          | false =>
              -- the source defines a var that nothing alive reads
              have hdead : ¬ alive f.vals.length := fun ha => by
                have hflag := h.flagged 0 (Nat.succ_pos _) ha
                cases hflag
              have hsync : Sync pos (if s.isRng then false :: drawMask live rest
                  else drawMask live rest) f.st f'.st := hs
              apply ih htail hfollows (ht.drop hdead)
              exact hsync.dropped (Ssa.look f.vals) (h.effects 0 s rfl rfl)
          | true =>
              obtain ⟨t, rest', hst, hrest, rfl⟩ := List.forall₂_cons_left_iff.mp hfollows
              have hnumber : g f.vals.length = f'.vals.length := h.number 0 rfl
              have hops := h.operands 0 s rfl rfl
              have heval : t.eval table (world.skip pos) f'.st (Ssa.look f'.vals) =
                  s.eval table (world.skip pos) f'.st (Ssa.look f.vals) := by
                rw [hst.eval]
                exact (storedLanguage table (world.skip pos)).eval_tracks ht
                  (fun v hv => (hops v hv).1) (fun v hv => (hops v hv).2) f'.st
              have hstep : (s.eval table (world.skip pos) f'.st (Ssa.look f.vals)).1 =
                    (s.eval table world f.st (Ssa.look f.vals)).1 ∧
                  Sync pos (drawMask live rest) (s.eval table world f.st (Ssa.look f.vals)).2
                    (s.eval table (world.skip pos) f'.st (Ssa.look f.vals)).2 := by
                have hsync : Sync pos (if s.isRng then true :: drawMask live rest
                    else drawMask live rest) f.st f'.st := hs
                cases hrng : s.isRng with
                | false =>
                    rw [hrng] at hsync
                    exact Sync.eval hsync _ hrng
                | true =>
                    rw [hrng] at hsync
                    cases s with
                    | poly => cases hrng
                    | plain s =>
                        obtain ⟨s, hplain⟩ := s
                        cases s with
                        | rng name ty => exact Sync.draw hsync _ name ty
                        | _ => cases hrng
              have hpush : Ssa.Tracks alive g ((storedLanguage table world).step f s).vals
                  ((storedLanguage table (world.skip pos)).step f' t).vals := by
                have hval : ((storedLanguage table (world.skip pos)).step f' t).vals =
                    f'.vals ++ [(s.eval table world f.st (Ssa.look f.vals)).1] :=
                  congrArg (fun x => f'.vals ++ [x]) ((congrArg Prod.fst heval).trans hstep.1)
                rw [hval]
                exact ht.push fun _ => hnumber
              have hst' : ((storedLanguage table (world.skip pos)).step f' t).st =
                  (s.eval table (world.skip pos) f'.st (Ssa.look f.vals)).2 :=
                congrArg Prod.snd heval
              rw [Bool.toNat_true, ← (storedLanguage table (world.skip pos)).step_length f' t]
                at htail
              apply ih htail hrest hpush
              rw [hst']
              exact hstep.2

end

section
variable {P : Type}

def keptFlags (b : StoredBlock P) (remap : List ℕ) : List Bool :=
  (List.range b.stmts.length).map fun i => (renamed remap (b.params.length + i)).isSome

def drawPos (blocks : StoredBlocks P) (remaps : List (List ℕ)) (block draw : ℕ) : ℕ :=
  match blocks.blocks[block]?, remaps[block]? with
  | some b, some remap => keptPos (drawMask (keptFlags b remap) b.kinds) draw
  | _, _ => draw

/-- What elimination does to a block: `out` is left of `b`, and `remap` renumbers its vars. -/
structure Eliminated (b out : StoredBlock P) (remap : List ℕ) (extraLive : List ℕ) : Prop where
  wellFormed : out.WellFormed
  params : out.params = b.params
  /-- A parameter keeps its number. -/
  param : ∀ v < b.params.length, renamed remap v = some v
  increasing : ∀ u v u' v', renamed remap u = some u' → renamed remap v = some v' → u < v → u' < v'
  root : ∀ v ∈ extraLive, v < b.varSpace → (renamed remap v).isSome
  exit : ∀ v ∈ b.terminator.operands, (renamed remap v).isSome
  operand : ∀ i s, b.kinds[i]? = some s → (renamed remap (b.params.length + i)).isSome →
    ∀ v ∈ s.operands, (renamed remap v).isSome
  anchored : ∀ i < b.stmts.length, Anchored b.params.length b.kinds i →
    (renamed remap (b.params.length + i)).isSome
  /-- A surviving statement stands at its new number, with its operands renumbered. -/
  stmt : ∀ i node v', b.stmts[i]? = some node → renamed remap (b.params.length + i) = some v' →
    ∃ j node', v' = out.params.length + j ∧ out.stmts[j]? = some node' ∧
      StoredStmt.Renamed (fun v => (renamed remap v).getD 0) node.kind node'.kind ∧
      node'.prov = node.prov ∧ node'.side = node.side
  /-- Nothing else is left. -/
  onto : ∀ j < out.stmts.length, ∃ i < b.stmts.length,
    renamed remap (b.params.length + i) = some (out.params.length + j)

/-- `node'` follows `node` and stands where it stood. -/
structure NodeFollows (table : TypeTable) (g : ℕ → ℕ) (node node' : Node StoredStmt P) : Prop where
  kind : Follows table g node.kind node'.kind
  prov : node'.prov = node.prov
  side : node'.side = node.side

/-- `out` is the live part of `b` under the new numbers. -/
structure Rebuilt (table : TypeTable) (live : List Bool) (b out : StoredBlock P) : Prop where
  params : out.params = b.params
  stmts : List.Forall₂ (NodeFollows table (newVar b.params.length live)) (select live b.stmts)
    out.stmts
  terminator : out.terminator = b.terminator.mapVars (newVar b.params.length live)

section
variable {table : TypeTable} {b out : StoredBlock P} {live : List Bool} {extraLive remap : List ℕ}

theorem Rebuilt.kinds (h : Rebuilt table live b out) :
    List.Forall₂ (Follows table (newVar b.params.length live)) (select live b.kinds)
      out.kinds := by
  rw [StoredBlock.kinds, StoredBlock.kinds, select_map, List.forall₂_map_left_iff,
    List.forall₂_map_right_iff]
  exact h.stmts.imp fun _ _ hnode => hnode.kind

theorem Rebuilt.length (h : Rebuilt table live b out) :
    out.stmts.length = rank live b.stmts.length := by
  rw [← h.stmts.length_eq, length_select]
  rfl

theorem Renumbers.isSome (h : Renumbers b.params.length live remap) {v : ℕ} :
    (renamed remap v).isSome ↔ Survives b.params.length live v := by
  by_cases hv : Survives b.params.length live v
  · simp [h.alive v hv, hv]
  · simp [h.dead v hv, hv]

theorem survives_add {n i : ℕ} : Survives n live (n + i) ↔ flag live i = true := by
  simp [Survives]

theorem newVar_add {n i : ℕ} : newVar n live (n + i) = n + rank live i := by
  simp [newVar]

theorem Renumbers.keptFlags (h : Renumbers b.params.length live remap)
    (hlen : live.length = b.stmts.length) : keptFlags b remap = live := by
  apply List.ext_getElem?
  intro i
  by_cases hi : i < b.stmts.length
  · rw [Ir.keptFlags, List.getElem?_map, List.getElem?_range hi, Option.map_some,
      List.getElem?_eq_getElem (hlen ▸ hi)]
    congr 1
    rw [Bool.eq_iff_iff, h.isSome, survives_add, flag_eq_true,
      List.getElem?_eq_getElem (hlen ▸ hi), Option.some.injEq]
  · rw [Ir.keptFlags, List.getElem?_eq_none (by simpa using hi),
      List.getElem?_eq_none (by rw [hlen]; exact Nat.le_of_not_lt hi)]

/-- The live set of a block holds what every survivor names. -/
structure Closed (live : List Bool) (b : StoredBlock P) (extraLive : List ℕ) : Prop where
  length : live.length = b.stmts.length
  operand : ∀ i s, b.kinds[i]? = some s → flag live i = true → ∀ v ∈ s.operands,
    v < b.params.length + i ∧ Survives b.params.length live v
  exit : ∀ v ∈ b.terminator.operands, v < b.varSpace ∧ Survives b.params.length live v
  root : ∀ v ∈ extraLive, v < b.varSpace → Survives b.params.length live v
  anchored : ∀ i < b.stmts.length, Anchored b.params.length b.kinds i → flag live i = true

theorem closed_liveness (hwf : b.WellFormed) : Closed (liveness b extraLive) b extraLive where
  length := length_liveness
  operand i s hs hi v hv := by
    apply And.intro (Ssa.operands_lt_of_getElem hwf.1 hs v hv)
    by_cases hn : v < b.params.length
    · exact Or.inl hn
    · have hle := Nat.le_of_not_lt hn
      exact Or.inr ⟨hle, flag_liveness_operand hwf hs hi hv hle⟩
  exit v hv := by
    apply And.intro (hwf.2 v hv)
    by_cases hn : v < b.params.length
    · exact Or.inl hn
    · have hle := Nat.le_of_not_lt hn
      exact Or.inr ⟨hle, flag_liveness_root (List.mem_append_left _ hv) hle (hwf.2 v hv)⟩
  root v hv hlt := by
    by_cases hn : v < b.params.length
    · exact Or.inl hn
    · have hle := Nat.le_of_not_lt hn
      exact Or.inr ⟨hle, flag_liveness_root (List.mem_append_right _ hv) hle hlt⟩
  anchored _ hi h := flag_liveness_anchored hwf hi h

theorem Closed.droppable (h : Closed live b extraLive) :
    Droppable (Survives b.params.length live) (newVar b.params.length live) live b.kinds
      b.params.length b.params.length where
  length := h.length.trans b.length_kinds.symm
  number i _ := newVar_add
  flagged i _ ha := survives_add.mp ha
  operands := h.operand
  effects i s hs hi := by
    rw [Bool.eq_false_iff]
    intro he
    have hlt : i < b.stmts.length := b.length_kinds ▸ (List.getElem?_eq_some_iff.mp hs).1
    have hflag := h.anchored i hlt (.effect hs he)
    rw [hi] at hflag
    cases hflag

theorem newVar_lt_space (h : Rebuilt table live b out) {v : ℕ} (hv : v < b.varSpace)
    (hs : Survives b.params.length live v) :
    newVar b.params.length live v < out.varSpace := by
  unfold newVar StoredBlock.varSpace at *
  rw [h.params, h.length]
  split_ifs with hn
  · omega
  · have hlt := rank_lt (hs.resolve_left hn).2 (show v - b.params.length < b.stmts.length by omega)
    omega

theorem Droppable.defined {alive : ℕ → Prop} {g : ℕ → ℕ} {m : List Bool}
    {rest rest' : List StoredStmt} {n k : ℕ} (hd : Droppable alive g m rest n k)
    (hfollows : List.Forall₂ (Follows table g) (select m rest) rest')
    (hlt : ∀ v < n, alive v → g v < k) : Ssa.Defined StoredStmt.operands k rest' := by
  induction rest generalizing m rest' n k with
  | nil =>
      cases m with
      | nil =>
          cases hfollows
          trivial
      | cons l m => cases hd.length
  | cons s rest ih =>
      cases m with
      | nil => cases hd.length
      | cons l m =>
          have hnext : ∀ v < n + 1, alive v → g v < k + l.toNat := by
            intro v hv hs
            rcases Nat.lt_succ_iff_lt_or_eq.mp hv with hv | rfl
            · exact Nat.lt_add_right _ (hlt v hv hs)
            · have hl : l = true := hd.flagged 0 (Nat.succ_pos _) hs
              have hnum := hd.number 0 hl
              rw [Nat.add_zero] at hnum
              rw [hnum, hl]
              exact Nat.lt_succ_self _
          cases l with
          | false => exact ih hd.tail hfollows hnext
          | true =>
              obtain ⟨t, rest', hst, hrest, rfl⟩ := List.forall₂_cons_left_iff.mp hfollows
              refine ⟨fun v hv => ?_, ih hd.tail hrest hnext⟩
              obtain ⟨u, hu, rfl⟩ := List.mem_map.mp (hst.renamed.operands_subset hv)
              have hop := hd.operands 0 s rfl rfl u hu
              exact hlt u hop.1 hop.2

theorem Closed.wellFormed (h : Closed live b extraLive) (hr : Rebuilt table live b out) :
    out.WellFormed := by
  constructor
  · rw [hr.params]
    apply h.droppable.defined hr.kinds
    intro v hv _
    rw [newVar, if_pos hv]
    exact hv
  · intro v hv
    rw [hr.terminator, IRTerminator.operands_mapVars] at hv
    obtain ⟨u, hu, rfl⟩ := List.mem_map.mp hv
    have hexit := h.exit u hu
    exact newVar_lt_space hr hexit.1 hexit.2

theorem Closed.eliminated (h : Closed live b extraLive) (hr : Rebuilt table live b out)
    (hn : Renumbers b.params.length live remap) : Eliminated b out remap extraLive where
  wellFormed := h.wellFormed hr
  params := hr.params
  param v hv := by
    rw [hn.alive v (Or.inl hv), newVar, if_pos hv]
  increasing u v u' v' hu hv huv := by
    have hsu := hn.isSome.mp (Option.isSome_of_eq_some hu)
    have hsv := hn.isSome.mp (Option.isSome_of_eq_some hv)
    rw [hn.alive u hsu] at hu
    rw [hn.alive v hsv] at hv
    obtain rfl := Option.some.inj hu
    obtain rfl := Option.some.inj hv
    exact newVar_lt hsu huv
  root v hv hlt := hn.isSome.mpr (h.root v hv hlt)
  exit v hv := hn.isSome.mpr (h.exit v hv).2
  operand i s hs hi v hv :=
    hn.isSome.mpr (h.operand i s hs (survives_add.mp (hn.isSome.mp hi)) v hv).2
  anchored i hlt hi := hn.isSome.mpr (survives_add.mpr (h.anchored i hlt hi))
  stmt i node v' hnode hv' := by
    have hsurv := hn.isSome.mp (Option.isSome_of_eq_some hv')
    rw [hn.alive _ hsurv, newVar_add] at hv'
    obtain rfl := Option.some.inj hv'
    have hflag := survives_add.mp hsurv
    have hplace : (select live b.stmts)[rank live i]? = some node :=
      (getElem?_select hflag).trans hnode
    obtain ⟨hlt, hget⟩ := List.getElem?_eq_some_iff.mp hplace
    have hlt' : rank live i < out.stmts.length := hr.stmts.length_eq ▸ hlt
    have hfollows := hr.stmts.get hlt hlt'
    rw [List.get_eq_getElem, List.get_eq_getElem, hget] at hfollows
    refine ⟨rank live i, out.stmts[rank live i], by rw [hr.params],
      List.getElem?_eq_getElem hlt', ?_, hfollows.prov, hfollows.side⟩
    have hkind : b.kinds[i]? = some node.kind := by
      rw [StoredBlock.kinds, List.getElem?_map, hnode, Option.map_some]
    apply hfollows.kind.renamed.congr
    intro v hv
    rw [hn.alive v (h.operand i node.kind hkind hflag v hv).2, Option.getD_some]
  onto j hj := by
    have hj' : j < (select live b.stmts).length := hr.stmts.length_eq.symm ▸ hj
    obtain ⟨i, hi, hrank, hx⟩ := exists_of_getElem?_select (List.getElem?_eq_getElem hj')
    refine ⟨i, (List.getElem?_eq_some_iff.mp hx).1, ?_⟩
    rw [hn.alive _ (survives_add.mpr hi), newVar_add, hrank, hr.params]

variable {world : Externals} {pos : ℕ → ℕ → ℕ}

/-- At the end of the block every survivor holds its value. -/
theorem Closed.frame (h : Closed live b extraLive) (hr : Rebuilt table live b out)
    (world : Externals) {args : List (List Bool)} (hargs : args.length = b.params.length)
    {σ : EvalState} (hdraw : σ.next.draw = 0)
    (hpos : ∀ k, pos σ.next.block k = keptPos (drawMask live b.kinds) k) :
    Ssa.Tracks (Survives b.params.length live) (newVar b.params.length live)
        (b.frame table world args σ).vals (out.frame table (world.skip pos) args σ).vals ∧
      Sync pos [] (b.frame table world args σ).st
        (out.frame table (world.skip pos) args σ).st := by
  have hlen : (paramValues b.params args).length = b.params.length := length_paramValues hargs
  have hparam : ∀ v < b.params.length, newVar b.params.length live v = v := fun v hv => by
    rw [newVar, if_pos hv]
  unfold StoredBlock.frame
  rw [hr.params]
  refine select_run ?_ hr.kinds ?_ ?_
  · simp only [hlen]
    exact h.droppable
  · constructor
    · intro v hv _
      rw [hlen] at hv
      rw [hparam v hv, hlen]
      exact hv
    · intro v hv _
      rw [hlen] at hv
      rw [hparam v hv]
  · refine ⟨rfl, rfl, rfl, rfl, fun k => ?_⟩
    rw [hdraw, Nat.zero_add, Nat.zero_add]
    exact hpos k

theorem Sync.leave {mask : List Bool} {σ σ' : EvalState} (h : Sync pos mask σ σ') :
    σ'.leave = σ.leave := by
  simp only [EvalState.leave, h.storage, h.actions, h.execution]

theorem StoredBlock.length_frame {args : List (List Bool)} {σ : EvalState}
    (hargs : args.length = b.params.length) :
    (b.frame table world args σ).vals.length = b.varSpace := by
  rw [StoredBlock.frame, Ssa.Language.run_length, length_paramValues hargs,
    StoredBlock.length_kinds]
  rfl

theorem Closed.eval (h : Closed live b extraLive) (hr : Rebuilt table live b out)
    (args : List (List Bool)) {σ : EvalState} (hdraw : σ.next.draw = 0)
    (hpos : ∀ k, pos σ.next.block k = keptPos (drawMask live b.kinds) k) :
    handedOn (out.eval table (world.skip pos) args σ) =
      handedOn (b.eval table world args σ) := by
  unfold StoredBlock.eval
  rw [hr.params]
  split_ifs with hargs
  · obtain ⟨ht, hs⟩ := h.frame hr world hargs hdraw hpos
    have hterm : evalTerminator (Ssa.look (out.frame table (world.skip pos) args σ).vals)
          out.terminator =
        evalTerminator (Ssa.look (b.frame table world args σ).vals) b.terminator := by
      rw [hr.terminator, evalTerminator_mapVars]
      apply evalTerminator_congr
      intro v hv
      have hexit := h.exit v hv
      exact ht.look v ((StoredBlock.length_frame hargs).symm ▸ hexit.1) hexit.2
    simp only [handedOn, hterm, Option.map_map, Function.comp_def, hs.leave]
  · rfl

end

/-- What lets a block come through: the ids of what survives are below the mark `u32::MAX`, and
no polynomial that is collected again repeats a monomial. A polynomial over prime fields is
collected in another order, which needs the fields to be as they are documented. -/
structure StoredBlock.Recollects (table : TypeTable) (b : StoredBlock P) (extraLive : List ℕ) :
    Prop where
  ids : ∀ kept : Finset ℕ, (∀ i ∈ kept, i < b.stmts.length ∧ Needed b extraLive i) →
    b.params.length + kept.card ≤ u32Max
  keys : (∀ i < b.stmts.length, Needed b extraLive i) ∨
    ∀ i ty coeffs constant, b.kinds[i]? = some (.poly ty coeffs constant) →
      Needed b extraLive i →
        coeffs.keys.Nodup ∧ (table.containsPrimeField ty = true → table.PrimesCanonical)

section
variable {table : TypeTable} {b : StoredBlock P} {extraLive : List ℕ}

theorem card_filter_flag (live : List Bool) (n : ℕ) :
    ((Finset.range n).filter fun i => flag live i = true).card = rank live n := by
  induction n with
  | zero => rfl
  | succ n ih =>
      rw [Finset.range_add_one, Finset.filter_insert, rank_succ, ← ih]
      split_ifs with hflag
      · rw [Finset.card_insert_of_notMem (by simp), hflag, Bool.toNat_true]
      · rw [Bool.eq_false_iff.mpr hflag, Bool.toNat_false, Nat.add_zero]

theorem StoredBlock.Recollects.fits (h : b.Recollects table extraLive) (hwf : b.WellFormed) :
    b.params.length + (liveness b extraLive).count true ≤ u32Max := by
  have hlen : (liveness b extraLive).length = b.stmts.length := length_liveness
  have hcount : (liveness b extraLive).count true = rank (liveness b extraLive) b.stmts.length := by
    rw [rank, ← hlen, List.take_length]
  rw [hcount, ← card_filter_flag]
  apply h.ids
  intro i hi
  obtain ⟨hlt, hflag⟩ := Finset.mem_filter.mp hi
  have hlt := Finset.mem_range.mp hlt
  exact ⟨hlt, (flag_liveness_iff hwf hlt).mp hflag⟩

theorem select_all {α : Type} {live : List Bool} {xs : List α} (hall : live.all id = true)
    (hlen : live.length = xs.length) : select live xs = xs := by
  induction live generalizing xs with
  | nil => exact (List.length_eq_zero_iff.mp hlen.symm).symm
  | cons l live ih =>
      cases xs with
      | nil => cases hlen
      | cons x xs =>
          rw [List.all_cons, Bool.and_eq_true] at hall
          obtain rfl : l = true := hall.1
          rw [select, ih hall.2 (Nat.succ.inj hlen)]

theorem rebuilt_self (hwf : b.WellFormed) {live : List Bool} (hall : live.all id = true)
    (hlen : live.length = b.stmts.length) : Rebuilt table live b b := by
  have hid : ∀ v < b.varSpace, newVar b.params.length live v = v := by
    intro v hv
    unfold newVar StoredBlock.varSpace at *
    split_ifs with hn
    · rfl
    · have htake : live.take (v - b.params.length) =
          List.replicate (v - b.params.length) true := by
        apply List.eq_replicate_iff.mpr
        refine ⟨by rw [List.length_take]; omega, fun l hl => ?_⟩
        exact List.all_eq_true.mp hall l (List.mem_of_mem_take hl)
      rw [rank, htake, List.count_replicate_self]
      omega
  refine ⟨rfl, ?_, ?_⟩
  · rw [select_all hall hlen]
    apply List.forall₂_same.mpr
    intro node hnode
    refine ⟨follows_self fun v hv => hid v ?_, rfl, rfl⟩
    obtain ⟨i, hi, hget⟩ := List.getElem_of_mem hnode
    have hkind : b.kinds[i]? = some node.kind := by
      rw [StoredBlock.kinds, List.getElem?_map, List.getElem?_eq_getElem hi, hget, Option.map_some]
    exact (Ssa.operands_lt_of_getElem hwf.1 hkind v hv).trans (Nat.add_lt_add_left hi _)
  · exact (IRTerminator.mapVars_eq_self fun v hv => hid v (hwf.2 v hv)).symm

/-- Elimination never trips its assertion: it returns the live part of the block. -/
theorem dceBlockOnce_eq (hwf : b.WellFormed) (h : b.Recollects table extraLive) :
    ∃ out changed remap, dceBlockOnce b extraLive = .ok (out, changed, remap) ∧
      Rebuilt table (liveness b extraLive) b out ∧
      Renumbers b.params.length (liveness b extraLive) remap := by
  have hc : Closed (liveness b extraLive) b extraLive := closed_liveness hwf
  have hfits := h.fits hwf
  by_cases hall : (liveness b extraLive).all id = true
  · have hcount : (liveness b extraLive).count true = b.stmts.length := by
      rw [← hc.length, List.count_eq_length]
      exact fun l hl => (List.all_eq_true.mp hall l hl).symm
    have hlen : (liveness b extraLive).length = b.stmts.length := hc.length
    have hn : Renumbers b.params.length (liveness b extraLive)
        (List.range ((b.params.length + (liveness b extraLive).length) % (u32Max + 1))) :=
      renumbers_range hall (by omega)
    rw [hlen] at hn
    refine ⟨b, false, _, ?_, rebuilt_self hwf hall hc.length, hn⟩
    simp only [dceBlockOnce, if_pos hall]
  · obtain ⟨remap, hremap, hn⟩ := renumbers_denseRemap hfits
    have hkeys := h.keys.resolve_left fun hneeded => by
      apply hall
      apply List.all_eq_true.mpr
      intro l hl
      obtain ⟨i, hi, rfl⟩ := List.getElem_of_mem hl
      have hflag := (flag_liveness_iff hwf (hc.length ▸ hi)).mpr (hneeded i (hc.length ▸ hi))
      rw [flag_eq_true, List.getElem?_eq_getElem hi, Option.some.injEq] at hflag
      exact hflag
    have hprov : b.stmts ≠ [] → ((b.stmts.head?).map Node.prov).isSome := by
      intro hne
      rw [Option.isSome_map, List.isSome_head?]
      exact hne
    have hkind : ∀ {r : ℕ} {node : Node StoredStmt P}, b.stmts[r]? = some node →
        b.kinds[r]? = some node.kind := by
      intro r node hnode
      rw [StoredBlock.kinds, List.getElem?_map, hnode, Option.map_some]
    obtain ⟨state, hstate, hcompact⟩ := compact_run (g := newVar b.params.length
      (liveness b extraLive)) hc.length hprov (fun r node hnode hflag v hv =>
        hn.remapVar (hc.operand r node.kind (hkind hnode) hflag v hv).2)
            (Nat.le_refl b.stmts.length)
    have hterm := IRTerminator.map_eq_ok fun v hv => hn.remapVar (hc.exit v hv).2
    have hwritten := hcompact.written
    rw [List.take_length] at hwritten
    refine ⟨⟨b.params, state.1.take state.2, b.terminator.mapVars
      (newVar b.params.length (liveness b extraLive))⟩, true, remap, ?_, ⟨rfl, ?_, rfl⟩, hn⟩
    · simp only [dceBlockOnce, if_neg hall, hremap, expect, hstate, ok_bind, hterm]
    · rw [hwritten]
      apply List.forall₂_map_right_iff.mpr
      apply List.forall₂_same.mpr
      intro node hnode
      obtain ⟨j, hj, hget⟩ := List.getElem_of_mem hnode
      obtain ⟨i, hflag, -, hx⟩ := exists_of_getElem?_select
        ((List.getElem?_eq_getElem hj).trans (congrArg some hget))
      refine ⟨follows_mapVars ?_ ?_, rfl, rfl⟩
      · intro u hu v hv huv
        exact newVar_lt (hc.operand i node.kind (hkind hx) hflag u hu).2 huv
      · intro ty coeffs constant hpoly
        have hi : i < b.stmts.length := (List.getElem?_eq_some_iff.mp hx).1
        exact hkeys i ty coeffs constant (hpoly ▸ hkind hx)
          ((flag_liveness_iff hwf hi).mp hflag)

end

/-- Elimination is right about a program: it returns, and block by block what it leaves keeps
what must be kept and computes the same. -/
structure DcePreserves (table : TypeTable) (blocks out : StoredBlocks P)
    (remaps : List (List ℕ)) (extraLive : List ℕ) : Prop where
  length : out.blocks.length = blocks.blocks.length
  block : ∀ (i : ℕ) (b : StoredBlock P), blocks.blocks[i]? = some b →
    ∃ c remap, out.blocks[i]? = some c ∧ remaps[i]? = some remap ∧
      Eliminated b c remap extraLive ∧
      ∀ (world : Externals) (args : List (List Bool)) (σ : EvalState),
        args.length = b.params.length → ∀ v v', v < b.varSpace → renamed remap v = some v' →
          v' < c.varSpace ∧
            Ssa.look (c.frame table (world.skip (drawPos blocks remaps)) args
                (σ.enter i)).vals v' =
              Ssa.look (b.frame table world args (σ.enter i)).vals v
  run : ∀ (world : Externals) (budget : ℕ) (c : Config),
    out.run table (world.skip (drawPos blocks remaps)) budget c =
      blocks.run table world budget c

theorem StoredBlock.recollects_of_nodup {table : TypeTable} {b : StoredBlock P}
    (hspace : b.varSpace ≤ u32Max)
    (hkeys : ∀ ty coeffs constant, .poly ty coeffs constant ∈ b.kinds →
      coeffs.keys.Nodup ∧ table.containsPrimeField ty = false) (extraLive : List ℕ) :
    b.Recollects table extraLive := by
  constructor
  · intro kept hkept
    have hsub : kept ⊆ Finset.range b.stmts.length := fun i hi =>
      Finset.mem_range.mpr (hkept i hi).1
    have hcard := Finset.card_le_card hsub
    rw [Finset.card_range] at hcard
    unfold StoredBlock.varSpace at hspace
    omega
  · right
    intro i ty coeffs constant hi _
    obtain ⟨hnodup, hprime⟩ := hkeys ty coeffs constant (List.mem_of_getElem? hi)
    refine ⟨hnodup, fun h => ?_⟩
    rw [hprime] at h
    cases h

end

def wrappedTable : TypeTable := ⟨[.primitive .bit, .tuple [⟨0⟩]]⟩

/-- A dead draw before a guarded action, its result and a store; the monomials of the
polynomial are in the order that `entry` gives them. -/
def deadDraw : StoredBlocks Unit :=
  ⟨[⟨[⟨0⟩, ⟨0⟩, ⟨0⟩],
    [.new (.poly ⟨0⟩ ((Common.PolyCoeffs.single [0, 1] 1).entryOrInsert [2] 1 id) .zero) (),
      .new (.plain ⟨.rng "r" ⟨0⟩, rfl⟩) (), .new (.plain ⟨.rng "r" ⟨0⟩, rfl⟩) (),
      .new (.plain ⟨.actionCall "f" 0 [3] [5] [⟨0⟩] ⟨1⟩, rfl⟩) (),
      .new (.plain ⟨.actionOutput 6 0 ⟨0⟩, rfl⟩) (),
      .new (.plain ⟨.storageWrite ⟨0⟩ 7 ⟨0⟩ 1, rfl⟩) ()],
    .jmp ⟨.ret, [3]⟩⟩]⟩

/-- `v2 + v0 v1 + v2`, as `entry` leaves it that does not find the `v2` of `from_iter`, and a
dead literal. -/
def repeatedKey : StoredBlocks Unit :=
  ⟨[⟨[⟨0⟩, ⟨0⟩, ⟨0⟩],
    [.new (.poly ⟨0⟩ ((Common.PolyCoeffs.fromIter [([2], 1), ([0, 1], 1)]).entryOrInsert [2] 0
        (· ^^^ 1)) .zero) (),
      .new (.plain ⟨.const ⟨0, 1⟩ ⟨0⟩, rfl⟩) ()],
    .jmp ⟨.ret, [3]⟩⟩]⟩

end VolarIR.Ir
