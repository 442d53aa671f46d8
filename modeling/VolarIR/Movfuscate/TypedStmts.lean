import VolarIR.Movfuscate.TypedSound

/-!
# What the copy of a block's statements computes

Copied over the slots, a block computes what the lane semantics says, and what it does to
the storage it does under its flag. The induction is over the statements; `Copied` carries
where each var of the block sits, and `LaneRel` how the two storages agree.
-/
namespace VolarIR.Movfuscate
open Ir Stateful DispatchBitPrimitives DispatchSlotPrimitives

def cellBits (types : TypeTable) (σ : EvalState) (cell : Cell) : List Bool :=
  (σ.storage cell).getD (List.replicate (types.bitWidth cell.2.1) false)

theorem cellBits_write (types : TypeTable) (σ : EvalState) (cell cell' : Cell)
    (bits : List Bool) : cellBits types (σ.write cell bits) cell' =
      if cell' = cell then bits else cellBits types σ cell' := by
  simp only [cellBits, EvalState.write, Function.update_apply]
  split_ifs <;> rfl

theorem length_cellBits {types : TypeTable} {σ : EvalState} (h : StorageFits types σ)
    (cell : Cell) : (cellBits types σ cell).length = types.bitWidth cell.2.1 := by
  obtain ⟨storage, ty, addr⟩ := cell
  unfold cellBits
  cases hcell : σ.storage (storage, ty, addr) with
  | none => simp
  | some bits => exact h storage ty addr bits hcell

theorem storageFits_write {types : TypeTable} {σ : EvalState} (h : StorageFits types σ)
    {cell : Cell} {bits : List Bool} (hlen : bits.length = types.bitWidth cell.2.1) :
    StorageFits types (σ.write cell bits) := by
  intro storage ty addr out hout
  simp only [EvalState.write] at hout
  rw [Function.update_apply] at hout
  split_ifs at hout with hsame
  · cases hout
    cases hsame
    exact hlen
  · exact h storage ty addr out hout

theorem fit_self {bits : List Bool} {width : ℕ} (h : bits.length = width) :
    fit bits width = bits := (eq_map_getD h).symm

def plainLane (storage : StorageId) : StorageId := ⟨storage.id * 2 + 1⟩

def refLane (storage : StorageId) : StorageId := ⟨storage.id * 2⟩

theorem plainLane_injective : Function.Injective plainLane := by
  intro s t h
  have hid := congrArg StorageId.id h
  cases s
  cases t
  simp only [plainLane] at hid
  exact congrArg StorageId.mk (by omega)

theorem refLane_injective : Function.Injective refLane := by
  intro s t h
  have hid := congrArg StorageId.id h
  cases s
  cases t
  simp only [refLane] at hid
  exact congrArg StorageId.mk (by omega)

theorem plainLane_ne_refLane (s t : StorageId) : plainLane s ≠ refLane t := by
  intro h
  have hid := congrArg StorageId.id h
  simp only [plainLane, refLane] at hid
  omega

def IsLane {P : Type} (g : IrConfig P) (cell : Cell) : Prop :=
  (∃ storage, cell.1 = plainLane storage ∧ isBlockType g.irTypes cell.2.1 = false) ∨
    ∃ storage, cell.1 = refLane storage ∧ cell.2.1 = g.vecPcTypeId

/-- The combined block's storage holds what the lanes hold, and nothing else. -/
structure LaneRel {P : Type} (g : IrConfig P) (τ : EvalState) (ρ : LaneState) : Prop where
  typed : StorageFits g.irTypes τ
  plain : ∀ storage ty addr, isBlockType g.irTypes ty = false →
    cellBits g.irTypes τ (plainLane storage, ty, addr) =
      cellBits g.irTypes ρ.st (storage, ty, addr)
  refs : ∀ storage addr, cellBits g.irTypes τ (refLane storage, g.vecPcTypeId, addr) =
    pcBitsOf g.pcWidth (ρ.refs storage addr)
  others : ∀ cell, ¬ IsLane g cell → τ.storage cell = none
  actions : τ.actions = ρ.st.actions

section
variable {P : Type} {g : IrConfig P} {τ : EvalState} {ρ : LaneState}

theorem LaneRel.others_write (h : LaneRel g τ ρ) {cell : Cell} (hcell : IsLane g cell)
    (bits : List Bool) (cell' : Cell) (hcell' : ¬ IsLane g cell') :
    (τ.write cell bits).storage cell' = none := by
  have hne : cell' ≠ cell := by
    rintro rfl
    exact hcell' hcell
  rw [EvalState.write]
  dsimp only
  rw [Function.update_of_ne hne, h.others cell' hcell']

theorem LaneRel.write (h : LaneRel g τ ρ) {storage : StorageId} {ty : TypeId} {addr : ℕ}
    {bits : List Bool} (hlen : bits.length = g.irTypes.bitWidth ty)
    (hty : isBlockType g.irTypes ty = false) :
    LaneRel g (τ.write (plainLane storage, ty, addr) bits)
      { ρ with st := ρ.st.write (storage, ty, addr) bits } where
  typed := storageFits_write h.typed hlen
  plain storage' ty' addr' hty' := by
    rw [cellBits_write, cellBits_write, h.plain storage' ty' addr' hty']
    simp only [Prod.mk.injEq, plainLane_injective.eq_iff]
  refs storage' addr' := by
    rw [cellBits_write, if_neg, h.refs]
    intro heq
    exact plainLane_ne_refLane _ _ (congrArg Prod.fst heq).symm
  others := h.others_write (.inl ⟨storage, rfl, hty⟩) bits
  actions := h.actions

theorem LaneRel.refer (h : LaneRel g τ ρ) {storage : StorageId} {addr k : ℕ}
    (hwidth : g.irTypes.bitWidth g.vecPcTypeId = g.pcWidth) :
    LaneRel g (τ.write (refLane storage, g.vecPcTypeId, addr) (pcBitsOf g.pcWidth k))
      (ρ.refer storage addr k) where
  typed := storageFits_write h.typed ((length_pcBitsOf _ _).trans hwidth.symm)
  plain storage' ty' addr' hty' := by
    rw [cellBits_write, if_neg, h.plain storage' ty' addr' hty']
    · rfl
    · intro heq
      exact plainLane_ne_refLane _ _ (congrArg Prod.fst heq)
  refs storage' addr' := by
    rw [cellBits_write, LaneState.refer, h.refs]
    dsimp only
    rw [Function.update_apply]
    by_cases hs : storage' = storage
    · subst hs
      rw [if_pos rfl, Function.update_apply]
      by_cases ha : addr' = addr
      · rw [if_pos (by rw [ha]), if_pos ha]
      · rw [if_neg (by simpa using ha), if_neg ha]
    · rw [if_neg, if_neg hs]
      intro heq
      exact hs (refLane_injective (congrArg Prod.fst heq))
  others := h.others_write (.inr ⟨storage, rfl, rfl⟩) _
  actions := h.actions

theorem LaneRel.rewrite (h : LaneRel g τ ρ) {cell : Cell} (hcell : IsLane g cell) :
    LaneRel g (τ.write cell (cellBits g.irTypes τ cell)) ρ := by
  have hsame : ∀ cell', cellBits g.irTypes (τ.write cell (cellBits g.irTypes τ cell)) cell' =
      cellBits g.irTypes τ cell' := by
    intro cell'
    rw [cellBits_write]
    split_ifs with heq
    · rw [heq]
    · rfl
  refine ⟨storageFits_write h.typed (length_cellBits h.typed cell), ?_, ?_,
    h.others_write hcell _, h.actions⟩
  · intro storage ty addr hty
    rw [hsame, h.plain storage ty addr hty]
  · intro storage addr
    rw [hsame, h.refs]

theorem LaneRel.act (h : LaneRel g τ ρ) (actions : List ActionRecord) :
    LaneRel g { τ with actions := actions } { ρ with st := { ρ.st with actions := actions } } :=
  ⟨h.typed, h.plain, h.refs, h.others, rfl⟩

theorem LaneRel.congr (h : LaneRel g τ ρ) {τ' : EvalState} {ρ' : LaneState}
    (hτ : τ'.storage = τ.storage ∧ τ'.actions = τ.actions)
    (hρ : ρ'.st.storage = ρ.st.storage ∧ ρ'.st.actions = ρ.st.actions ∧ ρ'.refs = ρ.refs) :
    LaneRel g τ' ρ' := by
  obtain ⟨hτs, hτa⟩ := hτ
  obtain ⟨hρs, hρa, hrefs⟩ := hρ
  constructor
  · unfold StorageFits
    rw [hτs]
    exact h.typed
  · intro storage ty addr hty
    have hplain := h.plain storage ty addr hty
    rwa [cellBits, cellBits, ← hτs, ← hρs] at hplain
  · intro storage addr
    have href := h.refs storage addr
    rwa [cellBits, ← hτs, ← hrefs] at href
  · rw [hτs]
    exact h.others
  · rw [hτa, hρa]
    exact h.actions

end

def isOrdinary : IRStmt → Bool
  | .storageRead .. | .storageWrite .. | .actionStore .. | .rng .. => false
  | _ => true

theorem evalStmt_of_ordinary (types : TypeTable) (world : Externals) {s : IRStmt}
    (h : isOrdinary s = true) {σ τ : EvalState} (hactions : τ.actions = σ.actions)
    (look : ℕ → Value) :
    (evalStmt types world τ look s).1 = (evalStmt types world σ look s).1 ∧
      (evalStmt types world τ look s).2 =
        { τ with actions := (evalStmt types world σ look s).2.actions } ∧
      (evalStmt types world σ look s).2 =
        { σ with actions := (evalStmt types world σ look s).2.actions } := by
  obtain ⟨storage, actions, next⟩ := σ
  obtain ⟨storage', actions', next'⟩ := τ
  dsimp only at hactions
  subst hactions
  cases s with
  | storageRead _ _ _ | storageWrite _ _ _ _ | actionStore _ _ _ _ _ _ | rng _ _ => cases h
  | _ => exact ⟨rfl, rfl, rfl⟩

theorem evalLane_of_ordinary {types : TypeTable} {world : Externals} {s : IRStmt}
    (h : isOrdinary s = true)
    (ρ : LaneState) (look : ℕ → Value) : evalLane types world ρ look s =
      ((evalStmt types world ρ.st look s).1,
        { ρ with st := (evalStmt types world ρ.st look s).2 }) := by
  cases s with
  | storageRead _ _ _ | storageWrite _ _ _ _ => cases h
  | _ => rfl

theorem outputType_of_varKind {s : IRStmt} {ty : TypeId} (h : s.varKind = .data ty) :
    s.outputType = some ty := by
  cases s <;> simp_all [IRStmt.varKind, IRStmt.outputType]

section
variable {types : TypeTable} {bound : ℕ} {kinds : List VarKind} {s : IRStmt}

theorem substVars_eq {g : ℕ → ℕ} (hs : StmtFits types bound kinds s) (h : StrictOn g s.operands) :
    substVars g s = s.mapVars g := by
  cases s with
  | poly ty coeffs c =>
      have hentries : (coeffs.entries.map fun e => ((e.1.map g).insertionSort (· ≤ ·), e.2)) =
          coeffs.entries.map fun e => (e.1.map g, e.2) := by
        apply List.map_congr_left
        intro e he
        have hsorted := hs.sorted ty coeffs c rfl e he
        have hmap : (e.1.map g).Pairwise (· ≤ ·) := by
          rw [List.pairwise_map]
          apply hsorted.imp_of_mem
          intro u v hu hv huv
          rcases huv.lt_or_eq with hlt | rfl
          · exact (h u (List.mem_flatMap.mpr ⟨e, he, hu⟩) v
              (List.mem_flatMap.mpr ⟨e, he, hv⟩) hlt).le
          · exact le_rfl
        rw [hmap.insertionSort_eq]
      simp only [substVars, IRStmt.mapVars, hentries]
  | _ => rfl

theorem PlainVar.lt {v : ℕ} (h : PlainVar types kinds v) : v < kinds.length := by
  obtain ⟨ty, hkind, -⟩ := h
  exact lt_of_kindAt_data hkind

theorem StmtFits.operand (hs : StmtFits types bound kinds s)
    (hwrite : ∀ storage src ty addr, s ≠ .storageWrite storage src ty addr) {v : ℕ}
    (hv : v ∈ s.operands) : v < kinds.length ∧ refParams types (kindAt kinds v) = none := by
  have hplain : v ∈ plainOperands s → v < kinds.length ∧
      refParams types (kindAt kinds v) = none := by
    intro h
    exact ⟨(hs.operands v h).lt, (hs.operands v h).refParams⟩
  cases s with
  | storageWrite storage src ty addr => exact absurd rfl (hwrite storage src ty addr)
  | oracleOutput call idx ty | actionOutput call idx ty =>
      obtain ⟨outputTys, hkind, -⟩ := hs.typed
      obtain rfl := List.mem_singleton.mp hv
      refine ⟨lt_of_kindAt hkind (by simp), ?_⟩
      rw [hkind]
      rfl
  | _ => exact hplain hv

end

def storageIds : IRStmt → List StorageId
  | .storageRead storage .. | .storageWrite storage .. => [storage]
  | _ => []

/-- Statements the copy treats as the block does: effects on the storage can be held back,
and renumbered ids fit in 32 bits. -/
structure Copyable (s : IRStmt) : Prop where
  store : ∀ name guard args fallbacks outputTys targets,
    s ≠ .actionStore name guard args fallbacks outputTys targets
  rng : ∀ name ty, s ≠ .rng name ty
  lanes : ∀ storage ∈ storageIds s, storage.id * 2 ≤ u32Max

theorem getD_append_length {varMap : List ℕ} {n : ℕ} (h : varMap.length = n) (v : ℕ) :
    (varMap ++ [v]).getD n 0 = v := by
  subst h
  simp

theorem getD_append_lt {varMap : List ℕ} {n u : ℕ} (h : varMap.length = n) (hu : u < n) (v : ℕ) :
    (varMap ++ [v]).getD u 0 = varMap.getD u 0 := by
  subst h
  simp [List.getD_eq_getElem?_getD, List.getElem?_append_left hu]

namespace IrCtx
variable {P : Type}

section
variable (world : Externals) (x : List (List Bool)) (σ : EvalState) (g : IrConfig P)

def HasBits (c : IrCtx P) : List ℕ → List Bool → Prop :=
  List.Forall₂ fun v b => HasSlot world x σ g c g.bitTypeId v [b]

def HasRef (c : IrCtx P) (bits : List ℕ) (k : ℕ) : Prop :=
  HasBits world x σ g c bits (pcBitsOf g.pcWidth k)

/-- The copy of a block so far: each var that stands for itself has the value of the var it
is mapped to, and each block reference is tracked with the bits of its id. -/
structure Copied (c : IrCtx P) (kinds : List VarKind) (varMap : List ℕ)
    (f : Ssa.Frame Value LaneState) : Prop where
  length : varMap.length = kinds.length
  tracks : Ssa.Tracks (fun v => refParams g.irTypes (kindAt kinds v) = none)
    (fun v => varMap.getD v 0) f.vals (frame world x σ g c).vals
  types : ∀ v ty, kindAt kinds v = .data ty → isBlockType g.irTypes ty = false →
    c.varTypes[varMap.getD v 0]? = some ty
  increasing : ∀ u v, u < v → v < kinds.length → refParams g.irTypes (kindAt kinds u) = none →
    refParams g.irTypes (kindAt kinds v) = none → varMap.getD u 0 < varMap.getD v 0
  untracked : ∀ v, refParams g.irTypes (kindAt kinds v) = none → c.blockVarToBits.get v = none
  refs : ∀ v < kinds.length, ∀ sig, refParams g.irTypes (kindAt kinds v) = some sig →
    ∃ bits k, c.blockVarToBits.get v = some (bits, sig) ∧
      (Ssa.look f.vals v).bits = refBits k ∧ k < 2 ^ g.pcWidth ∧ HasRef world x σ g c bits k

end

section
variable {world : Externals} {x : List (List Bool)} {σ : EvalState} {g : IrConfig P}
  {c d : IrCtx P} {kinds : List VarKind} {varMap : List ℕ} {f : Ssa.Frame Value LaneState}

theorem HasBits.mono {vars : List ℕ} {bits : List Bool} (h : HasBits world x σ g c vars bits)
    (hg : Grows c d) : HasBits world x σ g d vars bits := h.imp fun _ _ hv => HasSlot.mono hv hg

theorem HasRef.mono {bits : List ℕ} {k : ℕ} (h : HasRef world x σ g c bits k)
    (hg : Grows c d) : HasRef world x σ g d bits k := HasBits.mono h hg

theorem tracks_grows {live : ℕ → Prop} {m : ℕ → ℕ} {vals : List Value}
    (h : Ssa.Tracks live m vals (frame world x σ g c).vals) (hg : Grows c d) :
    Ssa.Tracks live m vals (frame world x σ g d).vals where
  lt v hv hl := (look_grows hg (h.lt v hv hl)).1
  look v hv hl := (look_grows hg (h.lt v hv hl)).2.trans (h.look v hv hl)

theorem Copied.mono (h : Copied world x σ g c kinds varMap f) (hg : Grows c d)
    (htracked : d.blockVarToBits = c.blockVarToBits) :
    Copied world x σ g d kinds varMap f where
  length := h.length
  tracks := tracks_grows h.tracks hg
  types v ty hkind hty := getElem?_of_prefix hg.varTypes (h.types v ty hkind hty)
  increasing := h.increasing
  untracked v hv := by rw [htracked, h.untracked v hv]
  refs v hv sig hsig := by
    obtain ⟨bits, k, hbits, hval, hk, href⟩ := h.refs v hv sig hsig
    exact ⟨bits, k, by rw [htracked, hbits], hval, hk, href.mono hg⟩

theorem Copied.untracked_snoc (h : Copied world x σ g c kinds varMap f) {k : VarKind} {v : ℕ}
    (hv : v ≠ kinds.length) (hnone : refParams g.irTypes (kindAt (kinds ++ [k]) v) = none) :
    c.blockVarToBits.get v = none := by
  apply h.untracked
  rcases Nat.lt_or_gt_of_ne hv with hlt | hgt
  · rwa [kindAt_append_left hlt] at hnone
  · rw [kindAt_of_le hgt.le]
    rfl

/-- One more var that stands for itself: it is new, and holds what the block's var holds. -/
theorem Copied.push (h : Copied world x σ g c kinds varMap f) (hlen : f.vals.length = kinds.length)
    {kind : VarKind} {v : ℕ} {val : Value} {ρ : LaneState}
    (hkind : refParams g.irTypes kind = none) (hv : Holds world x σ g c v val)
    (hty : ∀ ty, kind = .data ty → c.varTypes[v]? = some ty)
    (hlast : ∀ u < kinds.length, refParams g.irTypes (kindAt kinds u) = none →
      varMap.getD u 0 < v) :
    Copied world x σ g c (kinds ++ [kind]) (varMap ++ [v]) ⟨f.vals ++ [val], ρ⟩ where
  length := by simp [h.length]
  tracks := by
    constructor
    · intro u hu hl
      dsimp only at hu
      rw [List.length_append, List.length_singleton, hlen] at hu
      rcases kindAt_snoc_cases (k := kind) (by simpa using hu) with ⟨hlt, heq⟩ | ⟨rfl, -⟩
      · rw [getD_append_lt h.length hlt]
        exact h.tracks.lt u (hlen ▸ hlt) (heq ▸ hl)
      · rw [getD_append_length h.length]
        exact hv.lt
    · intro u hu hl
      dsimp only at hu ⊢
      rw [List.length_append, List.length_singleton, hlen] at hu
      rcases kindAt_snoc_cases (k := kind) (by simpa using hu) with ⟨hlt, heq⟩ | ⟨rfl, -⟩
      · rw [getD_append_lt h.length hlt, Ssa.look_append_left (hlen ▸ hlt)]
        exact h.tracks.look u (hlen ▸ hlt) (heq ▸ hl)
      · rw [getD_append_length h.length, ← hlen, Ssa.look_append_length]
        exact hv.look
  types u ty hu hblock := by
    rcases kindAt_snoc_cases (lt_of_kindAt_data hu) with ⟨hlt, heq⟩ | ⟨rfl, heq⟩
    · rw [getD_append_lt h.length hlt]
      exact h.types u ty (heq ▸ hu) hblock
    · rw [getD_append_length h.length]
      exact hty ty (heq.symm.trans hu)
  increasing u w huw hw hu hw' := by
    rcases kindAt_snoc_cases hw with ⟨hlt, heq⟩ | ⟨rfl, -⟩
    · rw [getD_append_lt h.length hlt, getD_append_lt h.length (huw.trans hlt)]
      rw [kindAt_append_left (huw.trans hlt)] at hu
      exact h.increasing u w huw hlt hu (heq ▸ hw')
    · rw [getD_append_length h.length, getD_append_lt h.length huw]
      rw [kindAt_append_left huw] at hu
      exact hlast u huw hu
  untracked u hu := by
    by_cases hsame : u = kinds.length
    · apply h.untracked
      rw [kindAt_of_le hsame.ge]
      rfl
    · exact h.untracked_snoc hsame hu
  refs u hu sig hsig := by
    rcases kindAt_snoc_cases hu with ⟨hlt, heq⟩ | ⟨rfl, heq⟩
    · obtain ⟨bits, k, hbits, hval, hk, href⟩ := h.refs u hlt sig (heq ▸ hsig)
      refine ⟨bits, k, hbits, ?_, hk, href⟩
      dsimp only
      rw [Ssa.look_append_left (hlen ▸ hlt), hval]
    · rw [heq, hkind] at hsig
      cases hsig

/-- One more var that is a block reference. -/
theorem Copied.pushRef (h : Copied world x σ g c kinds varMap f)
    (hlen : f.vals.length = kinds.length) {ty : TypeId} {sig : List TypeId} {bits : List ℕ}
    {k rep : ℕ} {val : Value} {ρ : LaneState} (hty : g.irTypes.blockParams ty = some sig)
    (hval : val.bits = refBits k) (hk : k < 2 ^ g.pcWidth) (href : HasRef world x σ g c bits k) :
    Copied world x σ g
      { c with blockVarToBits := c.blockVarToBits.upsert kinds.length fun _ => (bits, sig) }
      (kinds ++ [.data ty]) (varMap ++ [rep]) ⟨f.vals ++ [val], ρ⟩ where
  length := by simp [h.length]
  tracks := by
    have hlast : ∀ u, u < kinds.length + 1 →
        refParams g.irTypes (kindAt (kinds ++ [.data ty]) u) = none → u < kinds.length ∧
          kindAt (kinds ++ [.data ty]) u = kindAt kinds u := by
      intro u hu hnone
      rcases kindAt_snoc_cases (k := .data ty) (by simpa using hu) with hlt | ⟨rfl, heq⟩
      · exact hlt
      · rw [heq, refParams, hty] at hnone
        cases hnone
    constructor
    · intro u hu hl
      dsimp only at hu
      rw [List.length_append, List.length_singleton, hlen] at hu
      obtain ⟨hlt, heq⟩ := hlast u hu hl
      rw [getD_append_lt h.length hlt]
      exact h.tracks.lt u (hlen ▸ hlt) (heq ▸ hl)
    · intro u hu hl
      dsimp only at hu ⊢
      rw [List.length_append, List.length_singleton, hlen] at hu
      obtain ⟨hlt, heq⟩ := hlast u hu hl
      rw [getD_append_lt h.length hlt, Ssa.look_append_left (hlen ▸ hlt)]
      exact h.tracks.look u (hlen ▸ hlt) (heq ▸ hl)
  types u uty hu hblock := by
    rcases kindAt_snoc_cases (lt_of_kindAt_data hu) with ⟨hlt, heq⟩ | ⟨rfl, heq⟩
    · rw [getD_append_lt h.length hlt]
      exact h.types u uty (heq ▸ hu) hblock
    · obtain rfl : ty = uty := VarKind.data.inj (heq.symm.trans hu)
      rw [isBlockType, hty] at hblock
      cases hblock
  increasing u w huw hw hu hw' := by
    rcases kindAt_snoc_cases hw with ⟨hlt, heq⟩ | ⟨rfl, heq⟩
    · rw [getD_append_lt h.length hlt, getD_append_lt h.length (huw.trans hlt)]
      rw [kindAt_append_left (huw.trans hlt)] at hu
      exact h.increasing u w huw hlt hu (heq ▸ hw')
    · rw [heq, refParams, hty] at hw'
      cases hw'
  untracked u hu := by
    dsimp only
    rw [SortedMap.get_upsert]
    have hne : u ≠ kinds.length := by
      rintro rfl
      rw [kindAt_append_length, refParams, hty] at hu
      cases hu
    rw [if_neg hne]
    exact h.untracked_snoc hne hu
  refs u hu usig husig := by
    dsimp only
    rw [SortedMap.get_upsert]
    rcases kindAt_snoc_cases hu with ⟨hlt, heq⟩ | ⟨rfl, heq⟩
    · obtain ⟨bits', k', hbits, hval', hk', href'⟩ := h.refs u hlt usig (heq ▸ husig)
      rw [if_neg hlt.ne, Ssa.look_append_left (hlen ▸ hlt)]
      exact ⟨bits', k', hbits, hval', hk', href'.mono ⟨List.prefix_refl _, List.prefix_refl _⟩⟩
    · rw [heq, refParams, hty, Option.some.injEq] at husig
      subst husig
      rw [if_pos rfl, ← hlen, Ssa.look_append_length]
      exact ⟨bits, k, rfl, hval, hk, href.mono ⟨List.prefix_refl _, List.prefix_refl _⟩⟩

theorem Copied.hasSlot (h : Copied world x σ g c kinds varMap f)
    (hf : FrameFits g.irTypes kinds ⟨f.vals, f.st.st⟩) {v : ℕ} {ty : TypeId}
    (hkind : kindAt kinds v = .data ty) (hty : BinaryType g.irTypes ty) :
    HasSlot world x σ g c ty (varMap.getD v 0) (Ssa.look f.vals v).bits := by
  have hlt : v < kinds.length := lt_of_kindAt_data hkind
  have hvals : v < f.vals.length := hf.length.symm ▸ hlt
  have hlive : refParams g.irTypes (kindAt kinds v) = none := by
    rw [hkind]
    exact blockParams_eq_none (isBlockType_of_binary hty)
  have hvar := hf.var v hlt
  rw [hkind] at hvar
  have hlook := h.tracks.look v hvals hlive
  refine ⟨hty, h.tracks.lt v hvals hlive, ?_, h.types v ty hkind (isBlockType_of_binary hty)⟩
  rw [hlook]
  exact ⟨hvar.1, rfl, hvar.2⟩

theorem Copied.holds (h : Copied world x σ g c kinds varMap f)
    (hlen : f.vals.length = kinds.length) {v : ℕ} (hv : PlainVar g.irTypes kinds v) :
    Holds world x σ g c (varMap.getD v 0) (Ssa.look f.vals v) where
  lt := h.tracks.lt v (hlen ▸ hv.lt) hv.refParams
  look := h.tracks.look v (hlen ▸ hv.lt) hv.refParams

theorem Copied.lt_nextId (h : Copied world x σ g c kinds varMap f) (hg : Setup g x)
    (hc : c.Ok g) (hlen : f.vals.length = kinds.length) {v : ℕ} (hv : v < kinds.length)
    (hlive : refParams g.irTypes (kindAt kinds v) = none) : varMap.getD v 0 < c.nextId := by
  rw [← frame_length world σ hg hc]
  exact h.tracks.lt v (hlen ▸ hv) hlive

end

section
variable (world : Externals) (x : List (List Bool)) (σ : EvalState) (g : IrConfig P)

/-- A var has been defined after `c`, and nothing else is tracked. -/
structure Placed (c : IrCtx P) (v : ℕ) (val : Value) (d : IrCtx P) : Prop where
  ok : d.Ok g
  grows : Grows c d
  tracked : d.blockVarToBits = c.blockVarToBits
  holds : Holds world x σ g d v val
  new : c.nextId ≤ v

/-- The vars of `kinds` have been copied since `c₀`, and the storages agree. -/
structure Copying (c₀ : IrCtx P) (kinds : List VarKind) (f : Ssa.Frame Value LaneState)
    (varMap : List ℕ) (c : IrCtx P) : Prop where
  ok : c.Ok g
  grows : Grows c₀ c
  copied : Copied world x σ g c kinds varMap f
  rel : LaneRel g (frame world x σ g c).st f.st

end

section
variable {world : Externals} {x : List (List Bool)} {σ : EvalState} {g : IrConfig P}
  {c c₀ d : IrCtx P} {kinds : List VarKind} {varMap : List ℕ} {f : Ssa.Frame Value LaneState}
  {y : Bool} {isActive : ℕ}

theorem grows_nextId (h : Grows c d) (hc : c.Ok g) (hd : d.Ok g) : c.nextId ≤ d.nextId := by
  rw [hc.nextId, hd.nextId]
  exact Nat.add_le_add_left h.kinds.length_le _

theorem Quiet.nextId (h : Quiet world x σ g c d) (hc : c.Ok g) : c.nextId ≤ d.nextId :=
  grows_nextId h.grows hc h.ok

variable (world σ) in
/-- A single statement of the copy. -/
theorem pushPlaced_ensures (hg : Setup g x) (hc : c.Ok g) (s : IRStmt) (ty : TypeId) :
    Ensures (pushTyped s ty) c fun v d =>
      Placed world x σ g c v (evalStmt g.irTypes world (frame world x σ g c).st
        (Ssa.look (frame world x σ g c).vals) s).1 d ∧
      d.varTypes[v]? = some ty ∧
      (frame world x σ g d).st = (evalStmt g.irTypes world (frame world x σ g c).st
        (Ssa.look (frame world x σ g c).vals) s).2 := by
  apply (pushTyped_ensures s ty).mono
  rintro v d ⟨rfl, rfl⟩
  refine ⟨⟨hc.pushed s ty, grows_pushed c s ty, rfl, holds_pushed world σ hg hc s ty, le_rfl⟩,
    varTypes_pushed hc s ty, ?_⟩
  rw [frame_pushed]
  rfl

/-- A write that is held back writes what is there. -/
theorem emitGatedWrite_ensures (hg : Setup g x) (hc : c.Ok g) {src addr : ℕ}
    {storage : StorageId} {ty : TypeId} {bits : List Bool} {addrVal : Value}
    (htyped : StorageFits g.irTypes (frame world x σ g c).st)
    (hactive : HasBit world x σ g c isActive y) (hsrc : HasSlot world x σ g c ty src bits)
    (haddr : Holds world x σ g c addr addrVal) :
    Ensures (emitGatedWrite isActive storage src ty addr) c fun v d =>
      Placed world x σ g c v ⟨[], none, []⟩ d ∧
      (frame world x σ g d).st = (frame world x σ g c).st.write
        (storage, ty, bitsToU64 addrVal.bits)
        (if y then bits else
          cellBits g.irTypes (frame world x σ g c).st (storage, ty, bitsToU64 addrVal.bits)) := by
  have hlaw := reading_lawful world σ hg
  unfold emitGatedWrite
  have hread : Ensures (pushTyped (.storageRead storage ty addr) ty) c fun v d =>
      Quiet world x σ g c d ∧ HasSlot world x σ g d ty v
        (cellBits g.irTypes (frame world x σ g c).st (storage, ty, bitsToU64 addrVal.bits)) := by
    apply pushSlot_ensures hg hc hsrc.binary (length_cellBits htyped _)
    simp only [evalStmt, evalKind, haddr.look, cellBits, IRStmt.outputType]
  apply hread.bind
  intro current d hnew
  rcases hnew with ⟨hqd, hcurrent⟩
  apply (hlaw.selectSlot hqd.ok (hactive.mono hqd.grows) (hsrc.mono hqd.grows) hcurrent).bind
  intro gated e hselect
  rcases hselect with ⟨hqe, hgated⟩
  have hq := hqd.trans hqe
  apply getConfig_bind hq.ok
  apply (pushPlaced_ensures world σ hg hq.ok _ g.bitTypeId).mono
  intro v i hpush
  rcases hpush with ⟨hplaced, _, hst⟩
  have hlen : (if y then bits else cellBits g.irTypes (frame world x σ g c).st
      (storage, ty, bitsToU64 addrVal.bits)).length = g.irTypes.bitWidth ty := by
    rw [← hgated.value.length]
  constructor
  · exact ⟨hplaced.ok, hq.grows.trans hplaced.grows, hplaced.tracked.trans hq.tracked,
      hplaced.holds, (hq.nextId hc).trans hplaced.new⟩
  · rw [hst, hq.st]
    simp only [evalStmt, evalKind, hgated.value.bits, (haddr.mono hq.grows).look, fit_self hlen]

theorem storageLane_plain {storage : StorageId} (h : storage.id * 2 ≤ u32Max) :
    storageLane storage false = some (plainLane storage) := by
  rw [storageLane, if_pos h]
  rfl

theorem storageLane_ref {storage : StorageId} (h : storage.id * 2 ≤ u32Max) :
    storageLane storage true = some (refLane storage) := by
  rw [storageLane, if_pos h]
  rfl

theorem Copying.place {kind : VarKind} {v : ℕ} {val : Value} {ρ : LaneState}
    (h : Copying world x σ g c₀ kinds f varMap c) (hg : Setup g x)
    (hlen : f.vals.length = kinds.length) (hv : Placed world x σ g c v val d)
    (hkind : refParams g.irTypes kind = none)
    (hty : ∀ ty, kind = .data ty → d.varTypes[v]? = some ty)
    (hrel : LaneRel g (frame world x σ g d).st ρ) :
    Copying world x σ g c₀ (kinds ++ [kind]) ⟨f.vals ++ [val], ρ⟩ (varMap ++ [v]) d where
  ok := hv.ok
  grows := h.grows.trans hv.grows
  copied := by
    apply (h.copied.mono hv.grows hv.tracked).push hlen hkind hv.holds hty
    intro u hu hlive
    exact (h.copied.lt_nextId hg h.ok hlen hu hlive).trans_le hv.new
  rel := hrel

section
variable {s : IRStmt} {bound : ℕ}

theorem Copied.strictOn (h : Copied world x σ g c kinds varMap f)
    (hs : StmtFits g.irTypes bound kinds s)
    (hwrite : ∀ storage src ty addr, s ≠ .storageWrite storage src ty addr) :
    StrictOn (fun v => varMap.getD v 0) s.operands := by
  intro u hu v hv huv
  have hul := hs.operand hwrite hu
  have hvl := hs.operand hwrite hv
  exact h.increasing u v huv hvl.1 hul.2 hvl.2

theorem Copied.substIr (h : Copied world x σ g c kinds varMap f)
    (hs : StmtFits g.irTypes bound kinds s) :
    substIr s varMap = some (s.mapVars fun v => varMap.getD v 0) := by
  rw [Movfuscate.substIr]
  by_cases hwrite : ∃ storage src ty addr, s = .storageWrite storage src ty addr
  · obtain ⟨storage, src, ty, addr, rfl⟩ := hwrite
    have hsrc : src < kinds.length := lt_of_kindAt_data (hs.stored storage src ty addr rfl)
    have haddr := (hs.operands addr (List.mem_singleton_self addr)).lt
    rw [if_pos]
    · rfl
    · intro v hv
      rw [h.length]
      rcases List.mem_pair.mp hv with rfl | rfl
      · exact hsrc
      · exact haddr
  · push Not at hwrite
    rw [if_pos, substVars_eq hs (h.strictOn hs hwrite)]
    intro v hv
    rw [h.length]
    exact (hs.operand hwrite hv).1

/-- A copied statement computes over the copies what it computes over the block's vars. -/
theorem Copied.eval (h : Copied world x σ g c kinds varMap f)
    (hlen : f.vals.length = kinds.length) (hs : StmtFits g.irTypes bound kinds s)
    (hwrite : ∀ storage src ty addr, s ≠ .storageWrite storage src ty addr) (τ : EvalState) :
    evalStmt g.irTypes world τ (Ssa.look (frame world x σ g c).vals)
        (s.mapVars fun v => varMap.getD v 0) =
      evalStmt g.irTypes world τ (Ssa.look f.vals) s := by
  rw [evalStmt_mapVars _ _ _ _ (h.strictOn hs hwrite)]
  apply (language g.irTypes world).eval_congr s τ
  intro v hv
  have hv := hs.operand hwrite hv
  exact h.tracks.look v (hlen ▸ hv.1) hv.2

/-- A statement that is copied as it is. -/
theorem ordinary_ensures (hg : Setup g x) (h : Copying world x σ g c₀ kinds f varMap c)
    (hlen : f.vals.length = kinds.length) (hs : StmtFits g.irTypes bound kinds s)
    (hord : isOrdinary s = true) (hkind : refParams g.irTypes s.varKind = none)
    (hsilent : y = false → (evalLane g.irTypes world f.st (Ssa.look f.vals) s).2.st.actions =
      f.st.st.actions) :
    Ensures (do
      let id ← pushTyped (s.mapVars fun v => varMap.getD v 0)
        (inferStmtResultType g.bitTypeId (s.mapVars fun v => varMap.getD v 0))
      pure (varMap ++ [id])) c
      (Copying world x σ g c₀ (kinds ++ [s.varKind])
        ((laneLanguage g.irTypes world y).step f s)) := by
  have hwrite : ∀ storage src ty addr, s ≠ .storageWrite storage src ty addr := by
    rintro storage src ty addr rfl
    cases hord
  have heval := evalStmt_of_ordinary g.irTypes world hord h.rel.actions
    (Ssa.look f.vals)
  rw [evalLane_of_ordinary hord] at hsilent
  apply (pushPlaced_ensures world σ hg h.ok _ _).bind
  intro v d ⟨hplaced, hty, hst⟩
  rw [h.copied.eval hlen hs hwrite] at hplaced hst
  rw [ensures_pure]
  rw [heval.1] at hplaced
  have hstep : (laneLanguage g.irTypes world y).step f s =
      ⟨f.vals ++ [(evalStmt g.irTypes world f.st.st (Ssa.look f.vals) s).1],
        if y then { f.st with st := (evalStmt g.irTypes world f.st.st (Ssa.look f.vals) s).2 }
        else f.st⟩ := by
    simp only [Ssa.Language.step, laneLanguage, evalLane_of_ordinary hord]
  rw [hstep]
  apply h.place hg hlen hplaced hkind
  · intro ty hkindTy
    rw [hty, inferStmtResultType, IRStmt.outputType_mapVars, outputType_of_varKind hkindTy]
    rfl
  · rw [hst, heval.2.1]
    cases y with
    | true =>
        rw [if_pos rfl, heval.2.2]
        exact h.rel.act _
    | false =>
        rw [if_neg Bool.false_ne_true, hsilent rfl, ← h.rel.actions]
        exact h.rel

/-- A storage read of anything but a block reference. -/
theorem plainRead_ensures (hg : Setup g x) (h : Copying world x σ g c₀ kinds f varMap c)
    (hlen : f.vals.length = kinds.length) {storage : StorageId} {ty : TypeId} {addr : ℕ}
    (haddr : PlainVar g.irTypes kinds addr) (hty : isBlockType g.irTypes ty = false) :
    Ensures (do
      let id ← pushTyped (.storageRead (plainLane storage) ty (varMap.getD addr 0)) ty
      pure (varMap ++ [id])) c
      (Copying world x σ g c₀ (kinds ++ [.data ty])
        ((laneLanguage g.irTypes world y).step f (.storageRead storage ty addr))) := by
  have hlook := (h.copied.holds hlen haddr).look
  apply (pushPlaced_ensures world σ hg h.ok _ _).bind
  intro v d ⟨hplaced, htype, hst⟩
  rw [ensures_pure]
  have hcell := h.rel.plain storage ty (bitsToU64 (Ssa.look f.vals addr).bits) hty
  have hval : (evalStmt g.irTypes world (frame world x σ g c).st
      (Ssa.look (frame world x σ g c).vals)
        (.storageRead (plainLane storage) ty (varMap.getD addr 0))).1 =
      (evalStmt g.irTypes world f.st.st (Ssa.look f.vals) (.storageRead storage ty addr)).1 := by
    simp only [evalStmt, evalKind, hlook, IRStmt.outputType]
    rw [cellBits, cellBits] at hcell
    rw [hcell]
  have hstep : (laneLanguage g.irTypes world y).step f (.storageRead storage ty addr) =
      ⟨f.vals ++ [(evalStmt g.irTypes world f.st.st (Ssa.look f.vals)
        (.storageRead storage ty addr)).1], f.st⟩ := by
    simp [Ssa.Language.step, laneLanguage, evalLane, hty]
  rw [hval] at hplaced
  have hkind : refParams g.irTypes (.data ty) = none := blockParams_eq_none hty
  rw [hstep]
  apply h.place hg hlen hplaced hkind
  · intro ty' hty'
    rw [htype, VarKind.data.inj hty']
  · rw [hst]
    exact h.rel

/-- A storage write of anything but a block reference. -/
theorem plainWrite_ensures (hg : Setup g x) (h : Copying world x σ g c₀ kinds f varMap c)
    (hfits : FrameFits g.irTypes kinds ⟨f.vals, f.st.st⟩)
        (hactive : HasBit world x σ g c isActive y)
    {storage : StorageId} {src addr : ℕ} {ty : TypeId} (haddr : PlainVar g.irTypes kinds addr)
    (hsrc : kindAt kinds src = .data ty) (hty : BinaryType g.irTypes ty) :
    Ensures (do
      let id ← emitGatedWrite isActive (plainLane storage) (varMap.getD src 0) ty
        (varMap.getD addr 0)
      pure (varMap ++ [id])) c
      (Copying world x σ g c₀ (kinds ++ [.none])
        ((laneLanguage g.irTypes world y).step f (.storageWrite storage src ty addr))) := by
  have hlen : f.vals.length = kinds.length := hfits.length
  have hslot := h.copied.hasSlot hfits hsrc hty
  apply (emitGatedWrite_ensures hg h.ok h.rel.typed hactive hslot
    (h.copied.holds hlen haddr)).bind
  intro v d hwrite
  rcases hwrite with ⟨hplaced, hst⟩
  rw [ensures_pure]
  have hwidth := hslot.value.length
  have hstep : (laneLanguage g.irTypes world y).step f (.storageWrite storage src ty addr) =
      ⟨f.vals ++ [⟨[], none, []⟩], if y then { f.st with
        st := f.st.st.write (storage, ty, bitsToU64 (Ssa.look f.vals addr).bits)
          (Ssa.look f.vals src).bits } else f.st⟩ := by
    simp [Ssa.Language.step, laneLanguage, evalLane, isBlockType_of_binary hty, evalStmt, evalKind,
      fit_self hwidth, IRStmt.outputType]
  have hnone : ∀ ty, VarKind.none = .data ty → d.varTypes[v]? = some ty := by simp
  rw [hstep]
  apply h.place hg hlen hplaced rfl hnone
  rw [hst]
  cases y with
  | true => exact h.rel.write hwidth (isBlockType_of_binary hty)
  | false => exact h.rel.rewrite (.inl ⟨storage, rfl, isBlockType_of_binary hty⟩)

/-- The new var is a block reference. -/
theorem pushBlockVar_ensures (hg : Setup g x) (h : Copying world x σ g c₀ kinds f varMap c)
    (hlen : f.vals.length = kinds.length) {ty : TypeId} {sig : List TypeId} {bits : List ℕ}
    {k : ℕ} {val : Value} (hty : g.irTypes.blockParams ty = some sig)
    (hval : val.bits = refBits k) (hk : k < 2 ^ g.pcWidth) (href : HasRef world x σ g c bits k) :
    Ensures (pushBlockVar varMap bits sig) c
      (Copying world x σ g c₀ (kinds ++ [.data ty]) ⟨f.vals ++ [val], f.st⟩) := by
  have htrack : ∀ {rep : ℕ} {d : IrCtx P}, Quiet world x σ g c d →
      Ensures (do
        trackBlock varMap.length bits sig
        pure (varMap ++ [rep])) d
        (Copying world x σ g c₀ (kinds ++ [.data ty]) ⟨f.vals ++ [val], f.st⟩) := by
    intro rep d hq
    apply modify_bind
    rw [ensures_pure, h.copied.length]
    refine ⟨⟨hq.ok.config, hq.ok.nextId, hq.ok.varTypes⟩,
      h.grows.trans ⟨hq.grows.kinds, hq.grows.varTypes⟩,
          (h.copied.mono hq.grows hq.tracked).pushRef hlen hty hval hk (href.mono hq.grows), ?_⟩
    have hst : LaneRel g (frame world x σ g d).st f.st := by
      rw [hq.st]
      exact h.rel
    exact hst
  unfold pushBlockVar
  cases bits with
  | nil =>
      apply (emitConstBit_ensures world σ hg h.ok 0).bind
      intro rep d ⟨hq, _⟩
      exact htrack hq
  | cons bit bits => exact htrack (Quiet.refl h.ok)

variable (world σ) in
theorem encodeRef_ensures (hg : Setup g x) (hc : c.Ok g) (k n : ℕ) :
    Ensures (encodePcBits k n) c fun vs d =>
      Quiet world x σ g c d ∧ HasBits world x σ g d vs (pcBitsOf n k) := by
  apply ensures_mapM_range fun n vs d =>
    Quiet world x σ g c d ∧ HasBits world x σ g d vs (pcBitsOf n k)
  · exact ⟨Quiet.refl hc, .nil⟩
  · intro j _ vs d ⟨hq, hvs⟩
    have hbit : Ensures (if k.testBit j then emitOneBit else emitZeroBit : Emit (IrCtx P) ℕ) d
        fun v e => Quiet world x σ g d e ∧ HasSlot world x σ g e g.bitTypeId v [k.testBit j] := by
      split
      · next hj =>
          rw [hj]
          exact constBitSlot_ensures world σ hg hq.ok 1
      · next hj =>
          rw [Bool.eq_false_iff.mpr hj]
          exact constBitSlot_ensures world σ hg hq.ok 0
    apply hbit.mono
    intro v e ⟨hqe, hv⟩
    refine ⟨hq.trans hqe, ?_⟩
    rw [pcBitsOf, List.range_succ, List.map_append]
    exact List.rel_append (hvs.mono hqe.grows) (.cons hv .nil)

/-- A literal block reference. -/
theorem constRef_ensures (hg : Setup g x) (h : Copying world x σ g c₀ kinds f varMap c)
    (hlen : f.vals.length = kinds.length) {cnst : Constant} {ty : TypeId} {sig : List TypeId}
    (hty : g.irTypes.blockParams ty = some sig) (hk : cnst.lo.toNat < 2 ^ g.pcWidth) :
    Ensures (do
      let bits ← encodePcBits (cnst.lo.setWidth 64).toNat g.pcWidth
      pushBlockVar varMap bits sig) c
      (Copying world x σ g c₀ (kinds ++ [.data ty])
        ((laneLanguage g.irTypes world y).step f (.const cnst ty))) := by
  have hblock : isBlockType g.irTypes ty := by rw [isBlockType, hty]; rfl
  have hsame : (cnst.lo.setWidth 64).toNat = cnst.lo.toNat := by
    have hsmall : 2 ^ g.pcWidth ≤ 2 ^ 32 := Nat.pow_le_pow_right (by decide) hg.small
    rw [BitVec.toNat_setWidth]
    exact Nat.mod_eq_of_lt (by omega)
  rw [hsame]
  apply (encodeRef_ensures world σ hg h.ok cnst.lo.toNat g.pcWidth).bind
  intro bits d hencode
  rcases hencode with ⟨hq, hbits⟩
  have hstep : (laneLanguage g.irTypes world y).step f (.const cnst ty) =
      ⟨f.vals ++ [⟨refBits cnst.lo.toNat, some ty, []⟩], f.st⟩ := by
    simp [Ssa.Language.step, laneLanguage, evalLane, evalStmt, evalKind, IRStmt.outputType,
      bitWidth_of_isBlockType hblock, constBits_ref]
  rw [hstep]
  have hd : Copying world x σ g c₀ kinds f varMap d := by
    refine ⟨hq.ok, h.grows.trans hq.grows, h.copied.mono hq.grows hq.tracked, ?_⟩
    rw [hq.st]
    exact h.rel
  exact pushBlockVar_ensures hg hd hlen hty rfl hk hbits

theorem shuffleBit_ensures (hg : Setup g x) (hc : c.Ok g) {ty : TypeId} {v j : ℕ}
    {bits : List Bool} (hv : HasSlot world x σ g c ty v bits) (hj : j < 256) :
    Ensures (emitShuffleBit v (BitVec.ofNat 8 j)) c fun u d =>
      Quiet world x σ g c d ∧ HasSlot world x σ g d g.bitTypeId u [bits.getD j false] := by
  apply getConfig_bind hc
  have hlen : [bits.getD j false].length = g.irTypes.bitWidth g.bitTypeId :=
    (bitWidth_of_isBit hg.bit).symm
  apply pushSlot_ensures hg hc (.of_isBit hg.bit) hlen
  have hj' : (BitVec.ofNat 8 j).toNat = j := by
    rw [BitVec.toNat_ofNat]
    exact Nat.mod_eq_of_lt hj
  simp only [evalStmt, evalKind, IRStmt.outputType, List.map_cons, List.map_nil, hj',
    bitWidth_of_isBit hg.bit, hv.value.bits]
  rfl

/-- A storage read of a block reference. -/
theorem refRead_ensures (hg : Setup g x) (h : Copying world x σ g c₀ kinds f varMap c)
    (hlen : f.vals.length = kinds.length) {storage : StorageId} {ty : TypeId} {sig : List TypeId}
    {addr : ℕ} (haddr : PlainVar g.irTypes kinds addr) (hid : storage.id * 2 ≤ u32Max)
    (hty : g.irTypes.blockParams ty = some sig)
    (hcells : ∀ storage addr, f.st.refs storage addr < 2 ^ g.pcWidth) :
    Ensures (emitBlockRead varMap storage sig (varMap.getD addr 0)) c
      (Copying world x σ g c₀ (kinds ++ [.data ty])
        ((laneLanguage g.irTypes world y).step f (.storageRead storage ty addr))) := by
  have hblock : isBlockType g.irTypes ty := by rw [isBlockType, hty]; rfl
  have hlook := (h.copied.holds hlen haddr).look
  unfold emitBlockRead
  apply getConfig_bind h.ok
  rw [storageLane_ref hid, orPanic_some, pure_bind]
  let k := f.st.refs storage (bitsToU64 (Ssa.look f.vals addr).bits)
  have hread : Ensures (pushTyped (.storageRead (refLane storage) g.vecPcTypeId
      (varMap.getD addr 0)) g.vecPcTypeId) c fun v d =>
        Quiet world x σ g c d ∧ HasSlot world x σ g d g.vecPcTypeId v (pcBitsOf g.pcWidth k) := by
    have hcell := h.rel.refs storage (bitsToU64 (Ssa.look f.vals addr).bits)
    apply pushSlot_ensures hg h.ok hg.ref ((length_pcBitsOf _ _).trans hg.refWidth.symm)
    simp only [evalStmt, evalKind, hlook, IRStmt.outputType]
    rw [cellBits] at hcell
    rw [hcell]
  apply hread.bind
  intro merged d hnew
  rcases hnew with ⟨hqd, hmerged⟩
  have hbits : Ensures ((List.range g.pcWidth).mapM fun j =>
      emitShuffleBit merged (BitVec.ofNat 8 j)) d fun bits e =>
        Quiet world x σ g d e ∧ HasRef world x σ g e bits k := by
    apply ensures_mapM_range fun n vs e => Quiet world x σ g d e ∧
      HasBits world x σ g e vs (pcBitsOf n k)
    · exact ⟨Quiet.refl hqd.ok, .nil⟩
    · intro j hj vs e hdone
      rcases hdone with ⟨hqe, hvs⟩
      have hsmall := hg.small
      apply (shuffleBit_ensures hg hqe.ok (hmerged.mono hqe.grows)
        (show j < 256 by omega)).mono
      intro v i hbit
      rcases hbit with ⟨hqi, hv⟩
      have hbit : (pcBitsOf g.pcWidth k).getD j false = k.testBit j := by
        simp [pcBitsOf, hj]
      rw [hbit] at hv
      refine ⟨hqe.trans hqi, ?_⟩
      rw [pcBitsOf, List.range_succ, List.map_append]
      exact List.rel_append (hvs.mono hqi.grows) (.cons hv .nil)
  apply hbits.bind
  intro bits e hsplit
  rcases hsplit with ⟨hqe, href⟩
  have hq := hqd.trans hqe
  have hstep : (laneLanguage g.irTypes world y).step f (.storageRead storage ty addr) =
      ⟨f.vals ++ [⟨refBits k, some ty, []⟩], f.st⟩ := by
    simp [Ssa.Language.step, laneLanguage, evalLane, hblock, k]
  rw [hstep]
  have he : Copying world x σ g c₀ kinds f varMap e := by
    refine ⟨hq.ok, h.grows.trans hq.grows, h.copied.mono hq.grows hq.tracked, ?_⟩
    rw [hq.st]
    exact h.rel
  exact pushBlockVar_ensures hg he hlen hty rfl (hcells _ _) href

theorem flatBits_of_bits {vars : List ℕ} {bits : List Bool}
    (h : HasBits world x σ g c vars bits) :
    flatBits (vars.map (Ssa.look (frame world x σ g c).vals)) = bits := by
  rw [flatBits, List.flatMap_map]
  unfold HasBits at h
  induction h with
  | nil => rfl
  | cons hb _ ih => rw [List.flatMap_cons, ih, hb.value.bits, List.singleton_append]

theorem mergeRef_ensures (hg : Setup g x) (hc : c.Ok g) {bits : List ℕ} {k : ℕ}
    (href : HasRef world x σ g c bits k) :
    Ensures (pushTyped (.merge bits g.vecPcTypeId) g.vecPcTypeId) c fun v d =>
      Quiet world x σ g c d ∧ HasSlot world x σ g d g.vecPcTypeId v (pcBitsOf g.pcWidth k) := by
  have hlen : (pcBitsOf g.pcWidth k).length = g.irTypes.bitWidth g.vecPcTypeId :=
    (length_pcBitsOf _ _).trans hg.refWidth.symm
  apply pushSlot_ensures hg hc hg.ref hlen
  simp only [evalStmt, evalKind, IRStmt.outputType, flatBits_of_bits href, fit_self hlen]

/-- A storage write of a block reference. -/
theorem refWrite_ensures (hg : Setup g x) (h : Copying world x σ g c₀ kinds f varMap c)
    (hlen : f.vals.length = kinds.length) (hactive : HasBit world x σ g c isActive y)
    {storage : StorageId} {src addr : ℕ} {ty : TypeId} (haddr : PlainVar g.irTypes kinds addr)
    (hid : storage.id * 2 ≤ u32Max) (hsrc : kindAt kinds src = .data ty)
    (hty : isBlockType g.irTypes ty) :
    Ensures (do
      let id ← emitStorageWrite isActive src storage (varMap.getD src 0) ty (varMap.getD addr 0)
      pure (varMap ++ [id])) c
      (Copying world x σ g c₀ (kinds ++ [.none])
        ((laneLanguage g.irTypes world y).step f (.storageWrite storage src ty addr))) := by
  obtain ⟨sig, hsig⟩ := Option.isSome_iff_exists.mp hty
  have hsrcSig : refParams g.irTypes (kindAt kinds src) = some sig := by
    rw [hsrc]
    exact hsig
  obtain ⟨bits, k, hbits, hval, hk, href⟩ :=
    h.copied.refs src (lt_of_kindAt_data hsrc) sig hsrcSig
  unfold emitStorageWrite
  rw [bind_assoc]
  apply get_bind
  rw [hbits]
  dsimp only
  rw [bind_assoc]
  apply getConfig_bind h.ok
  rw [bind_assoc]
  apply (mergeRef_ensures hg h.ok href).bind
  intro merged d hmerge
  rcases hmerge with ⟨hq, hmerged⟩
  rw [storageLane_ref hid, orPanic_some, pure_bind]
  have hd : Copying world x σ g c₀ kinds f varMap d := by
    refine ⟨hq.ok, h.grows.trans hq.grows, h.copied.mono hq.grows hq.tracked, ?_⟩
    rw [hq.st]
    exact h.rel
  apply (emitGatedWrite_ensures hg hd.ok hd.rel.typed (hactive.mono hq.grows) hmerged
    (hd.copied.holds hlen haddr)).bind
  intro v e hwrite
  rcases hwrite with ⟨hplaced, hst⟩
  rw [ensures_pure]
  have hk32 : k < 2 ^ 32 := hk.trans_le (Nat.pow_le_pow_right (by decide) hg.small)
  have hstep : (laneLanguage g.irTypes world y).step f (.storageWrite storage src ty addr) =
      ⟨f.vals ++ [⟨[], none, []⟩],
        if y then f.st.refer storage (bitsToU64 (Ssa.look f.vals addr).bits) k else f.st⟩ := by
    simp [Ssa.Language.step, laneLanguage, evalLane, hty, hval, bitsToU64_refBits hk32]
  have hnone : ∀ ty, VarKind.none = .data ty → e.varTypes[v]? = some ty := by simp
  rw [hstep]
  apply hd.place hg hlen hplaced rfl hnone
  rw [hst]
  cases y with
  | true => exact hd.rel.refer hg.refWidth
  | false => exact hd.rel.rewrite (.inr ⟨storage, rfl, rfl⟩)

/-- A copied statement does to the copy what the lane semantics does to the block. -/
theorem emitStmt_ensures (hg : Setup g x) (h : Copying world x σ g c₀ kinds f varMap c)
    (hfits : LaneFits g.irTypes (2 ^ g.pcWidth) kinds f) (hactive : HasBit world x σ g c isActive y)
    {stmt : Node IRStmt P} (hs : StmtFits g.irTypes (2 ^ g.pcWidth) kinds stmt.kind)
    (hcopy : Copyable stmt.kind)
    (hsilent : y = false →
        (evalLane g.irTypes world f.st (Ssa.look f.vals) stmt.kind).2.st.actions =
      f.st.st.actions) :
    Ensures (emitStmt isActive varMap stmt) c
      (Copying world x σ g c₀ (kinds ++ [stmt.kind.varKind])
        ((laneLanguage g.irTypes world y).step f stmt.kind)) := by
  have hlen : f.vals.length = kinds.length := hfits.frame.length
  unfold emitStmt
  apply modify_bind
  have h' : Copying world x σ g c₀ kinds f varMap { c with pendingProv := stmt.prov } :=
    ⟨⟨h.ok.config, h.ok.nextId, h.ok.varTypes⟩,
        h.grows.trans ⟨List.prefix_refl _, List.prefix_refl _⟩,
      h.copied.mono ⟨List.prefix_refl _, List.prefix_refl _⟩ rfl, h.rel⟩
  have hactive' : HasBit world x σ g { c with pendingProv := stmt.prov } isActive y :=
    hactive.mono ⟨List.prefix_refl _, List.prefix_refl _⟩
  rw [h'.copied.substIr hs, orPanic_some, pure_bind]
  apply getConfig_bind h'.ok
  generalize { c with pendingProv := stmt.prov } = d at h' hactive'
  generalize stmt.kind = s at hs hcopy hsilent ⊢
  cases s with
  | storageRead storage ty addr =>
      have haddr := hs.operands addr (List.mem_singleton_self addr)
      have hid := hcopy.lanes storage (List.mem_singleton_self storage)
      simp only [IRStmt.mapVars]
      cases hty : g.irTypes.blockParams ty with
      | some sig => exact refRead_ensures hg h' hlen haddr hid hty hfits.cells
      | none =>
          rw [storageLane_plain hid, orPanic_some, pure_bind]
          have hblock : isBlockType g.irTypes ty = false := by rw [isBlockType, hty]; rfl
          exact plainRead_ensures hg h' hlen haddr hblock
  | storageWrite storage src ty addr =>
      have haddr := hs.operands addr (List.mem_singleton_self addr)
      have hid := hcopy.lanes storage (List.mem_singleton_self storage)
      have hsrc := hs.stored storage src ty addr rfl
      simp only [IRStmt.mapVars]
      rcases hs.values ty (List.mem_singleton_self ty) with hty | ⟨-, hty⟩
      · have hnone : d.blockVarToBits.get src = none := by
          apply h'.copied.untracked
          rw [hsrc]
          exact blockParams_eq_none (isBlockType_of_binary hty)
        unfold emitStorageWrite
        rw [bind_assoc]
        apply get_bind
        rw [hnone]
        dsimp only
        rw [storageLane_plain hid, orPanic_some, pure_bind]
        exact plainWrite_ensures hg h' hfits.frame hactive' haddr hsrc hty
      · exact refWrite_ensures hg h' hlen hactive' haddr hid hsrc hty
  | const cnst ty =>
      simp only [IRStmt.mapVars]
      cases hty : g.irTypes.blockParams ty with
      | some sig =>
          have hblock : isBlockType g.irTypes ty := by rw [isBlockType, hty]; rfl
          exact constRef_ensures hg h' hlen hty (hs.named cnst ty rfl hblock).2
      | none => exact ordinary_ensures hg h' hlen hs rfl hty hsilent
  | rng name ty => exact absurd rfl (hcopy.rng name ty)
  | actionStore name guard args fallbacks outputTys targets =>
      exact absurd rfl (hcopy.store name guard args fallbacks outputTys targets)
  | oracleCall _ _ _ _ | actionCall _ _ _ _ _ _ =>
      exact ordinary_ensures hg h' hlen hs rfl rfl hsilent
  | transmute _ _ ty | poly ty _ _ | rol _ ty _ | ror _ ty _ | merge _ ty | splat _ ty
  | shuffle _ ty | oracleOutput _ _ ty | actionOutput _ _ ty =>
      have hplain : BinaryType g.irTypes ty := by
        rcases hs.values ty (by simp [valueTypes, IRStmt.outputType]) with hty | ⟨hrefer, -⟩
        · exact hty
        · cases hrefer
      exact ordinary_ensures hg h' hlen hs rfl
        (blockParams_eq_none (isBlockType_of_binary hplain)) hsilent

end

end
end IrCtx
end VolarIR.Movfuscate
