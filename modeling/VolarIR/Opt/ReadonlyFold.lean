import VolarIR.Boolar.Eval
import VolarIR.Library.Loop
import VolarIR.Opt.Fold

/-!
# Boolar reads of read-only storage

`fold_readonly_storage_biir_blocks` of `volar-ir-opt/src/biir.rs`: a read of a storage that is
declared read-only, at an address whose bits are all known, becomes the bit that the
pre-initialised image holds there.
-/
namespace VolarIR.Opt
open Boolar

structure ReadonlyState where
  constants : List (ℕ × Bool)
  changed : Bool

/-- `readonly_bir_image_value`: the last cell written to the address, zero if there is none. -/
def readonlyImageValue (image : List BIrPreInitSegment) (storage : StorageId) (lane : LaneId)
    (address : List Bool) : Bool :=
  image.foldl (fun value segment =>
    if segment.storage ≠ storage ∨ segment.lane ≠ lane then value
    else segment.cells.foldl (fun value cell => if cell.1 = address then cell.2 else value) value)
    false

def readonlyReplacement (image : List BIrPreInitSegment) (access : StorageTable)
    (constants : List (ℕ × Bool)) : Stmt → Option Bool
  | .storageRead storage lane addr =>
      if access.accessOf storage = .readOnly then
        (addr.mapM fun v => constants.lookup v).map (readonlyImageValue image storage lane)
      else none
  | _ => none

section
variable {P : Type}

/-- One statement of the sweep; its result is `rv`. -/
def foldReadonlyStmt (image : List BIrPreInitSegment) (access : StorageTable)
    (st : ReadonlyState) (rv : ℕ) (node : Node Stmt P) : Node Stmt P × ReadonlyState :=
  match readonlyReplacement image access st.constants node.kind with
  | some value =>
      ({ node with kind := constStmt value }, ⟨(rv, value) :: st.constants, true⟩)
  | none =>
      match node.kind with
      | .zero => (node, { st with constants := (rv, false) :: st.constants })
      | .one => (node, { st with constants := (rv, true) :: st.constants })
      | _ => (node, st)

/-- `fold_readonly_storage_biir_stmts`. -/
def foldReadonlyStmts (image : List BIrPreInitSegment) (access : StorageTable) (params : ℕ)
    (stmts : List (Node Stmt P)) : List (Node Stmt P) × Bool :=
  let (stmts, st) := Sweep.rewriteFrom (foldReadonlyStmt image access) ⟨[], false⟩ params stmts
  (stmts, st.changed)

def foldReadonlyBlock (image : List BIrPreInitSegment) (access : StorageTable)
    (block : BIrBlock P) : BIrBlock P × Bool :=
  let (stmts, changed) := foldReadonlyStmts image access block.params block.stmts
  ({ block with stmts := stmts }, changed)

def foldReadonlyBlocks (blocks : BIrBlocks P) (access : StorageTable) : BIrBlocks P × Bool :=
  let folded := blocks.blocks.map (foldReadonlyBlock blocks.preInit access)
  (⟨folded.map Prod.fst, blocks.preInit⟩, folded.any Prod.snd)

/-- `fold_readonly_storage_biir_blocks`; `none` when an id `params + index` overflows. -/
def foldReadonlyStorage (blocks : BIrBlocks P) (access : StorageTable) :
    Option (BIrBlocks P × Bool) :=
  if ∀ b ∈ blocks.blocks, b.IdsFit then some (foldReadonlyBlocks blocks access) else none

end

/-- What the read-only cells hold. -/
def HoldsImage (image : List BIrPreInitSegment) (access : StorageTable) (m : StorageMap) : Prop :=
  ∀ storage lane address, access.accessOf storage = .readOnly →
    m.read ((storage, lane), address) = readonlyImageValue image storage lane address

theorem read_foldl_insert (cells : List (List Bool × Bool)) (m : StorageMap)
    (space : StorageId × LaneId) (address : List Bool) :
    (cells.foldl (fun m cell => m.insert (space, cell.1) cell.2) m).read (space, address) =
      cells.foldl (fun value cell => if cell.1 = address then cell.2 else value)
        (m.read (space, address)) := by
  induction cells generalizing m with
  | nil => rfl
  | cons cell cells ih =>
      rw [List.foldl_cons, List.foldl_cons, ih, StorageMap.read_insert]
      congr 1
      by_cases h : cell.1 = address
      · rw [if_pos h, ← h, Function.update_self]
      · have hne : (space, address) ≠ (space, cell.1) := fun heq => h (Prod.mk.inj heq).2.symm
        rw [if_neg h, Function.update_of_ne hne]

theorem read_foldl_insert_of_ne {space space' : StorageId × LaneId} (hne : space' ≠ space)
    (cells : List (List Bool × Bool)) (m : StorageMap) (address : List Bool) :
    (cells.foldl (fun m cell => m.insert (space', cell.1) cell.2) m).read (space, address) =
      m.read (space, address) := by
  induction cells generalizing m with
  | nil => rfl
  | cons cell cells ih =>
      have hcell : (space, address) ≠ (space', cell.1) := fun heq => hne (Prod.mk.inj heq).1.symm
      rw [List.foldl_cons, ih, StorageMap.read_insert, Function.update_of_ne hcell]

theorem holdsImage_applyPreInit (image : List BIrPreInitSegment) (access : StorageTable) :
    HoldsImage image access (applyPreInit .empty image) := by
  intro storage lane address _
  have hread : ∀ (segments : List BIrPreInitSegment) (m : StorageMap),
      (applyPreInit m segments).read ((storage, lane), address) =
        segments.foldl (fun value segment =>
          if segment.storage ≠ storage ∨ segment.lane ≠ lane then value
          else segment.cells.foldl
            (fun value cell => if cell.1 = address then cell.2 else value) value)
          (m.read ((storage, lane), address)) := by
    intro segments
    induction segments with
    | nil => exact fun m => rfl
    | cons segment segments ih =>
        intro m
        rw [List.foldl_cons]
        have htail := ih (segment.cells.foldl
          (fun m cell => m.insert ((segment.storage, segment.lane), cell.1) cell.2) m)
        rw [applyPreInit] at htail ⊢
        rw [List.foldl_cons, htail]
        congr 1
        by_cases h : segment.storage ≠ storage ∨ segment.lane ≠ lane
        · rw [if_pos h]
          apply read_foldl_insert_of_ne
          intro heq
          cases heq
          cases h with
          | inl hstorage => exact hstorage rfl
          | inr hlane => exact hlane rfl
        · rw [not_or, not_not, not_not] at h
          rw [if_neg (by rw [not_or, not_not, not_not]; exact h), ← h.1, ← h.2]
          exact read_foldl_insert segment.cells m (segment.storage, segment.lane) address
  exact hread image .empty

def writes : Stmt → List StorageId
  | .storageWrite storage .. | .actionStoreBit _ _ _ _ storage .. => [storage]
  | _ => []

/-- No statement writes a storage that is declared read-only. -/
def NeverWritten {P : Type} (blocks : BIrBlocks P) (access : StorageTable) : Prop :=
  ∀ b ∈ blocks.blocks, ∀ s ∈ b.kinds, ∀ storage ∈ writes s,
    access.accessOf storage ≠ .readOnly

section
variable {P : Type} {image : List BIrPreInitSegment} {access : StorageTable}
  (world : Externals)

theorem HoldsImage.insert {m : StorageMap} (h : HoldsImage image access m) {storage : StorageId}
    (hstorage : access.accessOf storage ≠ .readOnly) (lane : LaneId) (address : List Bool)
    (bit : Bool) : HoldsImage image access (m.insert ((storage, lane), address) bit) := by
  intro storage' lane' address' hreadOnly
  have hne : ((storage', lane'), address') ≠ ((storage, lane), address) := by
    intro heq
    cases heq
    exact hstorage hreadOnly
  rw [StorageMap.read_insert, Function.update_of_ne hne]
  exact h storage' lane' address' hreadOnly

theorem HoldsImage.evalStmt {σ : EvalState} (h : HoldsImage image access σ.storage) {s : Stmt}
    (hs : ∀ storage ∈ writes s, access.accessOf storage ≠ .readOnly) (look : ℕ → Value) :
    HoldsImage image access (Boolar.evalStmt world σ (s.mapVars look)).2.storage := by
  cases s with
  | storageWrite storage lane src addr =>
      exact h.insert (hs storage List.mem_cons_self) lane _ _
  | actionStoreBit name guard args fallback storage lane addr bit occ =>
      have hstorage := hs storage List.mem_cons_self
      rw [BIrStmt.mapVars, Boolar.evalStmt]
      split
      · exact h.insert hstorage lane _ _
      · exact h.insert hstorage lane _ _
  | actionCall name guard args fallback n =>
      rw [BIrStmt.mapVars, Boolar.evalStmt]
      split
      · exact h
      · exact h
  | _ => exact h

/-- The image is in place and every constant known is the value of its var. -/
structure SoundState (image : List BIrPreInitSegment) (access : StorageTable)
    (st : ReadonlyState) (rv : ℕ) (f : Frame) : Prop where
  length : f.vals.length = rv
  image : HoldsImage image access f.st.storage
  lt : ∀ v c, st.constants.lookup v = some c → v < rv
  bit : ∀ v c, st.constants.lookup v = some c → (look f.vals v).bit = c

theorem SoundState.address {st : ReadonlyState} {rv : ℕ} {f : Frame}
    (h : SoundState image access st rv f) {addr : List ℕ} {address : List Bool}
    (haddr : (addr.mapM fun v => st.constants.lookup v) = some address) :
    Value.bits (addr.map (look f.vals)) = address := by
  induction addr generalizing address with
  | nil => exact Option.some.inj haddr
  | cons v addr ih =>
      rw [List.mapM_cons, Option.bind_eq_bind, Option.bind_eq_some_iff] at haddr
      obtain ⟨c, hc, hrest⟩ := haddr
      rw [Option.bind_eq_bind, Option.bind_eq_some_iff] at hrest
      obtain ⟨rest, htail, heq⟩ := hrest
      rw [← Option.some.inj heq, ← ih htail, ← h.bit v c hc]
      rfl

theorem SoundState.step {st : ReadonlyState} {rv : ℕ} {f : Frame}
    (h : SoundState image access st rv f) {s : Stmt}
    (hs : ∀ storage ∈ writes s, access.accessOf storage ≠ .readOnly) :
    SoundState image access st (rv + 1) (stepStmt world f s) where
  length := by rw [stepStmt_length, h.length]
  image := h.image.evalStmt world hs _
  lt := fun v c hc => (h.lt v c hc).trans (Nat.lt_succ_self rv)
  bit := by
    intro v c hc
    rw [stepStmt_look (by rw [h.length]; exact h.lt v c hc)]
    exact h.bit v c hc

/-- The state after a statement whose result has become known. -/
theorem SoundState.learn {st : ReadonlyState} {rv : ℕ} {f : Frame}
    (h : SoundState image access st rv f) {s : Stmt}
    (hs : ∀ storage ∈ writes s, access.accessOf storage ≠ .readOnly) {value changed : Bool}
    (hvalue : (Boolar.evalStmt world f.st (s.mapVars (look f.vals))).1.bit = value) :
    SoundState image access ⟨(rv, value) :: st.constants, changed⟩ (rv + 1)
      (stepStmt world f s) where
  length := (h.step world hs).length
  image := (h.step world hs).image
  lt := by
    intro v c hc
    rw [List.lookup_cons] at hc
    split at hc
    case h_1 heq =>
      rw [eq_of_beq heq]
      exact Nat.lt_succ_self rv
    case h_2 => exact (h.lt v c hc).trans (Nat.lt_succ_self rv)
  bit := by
    intro v c hc
    rw [List.lookup_cons] at hc
    split at hc
    case h_1 heq =>
      rw [eq_of_beq heq, ← h.length, stepStmt, look_append_length, hvalue]
      exact Option.some.inj hc
    case h_2 => exact (h.step world hs).bit v c hc

/-- A folded statement steps as the original, and what the sweep then knows is true. -/
theorem foldReadonlyStmt_step {st : ReadonlyState} {rv : ℕ} {f : Frame} {node : Node Stmt P}
    (h : SoundState image access st rv f)
    (hs : ∀ storage ∈ writes node.kind, access.accessOf storage ≠ .readOnly) :
    stepStmt world f (foldReadonlyStmt image access st rv node).1.kind =
        stepStmt world f node.kind ∧
      SoundState image access (foldReadonlyStmt image access st rv node).2 (rv + 1)
        (stepStmt world f node.kind) := by
  unfold foldReadonlyStmt
  split
  case h_1 value hvalue =>
    cases hkind : node.kind with
    | storageRead storage lane addr =>
        rw [hkind, readonlyReplacement] at hvalue
        split at hvalue
        case isTrue hreadOnly =>
          obtain ⟨address, haddr, himage⟩ := Option.map_eq_some_iff.mp hvalue
          have hread : Boolar.evalStmt world f.st
              ((BIrStmt.storageRead storage lane addr).mapVars (look f.vals)) =
                (⟨value, .none⟩, f.st) := by
            rw [BIrStmt.mapVars, Boolar.evalStmt, h.address haddr,
              h.image storage lane address hreadOnly, himage]
          constructor
          · rw [stepStmt, stepStmt, hread]
            cases value with
            | false => rfl
            | true => rfl
          · rw [hkind] at hs
            exact h.learn world hs (by rw [hread])
        case isFalse => cases hvalue
    | _ =>
        rw [hkind] at hvalue
        cases hvalue
  case h_2 =>
    split
    case h_1 hkind => exact ⟨rfl, by rw [hkind] at hs ⊢; exact h.learn world hs rfl⟩
    case h_2 hkind => exact ⟨rfl, by rw [hkind] at hs ⊢; exact h.learn world hs rfl⟩
    case h_3 => exact ⟨rfl, h.step world hs⟩

theorem HoldsImage.evalStmts {f : Frame} (h : HoldsImage image access f.st.storage)
    {stmts : List Stmt}
    (hs : ∀ s ∈ stmts, ∀ storage ∈ writes s, access.accessOf storage ≠ .readOnly) :
    HoldsImage image access (Boolar.evalStmts world f stmts).st.storage := by
  induction stmts generalizing f with
  | nil => exact h
  | cons s rest ih =>
      have hfirst := hs s List.mem_cons_self
      have hrest : ∀ t ∈ rest, ∀ storage ∈ writes t, access.accessOf storage ≠ .readOnly :=
        fun t ht => hs t (List.mem_cons_of_mem s ht)
      rw [evalStmts_cons]
      exact ih (h.evalStmt world hfirst _) hrest

theorem evalStmts_foldReadonlyStmts {stmts : List (Node Stmt P)} {f : Frame}
    (h : HoldsImage image access f.st.storage)
    (hs : ∀ s ∈ stmts.map Node.kind, ∀ storage ∈ writes s, access.accessOf storage ≠ .readOnly) :
    evalStmts world f ((foldReadonlyStmts image access f.vals.length stmts).1.map Node.kind) =
      evalStmts world f (stmts.map Node.kind) := by
  have hstart : SoundState image access ⟨[], false⟩ f.vals.length f :=
    ⟨rfl, h, nofun, nofun⟩
  have hok : ∀ (i : ℕ) (node : Node Stmt P), stmts[i]? = some node →
      ∀ storage ∈ writes node.kind, access.accessOf storage ≠ .readOnly :=
    fun i node hnode => hs node.kind (List.mem_map_of_mem (List.mem_of_getElem? hnode))
  rw [Boolar.evalStmts, Boolar.evalStmts, List.foldl_map, List.foldl_map]
  exact Sweep.foldl_rewriteFrom (fun f (node : Node Stmt P) => stepStmt world f node.kind)
    (SoundState image access)
    (fun _ node => ∀ storage ∈ writes node.kind, access.accessOf storage ≠ .readOnly)
    (fun st rv f node hst hnode => foldReadonlyStmt_step world hst hnode) hok hstart

theorem evalBlock_foldReadonlyBlock {block : BIrBlock P}
    (hs : ∀ s ∈ block.kinds, ∀ storage ∈ writes s, access.accessOf storage ≠ .readOnly)
    {σ : EvalState} (h : HoldsImage image access σ.storage) (params : List Bool) :
    evalBlock world (foldReadonlyBlock image access block).1 params σ =
      evalBlock world block params σ := by
  unfold evalBlock
  split
  case isTrue hparams =>
    have hlength : (paramValues params).length = block.params := by
      rw [paramValues_length]
      exact hparams
    have hframe := evalStmts_foldReadonlyStmts world (f := ⟨paramValues params, σ⟩) h hs
    rw [if_pos (show params.length = block.params from hparams)]
    simp only [hlength] at hframe
    simp only [BIrBlock.kinds, foldReadonlyBlock, hframe]
  case isFalse hparams => rw [if_neg (show ¬ params.length = block.params from hparams)]

theorem HoldsImage.evalBlock {block : BIrBlock P}
    (hs : ∀ s ∈ block.kinds, ∀ storage ∈ writes s, access.accessOf storage ≠ .readOnly)
    {σ σ' : EvalState} (h : HoldsImage image access σ.storage) {params : List Bool}
    {result : BlockResult} (heval : Boolar.evalBlock world block params σ = some (result, σ')) :
    HoldsImage image access σ'.storage := by
  unfold Boolar.evalBlock at heval
  split at heval
  case isTrue =>
    obtain ⟨_, _, hr⟩ := Option.map_eq_some_iff.mp heval
    cases hr
    exact h.evalStmts world (f := ⟨paramValues params, σ⟩) hs
  case isFalse => cases heval

def ConfigHolds (image : List BIrPreInitSegment) (access : StorageTable) : Config → Prop
  | .running _ _ σ => HoldsImage image access σ.storage
  | .returned .. | .stuck => True

theorem stepBlock_foldReadonlyBlocks {blocks : BIrBlocks P} (hs : NeverWritten blocks access)
    {c : Config} (h : ConfigHolds blocks.preInit access c) :
    stepBlock world (foldReadonlyBlocks blocks access).1 c = stepBlock world blocks c ∧
      ConfigHolds blocks.preInit access (stepBlock world blocks c) := by
  cases c with
  | returned bits σ => exact ⟨rfl, trivial⟩
  | stuck => exact ⟨rfl, trivial⟩
  | running cur args σ =>
      have hget : (foldReadonlyBlocks blocks access).1.blocks[cur]? =
          blocks.blocks[cur]?.map fun b => (foldReadonlyBlock blocks.preInit access b).1 := by
        simp [foldReadonlyBlocks, Function.comp_def]
      cases hcur : blocks.blocks[cur]? with
      | none =>
          rw [hcur] at hget
          simp only [stepBlock, hget, hcur, Option.map_none]
          exact ⟨trivial, trivial⟩
      | some b =>
          have hblock := hs b (List.mem_of_getElem? hcur)
          rw [hcur, Option.map_some] at hget
          simp only [stepBlock, hget, hcur, evalBlock_foldReadonlyBlock world hblock h args]
          cases heval : evalBlock world b args σ with
          | none => exact ⟨trivial, trivial⟩
          | some r =>
              obtain ⟨result, σ'⟩ := r
              have hkept := HoldsImage.evalBlock world hblock h heval
              cases result with
              | ret bits => exact ⟨trivial, trivial⟩
              | jump target args' => exact ⟨trivial, hkept⟩

theorem runBlocks_eq_iterate (blocks : BIrBlocks P) (budget : ℕ) (c : Config) :
    runBlocks world blocks budget c = (stepBlock world blocks)^[budget] c := by
  induction budget generalizing c with
  | zero => rfl
  | succ budget ih => rw [runBlocks, ih, Function.iterate_succ_apply]

theorem runBlocks_foldReadonlyBlocks {blocks : BIrBlocks P} (hs : NeverWritten blocks access)
    (inputs : List Bool) (budget : ℕ) :
    runBlocks world (foldReadonlyBlocks blocks access).1 budget
        (.running 0 inputs (.init (applyPreInit .empty blocks.preInit))) =
      runBlocks world blocks budget
        (.running 0 inputs (.init (applyPreInit .empty blocks.preInit))) := by
  rw [runBlocks_eq_iterate, runBlocks_eq_iterate]
  exact Sweep.iterate_eq (fun c hc => stepBlock_foldReadonlyBlocks world hs hc) budget
    (holdsImage_applyPreInit blocks.preInit access)

end
end VolarIR.Opt
