import VolarIR.Schedule.Footprint
import VolarIR.Storage.RegisterFile

/-!
# Runs of a promoted circuit

The promoted circuit runs as the register file does. Exact storage keys an address by its
bits, the registers by the number they denote: a read finds the same in both when no other
address stored in the lane denotes its number, as it is where the lane's addresses all have one
length.
-/
namespace VolarIR.Storage

open Boolar Circuit Fallible

variable {P : Type}

def returnedBits : Config → Option (List Bool)
  | .returned bits _ => some bits
  | _ => none

/-- `eval_biir_with_limit`, on the pre-initialised storage. -/
def evalBiir (world : Externals) (blocks : BIrBlocks P) (inputs : List Bool) (budget : ℕ) :
    Option (List Bool) :=
  returnedBits (runBlocks world blocks budget
    (.running 0 inputs (.init (applyPreInit .empty blocks.preInit))))

def startFrame (inputs : List Bool) (segments : List BIrPreInitSegment) : Frame :=
  ⟨paramValues inputs, .init (applyPreInit .empty segments)⟩

/-- What a circuit returns when the lane is a register file. -/
def evalByRegisters (cfg : StorageToMuxBoolarConfig) (world : Externals) (blocks : BIrBlocks P)
    (inputs : List Bool) : Option (List Bool) :=
  match blocks.blocks with
  | [⟨params, stmts, .jmp ⟨.ret, args⟩⟩] =>
      if inputs.length = params then
        some (operandBits ((stmts.map Node.kind).foldl (stepFile cfg world)
          ⟨startFrame inputs (otherSegments cfg blocks.preInit),
            fileValues cfg blocks.preInit⟩).frame args)
      else none
  | _ => none

def laneAddress (cfg : StorageToMuxBoolarConfig) : Stmt → Option (List ℕ)
  | .storageRead storage lane addr | .storageWrite storage lane _ addr
  | .actionStoreBit _ _ _ _ storage lane addr _ _ =>
      if Accesses cfg storage lane then some addr else none
  | _ => none

def InRangeFrom (cfg : StorageToMuxBoolarConfig) (world : Externals) : Frame → List Stmt → Prop
  | _, [] => True
  | f, s :: rest =>
      (∀ addr, laneAddress cfg s = some addr → Bits.value (operandBits f addr) < cfg.numCells) ∧
        InRangeFrom cfg world (stepStmt world f s) rest

def InRange (cfg : StorageToMuxBoolarConfig) (world : Externals) (blocks : BIrBlocks P)
    (inputs : List Bool) : Prop :=
  ∀ block ∈ blocks.blocks, InRangeFrom cfg world (startFrame inputs blocks.preInit) block.kinds

def Alone (cfg : StorageToMuxBoolarConfig) (m : StorageMap) (addr : List Bool) : Prop :=
  ∀ other : List Bool, m ((cfg.storage, cfg.lane), other) ≠ none →
    Bits.value other = Bits.value addr → other = addr

def readAddress (cfg : StorageToMuxBoolarConfig) : Stmt → Option (List ℕ)
  | .storageRead storage lane addr => if Accesses cfg storage lane then some addr else none
  | _ => none

def ReadsAloneFrom (cfg : StorageToMuxBoolarConfig) (world : Externals) : Frame → List Stmt → Prop
  | _, [] => True
  | f, s :: rest =>
      (∀ addr, readAddress cfg s = some addr → Alone cfg f.st.storage (operandBits f addr)) ∧
        ReadsAloneFrom cfg world (stepStmt world f s) rest

def ReadsAlone (cfg : StorageToMuxBoolarConfig) (world : Externals) (blocks : BIrBlocks P)
    (inputs : List Bool) : Prop :=
  ∀ block ∈ blocks.blocks, ReadsAloneFrom cfg world (startFrame inputs blocks.preInit) block.kinds

/-- The promoted circuit returns the same bits on every in-range input on which reads find
their addresses alone, and has no access of the lane left. -/
def Promotes (cfg : StorageToMuxBoolarConfig) (blocks out : BIrBlocks P) : Prop :=
  (∀ world inputs, InRange cfg world blocks inputs → ReadsAlone cfg world blocks inputs →
    ∀ budget, evalBiir world out inputs budget = evalBiir world blocks inputs budget) ∧
  ∀ block ∈ out.blocks, ∀ s ∈ block.kinds, laneAddress cfg s = none

def NoActionStores (cfg : StorageToMuxBoolarConfig) (blocks : BIrBlocks P) : Prop :=
  ∀ block ∈ blocks.blocks, ∀ s ∈ block.kinds, storesAction cfg s = false

def ShortAddresses (cfg : StorageToMuxBoolarConfig) (blocks : BIrBlocks P) : Prop :=
  ∀ block ∈ blocks.blocks, ∀ s ∈ block.kinds, ShortAddress cfg s

/-- Every address of the lane, pre-initialised ones included, has the same length. -/
structure OneLength (cfg : StorageToMuxBoolarConfig) (width : ℕ) (blocks : BIrBlocks P) :
    Prop where
  accesses : ∀ block ∈ blocks.blocks, ∀ s ∈ block.kinds, ∀ addr, laneAddress cfg s = some addr →
    addr.length = width
  segments : ∀ seg ∈ laneSegments cfg blocks.preInit, ∀ cell ∈ seg.cells, cell.1.length = width

section Circuit
variable {world : Externals} {blocks : BIrBlocks P} {params : ℕ} {stmts : List (Node Stmt P)}
  {args : List ℕ}

theorem evalBiir_circuit (hblocks : blocks.blocks = [⟨params, stmts, .jmp ⟨.ret, args⟩⟩])
    (inputs : List Bool) (budget : ℕ) :
    evalBiir world blocks inputs (budget + 1) =
      if inputs.length = params then
        some (operandBits (evalStmts world (startFrame inputs blocks.preInit)
          (stmts.map Node.kind)) args)
      else none := by
  unfold evalBiir
  rw [runBlocks, stepBlock, hblocks]
  simp only [List.getElem?_cons_zero, evalBlock]
  split_ifs with hlength
  · simp only [evalTerminator, resolveTarget, Option.map_some, runBlocks_returned, returnedBits]
    rfl
  · simp only [runBlocks_stuck, returnedBits]

end Circuit

theorem blocks_of_isCircuit {blocks : BIrBlocks P} (h : blocks.isCircuit = true) :
    ∃ params stmts args, blocks.blocks = [⟨params, stmts, .jmp ⟨.ret, args⟩⟩] := by
  unfold BIrBlocks.isCircuit BIrBlocks.isMovfuscated at h
  cases hblocks : blocks.blocks with
  | nil => simp [hblocks] at h
  | cons block rest =>
      rw [hblocks] at h
      have hrest : rest = [] := by simpa using (Bool.and_eq_true_iff.mp h).1
      obtain ⟨params, stmts, terminator⟩ := block
      cases terminator with
      | condJmp val thenTarget elseTarget => simp at h
      | jmp target =>
          obtain ⟨dest, args⟩ := target
          cases dest with
          | ret => exact ⟨params, stmts, args, by rw [hrest]⟩
          | block b => simp at h
          | dyn v => simp at h

section Start
variable {cfg : StorageToMuxBoolarConfig} {world : Externals} {x : List Bool} {σ : EvalState}

theorem renamed_start {params : ℕ} (hx : x.length = params) (H : ℕ → Prop) :
    Renamed world x σ H [] (List.range params) ⟨paramValues x, σ⟩ := by
  have hget : ∀ v < (List.range params).length, (List.range params).getD v 0 = v := by
    intro v hv
    rw [List.getD_eq_getElem _ _ hv, List.getElem_range]
  constructor
  case length => simp [hx]
  case defined =>
    intro v hv
    rw [hget v hv]
    simpa [hx] using hv
  case bit =>
    intro v hv
    rw [hget v hv]
    rfl
  case call =>
    intro v hv _
    rw [hget v hv]
    rfl
  case st => rfl

theorem Tracks.start {params : ℕ} (hx : x.length = params) {values : List Bool}
    (hsize : values.length = cfg.numCells) (terminator : BIrTerminator ℕ) (p : P) :
    Tracks cfg world x σ []
      ⟨(pushCells ⟨params, [], terminator⟩ p values).2, List.range params,
        (pushCells ⟨params, [], terminator⟩ p values).1⟩
      ⟨⟨paramValues x, σ⟩, values⟩ := by
  have hparams : x.length = (⟨params, [], terminator⟩ : BIrBlock P).params := hx
  have hspec : Gates ⟨params, [], terminator⟩ (pushCells ⟨params, [], terminator⟩ p values).2 ∧
      Carries world x σ (pushCells ⟨params, [], terminator⟩ p values).2.kinds
        (pushCells ⟨params, [], terminator⟩ p values).1 values := pushCells_spec hparams p values
  obtain ⟨gates, hkinds, hgates⟩ := hspec.1.pushed
  have hall : ∀ s ∈ (pushCells ⟨params, [], terminator⟩ p values).2.kinds, s.isGate := by
    intro s hs
    rw [hkinds] at hs
    exact hgates s hs
  constructor
  case params => exact hx.trans hspec.1.params.symm
  case renamed => exact (renamed_start hx _).mono hspec.1.grows hspec.1.st
  case registers => exact hspec.2
  case size => exact hsize
  case accesses => exact fun s hs => (access_of_isGate (hall s hs)).1
  case stores =>
    constructor
    · rintro ⟨s, hs, hstore⟩
      rw [(access_of_isGate (hall s hs)).2] at hstore
      cases hstore
    · rintro ⟨s, hs, _⟩
      cases hs

end Start

section Pass
variable [Inhabited P] {overflowChecks : Bool} {cfg : StorageToMuxBoolarConfig}
  {blocks out : BIrBlocks P}

/-- What the pass has made of a circuit it accepts. -/
theorem storageToMuxBoolar_eq_ok (h : storageToMuxBoolar overflowChecks blocks cfg = .ok out)
    (hshort : overflowChecks = true ∨ ShortAddresses cfg blocks) :
    ∃ params stmts args stmts' args' remap,
      blocks.blocks = [⟨params, stmts, .jmp ⟨.ret, args⟩⟩] ∧
      out.blocks = [⟨params, stmts', .jmp ⟨.ret, args'⟩⟩] ∧
      out.preInit = otherSegments cfg blocks.preInit ∧
      args.mapM (remapVar remap) = .ok args' ∧
      ∀ world (x : List Bool) (σ : EvalState), x.length = params →
        ∃ block cells, block.kinds = stmts'.map Node.kind ∧
          Tracks cfg world x σ (stmts.map Node.kind) (⟨block, remap, cells⟩ : MuxState P)
            ((stmts.map Node.kind).foldl (stepFile cfg world)
              ⟨⟨paramValues x, σ⟩, fileValues cfg blocks.preInit⟩) := by
  unfold storageToMuxBoolar storageToMuxBoolarWithAccess at h
  split_ifs at h with haccess hcircuit hcells
  obtain ⟨params, stmts, args, hblocks⟩ :=
    blocks_of_isCircuit (Bool.eq_true_of_not_eq_false hcircuit)
  rw [hblocks] at h
  simp only [Except.bind_eq_ok] at h
  obtain ⟨values, hvalues, final, hrun, h⟩ := h
  split at h
  · cases h
  simp only [Except.bind_eq_ok] at h
  obtain ⟨terminator, hterminator, hret⟩ := h
  cases hret
  simp only [remapTerminator, remapTarget, Except.bind_eq_ok] at hterminator
  obtain ⟨target, ⟨args', hargs, htarget⟩, hjmp⟩ := hterminator
  cases htarget
  cases hjmp
  have hinit := initValues_eq_ok hvalues
  have htracks : ∀ world (x : List Bool) (σ : EvalState), x.length = params →
      Tracks cfg world x σ (stmts.map Node.kind) final ((stmts.map Node.kind).foldl
        (stepFile cfg world) ⟨⟨paramValues x, σ⟩, fileValues cfg blocks.preInit⟩) := by
    intro world x σ hx
    have hstmts : overflowChecks = true ∨ ∀ node ∈ stmts, ShortAddress cfg node.kind := by
      refine hshort.imp_right fun hall node hnode => ?_
      refine hall ⟨params, stmts, .jmp ⟨.ret, args⟩⟩ ?_ node.kind (List.mem_map_of_mem hnode)
      rw [hblocks]
      exact List.mem_singleton_self _
    apply Tracks.run _ hstmts hrun
    rw [← initValues_eq_ok hvalues]
    exact Tracks.start hx (initValues_eq_ok hvalues ▸ length_fileValues _) _ _
  have hparams : final.block.params = params := by
    have hsome := htracks ⟨fun _ _ _ => false, fun _ _ _ _ => false, fun _ _ _ => false⟩
      (List.replicate params false) (.init .empty) (List.length_replicate ..)
    exact hsome.params.symm.trans (List.length_replicate ..)
  refine ⟨params, stmts, args, final.block.stmts, args', final.remap, hblocks, ?_, rfl, hargs, ?_⟩
  · rw [hparams]
  · intro world x σ hx
    exact ⟨final.block, final.cells, rfl, htracks world x σ hx⟩

theorem evalBiir_eq_evalByRegisters (h : storageToMuxBoolar overflowChecks blocks cfg = .ok out)
    (hshort : overflowChecks = true ∨ ShortAddresses cfg blocks) (world : Externals)
        (inputs : List Bool) (budget : ℕ) :
    evalBiir world out inputs (budget + 1) = evalByRegisters cfg world blocks inputs := by
  obtain ⟨params, stmts, args, stmts', args', remap, hblocks, hout, hpre, hargs, htracks⟩ :=
    storageToMuxBoolar_eq_ok h hshort
  rw [evalBiir_circuit hout, evalByRegisters, hblocks]
  dsimp only
  split_ifs with hlength
  · obtain ⟨block, cells, hkinds, htracks⟩ := htracks world inputs
      (.init (applyPreInit .empty (otherSegments cfg blocks.preInit))) hlength
    obtain ⟨hlt, rfl⟩ := mapM_remapVar_eq_ok hargs
    have hbits := htracks.renamed.bit
    rw [hkinds] at hbits
    rw [startFrame, hpre, operandBits, List.map_map]
    apply congrArg some
    apply List.map_congr_left
    intro v hv
    exact hbits v (hlt v hv)
  · rfl

theorem noAccess_iff (h : storageToMuxBoolar overflowChecks blocks cfg = .ok out)
    (hshort : overflowChecks = true ∨ ShortAddresses cfg blocks) :
    (∀ block ∈ out.blocks, ∀ s ∈ block.kinds, laneAddress cfg s = none) ↔
      NoActionStores cfg blocks := by
  obtain ⟨params, stmts, args, stmts', args', remap, hblocks, hout, _, _, htracks⟩ :=
    storageToMuxBoolar_eq_ok h hshort
  obtain ⟨block, cells, hkinds, htracks⟩ :=
    htracks ⟨fun _ _ _ => false, fun _ _ _ _ => false, fun _ _ _ => false⟩
      (List.replicate params false) (.init .empty) (List.length_replicate ..)
  have haddress : ∀ s, laneAddress cfg s = none ↔
      readsOrWrites cfg s = false ∧ storesAction cfg s = false := by
    intro s
    cases s <;> simp [laneAddress, readsOrWrites, storesAction]
  have hstores : (∀ s ∈ stmts'.map Node.kind, storesAction cfg s = false) ↔
      ∀ s ∈ stmts.map Node.kind, storesAction cfg s = false := by
    have hiff := not_congr htracks.stores
    rw [hkinds] at hiff
    simpa only [not_exists, not_and, Bool.not_eq_true] using hiff
  have haccesses := htracks.accesses
  rw [hkinds] at haccesses
  unfold NoActionStores
  rw [hout, hblocks]
  simp only [List.mem_singleton, forall_eq, BIrBlock.kinds]
  rw [← hstores]
  constructor
  · intro hnone s hs
    exact ((haddress s).mp (hnone s hs)).2
  · intro hnone s hs
    exact (haddress s).mpr ⟨haccesses s hs, hnone s hs⟩

end Pass

section Agreement
variable {cfg : StorageToMuxBoolarConfig} {world : Externals}

def StorageToMuxBoolarConfig.namespace (cfg : StorageToMuxBoolarConfig) : Namespace :=
  (cfg.storage, cfg.lane)

/-- Exact storage and the registers hold the same at addresses that are alone. -/
structure Agrees (cfg : StorageToMuxBoolarConfig) (m : StorageMap) (m' : StorageMap)
    (registers : List Bool) : Prop where
  elsewhere : ∀ cell : Cell, cell.1 ≠ cfg.namespace → m cell = m' cell
  lane : ∀ addr : List Bool, Alone cfg m addr → Bits.value addr < cfg.numCells →
    m.read (cfg.namespace, addr) = registers.getD (Bits.value addr) false
  size : registers.length = cfg.numCells

variable {m m' : StorageMap} {registers : List Bool}

theorem Agrees.insert (h : Agrees cfg m m' registers) (addr : List Bool) (b : Bool) :
    Agrees cfg (m.insert (cfg.namespace, addr) b) m' (registers.set (Bits.value addr) b) := by
  constructor
  case elsewhere =>
    intro cell hcell
    rw [← h.elsewhere cell hcell]
    apply Function.update_of_ne
    rintro rfl
    exact hcell rfl
  case lane =>
    intro other halone hlt
    rw [StorageMap.read_insert]
    by_cases heq : other = addr
    · subst heq
      rw [Function.update_self, List.getD_eq_getElem?_getD, List.getElem?_set_self (h.size ▸ hlt)]
      rfl
    · have hvalue : Bits.value addr ≠ Bits.value other := by
        intro hvalue
        refine heq (halone addr ?_ hvalue).symm
        simp [StorageMap.insert, StorageToMuxBoolarConfig.namespace]
      have hbefore : Alone cfg m other := by
        intro third hthird
        apply halone third
        rw [StorageMap.insert, Function.update_apply]
        split_ifs
        · exact Option.some_ne_none b
        · exact hthird
      rw [Function.update_of_ne (fun hcell => heq (congrArg Prod.snd hcell)),
        h.lane other hbefore hlt, List.getD_eq_getElem?_getD, List.getD_eq_getElem?_getD,
        List.getElem?_set_ne hvalue]
  case size => exact (List.length_set ..).trans h.size

theorem Agrees.insert_elsewhere (h : Agrees cfg m m' registers) {cell : Cell}
    (hcell : cell.1 ≠ cfg.namespace) (b : Bool) :
    Agrees cfg (m.insert cell b) (m'.insert cell b) registers := by
  have hother : ∀ addr : List Bool, ((cfg.namespace, addr) : Cell) ≠ cell := by
    rintro addr rfl
    exact hcell rfl
  constructor
  case elsewhere =>
    intro other hother
    by_cases heq : other = cell
    · subst heq
      simp [StorageMap.insert]
    · rw [StorageMap.insert, StorageMap.insert, Function.update_of_ne heq,
        Function.update_of_ne heq]
      exact h.elsewhere other hother
  case lane =>
    intro addr halone hlt
    rw [StorageMap.read_insert, Function.update_of_ne (hother addr)]
    apply h.lane addr _ hlt
    intro third hthird
    apply halone third
    rw [StorageMap.insert, Function.update_apply, if_neg]
    · exact hthird
    · exact hother third
  case size => exact h.size

theorem Agrees.applyPreInit {segments : List BIrPreInitSegment}
    (h : Agrees cfg m m' registers) :
    Agrees cfg (Boolar.applyPreInit m segments)
      (Boolar.applyPreInit m' (otherSegments cfg segments))
      ((laneSegments cfg segments).foldl (fun values seg =>
        seg.cells.foldl (fun values cell => values.set (Bits.value cell.1) cell.2) values)
        registers) := by
  induction segments generalizing m m' registers with
  | nil => exact h
  | cons seg rest ih =>
      by_cases hlane : seg.storage = cfg.storage ∧ seg.lane = cfg.lane
      · have hlanes : laneSegments cfg (seg :: rest) = seg :: laneSegments cfg rest :=
          List.filter_cons_of_pos (by simpa using hlane)
        have hothers : otherSegments cfg (seg :: rest) = otherSegments cfg rest :=
          List.filter_cons_of_neg (by simpa using hlane)
        rw [hlanes, hothers]
        have hcells : ∀ (cells : List (List Bool × Bool)) (m : StorageMap) (registers : List Bool),
            Agrees cfg m m' registers → Agrees cfg
              (cells.foldl (fun m cell => m.insert ((seg.storage, seg.lane), cell.1) cell.2) m) m'
              (cells.foldl (fun values cell => values.set (Bits.value cell.1) cell.2)
                registers) := by
          intro cells
          induction cells with
          | nil => exact fun _ _ h => h
          | cons cell cells ihcells =>
              intro m registers h
              apply ihcells
              have hinsert := h.insert cell.1 cell.2
              rwa [StorageToMuxBoolarConfig.namespace, ← hlane.1, ← hlane.2] at hinsert
        exact ih (hcells seg.cells m registers h)
      · have hlanes : laneSegments cfg (seg :: rest) = laneSegments cfg rest :=
          List.filter_cons_of_neg (by simpa using hlane)
        have hothers : otherSegments cfg (seg :: rest) = seg :: otherSegments cfg rest :=
          List.filter_cons_of_pos (by simpa [not_and_or] using not_and_or.mp hlane)
        rw [hlanes, hothers]
        have hne : (seg.storage, seg.lane) ≠ cfg.namespace := by
          intro heq
          exact hlane ⟨congrArg Prod.fst heq, congrArg Prod.snd heq⟩
        have hcells : ∀ (cells : List (List Bool × Bool)) (m m' : StorageMap),
            Agrees cfg m m' registers → Agrees cfg
              (cells.foldl (fun m cell => m.insert ((seg.storage, seg.lane), cell.1) cell.2) m)
              (cells.foldl (fun m cell => m.insert ((seg.storage, seg.lane), cell.1) cell.2) m')
              registers := by
          intro cells
          induction cells with
          | nil => exact fun _ _ h => h
          | cons cell cells ihcells =>
              intro m m' h
              exact ihcells _ _ (h.insert_elsewhere hne cell.2)
        exact ih (hcells seg.cells m m' h)

structure AgreesFrame (cfg : StorageToMuxBoolarConfig) (f : Frame) (F : FileFrame) : Prop where
  vals : f.vals = F.frame.vals
  effects : f.st.effects = F.frame.st.effects
  oracles : f.st.oracles = F.frame.st.oracles
  storage : Agrees cfg f.st.storage F.frame.st.storage F.registers

variable {f : Frame} {F : FileFrame} {s : Stmt}

theorem AgreesFrame.other (h : AgreesFrame cfg f F) (hs : laneAddress cfg s = none) :
    AgreesFrame cfg (stepStmt world f s) ⟨stepStmt world F.frame s, F.registers⟩ := by
  have hvals : f.vals = F.frame.vals := h.vals
  have hne : ∀ {storage : StorageId} {lane : LaneId} {addr : List Bool},
      ¬ Accesses cfg storage lane → (((storage, lane), addr) : Cell).1 ≠ cfg.namespace := by
    intro storage lane addr hnot heq
    exact hnot ⟨congrArg Prod.fst heq, congrArg Prod.snd heq⟩
  unfold stepStmt
  rw [hvals]
  cases s with
  | storageRead storage lane addr =>
      have hnot : ¬ Accesses cfg storage lane := by simpa [laneAddress] using hs
      have hread := h.storage.elsewhere
        ((storage, lane), Value.bits (addr.map (look F.frame.vals))) (hne hnot)
      constructor
      case vals => simp only [BIrStmt.mapVars, evalStmt, StorageMap.read, hread]
      case effects => exact h.effects
      case oracles => exact h.oracles
      case storage => exact h.storage
  | storageWrite storage lane src addr =>
      have hnot : ¬ Accesses cfg storage lane := by simpa [laneAddress] using hs
      constructor
      case vals => rfl
      case effects => exact h.effects
      case oracles => exact h.oracles
      case storage => exact h.storage.insert_elsewhere (hne hnot) _
  | actionStoreBit name guard args fallback storage lane addr bit occ =>
      have hnot : ¬ Accesses cfg storage lane := by simpa [laneAddress] using hs
      simp only [BIrStmt.mapVars, evalStmt, h.effects]
      split
      · constructor
        case vals => rfl
        case effects => rfl
        case oracles => exact h.oracles
        case storage => exact h.storage.insert_elsewhere (hne hnot) _
      · constructor
        case vals => rfl
        case effects => rfl
        case oracles => exact h.oracles
        case storage => exact h.storage.insert_elsewhere (hne hnot) _
  | actionCall name guard args fallback n =>
      simp only [BIrStmt.mapVars, evalStmt, h.effects]
      split
      · exact ⟨rfl, rfl, h.oracles, h.storage⟩
      · exact ⟨rfl, h.effects, h.oracles, h.storage⟩
  | rng name =>
      simp only [BIrStmt.mapVars, evalStmt, h.effects]
      exact ⟨rfl, rfl, h.oracles, h.storage⟩
  | rngBit name bit occ =>
      simp only [BIrStmt.mapVars, evalStmt, h.effects]
      exact ⟨rfl, rfl, h.oracles, h.storage⟩
  | oracleCall name args n =>
      simp only [BIrStmt.mapVars, evalStmt, h.oracles]
      exact ⟨rfl, h.effects, rfl, h.storage⟩
  | oracleBit name args bit occ =>
      simp only [BIrStmt.mapVars, evalStmt, h.oracles]
      exact ⟨rfl, h.effects, rfl, h.storage⟩
  | _ => exact ⟨rfl, h.effects, h.oracles, h.storage⟩

theorem AgreesFrame.step (h : AgreesFrame cfg f F) (hstores : storesAction cfg s = false)
    (hrange : ∀ addr, laneAddress cfg s = some addr →
      Bits.value (operandBits f addr) < cfg.numCells)
    (halone : ∀ addr, readAddress cfg s = some addr →
      Alone cfg f.st.storage (operandBits f addr)) :
    AgreesFrame cfg (stepStmt world f s) (stepFile cfg world F s) := by
  by_cases haccess : readsOrWrites cfg s = false
  · rw [stepFile_of_not_access haccess]
    apply h.other
    cases s <;> simp_all [laneAddress, readsOrWrites, storesAction]
  · have haccess := Bool.eq_true_of_not_eq_false haccess
    have hvals : f.vals = F.frame.vals := h.vals
    have hbits : ∀ addr, operandBits f addr = operandBits F.frame addr := by
      intro addr
      rw [operandBits, operandBits, hvals]
    have hvalues : ∀ addr : List ℕ, Value.bits (addr.map (look F.frame.vals)) =
        operandBits F.frame addr := by
      intro addr
      rw [Value.bits, List.map_map]
      rfl
    cases s with
    | storageRead storage lane addr =>
        have hlane : Accesses cfg storage lane := of_decide_eq_true haccess
        have hread := h.storage.lane (operandBits F.frame addr)
          (hbits addr ▸ halone addr (if_pos hlane)) (hbits addr ▸ hrange addr (if_pos hlane))
        rw [stepFile, if_pos hlane]
        constructor
        case vals =>
          simp only [stepStmt, BIrStmt.mapVars, evalStmt, hvals, hvalues, hlane.1, hlane.2]
          rw [show (cfg.storage, cfg.lane) = cfg.namespace from rfl, hread]
        case effects => exact h.effects
        case oracles => exact h.oracles
        case storage => exact h.storage
    | storageWrite storage lane src addr =>
        have hlane : Accesses cfg storage lane := of_decide_eq_true haccess
        rw [stepFile, if_pos hlane]
        constructor
        case vals => simp only [stepStmt, BIrStmt.mapVars, evalStmt, hvals]
        case effects => exact h.effects
        case oracles => exact h.oracles
        case storage =>
          have hinsert := h.storage.insert (operandBits F.frame addr) (look F.frame.vals src).bit
          simp only [stepStmt, BIrStmt.mapVars, evalStmt, hvals, hvalues, hlane.1, hlane.2]
          exact hinsert
    | _ => cases haccess

theorem AgreesFrame.run (h : AgreesFrame cfg f F) {stmts : List Stmt}
    (hstores : ∀ s ∈ stmts, storesAction cfg s = false) (hrange : InRangeFrom cfg world f stmts)
    (halone : ReadsAloneFrom cfg world f stmts) :
    AgreesFrame cfg (evalStmts world f stmts) (stmts.foldl (stepFile cfg world) F) := by
  induction stmts generalizing f F with
  | nil => exact h
  | cons s rest ih =>
      have hstep : AgreesFrame cfg (stepStmt world f s) (stepFile cfg world F s) :=
        h.step (hstores s List.mem_cons_self) hrange.1 halone.1
      exact ih hstep (fun t ht => hstores t (List.mem_cons_of_mem s ht)) hrange.2 halone.2

theorem agrees_empty (cfg : StorageToMuxBoolarConfig) :
    Agrees cfg .empty .empty (List.replicate cfg.numCells false) := by
  constructor
  case elsewhere => exact fun _ _ => rfl
  case lane =>
    intro addr _ hlt
    rw [List.getD_replicate _ hlt]
    rfl
  case size => exact List.length_replicate ..

end Agreement

section Settled
variable {cfg : StorageToMuxBoolarConfig} {blocks : BIrBlocks P}

/-- On such a run the lane may as well be a register file. -/
theorem evalByRegisters_eq {params : ℕ} {stmts : List (Node Stmt P)} {args : List ℕ}
    (hblocks : blocks.blocks = [⟨params, stmts, .jmp ⟨.ret, args⟩⟩])
    (hstores : NoActionStores cfg blocks) {world : Externals} {inputs : List Bool}
    (hrange : InRange cfg world blocks inputs) (halone : ReadsAlone cfg world blocks inputs)
    (budget : ℕ) :
    evalByRegisters cfg world blocks inputs = evalBiir world blocks inputs (budget + 1) := by
  rw [evalBiir_circuit hblocks, evalByRegisters, hblocks]
  dsimp only
  split_ifs with hinputs
  · have hmem : (⟨params, stmts, .jmp ⟨.ret, args⟩⟩ : BIrBlock P) ∈ blocks.blocks := by
      rw [hblocks]
      exact List.mem_singleton_self _
    have hstart : AgreesFrame cfg (startFrame inputs blocks.preInit)
        ⟨startFrame inputs (otherSegments cfg blocks.preInit), fileValues cfg blocks.preInit⟩ :=
      ⟨rfl, rfl, rfl, (agrees_empty cfg).applyPreInit⟩
    have hrun : AgreesFrame cfg
        (evalStmts world (startFrame inputs blocks.preInit) (stmts.map Node.kind))
        ((stmts.map Node.kind).foldl (stepFile cfg world)
          ⟨startFrame inputs (otherSegments cfg blocks.preInit),
            fileValues cfg blocks.preInit⟩) :=
      hstart.run (hstores _ hmem) (hrange _ hmem) (halone _ hmem)
    rw [operandBits, operandBits, hrun.vals]
  · rfl

/-- On every run whose reads find their addresses alone the pass is right, exactly when no action
stores in the lane. Without overflow checks the lane's addresses must have at most 64 bits, and
the new circuit's ids must be `u32`s. -/
theorem storageToMuxBoolar_promotes_iff [Inhabited P] (overflowChecks : Bool)
    (blocks out : BIrBlocks P) (cfg : StorageToMuxBoolarConfig)
    (h : storageToMuxBoolar overflowChecks blocks cfg = .ok out)
    (hbuild : overflowChecks = true ∨
      ShortAddresses cfg blocks ∧ ∀ block ∈ out.blocks, block.IdsFit) :
    Promotes cfg blocks out ↔ NoActionStores cfg blocks := by
  have hshort := hbuild.imp_right And.left
  obtain ⟨params, stmts, args, -, -, -, hblocks, -⟩ := storageToMuxBoolar_eq_ok h hshort
  constructor
  · rintro ⟨-, hnone⟩
    exact (noAccess_iff h hshort).mp hnone
  · intro hstores
    refine ⟨?_, (noAccess_iff h hshort).mpr hstores⟩
    intro world inputs hrange halone budget
    cases budget with
    | zero => rfl
    | succ budget =>
        rw [evalBiir_eq_evalByRegisters h hshort, evalByRegisters_eq hblocks hstores hrange halone]

end Settled

section OneLength
variable {cfg : StorageToMuxBoolarConfig} {width : ℕ}

def Uniform (cfg : StorageToMuxBoolarConfig) (width : ℕ) (m : StorageMap) : Prop :=
  ∀ addr : List Bool, m (cfg.namespace, addr) ≠ none → addr.length = width

variable {m : StorageMap}

theorem Uniform.insert (h : Uniform cfg width m) {cell : Cell}
    (hcell : cell.1 = cfg.namespace → cell.2.length = width) (b : Bool) :
    Uniform cfg width (m.insert cell b) := by
  intro addr hstored
  by_cases heq : (cfg.namespace, addr) = cell
  · subst heq
    exact hcell rfl
  · rw [StorageMap.insert, Function.update_of_ne heq] at hstored
    exact h addr hstored

theorem Uniform.alone (h : Uniform cfg width m) {addr : List Bool} (hlength : addr.length = width) :
    Alone cfg m addr := fun other hstored hvalue =>
  Bits.eq_of_value_eq ((h other hstored).trans hlength.symm) hvalue

theorem Uniform.applyPreInit {segments : List BIrPreInitSegment} (h : Uniform cfg width m)
    (hwidth : ∀ seg ∈ laneSegments cfg segments, ∀ cell ∈ seg.cells, cell.1.length = width) :
    Uniform cfg width (Boolar.applyPreInit m segments) := by
  have hlane : ∀ seg ∈ segments, ∀ cell ∈ seg.cells,
      (seg.storage, seg.lane) = cfg.namespace → cell.1.length = width := by
    intro seg hseg cell hcell heq
    refine hwidth seg (List.mem_filter.mpr ⟨hseg, decide_eq_true ?_⟩) cell hcell
    exact ⟨congrArg Prod.fst heq, congrArg Prod.snd heq⟩
  have hcells : ∀ (ns : Namespace) (cells : List (List Bool × Bool)) (m : StorageMap),
      (∀ cell ∈ cells, ns = cfg.namespace → cell.1.length = width) → Uniform cfg width m →
      Uniform cfg width (cells.foldl (fun m cell => m.insert (ns, cell.1) cell.2) m) := by
    intro ns cells
    induction cells with
    | nil => exact fun _ _ h => h
    | cons cell cells ihcells =>
        intro m hall h
        rw [List.forall_mem_cons] at hall
        exact ihcells _ hall.2 (h.insert hall.1 cell.2)
  clear hwidth
  induction segments generalizing m with
  | nil => exact h
  | cons seg rest ih =>
      rw [List.forall_mem_cons] at hlane
      exact ih (hcells (seg.storage, seg.lane) seg.cells m hlane.1 h) hlane.2

theorem Uniform.step {world : Externals} {f : Frame} {s : Stmt}
    (h : Uniform cfg width f.st.storage)
    (hs : ∀ addr, laneAddress cfg s = some addr → addr.length = width) :
    Uniform cfg width (stepStmt world f s).st.storage := by
  have hlength : ∀ {storage : StorageId} {lane : LaneId} {addr : List ℕ},
      (Accesses cfg storage lane → addr.length = width) →
      (((storage, lane), Value.bits (addr.map (look f.vals))) : Cell).1 = cfg.namespace →
      (Value.bits (addr.map (look f.vals))).length = width := by
    intro storage lane addr hwidth heq
    rw [Value.bits, List.length_map, List.length_map]
    exact hwidth ⟨congrArg Prod.fst heq, congrArg Prod.snd heq⟩
  cases s with
  | storageWrite storage lane src addr =>
      exact h.insert (hlength fun hlane => hs addr (if_pos hlane)) _
  | actionStoreBit name guard args fallback storage lane addr bit occ =>
      simp only [stepStmt, BIrStmt.mapVars, evalStmt]
      split <;> exact h.insert (hlength fun hlane => hs addr (if_pos hlane)) _
  | actionCall name guard args fallback n =>
      simp only [stepStmt, BIrStmt.mapVars, evalStmt]
      split <;> exact h
  | _ => exact h

theorem OneLength.readsAlone {blocks : BIrBlocks P} (h : OneLength cfg width blocks)
    (world : Externals) (inputs : List Bool) : ReadsAlone cfg world blocks inputs := by
  intro block hblock
  have hstart : Uniform cfg width (startFrame inputs blocks.preInit).st.storage :=
    Uniform.applyPreInit (fun _ hstored => absurd rfl hstored) h.segments
  have haccesses := h.accesses block hblock
  generalize startFrame inputs blocks.preInit = f at hstart
  generalize block.kinds = kinds at haccesses
  induction kinds generalizing f with
  | nil => trivial
  | cons s rest ih =>
      rw [List.forall_mem_cons] at haccesses
      refine ⟨fun addr hread => hstart.alone ?_, ih _ (hstart.step haccesses.1) haccesses.2⟩
      rw [operandBits, List.length_map]
      apply haccesses.1 addr
      cases s with
      | storageRead storage lane addr' => exact hread
      | _ => cases hread

end OneLength

def pairLane : StorageToMuxBoolarConfig := ⟨⟨0⟩, ⟨0⟩, 2⟩

def laneCircuit (params : ℕ) (stmts : List Stmt) : BIrBlocks Unit :=
  ⟨[⟨params, stmts.map fun s => ⟨s, (), none⟩, .jmp ⟨.ret, [params + stmts.length - 1]⟩⟩], []⟩

def writeThenRead : BIrBlocks Unit :=
  laneCircuit 2 [.storageWrite pairLane.storage pairLane.lane 0 [1],
    .storageRead pairLane.storage pairLane.lane [1]]

def promoted (blocks : BIrBlocks Unit) : BIrBlocks Unit :=
  match storageToMuxBoolar true blocks pairLane with
  | .ok out => out
  | .error _ => ⟨[], []⟩

theorem promoted_eq {blocks : BIrBlocks Unit}
    (h : (storageToMuxBoolar true blocks pairLane).toOption.isSome = true) :
    storageToMuxBoolar true blocks pairLane = .ok (promoted blocks) := by
  unfold promoted
  cases hrun : storageToMuxBoolar true blocks pairLane with
  | ok out => rfl
  | error e =>
      rw [hrun] at h
      cases h

theorem oneLength_writeThenRead : OneLength pairLane 1 writeThenRead where
  accesses := by
    have haccesses : ∀ block ∈ writeThenRead.blocks, ∀ s ∈ block.kinds,
        ∀ addr ∈ laneAddress pairLane s, addr.length = 1 := by decide
    exact haccesses
  segments := by simp [writeThenRead, laneCircuit, laneSegments]

/-- Two cells, addressed by one bit. -/
theorem storageToMuxBoolar_promotes_iff_writeThenRead :
    Promotes pairLane writeThenRead (promoted writeThenRead) ∧
      ∀ world inputs, ReadsAlone pairLane world writeThenRead inputs := by
  have hstores : ∀ block ∈ writeThenRead.blocks, ∀ s ∈ block.kinds,
      storesAction pairLane s = false := by decide
  constructor
  · exact (storageToMuxBoolar_promotes_iff true writeThenRead (promoted writeThenRead) pairLane
      (promoted_eq (by decide +kernel)) (.inl rfl)).mpr hstores
  · exact oneLength_writeThenRead.readsAlone

def storeThenRead : BIrBlocks Unit :=
  laneCircuit 1 [.actionStoreBit "act" 0 [] 0 pairLane.storage pairLane.lane [0] 0 0,
    .storageRead pairLane.storage pairLane.lane [0]]

/-- The store of the action's result is still in the promoted circuit. -/
theorem not_promotes_storeThenRead :
    ¬ ∀ (cfg : StorageToMuxBoolarConfig) (blocks out : BIrBlocks Unit),
        storageToMuxBoolar true blocks cfg = .ok out → Promotes cfg blocks out := by
  intro h
  have hpromotes : Promotes pairLane storeThenRead (promoted storeThenRead) :=
    h _ _ _ (promoted_eq (by decide +kernel))
  have hleft : ∃ block ∈ (promoted storeThenRead).blocks, ∃ s ∈ block.kinds,
      laneAddress pairLane s ≠ none := by decide +kernel
  obtain ⟨block, hblock, s, hs, hne⟩ := hleft
  exact hne (hpromotes.2 block hblock s hs)

end VolarIR.Storage
