import VolarIR.Storage.MuxGates

/-!
# The lane as a register file

What the pass makes of a circuit: evaluation in which the lane's cells are registers,
numbered by what their addresses denote. An address past the last register reads zero and
is never written. The storage itself only sees the other accesses, and the stores of action
results, which the pass does not look at.
-/
namespace VolarIR.Storage

open Boolar Circuit Fallible

variable {P : Type}

structure FileFrame where
  frame : Frame
  registers : List Bool

def operandBits (f : Frame) (vars : List ℕ) : List Bool := vars.map fun v => (look f.vals v).bit

/-- Evaluate one statement, the lane's reads and writes on the registers. -/
def stepFile (cfg : StorageToMuxBoolarConfig) (world : Externals) (F : FileFrame) (s : Stmt) :
    FileFrame :=
  match s with
  | .storageRead storage lane addr =>
      if Accesses cfg storage lane then
        ⟨⟨F.frame.vals ++
          [⟨F.registers.getD (Bits.value (operandBits F.frame addr)) false, .none⟩], F.frame.st⟩,
          F.registers⟩
      else ⟨stepStmt world F.frame s, F.registers⟩
  | .storageWrite storage lane src addr =>
      if Accesses cfg storage lane then
        ⟨⟨F.frame.vals ++ [⟨false, .none⟩], F.frame.st⟩,
          F.registers.set (Bits.value (operandBits F.frame addr)) (look F.frame.vals src).bit⟩
      else ⟨stepStmt world F.frame s, F.registers⟩
  | _ => ⟨stepStmt world F.frame s, F.registers⟩

def fileValues (cfg : StorageToMuxBoolarConfig) (segments : List BIrPreInitSegment) : List Bool :=
  (laneSegments cfg segments).foldl (fun values seg =>
    seg.cells.foldl (fun values cell => values.set (Bits.value cell.1) cell.2) values)
    (List.replicate cfg.numCells false)

def readsOrWrites (cfg : StorageToMuxBoolarConfig) : Stmt → Bool
  | .storageRead storage lane _ | .storageWrite storage lane _ _ =>
      decide (Accesses cfg storage lane)
  | _ => false

def storesAction (cfg : StorageToMuxBoolarConfig) : Stmt → Bool
  | .actionStoreBit _ _ _ _ storage lane _ _ _ => decide (Accesses cfg storage lane)
  | _ => false

def ShortAddress (cfg : StorageToMuxBoolarConfig) : Stmt → Prop
  | .storageRead storage lane addr | .storageWrite storage lane _ addr =>
      Accesses cfg storage lane → addr.length ≤ 64
  | _ => True

@[simp] theorem readsOrWrites_mapVars (cfg : StorageToMuxBoolarConfig) (g : ℕ → ℕ) (s : Stmt) :
    readsOrWrites cfg (s.mapVars g) = readsOrWrites cfg s := by
  cases s <;> rfl

@[simp] theorem storesAction_mapVars (cfg : StorageToMuxBoolarConfig) (g : ℕ → ℕ) (s : Stmt) :
    storesAction cfg (s.mapVars g) = storesAction cfg s := by
  cases s <;> rfl

section Copy
variable {cfg : StorageToMuxBoolarConfig} {remap : List ℕ} {state state' : MuxState P}

theorem muxStmt_of_not_access {overflowChecks : Bool} {node : Node Stmt P}
    (h : readsOrWrites cfg node.kind = false) :
    muxStmt overflowChecks cfg state node = copyStmt state node.kind node.prov := by
  unfold muxStmt
  cases hkind : node.kind with
  | storageRead storage lane addr =>
      rw [hkind] at h
      exact if_neg (of_decide_eq_false h)
  | storageWrite storage lane src addr =>
      rw [hkind] at h
      exact if_neg (of_decide_eq_false h)
  | _ => rfl

theorem stepFile_of_not_access {world : Externals} {F : FileFrame} {s : Stmt}
    (h : readsOrWrites cfg s = false) :
    stepFile cfg world F s = ⟨stepStmt world F.frame s, F.registers⟩ := by
  unfold stepFile
  cases s with
  | storageRead storage lane addr => exact if_neg (of_decide_eq_false h)
  | storageWrite storage lane src addr => exact if_neg (of_decide_eq_false h)
  | _ => rfl

theorem remapVar_eq_ok {v w : ℕ} (h : remapVar remap v = .ok w) :
    v < remap.length ∧ remap.getD v 0 = w := by
  have hget := expect_eq_ok.mp h
  constructor
  · exact (List.getElem?_eq_some_iff.mp hget).1
  · rw [List.getD_eq_getElem?_getD, hget]
    rfl

theorem remapVar_of_lt {v : ℕ} (h : v < remap.length) :
    remapVar remap v = .ok (remap.getD v 0) := by
  apply expect_eq_ok.mpr
  rw [List.getD_eq_getElem?_getD, List.getElem?_eq_getElem h]
  rfl

theorem mapM_remapVar_eq_ok {vars news : List ℕ} (h : vars.mapM (remapVar remap) = .ok news) :
    (∀ v ∈ vars, v < remap.length) ∧ news = vars.map fun v => remap.getD v 0 := by
  have hlt : ∀ v ∈ vars, v < remap.length := by
    intro v hv
    obtain ⟨w, hw⟩ := of_mapM_eq_ok h v hv
    exact (remapVar_eq_ok hw).1
  have hmap : vars.mapM (remapVar remap) = .ok (vars.map fun v => remap.getD v 0) :=
    mapM_eq_ok fun v hv => remapVar_of_lt (hlt v hv)
  rw [h] at hmap
  exact ⟨hlt, Except.ok.inj hmap⟩

theorem copyStmt_eq_ok {s : Stmt} {p : P} (h : copyStmt state s p = .ok state') :
    (∀ v ∈ s.operands, v < state.remap.length) ∧
      state' = { state with
        block := (push state.block (s.mapVars fun v => state.remap.getD v 0) p).2
        remap := state.remap ++
          [(push state.block (s.mapVars fun v => state.remap.getD v 0) p).1] } := by
  simp only [copyStmt, Except.bind_eq_ok] at h
  obtain ⟨remapped, hmap, hret⟩ := h
  have hlt : ∀ v ∈ s.operands, v < state.remap.length := by
    intro v hv
    obtain ⟨w, hw⟩ := BIrStmt.of_map_eq_ok hmap v hv
    exact (remapVar_eq_ok hw).1
  have hsame := BIrStmt.map_eq_ok fun v hv => remapVar_of_lt (hlt v hv)
  rw [hsame] at hmap
  cases hmap
  cases hret
  exact ⟨hlt, rfl⟩

theorem checkAddress_eq_ok {addr : List ℕ} {u : Unit} (h : checkAddress cfg addr = .ok u) :
    cfg.numCells ≤ 2 ^ addr.length := by
  unfold checkAddress at h
  split_ifs at h with hnarrow
  have hwide := not_lt.mp (not_or.mp hnarrow).1
  exact hwide.trans (Nat.pow_le_pow_right (by decide) (Nat.min_le_left _ _))

end Copy

section Simulation
variable {cfg : StorageToMuxBoolarConfig} {world : Externals} {x : List Bool} {σ : EvalState}

/-- The emitted block evaluates as the register file does, has no read or write of the lane,
and stores an action result in it where the statements done so far do. -/
structure Tracks (cfg : StorageToMuxBoolarConfig) (world : Externals) (x : List Bool)
    (σ : EvalState) (done : List Stmt) (state : MuxState P) (F : FileFrame) : Prop where
  params : x.length = state.block.params
  renamed : Renamed world x σ (fun _ => True) state.block.kinds state.remap F.frame
  registers : Carries world x σ state.block.kinds state.cells F.registers
  size : F.registers.length = cfg.numCells
  accesses : ∀ s ∈ state.block.kinds, readsOrWrites cfg s = false
  stores : (∃ s ∈ state.block.kinds, storesAction cfg s = true) ↔
    ∃ s ∈ done, storesAction cfg s = true

variable {done : List Stmt} {state state' : MuxState P} {F : FileFrame}

theorem Tracks.carries (h : Tracks cfg world x σ done state F) {vars : List ℕ}
    (hlt : ∀ v ∈ vars, v < state.remap.length) :
    Carries world x σ state.block.kinds (vars.map fun v => state.remap.getD v 0)
      (operandBits F.frame vars) := by
  induction vars with
  | nil => exact .nil
  | cons v vars ih =>
      have hv := hlt v List.mem_cons_self
      apply List.Forall₂.cons
      · exact ⟨h.renamed.defined v hv, h.renamed.bit v hv⟩
      · exact ih fun u hu => hlt u (List.mem_cons_of_mem v hu)

theorem access_of_isGate {s : Stmt} (h : s.isGate) :
    readsOrWrites cfg s = false ∧ storesAction cfg s = false := by
  cases s <;> first | exact ⟨rfl, rfl⟩ | cases h

/-- A read or write of the lane has been replaced by gates. -/
theorem Tracks.gates (h : Tracks cfg world x σ done state F) {block' : BIrBlock P}
    (hgates : Gates state.block block') {cells' : List ℕ} {registers' : List Bool} {v : ℕ}
    {b : Bool} (hv : HoldsBit world x σ block'.kinds v b)
    (hcells : Carries world x σ block'.kinds cells' registers')
    (hsize : registers'.length = cfg.numCells) {s : Stmt} (hs : storesAction cfg s = false) :
    Tracks cfg world x σ (done ++ [s]) ⟨block', state.remap ++ [v], cells'⟩
      ⟨⟨F.frame.vals ++ [⟨b, .none⟩], F.frame.st⟩, registers'⟩ := by
  obtain ⟨gates, hkinds, hall⟩ := hgates.pushed
  have hstores : (∃ t ∈ block'.kinds, storesAction cfg t = true) ↔
      ∃ t ∈ state.block.kinds, storesAction cfg t = true := by
    rw [hkinds]
    constructor
    · rintro ⟨t, ht, hstore⟩
      rcases List.mem_append.mp ht with ht | ht
      · exact ⟨t, ht, hstore⟩
      · rw [(access_of_isGate (hall t ht)).2] at hstore
        cases hstore
    · rintro ⟨t, ht, hstore⟩
      exact ⟨t, List.mem_append_left _ ht, hstore⟩
  constructor
  case params => exact h.params.trans hgates.params.symm
  case renamed =>
    exact h.renamed.push (r := (⟨b, .none⟩, F.frame.st)) hgates.grows hv.1 hv.2
      (hgates.st.trans h.renamed.st)
  case registers => exact hcells
  case size => exact hsize
  case accesses =>
    intro t ht
    rw [hkinds] at ht
    rcases List.mem_append.mp ht with ht | ht
    · exact h.accesses t ht
    · exact (access_of_isGate (hall t ht)).1
  case stores =>
    rw [hstores, h.stores]
    simp [or_and_right, exists_or, hs]

theorem Tracks.copy (h : Tracks cfg world x σ done state F) {s : Stmt} {p : P}
    (haccess : readsOrWrites cfg s = false) (hcopy : copyStmt state s p = .ok state') :
    Tracks cfg world x σ (done ++ [s]) state' ⟨stepStmt world F.frame s, F.registers⟩ := by
  obtain ⟨hlt, rfl⟩ := copyStmt_eq_ok hcopy
  have hkinds := kinds_push state.block (s.mapVars fun v => state.remap.getD v 0) p
  constructor
  case params => exact h.params
  case renamed =>
    have hemit := h.renamed.emit hlt fun _ _ => trivial
    rwa [← kinds_push state.block _ p, ← push_id h.params _ p] at hemit
  case registers =>
    apply Carries.mono h.registers
    rw [hkinds]
    exact List.prefix_append _ _
  case size => exact h.size
  case accesses =>
    intro t ht
    rw [hkinds] at ht
    rcases List.mem_append.mp ht with ht | ht
    · exact h.accesses t ht
    · rw [List.mem_singleton.mp ht, readsOrWrites_mapVars]
      exact haccess
  case stores =>
    rw [hkinds]
    simp only [List.mem_append, List.mem_singleton, or_and_right, exists_or, exists_eq_left,
      storesAction_mapVars, h.stores]

variable {overflowChecks : Bool}

theorem Tracks.step (h : Tracks cfg world x σ done state F) {node : Node Stmt P}
    (hshort : overflowChecks = true ∨ ShortAddress cfg node.kind)
    (hstep : muxStmt overflowChecks cfg state node = .ok state') :
    Tracks cfg world x σ (done ++ [node.kind]) state' (stepFile cfg world F node.kind) := by
  by_cases haccess : readsOrWrites cfg node.kind = false
  · rw [muxStmt_of_not_access haccess] at hstep
    rw [stepFile_of_not_access haccess]
    exact h.copy haccess hstep
  · have haccess := Bool.eq_true_of_not_eq_false haccess
    unfold muxStmt at hstep
    cases hkind : node.kind with
    | storageRead storage lane addr =>
        rw [hkind] at haccess hstep hshort
        have hlane : Accesses cfg storage lane := of_decide_eq_true haccess
        simp only [if_pos hlane, Except.bind_eq_ok] at hstep
        obtain ⟨_, hcheck, addrNew, haddr, ⟨result, block⟩, hread, hret⟩ := hstep
        cases hret
        obtain ⟨hlt, rfl⟩ := mapM_remapVar_eq_ok haddr
        have hlength : (operandBits F.frame addr).length = addr.length := List.length_map ..
        have hfit : F.registers.length ≤ 2 ^ (operandBits F.frame addr).length := by
          rw [h.size, hlength]
          exact checkAddress_eq_ok hcheck
        have hbits : overflowChecks = true ∨ (operandBits F.frame addr).length ≤ 64 :=
          hshort.imp_right fun hle => hlength ▸ hle hlane
        have hspec := muxRead_spec h.params (h.carries hlt) h.registers hfit hbits hread
        rw [stepFile, if_pos hlane]
        exact h.gates hspec.1 hspec.2 (Carries.mono h.registers hspec.1.grows) h.size rfl
    | storageWrite storage lane src addr =>
        rw [hkind] at haccess hstep hshort
        have hlane : Accesses cfg storage lane := of_decide_eq_true haccess
        simp only [if_pos hlane, Except.bind_eq_ok] at hstep
        obtain ⟨_, hcheck, addrNew, haddr, srcNew, hsrc, ⟨cells, block⟩, hwrite, hret⟩ := hstep
        cases hret
        obtain ⟨hlt, rfl⟩ := mapM_remapVar_eq_ok haddr
        obtain ⟨hsrclt, rfl⟩ := remapVar_eq_ok hsrc
        have hlength : (operandBits F.frame addr).length = addr.length := List.length_map ..
        have hfit : F.registers.length ≤ 2 ^ (operandBits F.frame addr).length := by
          rw [h.size, hlength]
          exact checkAddress_eq_ok hcheck
        have hbits : overflowChecks = true ∨ (operandBits F.frame addr).length ≤ 64 :=
          hshort.imp_right fun hle => hlength ▸ hle hlane
        have hbit : HasBit world x σ state.block.kinds (state.remap.getD src 0)
            (look F.frame.vals src).bit := ⟨h.renamed.defined src hsrclt, h.renamed.bit src hsrclt⟩
        have hspec := muxWrite_spec h.params (h.carries hlt) h.registers hbit hfit hbits hwrite
        have hpush := gates_push block (s := .zero) rfl node.prov
        have hzero : HoldsBit world x σ (push block .zero node.prov).2.kinds
            (push block .zero node.prov).1 false :=
          holdsBit_push (h.params.trans hspec.1.params.symm) node.prov rfl
        rw [stepFile, if_pos hlane]
        exact h.gates (hspec.1.trans hpush) hzero (Carries.mono hspec.2 hpush.grows)
          ((List.length_set ..).trans h.size) rfl
    | _ =>
        rw [hkind] at haccess
        cases haccess

theorem Tracks.run {nodes : List (Node Stmt P)} (h : Tracks cfg world x σ [] state F)
    (hshort : overflowChecks = true ∨ ∀ node ∈ nodes, ShortAddress cfg node.kind)
    (hrun : nodes.foldlM (muxStmt overflowChecks cfg) state = .ok state') :
    Tracks cfg world x σ (nodes.map Node.kind) state'
      ((nodes.map Node.kind).foldl (stepFile cfg world) F) := by
  revert hshort
  apply foldlM_invariant (fun done (reached : MuxState P) =>
    (overflowChecks = true ∨ ∀ node ∈ done, ShortAddress cfg node.kind) →
      Tracks cfg world x σ (done.map Node.kind) reached
        ((done.map Node.kind).foldl (stepFile cfg world) F)) hrun
  · exact fun _ => h
  · intro done node before after hbefore hstep hshort
    rw [List.map_append, List.foldl_append]
    have hdone := hbefore (hshort.imp_right fun hall => (List.forall_mem_append.mp hall).1)
    exact hdone.step (hshort.imp_right fun hall => hall node (by simp)) hstep

end Simulation

section Pass
variable {cfg : StorageToMuxBoolarConfig}

theorem length_fileValues (segments : List BIrPreInitSegment) :
    (fileValues cfg segments).length = cfg.numCells := by
  have hcells : ∀ (cells : List (List Bool × Bool)) (values : List Bool),
      (cells.foldl (fun values cell => values.set (Bits.value cell.1) cell.2) values).length =
        values.length := by
    intro cells
    induction cells with
    | nil => exact fun _ => rfl
    | cons cell cells ih => exact fun values => (ih _).trans (List.length_set ..)
  have hsegments : ∀ (segments : List BIrPreInitSegment) (values : List Bool),
      (segments.foldl (fun values seg => seg.cells.foldl (fun values cell =>
        values.set (Bits.value cell.1) cell.2) values) values).length = values.length := by
    intro segments
    induction segments with
    | nil => exact fun _ => rfl
    | cons seg segments ih => exact fun values => (ih _).trans (hcells seg.cells values)
  exact (hsegments _ _).trans (List.length_replicate ..)

theorem initValues_eq_ok {segments : List BIrPreInitSegment} {values : List Bool}
    (h : initValues cfg segments = .ok values) : values = fileValues cfg segments := by
  have hall := foldlM_invariant (fun done (values : List Bool) =>
    values = done.foldl (fun values seg => seg.cells.foldl (fun values cell =>
      values.set (Bits.value cell.1) cell.2) values) (List.replicate cfg.numCells false) ∧
        values.length = cfg.numCells) h ⟨rfl, List.length_replicate ..⟩ (by
      rintro done seg before after ⟨hbefore, hlength⟩ hrun
      rw [List.foldl_append, ← hbefore]
      -- the cells of one segment
      apply foldlM_invariant (fun done (values : List Bool) =>
        values = done.foldl (fun values cell => values.set (Bits.value cell.1) cell.2) before ∧
          values.length = cfg.numCells) hrun ⟨rfl, hlength⟩
      rintro done cell values next ⟨hvalues, hsize⟩ hstep
      cases haddress : addressToUsize cell.1 with
      | none =>
          rw [haddress] at hstep
          cases hstep
      | some idx =>
          rw [haddress] at hstep
          have hidx : idx = Bits.value cell.1 := by
            unfold addressToUsize at haddress
            split_ifs at haddress
            exact (Option.some.inj haddress).symm
          have hset : (if idx < cfg.numCells then values.set idx cell.2 else values) =
              values.set idx cell.2 := by
            split_ifs with hlt
            · rfl
            · rw [List.set_eq_of_length_le (hsize ▸ not_lt.mp hlt)]
          dsimp only at hstep
          rw [hset] at hstep
          cases hstep
          rw [List.foldl_append, ← hvalues, hidx]
          exact ⟨rfl, (List.length_set ..).trans hsize⟩)
  exact hall.1

end Pass
end VolarIR.Storage
