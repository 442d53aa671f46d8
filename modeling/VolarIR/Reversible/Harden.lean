import VolarIR.Reversible.Naive
import VolarIR.Reversible.ZeroTest

/-!
# The hardened circuit is total

A controlled clean copy (compute, copy under the selector, uncompute) changes the y
register alone; a zero test toggles the selector. Two rounds of both are the guarded
change of the library, so on every assignment of every wire the circuit copies the
outputs exactly when the workspace was zero, and restores all other wires.
-/
namespace VolarIR.Rev
open Boolar Words BitStore

section
variable {P : Type} {c : BCircuit P} {share : Bool} {rc : RCircuit} {map : VarWireMap}
  {m : ℕ → ℕ} {compute : List RGate}

def InY (yBase outputs w : ℕ) : Prop := yBase ≤ w ∧ w < yBase + outputs

instance (yBase outputs : ℕ) : DecidablePred (InY yBase outputs) := fun _ =>
  inferInstanceAs (Decidable (_ ∧ _))

/-- What the compute phase leaves on the wire of the output copied to `w`. -/
def outputBit (c : BCircuit P) (m : ℕ → ℕ) (yBase : ℕ) (compute : List RGate)
    (reg : Registry) (cells : Cell → Bool) (wires : ℕ → Bool) (w : ℕ) : Bool :=
  match c.outputs[w - yBase]? with
  | some v => (run (RGate.act reg) compute ⟨wires, cells⟩).wires (m v)
  | none => false

def cleanCopy (c : BCircuit P) (m : ℕ → ℕ) (yBase selector : ℕ) (compute : List RGate) :
    List RGate :=
  compute ++ copyOut (fun w y => .ccnot w selector y) m yBase 0 c.outputs ++ compute.reverse

theorem run_cleanCopy (h : NaiveResult c share rc map m compute) (hc : c.WellFormed)
    (reg : Registry) {selector : ℕ} (hsel : rc.numWires ≤ selector) (s : RState) :
    run (RGate.act reg) (cleanCopy c m map.yBase selector compute) s =
      ⟨guardedXor (InY map.yBase c.outputs.length) selector
        (outputBit c m map.yBase compute reg s.cells) s.wires, s.cells⟩ := by
  have hy := h.phase.yEnd_le
  obtain ⟨hcells, hout, hin⟩ := run_copyOut reg
    (fun w y => .ccnot w selector y) (fun w v => w v && w selector) (fun _ _ _ => rfl) m
    map.yBase c.outputs (map.yBase + c.outputs.length)
    (fun v hv y b w hlo hhi => by
      have := h.phase.map_lt v (hc.2 v hv)
      rw [toggle_of_ne (by omega), toggle_of_ne (by omega)])
    (k := 0) (run (RGate.act reg) compute s) (by omega)
  -- uncomputing does not see the y register
  obtain ⟨hback, hrest⟩ := run_sandwich reg
    (copyOut (fun w y => .ccnot w selector y) m map.yBase 0 c.outputs) (s := s)
    (A := fun w => ¬InY map.yBase c.outputs.length w) h.phase.valid
    (fun g hg w hw hin => by
      have := h.phase.region g hg w hw
      unfold InY at hin
      omega)
    ⟨fun w hw => hout w (by unfold InY at hw; omega), hcells⟩
  have hcomp : ∀ w, InY map.yBase c.outputs.length w ∨ rc.numWires ≤ w →
      (run (RGate.act reg) compute s).wires w = s.wires w := fun w hw =>
    run_wires_of_not_target fun g hg ht => by
      have := h.phase.region g hg w (RGate.targets_subset ht)
      unfold InY at hw
      omega
  refine RState.ext (funext fun w => ?_) hback.2
  dsimp only [guardedXor]
  split_ifs with hw
  · obtain ⟨i, rfl⟩ := Nat.exists_eq_add_of_le hw.1
    have hi : i < c.outputs.length := by
      unfold InY at hw
      omega
    have hget : c.outputs[i]? = some c.outputs[i] := List.getElem?_eq_getElem hi
    refine (hrest _ (not_not.mpr hw)).trans ((hin i _ hget).trans ?_)
    rw [Nat.add_zero, hcomp _ (.inl hw), hcomp selector (.inr hsel)]
    simp [outputBit, hi]
  · exact hback.1 w hw

def hardenRound (c : BCircuit P) (m : ℕ → ℕ) (map : VarWireMap) (compute : List RGate)
    (n : ℕ) : List RGate :=
  cleanCopy c m map.yBase (n + (map.workspace.length - 2)) compute ++
    zeroTest map.workspace (n + (map.workspace.length - 2))
      (List.range' n (map.workspace.length - 2))

theorem NaiveResult.zeroTest_nodup (h : NaiveResult c share rc map m compute) :
    (map.workspace ++ (rc.numWires + (map.workspace.length - 2)) ::
      List.range' rc.numWires (map.workspace.length - 2)).Nodup := by
  refine List.nodup_append'.mpr ⟨h.workspace_nodup, ?_, fun w h₁ h₂ => ?_⟩
  · refine List.nodup_cons.mpr ⟨fun hm => ?_, List.nodup_range'⟩
    rw [List.mem_range'_1] at hm
    omega
  · have hw := ((h.workspace w).mp h₁).2.1
    rcases List.mem_cons.mp h₂ with rfl | h₂
    · omega
    · rw [List.mem_range'_1] at h₂
      omega

theorem NaiveResult.mem_hardenRound (h : NaiveResult c share rc map m compute)
    (hc : c.WellFormed) (hne : map.workspace ≠ []) {g : RGate}
    (hg : g ∈ hardenRound c m map compute rc.numWires) :
    g.Valid (rc.numWires + (map.workspace.length - 2) + 1) ∧
      ((∀ s ∈ c.kinds, s.isGate) → g.usesStorage = false ∧ g.usesExternals = false) := by
  have hy := h.phase.yEnd_le
  have hcomp : ∀ g ∈ compute, g.Valid (rc.numWires + (map.workspace.length - 2) + 1) ∧
      ((∀ s ∈ c.kinds, s.isGate) → g.usesStorage = false ∧ g.usesExternals = false) := by
    intro g hg
    constructor
    · refine RGate.valid_iff.mpr ⟨fun w hw => ?_, h.phase.apart g hg⟩
      have := h.phase.region g hg w hw
      omega
    · intro hs
      obtain ⟨s, hsm, a, f, he, rfl⟩ := h.phase.emitted g hg
      simp [he.no_storage (hs s hsm), he.no_externals (BIrStmt.isLocal_of_isGate (hs s hsm))]
  simp only [hardenRound, cleanCopy, List.mem_append, List.mem_reverse] at hg
  rcases hg with ((hg | hg) | hg) | hg
  · exact hcomp g hg
  · obtain ⟨v, hv, w, h₁, h₂, rfl⟩ := mem_copyOut hg
    have := h.phase.map_lt v (hc.2 v hv)
    exact ⟨⟨by omega, by omega, by omega, by omega, by omega⟩, fun _ => ⟨rfl, rfl⟩⟩
  · exact hcomp g hg
  · obtain ⟨ha, hw, hs, he⟩ := mem_zeroTest h.zeroTest_nodup hne (by simp) hg
    refine ⟨RGate.valid_iff.mpr ⟨fun w hm => ?_, ha⟩, fun _ => ⟨hs, he⟩⟩
    rcases List.mem_append.mp (hw w hm) with hm | hm
    · have := ((h.workspace w).mp hm).2.1
      omega
    · rcases List.mem_cons.mp hm with rfl | hm
      · omega
      · rw [List.mem_range'_1] at hm
        omega

/-- With a workspace to guard, hardening succeeds with two rounds over `W - 1` borrowed wires. -/
theorem harden_eq (h : NaiveResult c share rc map m compute) (hc : c.WellFormed)
    (hne : map.workspace ≠ []) :
    harden c rc map = .ok
      (⟨rc.numWires + (map.workspace.length - 2) + 1,
        hardenRound c m map compute rc.numWires ++ hardenRound c m map compute rc.numWires⟩,
      { map with
        numWires := rc.numWires + (map.workspace.length - 2) + 1
        borrowed := List.range' rc.numWires (map.workspace.length - 2 + 1)
        mode := .hardened }) := by
  have hlen : (copyOut RGate.cnot m map.yBase 0 c.outputs).length = c.outputs.length := by
    generalize 0 = k
    induction c.outputs generalizing k with
    | nil => rfl
    | cons v vs ih => simp [copyOut, ih]
  have htake : rc.gates.take (rc.gates.length - c.outputs.length) = compute := by
    rw [h.gates, List.length_append, hlen, Nat.add_sub_cancel, List.take_left']
    rfl
  have hcopy : ∀ gate, outputGates gate map.map map.yBase 0 c.outputs =
      .ok (copyOut gate m map.yBase 0 c.outputs) := fun gate => by
    rw [outputGates_eq fun v hv => h.map_length ▸ hc.2 v hv, funext h.map_getD]
  have hborrow : List.range' rc.numWires (map.workspace.length - 2 + 1) =
      List.range' rc.numWires (map.workspace.length - 2) ++
        [rc.numWires + (map.workspace.length - 2)] := by
    rw [List.range'_concat, Nat.one_mul]
  have hvalid : ∀ g ∈ hardenRound c m map compute rc.numWires ++
      hardenRound c m map compute rc.numWires,
      g.Valid (rc.numWires + (map.workspace.length - 2) + 1) := by
    intro g hg
    rcases List.mem_append.mp hg with hg | hg <;> exact (h.mem_hardenRound hc hne hg).1
  have hnew := RCircuit.new_ok.mpr ⟨rfl, hvalid⟩
  simp only [harden, htake, hcopy, List.isEmpty_iff, hne, if_false]
  rw [show max (map.workspace.length - 2 + 1) 1 = map.workspace.length - 2 + 1 by omega, hborrow]
  simp only [hardenRound, cleanCopy, List.append_assoc, Nat.add_assoc] at hnew
  simp only [List.getLast?_append, List.getLast?_singleton, Option.some_or,
    expect, bind, Except.bind, pure, Except.pure, List.length_append, List.length_range',
    List.length_singleton, Nat.add_sub_cancel, List.append_assoc, hardenRound, cleanCopy,
    Nat.add_assoc]
  rw [List.take_left' List.length_range', hnew]

theorem outputBit_congr (h : NaiveResult c share rc map m compute) (hc : c.WellFormed)
    {reg : Registry} {cells : Cell → Bool} {v w : ℕ → Bool}
    (hvw : ∀ i, ¬InY map.yBase c.outputs.length i → i < rc.numWires → v i = w i) :
    outputBit c m map.yBase compute reg cells v = outputBit c m map.yBase compute reg cells w := by
  have hy := h.phase.yEnd_le
  have hagree : AgreeOn (fun i => i < map.yBase ∨
      map.yBase + c.outputs.length ≤ i ∧ i < rc.numWires) id ⟨v, cells⟩ ⟨w, cells⟩ :=
    ⟨fun i hi => hvw i (by unfold InY; omega) (by omega), rfl⟩
  funext j
  unfold outputBit
  cases ho : c.outputs[j - map.yBase]? with
  | none => rfl
  | some u =>
      have hu := h.phase.map_lt u (hc.2 u (List.mem_of_getElem? ho))
      exact (run_agree reg h.phase.region hagree).1 (m u) (.inl hu)

theorem run_hardenRound (h : NaiveResult c share rc map m compute) (hc : c.WellFormed)
    (hne : map.workspace ≠ []) (reg : Registry) (s : RState) :
    run (RGate.act reg) (hardenRound c m map compute rc.numWires) s =
      let selector := rc.numWires + (map.workspace.length - 2)
      let copied := guardedXor (InY map.yBase c.outputs.length) selector
        (outputBit c m map.yBase compute reg s.cells) s.wires
      ⟨toggle selector (map.workspace.all fun w => !copied w) copied, s.cells⟩ := by
  rw [hardenRound, run_append, run_cleanCopy h hc reg (by omega),
    run_zeroTest h.zeroTest_nodup hne (by simp)]

/-- Two rounds copy the outputs exactly when the workspace is zero. -/
theorem run_hardenRounds (h : NaiveResult c share rc map m compute) (hc : c.WellFormed)
    (hne : map.workspace ≠ []) (reg : Registry) (s : RState) :
    run (RGate.act reg) (hardenRound c m map compute rc.numWires ++
        hardenRound c m map compute rc.numWires) s =
      ⟨fun w => if InY map.yBase c.outputs.length w then
          s.wires w ^^ (outputBit c m map.yBase compute reg s.cells s.wires w &&
            map.workspace.all fun w => !s.wires w)
        else s.wires w, s.cells⟩ := by
  have hy := h.phase.yEnd_le
  rw [run_append, run_hardenRound h hc hne, run_hardenRound h hc hne]
  refine RState.ext ?_ rfl
  -- neither the outputs' bits nor the test read the y register or the selector
  refine guardedXor_twice (z := fun v => map.workspace.all fun w => !v w) ?_ ?_ ?_ s.wires
  · unfold InY
    omega
  · exact fun v w hvw => outputBit_congr h hc fun i hi hn => hvw i hi (by omega)
  · intro v w hvw
    rw [Bool.eq_iff_iff, List.all_eq_true, List.all_eq_true]
    refine forall₂_congr fun i hi => ?_
    have hi := (h.workspace i).mp hi
    unfold IsWorkspace at hi
    rw [hvw i (by unfold InY; omega) (by omega)]

/-- The paper's embedding, on wires and cells: outputs are exclusive-ored into the y
register exactly when the workspace is zero, and every other wire is restored. -/
def TotalEmbedding (c : BCircuit P) (rc : RCircuit) (map : VarWireMap) : Prop :=
  ∀ (world : Externals) (x : List Bool) (s : RState), x.length = c.params →
    (∀ i < c.params, s.wires i = x.getD i false) → s.cells = StorageMap.empty.read →
    let t := run (RGate.act .unused) rc.gates s
    (∀ w < rc.numWires, ¬InY map.yBase c.outputs.length w → t.wires w = s.wires w) ∧
      ∀ k v, c.outputs[k]? = some v → t.wires (map.yBase + k) = (s.wires (map.yBase + k) ^^
        ((look (c.evalFrame world x (.init .empty)).vals v).bit &&
          map.workspace.all fun w => !s.wires w))

theorem NaiveResult.total_of_empty (h : NaiveResult c share rc map m compute)
    (hc : c.WellFormed) (hs : ∀ s ∈ c.kinds, s.isGate) (he : map.workspace = []) :
    TotalEmbedding c rc map := by
  intro world x s hx hxs hcells t
  have hloc : ∀ s ∈ c.kinds, s.isLocal := fun s h => BIrStmt.isLocal_of_isGate (hs s h)
  obtain ⟨hpar, hout, -, -⟩ := h.run hc hloc .unused world (σ := .init .empty) hx hxs
    (by simp [he]) hcells
  refine ⟨fun w hw hy => ?_, fun k v hk => ?_⟩
  · by_cases hp : w < c.params
    · exact (hpar w hp).trans (hxs w hp).symm
    · have hws : w ∈ map.workspace := (h.workspace w).mpr
        ⟨by omega, hw, by unfold InY at hy; omega⟩
      simp [he] at hws
  · rw [hout k v hk, he]
    simp

theorem NaiveResult.total_of_rounds (h : NaiveResult c share rc map m compute)
    (hc : c.WellFormed) (hs : ∀ s ∈ c.kinds, s.isGate) (hne : map.workspace ≠ [])
    (n : ℕ) (map' : VarWireMap) (hy : map'.yBase = map.yBase)
    (hw : map'.workspace = map.workspace) :
    TotalEmbedding c ⟨n, hardenRound c m map compute rc.numWires ++
      hardenRound c m map compute rc.numWires⟩ map' := by
  intro world x s hx hxs hcells t
  have hloc : ∀ s ∈ c.kinds, s.isLocal := fun s h => BIrStmt.isLocal_of_isGate (hs s h)
  have ht : t = _ := run_hardenRounds h hc hne .unused s
  rw [hy, hw, ht]
  refine ⟨fun w _ hwy => if_neg hwy, fun k v hk => ?_⟩
  have hkl : k < c.outputs.length := (List.getElem?_eq_some_iff.mp hk).1
  have hv := List.mem_of_getElem? hk
  refine (if_pos ⟨Nat.le_add_right .., by omega⟩).trans ?_
  cases hz : map.workspace.all fun w => !s.wires w with
  | false => simp
  | true =>
      have hclean : ∀ w ∈ map.workspace, s.wires w = false := fun w hm => by
        simpa using List.all_eq_true.mp hz w hm
      have hbit := (h.phase.simulates hloc .unused world x (.init .empty) s hx hxs
        (fun w h₁ h₂ h₃ => hclean w ((h.workspace w).mpr ⟨h₁, h₂, h₃⟩)) hcells).1 v
        (hc.2 v hv) (h.phase.outputs_live v hv)
      simp only [outputBit, Nat.add_sub_cancel_left, hk]
      rw [← hbit]

/-- How the wires split: parameters, y register, workspace and borrowed wires. -/
structure Layout (c : BCircuit P) (rc : RCircuit) (map : VarWireMap) : Prop where
  param : ∀ v < c.params, map.wire v = some v ∧ v < map.yBase
  y_lt : map.yBase + c.outputs.length ≤ rc.numWires
  guarded : ∀ w ∈ map.workspace ++ map.borrowed,
    c.params ≤ w ∧ w < rc.numWires ∧ ¬InY map.yBase c.outputs.length w
  cover : ∀ w < rc.numWires, w < c.params ∨ InY map.yBase c.outputs.length w ∨
    w ∈ map.workspace ++ map.borrowed

theorem NaiveResult.layout (h : NaiveResult c share rc map m compute) (map' : VarWireMap)
    (gates : List RGate) (extra : ℕ) (hm : map'.map = map.map) (hy : map'.yBase = map.yBase)
    (hw : map'.workspace = map.workspace) (hb : map'.borrowed = List.range' rc.numWires extra) :
    Layout c ⟨rc.numWires + extra, gates⟩ map' := by
  have hp := h.phase.params_le
  have hye := h.phase.yEnd_le
  constructor
  · intro v hv
    have hvs : v < c.varSpace := by
      unfold BCircuit.varSpace
      omega
    have := h.wire v hvs
    rw [h.phase.map_param v hv] at this
    exact ⟨by rw [VarWireMap.wire, hm]; exact this, by omega⟩
  · rw [hy]
    exact Nat.le_add_right_of_le hye
  · intro w hmem
    rw [hw, hb, List.mem_append, List.mem_range'_1, h.workspace w] at hmem
    unfold IsWorkspace at hmem
    unfold InY
    rw [hy]
    refine ⟨by omega, ?_, by omega⟩
    change w < rc.numWires + extra
    omega
  · intro w hlt
    have hlt : w < rc.numWires + extra := hlt
    rw [hw, hb, List.mem_append, List.mem_range'_1, h.workspace w]
    unfold IsWorkspace InY
    omega

/-- A total embedding, as `apply_pure` computes it. -/
theorem TotalEmbedding.applyPure (h : TotalEmbedding c rc map) (hl : Layout c rc map)
    (hv : rc.Valid) (hst : rc.usesStorage = false) (hex : rc.usesExternals = false)
    (world : Externals) {ws : List Bool} (hws : ws.length = rc.numWires) :
    ∃ ws', rc.applyPure ws = .ok (some ws') ∧ ws'.length = rc.numWires ∧
      (∀ w < rc.numWires, ¬InY map.yBase c.outputs.length w → readWire ws' w = readWire ws w) ∧
      (ws'.drop map.yBase).take c.outputs.length =
        if ∀ w ∈ map.workspace, readWire ws w = false then
          List.zipWith xor ((ws.drop map.yBase).take c.outputs.length)
            (c.eval world (ws.take c.params) (.init .empty))
        else (ws.drop map.yBase).take c.outputs.length := by
  have hy := hl.y_lt
  have hp : c.params ≤ rc.numWires := by
    by_contra hlt
    have := (hl.param rc.numWires (by omega)).2
    omega
  obtain ⟨⟨ws', m'⟩, happ, hwl, hview⟩ := hv.applyWithExternals .unused hws .empty
  have hwl : ws'.length = rc.numWires := hwl
  obtain ⟨hkeep, hout⟩ := h world (ws.take c.params) (view (ws, .empty)) (by simp; omega)
    (fun i hi => by simp [view, readWire, hi]) rfl
  rw [← hview] at hkeep hout
  refine ⟨ws', ?_, hwl, hkeep, ?_⟩
  · simp [RCircuit.applyPure, RCircuit.apply, hex, hst, happ]
  have hin : ∀ k (hk : k < c.outputs.length), readWire ws' (map.yBase + k) =
      (readWire ws (map.yBase + k) ^^
        ((look (c.evalFrame world (ws.take c.params) (.init .empty)).vals c.outputs[k]).bit &&
          map.workspace.all fun w => !readWire ws w)) := fun k hk =>
    hout k _ (List.getElem?_eq_getElem hk)
  have hylen : ((ws.drop map.yBase).take c.outputs.length).length = c.outputs.length := by
    simp
    omega
  have hyk : ∀ k < c.outputs.length, readWire ws (map.yBase + k) =
      ((ws.drop map.yBase).take c.outputs.length).getD k false := fun k hk => by
    simp [readWire, hk]
  split_ifs with hz
  · refine register_eq (by simp [BCircuit.eval]; omega) (by omega) fun k hk => ?_
    have hall : (map.workspace.all fun w => !readWire ws w) = true :=
      List.all_eq_true.mpr fun w hw => by simp [hz w hw]
    rw [hin k hk, hall, Bool.and_true, hyk k hk]
    have hkw : map.yBase + k < ws.length := by omega
    simp [BCircuit.eval, List.getElem?_zipWith, hk, hkw]
  · refine register_eq hylen (by omega) fun k hk => ?_
    have hall : (map.workspace.all fun w => !readWire ws w) = false := by
      rw [Bool.eq_false_iff]
      exact fun ha => hz fun w hw => by simpa using List.all_eq_true.mp ha w hw
    rw [hin k hk, hall, Bool.and_false, Bool.xor_false, hyk k hk]

end

/-- The hardened lowering is the paper's total embedding: on every assignment of
every wire it restores parameters, workspace and borrowed wires, and exclusive-ors
the outputs into the y register exactly when the workspace was zero. -/
theorem hardened_total {P : Type} {c : BCircuit P} (hc : c.WellFormed)
    (hs : ∀ s ∈ c.kinds, s.isGate) (hfits : FitsU32 c) (share : Bool) :
    ∃ rc map, toReversibleWithOptions c ⟨.hardened, share⟩ = .ok (rc, map) ∧
      Layout c rc map ∧ ∀ (ws : List Bool) (world : Externals), ws.length = rc.numWires →
        ∃ ws', rc.applyPure ws = .ok (some ws') ∧ ws'.length = rc.numWires ∧
          (∀ w < rc.numWires, ¬InY map.yBase c.outputs.length w →
            readWire ws' w = readWire ws w) ∧
          (ws'.drop map.yBase).take c.outputs.length =
            if ∀ w ∈ map.workspace, readWire ws w = false then
              List.zipWith xor ((ws.drop map.yBase).take c.outputs.length)
                (c.eval world (ws.take c.params) (.init .empty))
            else (ws.drop map.yBase).take c.outputs.length := by
  have hloc : ∀ s ∈ c.kinds, s.isLocal := fun s h => BIrStmt.isLocal_of_isGate (hs s h)
  have hl : ∀ s ∈ c.kinds, lowerable s := fun s h => by
    have := hs s h
    cases s <;> simp_all [lowerable, BIrStmt.isGate]
  have hstate : ∀ i, checkStateless c.params i c.kinds = .ok () := by
    intro i
    revert hs
    generalize c.kinds = kinds
    induction kinds generalizing i with
    | nil => exact fun _ => rfl
    | cons s rest ih =>
        intro hs
        have h := hs s List.mem_cons_self
        have hst : stateful s = false := by cases s <;> simp_all [stateful, BIrStmt.isGate]
        rw [checkStateless, hst]
        exact ih (i + 1) fun a ha => hs a (List.mem_cons_of_mem s ha)
  obtain ⟨rc, map, m, compute, hrun, -, h⟩ := synthesizeNaive_spec hc hl hfits share
  by_cases hne : map.workspace = []
  · have htotal : TotalEmbedding c rc { map with mode := .hardened } :=
      h.total_of_empty hc hs hne
    have hlay : Layout c rc { map with mode := .hardened } :=
      h.layout _ rc.gates 0 rfl rfl rfl h.borrowed
    refine ⟨rc, { map with mode := .hardened }, ?_, hlay, fun ws world hws =>
      htotal.applyPure hlay h.valid (h.no_storage hs) (h.no_externals hloc) world hws⟩
    simp [toReversibleWithOptions, hstate, hrun, harden, hne, bind, Except.bind, pure, Except.pure]
  · have hround := fun g hg => h.mem_hardenRound hc hne (g := g) hg
    have hrounds : ∀ g ∈ hardenRound c m map compute rc.numWires ++
        hardenRound c m map compute rc.numWires,
        g.Valid (rc.numWires + (map.workspace.length - 2) + 1) ∧
          g.usesStorage = false ∧ g.usesExternals = false := by
      intro g hg
      rcases List.mem_append.mp hg with hg | hg <;>
        exact ⟨(hround g hg).1, (hround g hg).2 hs⟩
    have hlay := h.layout { map with
        numWires := rc.numWires + (map.workspace.length - 2) + 1
        borrowed := List.range' rc.numWires (map.workspace.length - 2 + 1)
        mode := .hardened }
      (hardenRound c m map compute rc.numWires ++ hardenRound c m map compute rc.numWires)
      (map.workspace.length - 2 + 1) rfl rfl rfl rfl
    have htotal := h.total_of_rounds hc hs hne (rc.numWires + (map.workspace.length - 2) + 1)
      { map with
        numWires := rc.numWires + (map.workspace.length - 2) + 1
        borrowed := List.range' rc.numWires (map.workspace.length - 2 + 1)
        mode := .hardened } rfl rfl
    refine ⟨_, _, ?_, hlay, fun ws world hws =>
      htotal.applyPure hlay (fun g hg => (hrounds g hg).1) ?_ ?_ world hws⟩
    · simp [toReversibleWithOptions, hstate, hrun, harden_eq h hc hne, bind, Except.bind,
        Nat.add_assoc]
    all_goals
      simp only [RCircuit.usesStorage, RCircuit.usesExternals, List.any_eq_false]
      intro g hg
      simp [(hrounds g hg).2]

/-- The count of the uses overflows. -/
theorem hardened_not_total : ¬ ∀ c : BCircuit Unit, c.WellFormed → (∀ s ∈ c.kinds, s.isGate) →
    ∀ share, ∃ r, toReversibleWithOptions c ⟨.hardened, share⟩ = .ok r := by
  intro hclaim
  obtain ⟨r, hr⟩ := hclaim copyMany wellFormed_copyMany (by simp [copyMany, BCircuit.kinds]) false
  have hpanic : toReversibleWithOptions copyMany ⟨.hardened, false⟩ = .error .panic := by
    rw [toReversibleWithOptions, synthesizeNaive_copyMany]
    rfl
  rw [hpanic] at hr
  cases hr

def orCircuit : BCircuit Unit := ⟨2, [.new (.or 0 1) ()], [], [2]⟩

theorem fits_orCircuit : FitsU32 orCircuit where
  uses := fun v => List.count_le_length.trans (by decide)
  ids := by decide

theorem hardened_total_or :
    ∃ rc map, toReversibleWithOptions orCircuit ⟨.hardened, false⟩ = .ok (rc, map) ∧
      ∀ (ws : List Bool), ws.length = rc.numWires →
        ∃ ws', rc.applyPure ws = .ok (some ws') ∧
          ∀ w < rc.numWires, ¬InY map.yBase 1 w → readWire ws' w = readWire ws w := by
  obtain ⟨rc, map, hrun, -, h⟩ := hardened_total (c := orCircuit) (by decide) (by decide)
    fits_orCircuit false
  refine ⟨rc, map, hrun, fun ws hws => ?_⟩
  obtain ⟨ws', happ, -, hkeep, -⟩ := h ws
    ⟨fun _ _ _ => false, fun _ _ _ _ => false, fun _ _ _ => false⟩ hws
  exact ⟨ws', happ, hkeep⟩

end VolarIR.Rev
