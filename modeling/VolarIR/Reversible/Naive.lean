import VolarIR.Reversible.Simulation
import Mathlib.Data.List.GetD

/-!
# The naive circuit

Compaction closes the gap below the y register by a renaming that is injective on
the wires in use, so the compacted gates compute what the synthesised ones did
(`Compute`). With the output copies behind them this is the circuit
`synthesizeNaive` returns.
-/
namespace VolarIR.Rev
open Boolar Words BitStore

theorem usedVars_eq_operands {s : Stmt} (h : lowerable s) : usedVars s = s.operands := by
  cases s <;> simp_all [usedVars, BIrStmt.operands, lowerable]

theorem operands_lt_of_defined {base : ℕ} {stmts : List Stmt} (h : Defined base stmts) :
    ∀ v ∈ stmts.flatMap BIrStmt.operands, v < base + stmts.length := by
  induction stmts generalizing base with
  | nil => simp
  | cons s rest ih =>
      intro v hv
      rw [List.flatMap_cons] at hv
      rw [List.length_cons]
      rcases List.mem_append.mp hv with hv | hv
      · have := h.1 v hv
        omega
      · have := ih h.2 v hv
        omega

theorem countUses_spec {P : Type} {c : BCircuit P} (hc : c.WellFormed)
    (hl : ∀ s ∈ c.kinds, lowerable s) (hfits : UsesFit c) :
    ∃ uses, countUses c = .ok uses ∧
      ∀ v, (c.kinds.flatMap BIrStmt.operands ++ c.outputs).count v ≤ uses.getD v 0 := by
  have hu : c.kinds.flatMap usedVars = c.kinds.flatMap BIrStmt.operands :=
    List.flatMap_congr fun s hs => usedVars_eq_operands (hl s hs)
  have hlt : ∀ v ∈ c.kinds.flatMap BIrStmt.operands ++ c.outputs, v < c.varSpace := by
    intro v hv
    rcases List.mem_append.mp hv with hv | hv
    · simpa [BCircuit.kinds, BCircuit.varSpace] using operands_lt_of_defined hc.1 v hv
    · exact hc.2 v hv
  obtain ⟨uses, hr, -, hcount⟩ := foldlM_bump
    (c.kinds.flatMap BIrStmt.operands ++ c.outputs) (List.replicate c.varSpace 0)
    (by simpa using hlt) (fun v => by
      rw [← hu]
      simpa [List.getD_replicate] using hfits v)
  refine ⟨uses, by rw [countUses, hu]; exact hr, fun v => ?_⟩
  by_cases hv : v < c.varSpace
  · rw [hcount v (by simpa using hv)]
    exact Nat.le_add_left ..
  · rw [List.count_eq_zero.mpr fun hm => hv (hlt v hm)]
    exact Nat.zero_le _

/-- The source's closure is the shift itself: a gap of zero wires shifts nothing. -/
theorem compact_eq (yBaseProv delta : ℕ) :
    (fun w => if delta > 0 then shift yBaseProv delta w else w) = shift yBaseProv delta := by
  funext w
  unfold shift
  split_ifs <;> omega

theorem shift_of_lt {y d w : ℕ} (h : w < y) : shift y d w = w := if_neg (by omega)

theorem shift_of_le {y d w : ℕ} (h : y ≤ w) : shift y d w = w - d := if_pos h

def InUse (anc prov fresh w : ℕ) : Prop := w < anc ∨ prov ≤ w ∧ w < fresh

theorem shift_injOn (fresh : ℕ) {anc prov : ℕ} (h : anc ≤ prov) :
    ∀ v w, InUse anc prov fresh v → InUse anc prov fresh w →
      shift prov (prov - anc) v = shift prov (prov - anc) w → v = w := by
  intro v w hv hw e
  unfold InUse at hv hw
  unfold shift at e
  split_ifs at e <;> omega

/-- The vars whose wires in-place XORs consume while `c` is lowered. -/
def consumedVars {P : Type} (c : BCircuit P) (share : Bool) : List ℕ :=
  match countUses c with
  | .ok uses =>
      consumedFrom c.params uses share 0
        (.init c.params (c.params + c.stmts.length) c.outputs.length) c.kinds
  | .error _ => []

/-- The gates before the output copies: they live on statement ancillas and scratch,
read the x register, and leave every var that still owns its wire there. -/
structure Compute {P : Type} (c : BCircuit P) (share : Bool) (m : ℕ → ℕ) (yBase n : ℕ)
    (gates : List RGate) : Prop where
  params_le : c.params ≤ yBase
  yEnd_le : yBase + c.outputs.length ≤ n
  map_param : ∀ v < c.params, m v = v
  map_lt : ∀ v < c.varSpace, m v < yBase
  outputs_live : ∀ v ∈ c.outputs, v ∉ consumedVars c share
  apart : ∀ g ∈ gates, g.Apart
  region : ∀ g ∈ gates, ∀ w ∈ g.wires, w < yBase ∨ yBase + c.outputs.length ≤ w ∧ w < n
  target : ∀ g ∈ gates, ∀ w ∈ g.targets, c.params ≤ w
  emitted : ∀ g ∈ gates, ∃ s ∈ c.kinds, ∃ g₀ f, Emits share s g₀ ∧ g = g₀.mapWires f
  simulates : (∀ s ∈ c.kinds, s.isLocal) → ∀ (reg : Registry) (world : Externals) (x : List Bool)
    (σ : EvalState) (s : RState), x.length = c.params →
    (∀ i < c.params, s.wires i = x.getD i false) →
    (∀ w, c.params ≤ w → w < n → w < yBase ∨ yBase + c.outputs.length ≤ w → s.wires w = false) →
    s.cells = σ.storage.read →
    (∀ v < c.varSpace, v ∉ consumedVars c share →
      (run (RGate.act reg) gates s).wires (m v) = (look (c.evalFrame world x σ).vals v).bit) ∧
    (run (RGate.act reg) gates s).cells = (c.evalFrame world x σ).st.storage.read

def uncompact (anc prov fresh : ℕ) (s : RState) : RState where
  wires j := if j < anc ∨ prov ≤ j ∧ j < fresh then s.wires (shift prov (prov - anc) j) else false
  cells := s.cells

theorem uncompact_agree (anc prov fresh : ℕ) (s : RState) :
    AgreeOn (InUse anc prov fresh) (shift prov (prov - anc)) (uncompact anc prov fresh s) s :=
  ⟨fun _ hj => if_pos hj, rfl⟩

theorem Synth.Wf.init (params n outputs : ℕ) :
    (Synth.init params (params + n) outputs).Wf params (params + n + outputs) 0 where
  map_length := by simp [Synth.init]
  params_le := le_rfl
  anc_le := le_rfl
  pool_base := rfl
  map_param := fun v hv => by simp [Synth.init, Synth.wireOf, hv]
  map_range := fun v h₁ h₂ => by omega
  region := by simp [Synth.init]
  target := by simp [Synth.init]
  apart := by simp [Synth.init]

theorem Synth.Owned.init {params prov outputs : ℕ} {uses rest : List ℕ}
    (h : ∀ v, rest.count v ≤ uses.getD v 0) :
    (Synth.init params prov outputs).Owned params 0 uses rest [] where
  inj := fun u v hu hv _ _ e => by
    have hu : u < params := hu
    have hv : v < params := hv
    simpa [Synth.init, Synth.wireOf, hu, hv] using e
  unread := by simp
  counted := h

def Synth.compute (st : Synth) (prov : ℕ) : List RGate :=
  st.gates.map (RGate.mapWires (shift prov (prov - st.nextAnc)))

def Synth.numWires (st : Synth) (prov outputs : ℕ) : ℕ :=
  prov + outputs + st.scratch.peakAllocated - (prov - st.nextAnc)

/-- A clean compacted state stands for one in which no statement has run yet. -/
theorem sim_init {params n outputs anc fresh : ℕ} {x : List Bool} {σ : EvalState} {s : RState}
    (hp : params ≤ anc) (ha : anc ≤ params + n) (hf : params + n + outputs ≤ fresh)
    (hx : x.length = params) (hxs : ∀ i < params, s.wires i = x.getD i false)
    (hclean : ∀ w, params ≤ w → w < fresh - (params + n - anc) →
      w < anc ∨ anc + outputs ≤ w → s.wires w = false)
    (hcells : s.cells = σ.storage.read) :
    Sim (params + n) (.init params (params + n) outputs) [] ⟨paramValues x, σ⟩
      (uncompact anc (params + n) fresh s) where
  defined := by simp [Synth.init, hx]
  vars := fun v hv _ => by
    have hv : v < params := by simpa [Synth.init] using hv
    have hw : (Synth.init params (params + n) outputs).wireOf v = v := by
      simp [Synth.init, Synth.wireOf, hv]
    rw [hw, look_paramValues]
    simp only [uncompact]
    rw [if_pos (.inl (by omega)), shift_of_lt (by omega)]
    exact hxs v hv
  clean := fun w hlo hhi => by
    have hlo : params ≤ w := hlo
    simp only [uncompact]
    split_ifs with h
    · have hw : w < anc := by omega
      rw [shift_of_lt hhi]
      exact hclean w hlo (by omega) (.inl hw)
    · rfl
  idle := fun w hw => by
    have hw : params + n + outputs ≤ w := AncillaPool.base_le_of_idle hw
    simp only [uncompact]
    split_ifs with h
    · rw [shift_of_le (by omega)]
      exact hclean _ (by omega) (by omega) (.inr (by omega))
    · rfl
  cells := hcells

/-- Compacting what the loop synthesised gives the compute phase. -/
theorem compute_of_synthFrom (share : Bool) {P : Type} {c : BCircuit P} {uses : List ℕ}
    (hc : c.WellFormed) (hl : ∀ s ∈ c.kinds, lowerable s)
    (hids : ∀ i < c.kinds.length, c.params + i ≤ u32Max) (hu : countUses c = .ok uses)
    (hcount : ∀ v, (c.kinds.flatMap BIrStmt.operands ++ c.outputs).count v ≤ uses.getD v 0) :
    ∃ st, synthFrom c.params uses share 0
        (.init c.params (c.params + c.stmts.length) c.outputs.length) c.kinds = .ok st ∧
      st.map.length = c.varSpace ∧ (∀ v < c.varSpace, st.wireOf v < st.nextAnc) ∧
      st.nextAnc ≤ c.params + c.stmts.length ∧
      Compute c share st.wireOf st.nextAnc
        (st.numWires (c.params + c.stmts.length) c.outputs.length)
        (st.compute (c.params + c.stmts.length)) := by
  have hlen : c.kinds.length = c.stmts.length := by simp [BCircuit.kinds]
  obtain ⟨st, hst, hw, ho, gs, hgs, hem, hsim⟩ := synthFrom_spec share
    (Nat.le_add_right (c.params + c.stmts.length) c.outputs.length) (Synth.Wf.init _ _ _)
    (Synth.Owned.init hcount) (i := 0) hc.1 hl
    (fun j _ hj => hids j (by rwa [Nat.zero_add] at hj)) (by omega)
  rw [hlen, Nat.zero_add] at hw ho
  rw [List.nil_append] at ho hsim
  obtain rfl : st.gates = gs := by simpa [Synth.init] using hgs
  have hcv : consumedFrom c.params uses share 0
      (.init c.params (c.params + c.stmts.length) c.outputs.length) c.kinds =
      consumedVars c share := by
    rw [consumedVars, hu]
  rw [hcv] at ho hsim
  have hlt : ∀ v < c.varSpace, st.wireOf v < st.nextAnc := fun v hv => hw.map_lt hv
  have hanc := hw.anc_le
  have hbase := hw.pool_base
  have hfresh := st.scratch.base_le
  have hn : c.params + c.stmts.length + c.outputs.length + st.scratch.peakAllocated =
      st.scratch.nextFresh := by
    unfold AncillaPool.peakAllocated
    omega
  refine ⟨st, hst, hw.map_length, hlt, hanc, ?_⟩
  rw [Synth.numWires, hn]
  -- every synthesised gate lives on wires in use, where the shift is injective
  have huse : ∀ g ∈ st.gates, ∀ w ∈ g.wires,
      InUse st.nextAnc (c.params + c.stmts.length) st.scratch.nextFresh w := by
    intro g hg w hm
    rcases hw.region g hg w hm with h | h
    · exact .inl h
    · exact .inr (by omega)
  have hinj := shift_injOn st.scratch.nextFresh hanc
  constructor
  · exact hw.params_le
  · omega
  · exact hw.map_param
  · exact hlt
  · exact fun v hv hd => ho.unread v hd hv
  · intro g hg
    obtain ⟨a, ha, rfl⟩ := List.mem_map.mp hg
    exact (hw.apart a ha).mapWires fun v hv w hw' e =>
      hinj v w (huse a ha v hv) (huse a ha w hw') e
  · intro g hg w hm
    obtain ⟨a, ha, rfl⟩ := List.mem_map.mp hg
    rw [RGate.wires_mapWires] at hm
    obtain ⟨v, hv, rfl⟩ := List.mem_map.mp hm
    rcases hw.region a ha v hv with h | h
    · rw [shift_of_lt (by omega)]
      exact .inl h
    · rw [shift_of_le (by omega)]
      exact .inr (by omega)
  · intro g hg w hm
    obtain ⟨a, ha, rfl⟩ := List.mem_map.mp hg
    rw [RGate.targets_mapWires] at hm
    obtain ⟨v, hv, rfl⟩ := List.mem_map.mp hm
    have hp := hw.target a ha v hv
    have hpa := hw.params_le
    unfold shift
    split_ifs <;> omega
  · intro g hg
    obtain ⟨a, ha, rfl⟩ := List.mem_map.mp hg
    obtain ⟨s, hs, he⟩ := hem a ha
    exact ⟨s, hs, a, _, he, rfl⟩
  · intro hloc reg world x σ s hx hxs hclean hcells
    have h := hsim reg world _ _ hloc
      (sim_init hw.params_le hanc (hbase ▸ hfresh) hx hxs hclean hcells)
    have hagree := run_rename reg huse hinj
      (uncompact_agree st.nextAnc (c.params + c.stmts.length) st.scratch.nextFresh s)
    refine ⟨fun v hv hd => ?_, hagree.2 ▸ h.cells⟩
    have hv' := hlt v hv
    have e := hagree.1 _ (.inl hv')
    rw [shift_of_lt (by omega)] at e
    exact e.symm.trans (h.vars v (hw.map_length ▸ hv) hd)

def copyOut (gate : ℕ → ℕ → RGate) (m : ℕ → ℕ) (yBase : ℕ) : ℕ → List ℕ → List RGate
  | _, [] => []
  | k, v :: vs => gate (m v) (yBase + k) :: copyOut gate m yBase (k + 1) vs

section CopyOut
variable {gate : ℕ → ℕ → RGate} {m : ℕ → ℕ} {yBase : ℕ}

theorem mem_copyOut {k : ℕ} {vs : List ℕ} {g : RGate} (h : g ∈ copyOut gate m yBase k vs) :
    ∃ v ∈ vs, ∃ w, yBase + k ≤ w ∧ w < yBase + k + vs.length ∧ g = gate (m v) w := by
  induction vs generalizing k with
  | nil => simp [copyOut] at h
  | cons v vs ih =>
      rcases List.mem_cons.mp h with rfl | h
      · exact ⟨v, List.mem_cons_self, _, le_rfl, by simp, rfl⟩
      · obtain ⟨u, hu, w, h₁, h₂, rfl⟩ := ih h
        rw [List.length_cons]
        exact ⟨u, List.mem_cons_of_mem v hu, w, by omega, by omega, rfl⟩

theorem outputGates_eq {map : List ℕ} {k : ℕ} {vs : List ℕ} (h : ∀ v ∈ vs, v < map.length) :
    outputGates gate map yBase k vs = .ok (copyOut gate (fun v => map.getD v 0) yBase k vs) := by
  induction vs generalizing k with
  | nil => rfl
  | cons v vs ih =>
      have hv := h v List.mem_cons_self
      have hg : map[v]? = some (map.getD v 0) := by simp [hv]
      rw [outputGates, hg, ih fun u hu => h u (List.mem_cons_of_mem v hu)]
      rfl

theorem run_copyOut (reg : Registry) (gate : ℕ → ℕ → RGate) (bit : (ℕ → Bool) → ℕ → Bool)
    (hact : ∀ w y t, (gate w y).act reg t = { t with wires := toggle y (bit t.wires w) t.wires })
    (m : ℕ → ℕ) (yBase : ℕ) (vs : List ℕ) (top : ℕ) (hbit : ∀ v ∈ vs, ∀ y b w, yBase ≤ y → y < top →
      bit (toggle y b w) (m v) = bit w (m v)) :
    ∀ {k : ℕ} (t : RState), yBase + k + vs.length ≤ top →
      (run (RGate.act reg) (copyOut gate m yBase k vs) t).cells = t.cells ∧
      (∀ j, j < yBase + k ∨ yBase + k + vs.length ≤ j →
        (run (RGate.act reg) (copyOut gate m yBase k vs) t).wires j = t.wires j) ∧
      ∀ i v, vs[i]? = some v →
        (run (RGate.act reg) (copyOut gate m yBase k vs) t).wires (yBase + k + i) =
          (t.wires (yBase + k + i) ^^ bit t.wires (m v)) := by
  induction vs with
  | nil => exact fun t _ => ⟨rfl, fun _ _ => rfl, by simp⟩
  | cons u vs ih =>
      intro k t htop
      rw [List.length_cons] at htop ⊢
      obtain ⟨hc, hout, hin⟩ := ih (fun v hv => hbit v (List.mem_cons_of_mem u hv)) (k := k + 1)
        ((gate (m u) (yBase + k)).act reg t) (by omega)
      simp only [copyOut, run_cons]
      have hw : ((gate (m u) (yBase + k)).act reg t).wires =
          toggle (yBase + k) (bit t.wires (m u)) t.wires := by rw [hact]
      refine ⟨hc.trans (by rw [hact]), fun j hj => ?_, fun i v hi => ?_⟩
      · rw [hout j (by omega), hw, toggle_of_ne (by omega)]
      · rcases i with _ | i
        · obtain rfl : u = v := by simpa using hi
          change (run (RGate.act reg) _ _).wires (yBase + k) = (t.wires (yBase + k) ^^ _)
          rw [hout _ (.inl (by omega)), hw, toggle_same]
        · rw [List.getElem?_cons_succ] at hi
          have hv := List.mem_cons_of_mem u (List.mem_of_getElem? hi)
          have := hin i v hi
          rw [show yBase + (k + 1) + i = yBase + k + (i + 1) by omega] at this
          rw [this, hw, toggle_of_ne (by omega), hbit v hv _ _ _ (by omega) (by omega)]

end CopyOut

def IsWorkspace (params yBase outputs n w : ℕ) : Prop :=
  params ≤ w ∧ w < n ∧ (w < yBase ∨ yBase + outputs ≤ w)

/-- What a successful naive synthesis returns. -/
structure NaiveResult {P : Type} (c : BCircuit P) (share : Bool) (rc : RCircuit)
    (map : VarWireMap) (m : ℕ → ℕ) (compute : List RGate) : Prop where
  phase : Compute c share m map.yBase rc.numWires compute
  gates : rc.gates = compute ++ copyOut .cnot m map.yBase 0 c.outputs
  valid : rc.Valid
  numWires : map.numWires = rc.numWires
  map_length : map.map.length = c.varSpace
  wire : ∀ v < c.varSpace, map.wire v = some (m v)
  map_getD : ∀ v, map.map.getD v 0 = m v
  workspace : ∀ w, w ∈ map.workspace ↔
    IsWorkspace c.params map.yBase c.outputs.length rc.numWires w
  workspace_nodup : map.workspace.Nodup
  borrowed : map.borrowed = []

theorem Compute.valid {P : Type} {c : BCircuit P} {share : Bool} {m : ℕ → ℕ} {yBase n : ℕ}
    {gates : List RGate} (h : Compute c share m yBase n gates) : ∀ g ∈ gates, g.Valid n := by
  intro g hg
  refine RGate.valid_iff.mpr ⟨fun w hw => ?_, h.apart g hg⟩
  have hy := h.yEnd_le
  rcases h.region g hg w hw with hr | hr <;> omega

theorem synthesizeNaive_spec {P : Type} {c : BCircuit P} (hc : c.WellFormed)
    (hl : ∀ s ∈ c.kinds, lowerable s) (hfits : FitsU32 c) (share : Bool) :
    ∃ rc map m compute, synthesizeNaive c share = .ok (rc, map) ∧ map.mode = .naive ∧
      NaiveResult c share rc map m compute := by
  obtain ⟨uses, hu, hcount⟩ := countUses_spec hc hl hfits.uses
  obtain ⟨st, hst, hml, hlt, hanc, hcomp⟩ := compute_of_synthFrom share hc hl hfits.ids hu hcount
  -- the map's entries lie below the gap
  have hmap : st.map.map (shift (c.params + c.stmts.length)
      (c.params + c.stmts.length - st.nextAnc)) = st.map := by
    refine (List.map_congr_left fun w hw => ?_).trans (List.map_id _)
    obtain ⟨v, hv, rfl⟩ := List.mem_iff_getElem.mp hw
    have := hlt v (hml ▸ hv)
    rw [Synth.wireOf, List.getD_eq_getElem?_getD, List.getElem?_eq_getElem hv] at this
    exact shift_of_lt (this.trans_le hanc)
  have houts : outputGates .cnot st.map st.nextAnc 0 c.outputs =
      .ok (copyOut .cnot st.wireOf st.nextAnc 0 c.outputs) :=
    outputGates_eq fun v hv => hml ▸ hc.2 v hv
  have hn : ∀ g ∈ st.compute (c.params + c.stmts.length) ++
      copyOut .cnot st.wireOf st.nextAnc 0 c.outputs,
      g.Valid (st.numWires (c.params + c.stmts.length) c.outputs.length) := by
    intro g hg
    rcases List.mem_append.mp hg with hg | hg
    · exact hcomp.valid g hg
    · obtain ⟨v, hv, w, h₁, h₂, rfl⟩ := mem_copyOut hg
      have hvw := hlt v (hc.2 v hv)
      have hy := hcomp.yEnd_le
      exact ⟨by omega, by omega, by omega⟩
  have hwire : ∀ v < c.varSpace, st.map[v]? = some (st.wireOf v) := fun v hv => by
    simp [Synth.wireOf, hml, hv]
  refine ⟨⟨st.numWires (c.params + c.stmts.length) c.outputs.length,
      st.compute (c.params + c.stmts.length) ++ copyOut .cnot st.wireOf st.nextAnc 0 c.outputs⟩,
    ⟨st.map, st.numWires (c.params + c.stmts.length) c.outputs.length, st.nextAnc,
      List.range' c.params (st.nextAnc - c.params) ++
        List.range' (st.nextAnc + c.outputs.length)
          (st.numWires (c.params + c.stmts.length) c.outputs.length -
            (st.nextAnc + c.outputs.length)), [], .naive⟩,
    st.wireOf, st.compute (c.params + c.stmts.length), ?_, rfl,
    ⟨hcomp, rfl, hn, rfl, hml, hwire, fun v => rfl, ?_, ?_, rfl⟩⟩
  · have hnew := RCircuit.new_ok.mpr ⟨rfl, hn⟩
    unfold Synth.numWires Synth.compute at hnew
    unfold synthesizeNaive
    simp only [hu, bind, Except.bind, hst, compact_eq, hmap, houts, hnew]
    rfl
  · intro w
    have hp := hcomp.params_le
    have hy := hcomp.yEnd_le
    simp only [List.mem_append, List.mem_range'_1, IsWorkspace]
    omega
  · have hp := hcomp.params_le
    refine List.nodup_append'.mpr ⟨List.nodup_range', List.nodup_range', fun w h₁ h₂ => ?_⟩
    rw [List.mem_range'_1] at h₁ h₂
    omega

section Run
variable {P : Type} {c : BCircuit P} {share : Bool} {rc : RCircuit} {map : VarWireMap}
  {m : ℕ → ℕ} {compute : List RGate}

theorem NaiveResult.no_externals (h : NaiveResult c share rc map m compute)
    (hs : ∀ s ∈ c.kinds, s.isLocal) : rc.usesExternals = false := by
  rw [RCircuit.usesExternals, List.any_eq_false, h.gates]
  intro g hg
  rcases List.mem_append.mp hg with hg | hg
  · obtain ⟨s, hsm, a, f, he, rfl⟩ := h.phase.emitted g hg
    simp [he.no_externals (hs s hsm)]
  · obtain ⟨v, -, w, -, -, rfl⟩ := mem_copyOut hg
    simp [RGate.usesExternals]

theorem NaiveResult.no_storage (h : NaiveResult c share rc map m compute)
    (hs : ∀ s ∈ c.kinds, s.isGate) : rc.usesStorage = false := by
  rw [RCircuit.usesStorage, List.any_eq_false, h.gates]
  intro g hg
  rcases List.mem_append.mp hg with hg | hg
  · obtain ⟨s, hsm, a, f, he, rfl⟩ := h.phase.emitted g hg
    simp [he.no_storage (hs s hsm)]
  · obtain ⟨v, -, w, -, -, rfl⟩ := mem_copyOut hg
    simp [RGate.usesStorage]

/-- Run from a clean workspace: the parameters stay, the outputs are exclusive-ored
into the y register, the cells end as the circuit's storage does, and every var that
still owns its wire is on it. -/
theorem NaiveResult.run (h : NaiveResult c share rc map m compute) (hc : c.WellFormed)
    (hs : ∀ s ∈ c.kinds, s.isLocal) (reg : Registry) (world : Externals) {x : List Bool}
    {σ : EvalState} {s : RState} (hx : x.length = c.params)
    (hxs : ∀ i < c.params, s.wires i = x.getD i false)
    (hclean : ∀ w ∈ map.workspace, s.wires w = false) (hcells : s.cells = σ.storage.read) :
    let t := Words.run (RGate.act reg) rc.gates s
    let f := c.evalFrame world x σ
    (∀ i < c.params, t.wires i = x.getD i false) ∧
      (∀ k v, c.outputs[k]? = some v →
        t.wires (map.yBase + k) = (s.wires (map.yBase + k) ^^ (look f.vals v).bit)) ∧
      t.cells = f.st.storage.read ∧
      ∀ v < c.varSpace, v ∉ consumedVars c share → t.wires (m v) = (look f.vals v).bit := by
  have hp := h.phase.params_le
  have hy := h.phase.yEnd_le
  obtain ⟨hvars, hcells'⟩ := h.phase.simulates hs reg world x σ s hx hxs
    (fun w h₁ h₂ h₃ => hclean w ((h.workspace w).mpr ⟨h₁, h₂, h₃⟩)) hcells
  -- copying reads wires below the y register
  obtain ⟨hcopyc, hcopyo, hcopyi⟩ := run_copyOut reg .cnot (fun w v => w v)
    (fun _ _ _ => rfl) m map.yBase c.outputs (map.yBase + c.outputs.length)
    (fun v hv y b w hlo _ => toggle_of_ne (by have := h.phase.map_lt v (hc.2 v hv); omega) ..)
    (k := 0) (Words.run (RGate.act reg) compute s) (by omega)
  simp only [h.gates, run_append]
  refine ⟨fun i hi => ?_, fun k v hk => ?_, hcopyc.trans hcells', fun v hv hd => ?_⟩
  · rw [hcopyo i (.inl (by omega)), ← hxs i hi]
    exact run_wires_of_not_target fun g hg ht => by
      have := h.phase.target g hg i ht
      omega
  · have hkl : k < c.outputs.length := (List.getElem?_eq_some_iff.mp hk).1
    have hv := List.mem_of_getElem? hk
    have hin := hcopyi k v hk
    rw [Nat.add_zero] at hin
    rw [hin, hvars v (hc.2 v hv) (h.phase.outputs_live v hv)]
    congr 1
    refine run_wires_of_not_target fun g hg ht => ?_
    rcases h.phase.region g hg _ (RGate.targets_subset ht) with hr | hr <;> omega
  · rw [hcopyo _ (.inl (by have := h.phase.map_lt v hv; omega))]
    exact hvars v hv hd

end Run

/-- `(x, 0, y)`: the parameters on their wires, a zero workspace, `y` in the output register. -/
def VarWireMap.initial (map : VarWireMap) (x y : List Bool) : List Bool :=
  (List.range map.numWires).map fun w =>
    if w < x.length then x.getD w false
    else if map.yBase ≤ w then y.getD (w - map.yBase) false
    else false

theorem readWire_initial {map : VarWireMap} {x y : List Bool} {w : ℕ} (h : w < map.numWires) :
    readWire (map.initial x y) w =
      if w < x.length then x.getD w false
      else if map.yBase ≤ w then y.getD (w - map.yBase) false
      else false := by
  simp [readWire, VarWireMap.initial, h]

theorem register_eq {ws l : List Bool} {a n : ℕ} (hn : l.length = n) (hl : a + n ≤ ws.length)
    (h : ∀ i < n, readWire ws (a + i) = l.getD i false) : (ws.drop a).take n = l := by
  subst hn
  apply List.ext_getElem
  · simp
    omega
  · intro i h₁ h₂
    have := h i h₂
    rw [readWire, List.getD_eq_getElem _ _ (by omega), List.getD_eq_getElem _ _ h₂] at this
    simpa using this

theorem lowerable_of_isLocal {s : Stmt} (h : s.isLocal) : lowerable s := by
  cases s <;> simp_all [lowerable, BIrStmt.isLocal, BIrStmt.isGate]

@[simp] theorem VarWireMap.initial_length (map : VarWireMap) (x y : List Bool) :
    (map.initial x y).length = map.numWires := by
  simp [initial]

/-- From `(x, 0, y)` the circuit ends in `(x, y ⊕ f x)`, with the storage of `f` and every
live var on its wire. -/
theorem NaiveResult.simulates {P : Type} {c : BCircuit P} {share : Bool} {rc : RCircuit}
    {map : VarWireMap} {v : ℕ → ℕ} {compute : List RGate}
    (h : NaiveResult c share rc map v compute) (hc : c.WellFormed)
    (hs : ∀ s ∈ c.kinds, s.isLocal) (reg : Registry) (world : Externals) {x y : List Bool}
    (m : StorageMap) (hx : x.length = c.params) (hy : y.length = c.outputs.length) :
    let f := c.evalFrame world x (.init m)
    ∃ ws m', rc.applyWithExternals reg (map.initial x y) m = some (ws, m') ∧
      ws.length = rc.numWires ∧ ws.take c.params = x ∧
      (ws.drop map.yBase).take c.outputs.length =
        List.zipWith xor y (c.eval world x (.init m)) ∧
      (∀ cell, m'.read cell = f.st.storage.read cell) ∧
      ∀ v < c.varSpace, v ∉ consumedVars c share →
        ∃ w, map.wire v = some w ∧ readWire ws w = (look f.vals v).bit := by
  have hp := h.phase.params_le
  have hye := h.phase.yEnd_le
  obtain ⟨⟨ws, m'⟩, happ, hwl, hview⟩ := h.valid.applyWithExternals reg
    ((map.initial_length x y).trans h.numWires) m
  have hwl : ws.length = rc.numWires := hwl
  have hinit : ∀ w < rc.numWires, (view (map.initial x y, m)).wires w =
      if w < x.length then x.getD w false
      else if map.yBase ≤ w then y.getD (w - map.yBase) false else false := fun w hw =>
    readWire_initial (h.numWires ▸ hw)
  obtain ⟨hpar, hout, hcells, hvars⟩ := h.run hc hs reg world (σ := .init m)
    (s := view (map.initial x y, m)) hx
    (fun i hi => by rw [hinit i (by omega), if_pos (by omega)])
    (fun w hw => by
      have hw := (h.workspace w).mp hw
      unfold IsWorkspace at hw
      rw [hinit w (by omega), if_neg (by omega)]
      split_ifs with hyw
      · exact List.getD_eq_default _ _ (by omega)
      · rfl)
    rfl
  rw [← hview] at hpar hout hcells hvars
  refine ⟨ws, m', happ, hwl, ?_, ?_, congrFun hcells, fun v hv hd =>
    ⟨_, h.wire v hv, hvars v hv hd⟩⟩
  · refine register_eq (a := 0) hx (by omega) fun i hi => ?_
    rw [Nat.zero_add]
    exact hpar i hi
  · refine register_eq (by simp [BCircuit.eval, hy]) (by omega) fun k hk => ?_
    have hck : c.outputs[k]? = some c.outputs[k] := List.getElem?_eq_getElem hk
    refine (hout k _ hck).trans ?_
    rw [hinit _ (by omega), if_neg (by omega), if_pos (by omega), Nat.add_sub_cancel_left]
    simp [BCircuit.eval, hy, hk]

theorem toReversibleWithOptions_naive {P : Type} (c : BCircuit P) (share : Bool) :
    toReversibleWithOptions c ⟨.naive, share⟩ = synthesizeNaive c share := by
  cases h : synthesizeNaive c share <;>
    simp [toReversibleWithOptions, h, bind, Except.bind, pure, Except.pure]

/-- The naive lowering of a circuit of gates and storage accesses simulates it. -/
theorem naive_simulates {P : Type} {c : BCircuit P} (hc : c.WellFormed)
    (hs : ∀ s ∈ c.kinds, s.isLocal) (hfits : FitsU32 c) (share : Bool) :
    ∃ rc map, toReversibleWithOptions c ⟨.naive, share⟩ = .ok (rc, map) ∧
      ∀ (x y : List Bool) (m : StorageMap) (world : Externals),
        x.length = c.params → y.length = c.outputs.length →
        let f := c.evalFrame world x (.init m)
        ∃ ws m', rc.apply (map.initial x y) m = some (ws, m') ∧
          ws.take c.params = x ∧
          (ws.drop map.yBase).take c.outputs.length =
            List.zipWith xor y (c.eval world x (.init m)) ∧
          (∀ cell, m'.read cell = f.st.storage.read cell) ∧
          ∀ v < c.varSpace, v ∉ consumedVars c share →
            ∃ w, map.wire v = some w ∧ readWire ws w = (look f.vals v).bit := by
  obtain ⟨rc, map, m₀, compute, hrun, -, h⟩ :=
    synthesizeNaive_spec hc (fun s hm => lowerable_of_isLocal (hs s hm)) hfits share
  refine ⟨rc, map, (toReversibleWithOptions_naive c share).trans hrun,
    fun x y m world hx hy => ?_⟩
  obtain ⟨ws, m', happ, -, hpar, hout, hcells, hvars⟩ := h.simulates hc hs .unused world m hx hy
  refine ⟨ws, m', ?_, hpar, hout, hcells, hvars⟩
  rw [RCircuit.apply, if_neg (by simp [h.no_externals hs])]
  exact happ

def copyMany : BCircuit Unit := ⟨1, [], [], List.replicate (u32Max + 1) 0⟩

theorem wellFormed_copyMany : copyMany.WellFormed :=
  ⟨trivial, fun v hv => by simp [List.eq_of_mem_replicate hv, copyMany, BCircuit.varSpace]⟩

theorem synthesizeNaive_copyMany (share : Bool) :
    synthesizeNaive copyMany share = .error .panic := by
  have hmany : ¬UsesFit copyMany := fun hfits => by
    have hcount := hfits 0
    simp [copyMany, BCircuit.kinds] at hcount
  rw [synthesizeNaive, countUses_panics hmany]
  rfl

/-- The count of the uses overflows. -/
theorem naive_not_total : ¬ ∀ c : BCircuit Unit, c.WellFormed → (∀ s ∈ c.kinds, s.isLocal) →
    ∀ share, ∃ r, toReversibleWithOptions c ⟨.naive, share⟩ = .ok r := by
  intro hclaim
  obtain ⟨r, hr⟩ := hclaim copyMany wellFormed_copyMany (by simp [copyMany, BCircuit.kinds]) false
  rw [toReversibleWithOptions_naive, synthesizeNaive_copyMany] at hr
  cases hr

def storedXor : BCircuit Unit :=
  ⟨2, [.new (.and 0 1) (), .new (.xor 0 1) (), .new (.xor 2 3) (),
    .new (.storageWrite ⟨0⟩ ⟨0⟩ 4 [0]) (), .new (.storageRead ⟨0⟩ ⟨0⟩ [0]) ()], [], [6, 4]⟩

theorem fits_storedXor : FitsU32 storedXor where
  uses := fun v => List.count_le_length.trans (by decide)
  ids := by decide

theorem naive_simulates_storedXor :
    ∃ rc map ws m', toReversibleWithOptions storedXor ⟨.naive, true⟩ = .ok (rc, map) ∧
      rc.apply (map.initial [true, false] [false, true]) .empty = some (ws, m') ∧
      ws.take 2 = [true, false] ∧
      (ws.drop map.yBase).take 2 = List.zipWith xor [false, true] [true, true] := by
  obtain ⟨rc, map, hrun, h⟩ := naive_simulates (c := storedXor) (by decide)
      (by decide) fits_storedXor true
  obtain ⟨ws, m', happ, hx, hy, -⟩ := h [true, false] [false, true] .empty
    ⟨fun _ _ _ => false, fun _ _ _ _ => false, fun _ _ _ => false⟩ rfl rfl
  exact ⟨rc, map, ws, m', hrun, happ, hx, hy⟩

end VolarIR.Rev
