import VolarIR.Boolar.Eval
import VolarIR.Library.Fallible

/-!
# Renamed statement lists

A pass that emits statements one after another keeps a table from the vars of the source
to the vars emitted so far. `Renamed` says the table is right: each entry is defined and
holds the source var's bit, and, where a later projection may look, its call.
Statements already emitted are never changed, so entries stay right as the list grows.
-/
namespace VolarIR.Boolar
open Fallible

section
variable (world : Externals) (x : List Bool) (σ : EvalState)

/-- The frame after the statements `ks`, from the inputs `x`. -/
def runStmts (ks : List Stmt) : Frame := evalStmts world ⟨paramValues x, σ⟩ ks

/-- Every source var in the table has a defined counterpart with its bit, and with its
call if it is one of `H`; the states agree. -/
structure Renamed (H : ℕ → Prop) (ks : List Stmt) (remap : List ℕ) (f : Frame) : Prop where
  length : remap.length = f.vals.length
  defined : ∀ v < remap.length, remap.getD v 0 < x.length + ks.length
  bit : ∀ v < remap.length,
    (look (runStmts world x σ ks).vals (remap.getD v 0)).bit = (look f.vals v).bit
  call : ∀ v < remap.length, H v →
    (look (runStmts world x σ ks).vals (remap.getD v 0)).call = (look f.vals v).call
  st : (runStmts world x σ ks).st = f.st

end

theorem getD_append_lt {α : Type} {xs ys : List α} {d : α} {i : ℕ} (h : i < xs.length) :
    (xs ++ ys).getD i d = xs.getD i d := by
  simp [List.getElem?_append_left h]

theorem getD_append_length {α : Type} {xs : List α} {a d : α} :
    (xs ++ [a]).getD xs.length d = a := by
  simp

theorem BIrStmt.mem_operands_of_mem_handles {V S : Type} {s : BIrStmt V S} {v : V}
    (h : v ∈ s.handles) : v ∈ s.operands := by
  cases s <;> simp_all [handles, operands]

section
variable {world : Externals} {x : List Bool} {σ : EvalState} {H : ℕ → Prop} {ks ks' : List Stmt}
  {remap : List ℕ} {f : Frame}

@[simp] theorem runStmts_length : (runStmts world x σ ks).vals.length = x.length + ks.length := by
  simp [runStmts]

theorem runStmts_concat (s : Stmt) :
    runStmts world x σ (ks ++ [s]) = stepStmt world (runStmts world x σ ks) s := by
  simp [runStmts, evalStmts_append]

theorem look_runStmts_of_extends (h : ks <+: ks') {v : ℕ} (hv : v < x.length + ks.length) :
    look (runStmts world x σ ks').vals v = look (runStmts world x σ ks).vals v := by
  obtain ⟨more, rfl⟩ := h
  rw [runStmts, evalStmts_append]
  exact evalStmts_look (by rw [← runStmts, runStmts_length]; exact hv)

theorem Renamed.mono (h : Renamed world x σ H ks remap f) (hp : ks <+: ks')
    (hst : (runStmts world x σ ks').st = (runStmts world x σ ks).st) :
    Renamed world x σ H ks' remap f where
  length := h.length
  defined := fun v hv => by
    have := hp.length_le
    have := h.defined v hv
    omega
  bit := fun v hv => by
    rw [look_runStmts_of_extends hp (h.defined v hv)]
    exact h.bit v hv
  call := fun v hv hH => by
    rw [look_runStmts_of_extends hp (h.defined v hv)]
    exact h.call v hv hH
  st := hst.trans h.st

/-- One more source var gets a defined counterpart with its value. -/
theorem Renamed.push (h : Renamed world x σ H ks remap f) (hp : ks <+: ks') {u : ℕ}
    {r : Value × EvalState} (hu : u < x.length + ks'.length)
    (hv : look (runStmts world x σ ks').vals u = r.1) (hst : (runStmts world x σ ks').st = r.2) :
    Renamed world x σ H ks' (remap ++ [u]) ⟨f.vals ++ [r.1], r.2⟩ := by
  have hlen := h.length
  have hcase : ∀ v < (remap ++ [u]).length,
      v < remap.length ∧ (remap ++ [u]).getD v 0 = remap.getD v 0 ∧
        look (f.vals ++ [r.1]) v = look f.vals v ∨
      (remap ++ [u]).getD v 0 = u ∧ look (f.vals ++ [r.1]) v = r.1 := fun v hv => by
    rcases Nat.lt_or_eq_of_le (Nat.le_of_lt_succ (by simpa using hv)) with hlt | rfl
    · exact .inl ⟨hlt, getD_append_lt hlt, look_append_left (hlen ▸ hlt)⟩
    · exact .inr ⟨getD_append_length, by rw [hlen, look_append_length]⟩
  refine ⟨by simp [hlen], fun v hlt => ?_, fun v hlt => ?_, fun v hlt hH => ?_, hst⟩
  · rcases hcase v hlt with ⟨hlt, hr, -⟩ | ⟨hr, -⟩
    · rw [hr]
      exact Nat.lt_of_lt_of_le (h.defined v hlt) (Nat.add_le_add_left hp.length_le _)
    · rw [hr]
      exact hu
  · rcases hcase v hlt with ⟨hlt, hr, hf⟩ | ⟨hr, hf⟩
    · rw [hr, hf, look_runStmts_of_extends hp (h.defined v hlt)]
      exact h.bit v hlt
    · rw [hr, hf, hv]
  · rcases hcase v hlt with ⟨hlt, hr, hf⟩ | ⟨hr, hf⟩
    · rw [hr, hf, look_runStmts_of_extends hp (h.defined v hlt)]
      exact h.call v hlt hH
    · rw [hr, hf, hv]

/-- Through the table, a statement evaluates as it does in the source. -/
theorem Renamed.eval (h : Renamed world x σ H ks remap f) {s : Stmt}
    (hop : ∀ v ∈ s.operands, v < remap.length) (hH : ∀ v ∈ s.handles, H v) :
    evalStmt world (runStmts world x σ ks).st
        ((s.mapVars fun v => remap.getD v 0).mapVars (look (runStmts world x σ ks).vals)) =
      evalStmt world f.st (s.mapVars (look f.vals)) := by
  rw [BIrStmt.mapVars_mapVars, h.st]
  exact evalStmt_congr_values (fun v hv => h.bit v (hop v hv))
    fun v hv => h.call v (hop v (BIrStmt.mem_operands_of_mem_handles hv)) (hH v hv)

/-- Emitting the renamed statement defines its source var. -/
theorem Renamed.emit (h : Renamed world x σ H ks remap f) {s : Stmt}
    (hop : ∀ v ∈ s.operands, v < remap.length) (hH : ∀ v ∈ s.handles, H v) :
    Renamed world x σ H (ks ++ [s.mapVars fun v => remap.getD v 0])
      (remap ++ [x.length + ks.length]) (stepStmt world f s) := by
  refine h.push (List.prefix_append _ _) (by simp) ?_ ?_
  · rw [runStmts_concat, stepStmt, h.eval hop hH, ← runStmts_length, look_append_length]
  · rw [runStmts_concat, stepStmt, h.eval hop hH]

end

namespace BIrStmt
variable {ε V W S : Type} {f : V → Except ε W} {g : V → W} {s : BIrStmt V S}

theorem map_eq_pure {m : Type → Type} [Monad m] [LawfulMonad m] {f : V → m W}
    (h : ∀ v ∈ s.operands, f v = pure (g v)) : s.map f pure = pure (s.mapVars g) := by
  have hlist : ∀ {vs : List V}, (∀ v ∈ vs, f v = pure (g v)) → vs.mapM f = pure (vs.map g) := by
    intro vs hvs
    induction vs with
    | nil => rfl
    | cons v vs ih =>
        rw [List.mapM_cons, hvs v List.mem_cons_self,
          ih fun w hw => hvs w (List.mem_cons_of_mem v hw)]
        simp
  cases s with
  | zero | one | rng _ | rngBit _ _ _ => rfl
  | and a b | or a b | xor a b =>
      simp only [operands, List.forall_mem_cons] at h
      simp only [map, mapVars, h.1, h.2.1, pure_bind]
  | not a | oracleProjectedBit a _ | actionBit a _ =>
      simp only [operands, List.forall_mem_cons] at h
      simp only [map, mapVars, h.1, pure_bind]
  | oracleCall _ args _ | oracleBit _ args _ _ | storageRead _ _ args =>
      simp only [operands] at h
      simp only [map, mapVars, hlist h, pure_bind]
  | actionCall name guard args fallback n =>
      simp only [operands, List.forall_mem_append, List.forall_mem_cons] at h
      simp only [map, mapVars, h.1.1, hlist h.1.2, hlist h.2, pure_bind]
  | actionStoreBit name guard args fallback storage lane addr bit occ =>
      simp only [operands, List.forall_mem_append, List.forall_mem_cons] at h
      simp only [map, mapVars, h.1.1, hlist h.1.2, h.2.1, hlist h.2.2, pure_bind]
  | storageWrite storage lane src addr =>
      simp only [operands, List.forall_mem_cons] at h
      simp only [map, mapVars, h.1, hlist h.2, pure_bind]

theorem map_eq_ok (h : ∀ v ∈ s.operands, f v = .ok (g v)) : s.map f pure = .ok (s.mapVars g) :=
  map_eq_pure h

theorem of_map_eq_ok {t : BIrStmt W S} (h : s.map f pure = .ok t) :
    ∀ v ∈ s.operands, ∃ w, f v = .ok w := by
  have hlist : ∀ {vs : List V} {ws : List W}, vs.mapM f = .ok ws → ∀ v ∈ vs, ∃ w, f v = .ok w :=
    of_mapM_eq_ok
  cases s with
  | zero | one | rng _ | rngBit _ _ _ => simp [operands]
  | and a b | or a b | xor a b =>
      simp only [map, Except.bind_eq_ok] at h
      obtain ⟨x, hx, y, hy, -⟩ := h
      simp [operands, hx, hy]
  | not a | oracleProjectedBit a _ | actionBit a _ =>
      simp only [map, Except.bind_eq_ok] at h
      obtain ⟨x, hx, -⟩ := h
      simp [operands, hx]
  | oracleCall _ args _ | oracleBit _ args _ _ =>
      simp only [map, Except.bind_eq_ok] at h
      obtain ⟨xs, hxs, -⟩ := h
      exact hlist hxs
  | actionCall name guard args fallback n =>
      simp only [map, Except.bind_eq_ok] at h
      obtain ⟨x, hx, xs, hxs, ys, hys, -⟩ := h
      simp only [operands, List.forall_mem_append, List.forall_mem_cons]
      exact ⟨⟨⟨x, hx⟩, hlist hxs⟩, hlist hys⟩
  | actionStoreBit name guard args fallback storage lane addr bit occ =>
      simp only [map, Except.bind_eq_ok] at h
      obtain ⟨x, hx, xs, hxs, y, hy, -, -, ys, hys, -⟩ := h
      simp only [operands, List.forall_mem_append, List.forall_mem_cons]
      exact ⟨⟨⟨x, hx⟩, hlist hxs⟩, ⟨y, hy⟩, hlist hys⟩
  | storageRead storage lane addr =>
      simp only [map, Except.bind_eq_ok] at h
      obtain ⟨-, -, xs, hxs, -⟩ := h
      exact hlist hxs
  | storageWrite storage lane src addr =>
      simp only [map, Except.bind_eq_ok] at h
      obtain ⟨-, -, x, hx, xs, hxs, -⟩ := h
      simp only [operands, List.forall_mem_cons]
      exact ⟨⟨x, hx⟩, hlist hxs⟩

end BIrStmt

theorem operands_renamed {varMap : List ℕ} {s : Stmt} (h : ∀ v ∈ s.operands, v < varMap.length) :
    (s.mapVars fun v => varMap.getD v 0).operands ⊆ varMap := by
  rw [BIrStmt.operands_mapVars]
  intro v hv
  obtain ⟨u, hu, rfl⟩ := List.mem_map.mp hv
  rw [List.getD_eq_getElem _ _ (h u hu)]
  exact List.getElem_mem _

end VolarIR.Boolar
