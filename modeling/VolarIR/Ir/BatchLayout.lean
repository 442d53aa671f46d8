import VolarIR.Ir.Substitution
import VolarIR.Ir.TableGrowth

/-!
# Batching: the rewritten block

Where each statement of a batched block comes from, in order, and what it is: a statement that
was there, a lane in place of a member, or the `Merge` and the wide `Poly` of a group.
-/
namespace VolarIR.Ir

/-- Where a statement of the batched block comes from: a statement of the block, or a group by
its first member. -/
inductive Origin where
  | merge (lead : ℕ)
  | wide (lead : ℕ)
  | kept (i : ℕ)
  deriving DecidableEq

namespace Origin

def site : Origin → ℕ
  | merge lead | wide lead => lead
  | kept i => i

def time : Origin → ℕ
  | merge lead => 3 * lead
  | wide lead => 3 * lead + 1
  | kept i => 3 * i + 2

@[simp] theorem time_merge (lead : ℕ) : (merge lead).time = 3 * lead := rfl

@[simp] theorem time_wide (lead : ℕ) : (wide lead).time = 3 * lead + 1 := rfl

@[simp] theorem time_kept (i : ℕ) : (kept i).time = 3 * i + 2 := rfl

theorem site_le_of_time {o o' : Origin} (h : o.time ≤ o'.time) : o.site ≤ o'.site := by
  cases o <;> cases o' <;> simp only [time, site] at h ⊢ <;> omega

end Origin

section
variable (accepted : List PolyBatch)

/-- The origins of the statements that the sweep has made before statement `n`. -/
def origins : ℕ → List Origin
  | 0 => []
  | n + 1 => origins n ++ (if n ∈ accepted.map PolyBatch.minIdx then [.merge n, .wide n] else []) ++
      [.kept n]

/-- A statement is made up only for a group. -/
def Origin.Occurs (n : ℕ) (o : Origin) : Prop :=
  o.site < n ∧ ((∃ i, o = .kept i) ∨ o.site ∈ accepted.map PolyBatch.minIdx)

end

section
variable {accepted : List PolyBatch} {n : ℕ}

theorem origins_succ_of_mem (h : n ∈ accepted.map PolyBatch.minIdx) :
    origins accepted (n + 1) = origins accepted n ++ [.merge n, .wide n, .kept n] := by
  rw [origins, if_pos h, List.append_assoc]
  rfl

theorem origins_succ_of_not_mem (h : n ∉ accepted.map PolyBatch.minIdx) :
    origins accepted (n + 1) = origins accepted n ++ [.kept n] := by
  rw [origins, if_neg h, List.append_nil]

theorem mem_origins {o : Origin} : o ∈ origins accepted n ↔ o.Occurs accepted n := by
  induction n with
  | zero => simp [origins, Origin.Occurs]
  | succ n ih =>
      have hstep : o.Occurs accepted (n + 1) ↔ o.Occurs accepted n ∨
          o.site = n ∧ ((∃ i, o = .kept i) ∨ o.site ∈ accepted.map PolyBatch.minIdx) := by
        unfold Origin.Occurs
        rw [Nat.lt_succ_iff_lt_or_eq, or_and_right]
      rw [hstep, ← ih]
      by_cases hlead : n ∈ accepted.map PolyBatch.minIdx
      · rw [origins_succ_of_mem hlead, List.mem_append]
        apply or_congr Iff.rfl
        cases o with
        | merge lead | wide lead =>
            simp only [List.mem_cons, Origin.merge.injEq, Origin.wide.injEq, reduceCtorEq,
              List.not_mem_nil, or_false, false_or, Origin.site, exists_false]
            exact ⟨fun heq => ⟨heq, heq ▸ hlead⟩, fun heq => heq.1⟩
        | kept i => simp [Origin.site]
      · rw [origins_succ_of_not_mem hlead, List.mem_append]
        apply or_congr Iff.rfl
        cases o with
        | merge lead | wide lead =>
            simp only [List.mem_cons, List.not_mem_nil, or_false, reduceCtorEq, Origin.site,
              exists_false, false_or, false_iff, not_and]
            exact fun heq => heq ▸ hlead
        | kept i => simp [Origin.site]

theorem origins_ascending (accepted : List PolyBatch) (n : ℕ) :
    (origins accepted n).Pairwise fun o o' => o.time < o'.time := by
  have hbefore : ∀ {n : ℕ}, ∀ o ∈ origins accepted n, o.time < 3 * n := by
    intro n o ho
    have hsite := (mem_origins.mp ho).1
    cases o <;> simp only [Origin.site, Origin.time] at hsite ⊢ <;> omega
  induction n with
  | zero => exact List.Pairwise.nil
  | succ n ih =>
      by_cases hlead : n ∈ accepted.map PolyBatch.minIdx
      · rw [origins_succ_of_mem hlead, List.pairwise_append]
        refine ⟨ih, by simp [Origin.time], ?_⟩
        intro o ho o' ho'
        have hlt := hbefore o ho
        simp only [List.mem_cons, List.not_mem_nil, or_false] at ho'
        rcases ho' with rfl | rfl | rfl <;> simp only [Origin.time_merge, Origin.time_wide,
          Origin.time_kept] <;> omega
      · rw [origins_succ_of_not_mem hlead, List.pairwise_append]
        refine ⟨ih, List.pairwise_singleton _ _, ?_⟩
        intro o ho o' ho'
        have hlt := hbefore o ho
        rw [List.mem_singleton.mp ho', Origin.time_kept]
        omega

theorem nodup_origins (accepted : List PolyBatch) (n : ℕ) : (origins accepted n).Nodup :=
  (origins_ascending accepted n).imp fun hlt heq => (ne_of_lt hlt) (congrArg Origin.time heq)

theorem origins_prefix {m : ℕ} (hmn : m ≤ n) : origins accepted m <+: origins accepted n := by
  induction hmn with
  | refl => exact List.prefix_refl _
  | step _ ih =>
      apply ih.trans
      rw [origins, List.append_assoc]
      exact List.prefix_append _ _

end

section
variable (accepted : List PolyBatch) (n nParams : ℕ)

/-- The place of an origin among the first `n` statements' origins. -/
def place (o : Origin) : ℕ := (origins accepted n).idxOf o

def originVar (o : Origin) : ℕ := nParams + place accepted n o

def movedVar (v : ℕ) : ℕ :=
  if v < nParams then v else originVar accepted n nParams (.kept (v - nParams))

end

section
variable {accepted : List PolyBatch} {n nParams : ℕ}

theorem getElem?_place {o : Origin} (ho : o ∈ origins accepted n) :
    (origins accepted n)[place accepted n o]? = some o := by
  have hlt := List.idxOf_lt_length_of_mem ho
  rw [place, List.getElem?_eq_getElem hlt, List.getElem_idxOf hlt]

theorem place_of_getElem? {o : Origin} {j : ℕ} (hj : (origins accepted n)[j]? = some o) :
    place accepted n o = j := by
  have hlt := (List.getElem?_eq_some_iff.mp hj).1
  have ho := List.mem_of_getElem? hj
  exact (List.getElem?_inj (List.idxOf_lt_length_of_mem ho) (nodup_origins accepted n)).mp
    ((getElem?_place ho).trans hj.symm)

theorem place_lt_iff {o o' : Origin} (ho : o ∈ origins accepted n)
    (ho' : o' ∈ origins accepted n) :
    place accepted n o < place accepted n o' ↔ o.time < o'.time := by
  have hsorted := List.pairwise_iff_getElem.mp (origins_ascending accepted n)
  obtain ⟨hlt, hget⟩ := List.getElem?_eq_some_iff.mp (getElem?_place ho)
  obtain ⟨hlt', hget'⟩ := List.getElem?_eq_some_iff.mp (getElem?_place ho')
  constructor
  · intro h
    have htime := hsorted _ _ hlt hlt' h
    rwa [hget, hget'] at htime
  · intro h
    by_contra hle
    rcases Nat.lt_or_eq_of_le (Nat.le_of_not_lt hle) with hgt | heq
    · have htime := hsorted _ _ hlt' hlt hgt
      rw [hget, hget'] at htime
      omega
    · have hsame : o' = o := by
        rw [← hget, ← hget']
        congr 1
      rw [hsame] at h
      exact lt_irrefl _ h

theorem place_inj {o o' : Origin} (ho : o ∈ origins accepted n) (ho' : o' ∈ origins accepted n)
    (h : place accepted n o = place accepted n o') : o = o' := by
  have hget := getElem?_place ho
  rw [h, getElem?_place ho'] at hget
  exact (Option.some.inj hget).symm

theorem place_lt_length {o : Origin} (ho : o ∈ origins accepted n) :
    place accepted n o < (origins accepted n).length := List.idxOf_lt_length_of_mem ho

theorem mem_origins_kept {i : ℕ} : Origin.kept i ∈ origins accepted n ↔ i < n := by
  rw [mem_origins]
  exact ⟨fun h => h.1, fun h => ⟨h, Or.inl ⟨i, rfl⟩⟩⟩

theorem movedVar_of_lt {v : ℕ} (hv : v < nParams) : movedVar accepted n nParams v = v := if_pos hv

theorem movedVar_add (i : ℕ) :
    movedVar accepted n nParams (nParams + i) = originVar accepted n nParams (.kept i) := by
  rw [movedVar, if_neg (Nat.not_lt.mpr (Nat.le_add_right _ _)), Nat.add_sub_cancel_left]

theorem movedVar_lt {u v : ℕ} (huv : u < v) (hv : v < nParams + n) :
    movedVar accepted n nParams u < movedVar accepted n nParams v := by
  by_cases hvp : v < nParams
  · rw [movedVar_of_lt hvp, movedVar_of_lt (huv.trans hvp)]
    exact huv
  · obtain ⟨j, rfl⟩ : ∃ j, v = nParams + j := ⟨v - nParams, by omega⟩
    rw [movedVar_add]
    by_cases hup : u < nParams
    · rw [movedVar_of_lt hup, originVar]
      omega
    · obtain ⟨i, rfl⟩ : ∃ i, u = nParams + i := ⟨u - nParams, by omega⟩
      have hi : Origin.kept i ∈ origins accepted n := mem_origins_kept.mpr (by omega)
      have hj : Origin.kept j ∈ origins accepted n := mem_origins_kept.mpr (by omega)
      have hlt := (place_lt_iff hi hj).mpr
        (show (Origin.kept i).time < (Origin.kept j).time by simp only [Origin.time]; omega)
      rw [movedVar_add, originVar, originVar]
      omega

end
end VolarIR.Ir
