import VolarIR.Boolar.Eval
import VolarIR.Opt.Alias
import VolarIR.Library.Loop
import Mathlib.Data.List.Forall2
import VolarIR.Library.Fallible

/-!
# Boolar dead-code elimination

`dce_biir_blocks` of `volar-ir-opt/src/biir.rs`. A sweep counts the uses of every
statement result in `u32` counters, walks backwards dropping the pure statements whose
count is zero, and renumbers what is left; the sweeps repeat until one drops nothing.
-/
namespace VolarIR.Opt
open Boolar

/-- `uses[v - base] += 1` for a result var; parameters are not counted. -/
def countUse (base : ℕ) (uses : List ℕ) (v : ℕ) : Outcome Empty (List ℕ) :=
  if base ≤ v then do
    let n ← expect uses[v - base]?
    if n = u32Max then .error .panic else .ok (uses.set (v - base) (n + 1))
  else .ok uses

/-- `uses[v - base] -= 1`. -/
def dropUse (base : ℕ) (uses : List ℕ) (v : ℕ) : Outcome Empty (List ℕ) :=
  if base ≤ v then do
    let n ← expect uses[v - base]?
    if n = 0 then .error .panic else .ok (uses.set (v - base) (n - 1))
  else .ok uses

/-- The reverse liveness loop from statement `i` on: which statements are dead, and the
use counts left. -/
def sweepDead (base : ℕ) : ℕ → List Stmt → List ℕ → Outcome Empty (List Bool × List ℕ)
  | _, [], uses => .ok ([], uses)
  | i, s :: rest, uses => do
      let (dead, uses) ← sweepDead base (i + 1) rest uses
      let n ← expect uses[i]?
      if n = 0 ∧ s.isPure then do
        let uses ← s.operands.foldlM (dropUse base) uses
        .ok (true :: dead, uses)
      else .ok (false :: dead, uses)

/-- The remap from old results to new ones, with `k` statements kept before statement `i`. The
ids are known to fit. -/
def renumbering (base : ℕ) : ℕ → ℕ → List Bool → List (ℕ × ℕ)
  | _, _, [] => []
  | i, k, true :: dead => renumbering base (i + 1) k dead
  | i, k, false :: dead =>
      if base + i = base + k then renumbering base (i + 1) (k + 1) dead
      else (base + i, base + k) :: renumbering base (i + 1) (k + 1) dead

/-- The old ids `base + i` that are computed, those of the statements kept, are `u32`s. -/
def keptFit (base : ℕ) : ℕ → List Bool → Bool
  | _, [] => true
  | i, true :: dead => keptFit base (i + 1) dead
  | i, false :: dead => decide (base + i ≤ u32Max) && keptFit base (i + 1) dead

/-- `renumber_var`: one lookup, never transitive. -/
def renumberVar (remap : List (ℕ × ℕ)) (v : ℕ) : ℕ := (remap.lookup v).getD v

/-- `renumber_biir_stmt`. -/
def renumberStmt (remap : List (ℕ × ℕ)) (s : Stmt) : Stmt := s.mapVars (renumberVar remap)

def renumberTarget (remap : List (ℕ × ℕ)) (t : BIrTarget ℕ) : BIrTarget ℕ :=
  { t with args := t.args.map (renumberVar remap) }

/-- `renumber_biir_terminator`. -/
def renumberTerminator (remap : List (ℕ × ℕ)) : BIrTerminator ℕ → BIrTerminator ℕ
  | .jmp t => .jmp (renumberTarget remap t)
  | .condJmp val t e =>
      .condJmp (renumberVar remap val) (renumberTarget remap t) (renumberTarget remap e)

def kept {α : Type} : List Bool → List α → List α
  | true :: dead, _ :: rest => kept dead rest
  | false :: dead, a :: rest => a :: kept dead rest
  | _, _ => []

section
variable {P : Type}

def BIrBlock.uses (b : BIrBlock P) : List ℕ :=
  b.kinds.flatMap BIrStmt.operands ++ b.terminator.operands

/-- `dce_biir_block_once`. -/
def dceBlockOnce (block : BIrBlock P) : Outcome Empty (BIrBlock P × Bool) := do
  let base := block.params
  let uses ← (BIrBlock.uses block).foldlM (countUse base) (List.replicate block.stmts.length 0)
  let (dead, _) ← sweepDead base 0 block.kinds uses
  if dead.any id then
    if keptFit base 0 dead then
      let remap := renumbering base 0 0 dead
      let stmts := (kept dead block.stmts).map fun node =>
        { node with kind := renumberStmt remap node.kind }
      .ok (⟨base, stmts, renumberTerminator remap block.terminator⟩, true)
    else .error .panic
  else .ok (block, false)

/-- One round of the loop over a block; a panic ends it. -/
def dceRound : Outcome Empty (BIrBlock P) → Outcome Empty (BIrBlock P) × Bool
  | .error e => (.error e, false)
  | .ok b =>
      match dceBlockOnce b with
      | .error e => (.error e, false)
      | .ok (b, changed) => (.ok b, changed)

/-- The blocks in turn; `none` when a loop is out of fuel. -/
def dceBlockList (fuel : ℕ) : List (BIrBlock P) →
    Option (Outcome Empty (List (BIrBlock P) × Bool))
  | [] => some (.ok ([], false))
  | b :: rest => do
      match ← Loop.untilStable dceRound fuel (.ok b) with
      | (.error e, _) => some (.error e)
      | (.ok b, changed) =>
          match ← dceBlockList fuel rest with
          | .error e => some (.error e)
          | .ok (rest, more) => some (.ok (b :: rest, changed || more))

/-- `dce_biir_blocks`. -/
def dceBlocks (fuel : ℕ) (blocks : BIrBlocks P) : Option (Outcome Empty (BIrBlocks P × Bool)) := do
  match ← dceBlockList fuel blocks.blocks with
  | .error e => some (.error e)
  | .ok (bs, changed) => some (.ok (⟨bs, blocks.preInit⟩, changed))

end

end VolarIR.Opt

/-!
## Dead-code elimination: what a sweep computes

The counters always hold the number of uses by what is not dropped yet, so no decrement
underflows, and a dropped result is used by no kept statement and not by the terminator.
Along the kept statements the new numbering is increasing, and every var still used keeps
its value.
-/
namespace VolarIR.Opt
open Boolar Fallible

/-- The counters hold the number of occurrences in `ops` of each of the `n` results. -/
structure Counts (base n : ℕ) (uses ops : List ℕ) : Prop where
  length : uses.length = n
  count : ∀ i < n, uses[i]? = some (ops.count (base + i))

/-- The vars of a list are parameters or among the `n` results. -/
def InRange (base n : ℕ) (ops : List ℕ) : Prop := ∀ v ∈ ops, v < base + n

def Countable (base : ℕ) (ops : List ℕ) : Prop := ∀ v, base ≤ v → ops.count v ≤ u32Max

section
variable {base n : ℕ} {uses done ops : List ℕ}

theorem counts_replicate (base n : ℕ) : Counts base n (List.replicate n 0) [] :=
  ⟨List.length_replicate, fun i hi => by simp [hi]⟩

theorem Counts.congr (h : Counts base n uses ops) {ops' : List ℕ}
    (hp : ∀ v, ops'.count v = ops.count v) : Counts base n uses ops' :=
  ⟨h.length, fun i hi => by rw [hp]; exact h.count i hi⟩

theorem Counts.set (h : Counts base n uses ops) {v m : ℕ} {ops' : List ℕ} (hv : base ≤ v)
    (hm : ops'.count v = m) (hother : ∀ u, u ≠ v → ops'.count u = ops.count u) :
    Counts base n (uses.set (v - base) m) ops' where
  length := by simp [h.length]
  count i hi := by
    by_cases hiv : i = v - base
    · subst hiv
      rw [List.getElem?_set_self (by rw [h.length]; exact hi),
        show base + (v - base) = v by omega, hm]
    · rw [List.getElem?_set_ne (Ne.symm hiv), h.count i hi, hother _ (by omega)]

theorem Counts.lookup (h : Counts base n uses ops) {v : ℕ} (hv : base ≤ v) (hn : v < base + n) :
    uses[v - base]? = some (ops.count v) := by
  rw [h.count _ (by omega), show base + (v - base) = v by omega]

theorem countUse_ok (h : Counts base n uses done) {v : ℕ} (hn : v < base + n)
    (hc : base ≤ v → (done ++ [v]).count v ≤ u32Max) :
    ∃ uses', countUse base uses v = .ok uses' ∧ Counts base n uses' (done ++ [v]) := by
  unfold countUse
  split_ifs with hv
  · have hlt : done.count v ≠ u32Max := by
      have := hc hv
      rw [List.count_append, List.count_singleton_self] at this
      omega
    rw [h.lookup hv hn]
    refine ⟨uses.set (v - base) (done.count v + 1), by simp [expect, hlt], h.set hv (by simp) ?_⟩
    intro u hu
    simp [List.count_append, Ne.symm hu]
  · refine ⟨uses, rfl, ⟨h.length, fun i hi => ?_⟩⟩
    rw [h.count i hi, List.count_append, List.count_eq_zero_of_not_mem (l := [v]), Nat.add_zero]
    rw [List.mem_singleton]
    omega

/-- Counting succeeds while every result occurs at most `u32::MAX` times. -/
theorem countUses_ok (h : Counts base n uses done) (hn : InRange base n ops)
    (hc : Countable base (done ++ ops)) :
    ∃ uses', ops.foldlM (countUse base) uses = .ok uses' ∧ Counts base n uses' (done ++ ops) := by
  induction ops generalizing uses done with
  | nil => exact ⟨uses, rfl, by simpa using h⟩
  | cons v ops ih =>
      have hsplit : done ++ v :: ops = (done ++ [v]) ++ ops := by simp
      rw [hsplit] at hc ⊢
      have hv : base ≤ v → (done ++ [v]).count v ≤ u32Max := fun hv => by
        have := hc v hv
        rw [List.count_append] at this
        omega
      obtain ⟨uses₁, h₁, hc₁⟩ := countUse_ok h (hn v List.mem_cons_self) hv
      obtain ⟨uses₂, h₂, hc₂⟩ := ih hc₁ (fun u hu => hn u (List.mem_cons_of_mem v hu)) hc
      exact ⟨uses₂, by rw [List.foldlM_cons, h₁]; exact h₂, hc₂⟩

/-- If counting does not overflow, every result occurs at most `u32::MAX` times. -/
theorem countable_of_countUses_ok (h : Counts base n uses done) (hd : Countable base done)
    (hn : InRange base n ops) {uses' : List ℕ}
    (hok : ops.foldlM (countUse base) uses = .ok uses') : Countable base (done ++ ops) := by
  induction ops generalizing uses done with
  | nil => simpa using hd
  | cons v ops ih =>
      rw [List.foldlM_cons] at hok
      obtain ⟨uses₁, h₁, hok⟩ := Except.bind_eq_ok.mp hok
      have hv : base ≤ v → (done ++ [v]).count v ≤ u32Max := fun hv => by
        unfold countUse at h₁
        rw [if_pos hv, h.lookup hv (hn v List.mem_cons_self)] at h₁
        by_contra hgt
        have hmax : done.count v = u32Max := by
          have := hd v hv
          rw [List.count_append, List.count_singleton_self] at hgt
          omega
        simp only [expect, hmax] at h₁
        cases h₁
      obtain ⟨uses₂, h₂, hc₂⟩ := countUse_ok h (hn v List.mem_cons_self) hv
      obtain rfl := Except.ok.inj (h₁.symm.trans h₂)
      have hd' : Countable base (done ++ [v]) := fun u hu => by
        by_cases huv : u = v
        · subst huv
          exact hv hu
        · rw [List.count_append, List.count_eq_zero_of_not_mem (l := [v]) (by simpa using huv)]
          exact hd u hu
      have hall := ih hc₂ hd' (fun u hu => hn u (List.mem_cons_of_mem v hu)) hok
      simpa using hall

/-- Dropping what has been counted never underflows. -/
theorem dropUses_ok (h : Counts base n uses (ops ++ done)) (hn : InRange base n ops) :
    ∃ uses', ops.foldlM (dropUse base) uses = .ok uses' ∧ Counts base n uses' done := by
  induction ops generalizing uses with
  | nil => exact ⟨uses, rfl, h⟩
  | cons v ops ih =>
      have hstep : ∃ uses₁, dropUse base uses v = .ok uses₁ ∧
          Counts base n uses₁ (ops ++ done) := by
        unfold dropUse
        split_ifs with hv
        · rw [h.lookup hv (hn v List.mem_cons_self)]
          refine ⟨uses.set (v - base) (((v :: ops) ++ done).count v - 1), by simp [expect],
            h.set hv (by simp) fun u hu => ?_⟩
          simp [List.count_append, Ne.symm hu]
        · refine ⟨uses, rfl, ⟨h.length, fun i hi => ?_⟩⟩
          rw [h.count i hi, List.cons_append, List.count_cons_of_ne (by omega)]
      obtain ⟨uses₁, h₁, hc₁⟩ := hstep
      obtain ⟨uses₂, h₂, hc₂⟩ := ih hc₁ fun u hu => hn u (List.mem_cons_of_mem v hu)
      exact ⟨uses₂, by rw [List.foldlM_cons, h₁]; exact h₂, hc₂⟩

end

def keptUses (dead : List Bool) (stmts : List Stmt) (after : List ℕ) : List ℕ :=
  (kept dead stmts).flatMap BIrStmt.operands ++ after

def DeadOk : ℕ → List Bool → List Stmt → List ℕ → Prop
  | v, d :: dead, s :: rest, after =>
      (d = true → s.isPure = true ∧ v ∉ keptUses dead rest after) ∧ DeadOk (v + 1) dead rest after
  | _, [], [], _ => True
  | _, _, _, _ => False

theorem kept_uses_sublist (dead : List Bool) (stmts : List Stmt) (after : List ℕ) :
    (keptUses dead stmts after).Sublist (stmts.flatMap BIrStmt.operands ++ after) := by
  refine List.Sublist.append ?_ (List.Sublist.refl _)
  induction stmts generalizing dead with
  | nil => rcases dead with _ | ⟨_ | _, dead⟩ <;> exact List.Sublist.refl _
  | cons s rest ih =>
      rcases dead with _ | ⟨_ | _, dead⟩
      · exact List.nil_sublist _
      · exact (List.Sublist.refl s.operands).append (ih dead)
      · exact (ih dead).trans (List.sublist_append_right _ _)

/-- The reverse sweep never fails, drops only dead statements, and keeps no pure statement that
nothing uses. -/
theorem sweepDead_spec {base n : ℕ} (before : List ℕ) {after : List ℕ} {stmts : List Stmt} {i : ℕ}
    {uses : List ℕ} (h : Counts base n uses (before ++ stmts.flatMap BIrStmt.operands ++ after))
    (hd : Defined (base + i) stmts) (hn : i + stmts.length ≤ n) :
    ∃ dead uses', sweepDead base i stmts uses = .ok (dead, uses') ∧
      dead.length = stmts.length ∧ Counts base n uses' (before ++ keptUses dead stmts after) ∧
      DeadOk (base + i) dead stmts after ∧
      ∀ j s, stmts[j]? = some s → dead[j]? = some false → s.isPure = true →
        base + i + j ∈ before ++ stmts.flatMap BIrStmt.operands ++ after := by
  induction stmts generalizing before i uses with
  | nil => exact ⟨[], uses, rfl, rfl, by simpa [keptUses, kept] using h, trivial, nofun⟩
  | cons s rest ih =>
      rw [List.length_cons] at hn
      have hbefore : before ++ (s :: rest).flatMap BIrStmt.operands ++ after =
          (before ++ s.operands) ++ rest.flatMap BIrStmt.operands ++ after := by simp
      rw [hbefore] at h
      obtain ⟨dead, uses₁, h₁, hlen, hc₁, hok, hlive⟩ :=
        ih (before ++ s.operands) (i := i + 1) h hd.2 (by omega)
      have hi := hc₁.count i (by omega)
      have hlater : ∀ (d : Bool) j t, (s :: rest)[j + 1]? = some t →
          (d :: dead)[j + 1]? = some false → t.isPure = true →
          base + i + (j + 1) ∈ before ++ (s :: rest).flatMap BIrStmt.operands ++ after := by
        intro d j t ht hj hpure
        have hmem := hlive j t ht hj hpure
        rw [← hbefore] at hmem
        rwa [Nat.add_assoc, Nat.add_comm j 1, ← Nat.add_assoc, ← Nat.add_assoc]
      simp only [sweepDead, h₁, ok_bind, hi, expect]
      by_cases hdead : ((before ++ s.operands) ++ keptUses dead rest after).count (base + i) = 0 ∧
          s.isPure = true
      · have hc : Counts base n uses₁ (s.operands ++ (before ++ keptUses dead rest after)) :=
          hc₁.congr fun v => by
            simp only [List.count_append]
            omega
        obtain ⟨uses₂, h₂, hc₂⟩ := dropUses_ok hc fun v hv => by
          have := hd.1 v hv
          omega
        refine ⟨true :: dead, uses₂, ?_, by simp [hlen], hc₂, ⟨fun _ => ⟨hdead.2, ?_⟩, hok⟩, ?_⟩
        · rw [if_pos hdead, h₂]
          rfl
        · have hzero := hdead.1
          rw [List.count_append] at hzero
          exact List.count_eq_zero.mp (by omega)
        · intro j t ht hj
          cases j with
          | zero => cases hj
          | succ j => exact hlater true j t ht hj
      · refine ⟨false :: dead, uses₁, ?_, by simp [hlen], ?_, ⟨by simp, hok⟩, ?_⟩
        · rw [if_neg hdead]
        · simpa [keptUses, kept] using hc₁
        · intro j t ht hj hpure
          cases j with
          | zero =>
              cases ht
              have hused : base + i ∈ (before ++ s.operands) ++ keptUses dead rest after :=
                List.count_pos_iff.mp (Nat.pos_of_ne_zero fun hzero => hdead ⟨hzero, hpure⟩)
              rw [hbefore, List.append_assoc, Nat.add_zero]
              exact (List.Sublist.append_left (kept_uses_sublist dead rest after) _).subset hused
          | succ j => exact hlater false j t ht hj hpure

theorem keptFit_iff {base i : ℕ} {dead : List Bool} :
    keptFit base i dead = true ↔ ∀ j : ℕ, dead[j]? = some false → base + i + j ≤ u32Max := by
  induction dead generalizing i with
  | nil => simp [keptFit]
  | cons d dead ih =>
      have hsplit : (∀ j : ℕ, (d :: dead)[j]? = some false → base + i + j ≤ u32Max) ↔
          (d = false → base + i ≤ u32Max) ∧
            ∀ j : ℕ, dead[j]? = some false → base + (i + 1) + j ≤ u32Max := by
        constructor
        · intro h
          refine ⟨fun hd => h 0 (by simp [hd]), fun j hj => ?_⟩
          have hnext := h (j + 1) hj
          omega
        · rintro ⟨hfirst, hrest⟩ j hj
          cases j with
          | zero => exact hfirst (by simpa using hj)
          | succ j =>
              have hnext := hrest j hj
              omega
      rw [hsplit]
      cases d with
      | true => simp [keptFit, ih]
      | false => simp [keptFit, ih]

theorem kept_fit {α : Type} {base i : ℕ} {dead : List Bool} {xs : List α}
    (h : keptFit base i dead = true) : ∀ j < (kept dead xs).length, base + i + j ≤ u32Max := by
  induction dead generalizing i xs with
  | nil => simp [kept]
  | cons d dead ih =>
      intro j hj
      cases xs with
      | nil => simp [kept] at hj
      | cons x xs =>
          cases d with
          | true =>
              have hrest := ih (i := i + 1) h j hj
              omega
          | false =>
              rw [keptFit, Bool.and_eq_true, decide_eq_true_eq] at h
              cases j with
              | zero => exact h.1
              | succ j =>
                  have hrest := ih (i := i + 1) h.2 j (by simpa [kept] using hj)
                  omega

theorem DeadOk.length {v : ℕ} {dead : List Bool} {stmts : List Stmt} {after : List ℕ}
    (h : DeadOk v dead stmts after) : dead.length = stmts.length := by
  induction stmts generalizing v dead with
  | nil =>
      cases dead with
      | nil => rfl
      | cons d dead => exact h.elim
  | cons s rest ih =>
      cases dead with
      | nil => exact h.elim
      | cons d dead => rw [List.length_cons, List.length_cons, ih h.2]

theorem DeadOk.isPure {v : ℕ} {dead : List Bool} {stmts : List Stmt} {after : List ℕ}
    (h : DeadOk v dead stmts after) {j : ℕ} {s : Stmt} (hs : stmts[j]? = some s)
    (hj : dead[j]? = some true) : s.isPure = true := by
  induction stmts generalizing v dead j with
  | nil => cases hs
  | cons t rest ih =>
      cases dead with
      | nil => cases hj
      | cons d dead =>
          cases j with
          | zero =>
              cases hs
              exact (h.1 (by simpa using hj)).1
          | succ j => exact ih h.2 hs hj

theorem DeadOk.exists_unused {v : ℕ} {dead : List Bool} {stmts : List Stmt} {after : List ℕ}
    (h : DeadOk v dead stmts after) (hd : Defined v stmts) (hany : dead.any id = true) :
    ∃ j s, stmts[j]? = some s ∧ s.isPure = true ∧
      v + j ∉ stmts.flatMap BIrStmt.operands ++ after := by
  induction stmts generalizing v dead with
  | nil =>
      cases dead with
      | nil => cases hany
      | cons d dead => exact h.elim
  | cons s rest ih =>
      cases dead with
      | nil => cases hany
      | cons d dead =>
          have hown : ∀ j : ℕ, v + j ∉ s.operands := fun j hj => by
            have hlt := hd.1 _ hj
            omega
          by_cases hrest : dead.any id = true
          · obtain ⟨j, t, ht, hpure, hunused⟩ := ih h.2 hd.2 hrest
            have heq : v + (j + 1) = v + 1 + j := by omega
            refine ⟨j + 1, t, ht, hpure, ?_⟩
            rw [List.flatMap_cons, List.append_assoc, List.mem_append, not_or]
            exact ⟨hown (j + 1), by rwa [heq]⟩
          · have hd' : d = true := by simpa [hrest] using hany
            obtain ⟨hpure, hunused⟩ := h.1 hd'
            have hall : ∀ {dead : List Bool} {stmts : List Stmt}, dead.any id = false →
                dead.length = stmts.length → kept dead stmts = stmts := by
              intro dead stmts
              induction stmts generalizing dead with
              | nil => rcases dead with _ | ⟨_ | _, _⟩ <;> simp [kept]
              | cons t stmts ih =>
                  rcases dead with _ | ⟨_ | _, dead⟩
                  · simp
                  · intro hnone hlen
                    rw [kept, ih (by simpa using hnone) (by simpa using hlen)]
                  · simp
            refine ⟨0, s, rfl, hpure, ?_⟩
            rw [List.flatMap_cons, List.append_assoc, List.mem_append, not_or]
            refine ⟨hown 0, ?_⟩
            rwa [keptUses, hall (by simpa using hrest) h.2.length] at hunused

/-- `g` numbers the kept results from `k` on, in order. -/
def Renumbers (g : ℕ → ℕ) : ℕ → ℕ → List Bool → Prop
  | _, _, [] => True
  | v, k, true :: dead => Renumbers g (v + 1) k dead
  | v, k, false :: dead => g v = k ∧ Renumbers g (v + 1) (k + 1) dead

theorem renumbering_lookup {base : ℕ} {dead : List Bool} {i k v : ℕ} (hv : v < base + i) :
    (renumbering base i k dead).lookup v = none := by
  induction dead generalizing i k with
  | nil => rfl
  | cons d dead ih =>
      cases d with
      | true => exact ih (by omega)
      | false =>
          rw [renumbering]
          split_ifs
          · exact ih (by omega)
          · rw [List.lookup_cons, beq_false_of_ne (by omega)]
            exact ih (by omega)

theorem renumbers_of_lookup {base : ℕ} {remap : List (ℕ × ℕ)} {dead : List Bool} {i k : ℕ}
    (h : ∀ v, base + i ≤ v → remap.lookup v = (renumbering base i k dead).lookup v) :
    Renumbers (renumberVar remap) (base + i) (base + k) dead := by
  induction dead generalizing i k with
  | nil => trivial
  | cons d dead ih =>
      cases d with
      | true => exact ih (i := i + 1) fun v hv => h v (by omega)
      | false =>
          have hhead := h (base + i) (Nat.le_refl _)
          rw [renumbering] at hhead h
          refine ⟨?_, ih (i := i + 1) (k := k + 1) fun v hv => ?_⟩
          · rw [renumberVar, hhead]
            split_ifs with hik
            · rw [renumbering_lookup (by omega)]
              exact hik
            · simp
          · rw [h v (by omega)]
            split_ifs
            · rfl
            · rw [List.lookup_cons, beq_false_of_ne (by omega)]

theorem renumbers_renumbering (base : ℕ) (dead : List Bool) :
    Renumbers (renumberVar (renumbering base 0 0 dead)) base base dead :=
  renumbers_of_lookup (i := 0) (k := 0) fun _ _ => rfl

theorem renumberVar_param {base v : ℕ} {dead : List Bool} (hv : v < base) :
    renumberVar (renumbering base 0 0 dead) v = v := by
  rw [renumberVar, renumbering_lookup hv]
  rfl

/-- Among the vars of `ops` below `n`, the numbering is increasing and stays below `m`. -/
structure Increasing (g : ℕ → ℕ) (ops : List ℕ) (n m : ℕ) : Prop where
  lt : ∀ v < n, v ∈ ops → g v < m
  mono : ∀ u v, u < v → v < n → u ∈ ops → v ∈ ops → g u < g v

theorem Increasing.subset {g : ℕ → ℕ} {ops ops' : List ℕ} {n m : ℕ} (h : Increasing g ops n m)
    (hsub : ops' ⊆ ops) : Increasing g ops' n m :=
  ⟨fun v hv hmem => h.lt v hv (hsub hmem),
    fun u v huv hv hu hmem => h.mono u v huv hv (hsub hu) (hsub hmem)⟩

theorem Increasing.drop {g : ℕ → ℕ} {ops : List ℕ} {n m : ℕ} (h : Increasing g ops n m)
    (hn : n ∉ ops) : Increasing g ops (n + 1) m :=
  ⟨fun v hv hmem => h.lt v (Nat.lt_of_le_of_ne (Nat.le_of_lt_succ hv) fun e => hn (e ▸ hmem)) hmem,
    fun u v huv hv hu hmem => h.mono u v huv
      (Nat.lt_of_le_of_ne (Nat.le_of_lt_succ hv) fun e => hn (e ▸ hmem)) hu hmem⟩

theorem Increasing.keep {g : ℕ → ℕ} {ops : List ℕ} {n m : ℕ} (h : Increasing g ops n m)
    (hn : g n = m) : Increasing g ops (n + 1) (m + 1) := by
  refine ⟨fun v hv hmem => ?_, fun u v huv hv hu hmem => ?_⟩
  · rcases Nat.lt_or_eq_of_le (Nat.le_of_lt_succ hv) with hlt | rfl
    · exact Nat.lt_succ_of_lt (h.lt v hlt hmem)
    · omega
  · rcases Nat.lt_or_eq_of_le (Nat.le_of_lt_succ hv) with hlt | rfl
    · exact h.mono u v huv hlt hu hmem
    · rw [hn]
      exact h.lt u huv hu

theorem keptUses_keep (dead : List Bool) (s : Stmt) (rest : List Stmt) (after : List ℕ) :
    keptUses (false :: dead) (s :: rest) after = s.operands ++ keptUses dead rest after := by
  simp [keptUses, kept]

theorem kept_defined {g : ℕ → ℕ} {after : List ℕ} {dead : List Bool} {stmts : List Stmt}
    {n m : ℕ} (hok : DeadOk n dead stmts after) (hg : Renumbers g n m dead)
    (hd : Defined n stmts) (hi : Increasing g (keptUses dead stmts after) n m) :
    Defined m ((kept dead stmts).map fun s => s.mapVars g) := by
  induction stmts generalizing dead n m with
  | nil =>
      cases dead with
      | nil => trivial
      | cons d dead => exact hok.elim
  | cons s rest ih =>
      cases dead with
      | nil => exact hok.elim
      | cons d dead =>
          cases d with
          | true => exact ih hok.2 hg hd.2 (hi.drop (hok.1 rfl).2)
          | false =>
              rw [keptUses_keep] at hi
              refine ⟨fun v hv => ?_, ih hok.2 hg.2 hd.2
                ((hi.subset (List.subset_append_right _ _)).keep hg.1)⟩
              rw [BIrStmt.operands_mapVars] at hv
              obtain ⟨u, hu, rfl⟩ := List.mem_map.mp hv
              exact hi.lt u (hd.1 u hu) (List.mem_append_left _ hu)

/-- The numbering is increasing on everything that is still used. -/
theorem kept_increasing {g : ℕ → ℕ} (before : List ℕ) {after : List ℕ} {dead : List Bool}
    {stmts : List Stmt} {n m : ℕ} (hb : ∀ v ∈ before, v < n)
    (hok : DeadOk n dead stmts after) (hg : Renumbers g n m dead) (hd : Defined n stmts)
    (hi : Increasing g (before ++ keptUses dead stmts after) n m) :
    Increasing g (before ++ keptUses dead stmts after) (n + stmts.length)
      (m + (kept dead stmts).length) := by
  induction stmts generalizing before dead n m with
  | nil =>
      cases dead with
      | nil => exact hi
      | cons d dead => exact hok.elim
  | cons s rest ih =>
      cases dead with
      | nil => exact hok.elim
      | cons d dead =>
          rw [List.length_cons, show n + (rest.length + 1) = n + 1 + rest.length by omega]
          cases d with
          | true =>
              have hn : n ∉ before ++ keptUses dead rest after := fun hmem =>
                (List.mem_append.mp hmem).elim (fun h => Nat.lt_irrefl _ (hb n h)) (hok.1 rfl).2
              exact ih before (fun v hv => Nat.lt_succ_of_lt (hb v hv)) hok.2 hg hd.2 (hi.drop hn)
          | false =>
              have hsplit : before ++ keptUses (false :: dead) (s :: rest) after =
                  (before ++ s.operands) ++ keptUses dead rest after := by
                rw [keptUses_keep, List.append_assoc]
              simp only [kept, List.length_cons]
              rw [hsplit] at hi ⊢
              rw [show m + ((kept dead rest).length + 1) = m + 1 + (kept dead rest).length by omega]
              refine ih (before ++ s.operands) (fun v hv => ?_) hok.2 hg.2 hd.2 (hi.keep hg.1)
              rcases List.mem_append.mp hv with hv | hv
              · exact Nat.lt_succ_of_lt (hb v hv)
              · exact Nat.lt_succ_of_lt (hd.1 v hv)

def SameEffects (σ τ : EvalState) : Prop := σ.storage = τ.storage ∧ σ.effects = τ.effects

theorem evalStmt_sameEffects (world : Externals) {σ τ : EvalState} (h : SameEffects σ τ)
    (s : BIrStmt Value StorageId) :
    (evalStmt world σ s).1 = (evalStmt world τ s).1 ∧
      SameEffects (evalStmt world σ s).2 (evalStmt world τ s).2 := by
  obtain ⟨hs, he⟩ := h
  cases s <;> simp only [evalStmt, hs, he, SameEffects, and_self]
  all_goals split_ifs <;> simp only [hs, he, and_self]

/-- Each var of `ops` defined in the source has its value at its new number. -/
structure Matched (g : ℕ → ℕ) (ops : List ℕ) (f f' : Frame) : Prop where
  look : ∀ v < f.vals.length, v ∈ ops →
    g v < f'.vals.length ∧ look f'.vals (g v) = look f.vals v
  st : SameEffects f.st f'.st

theorem kept_run (world : Externals) {g : ℕ → ℕ} {after : List ℕ} {dead : List Bool}
    {stmts : List Stmt} {f f' : Frame} (hok : DeadOk f.vals.length dead stmts after)
    (hg : Renumbers g f.vals.length f'.vals.length dead) (hd : Defined f.vals.length stmts)
    (hm : Matched g (keptUses dead stmts after) f f') :
    Matched g after (evalStmts world f stmts)
      (evalStmts world f' ((kept dead stmts).map fun s => s.mapVars g)) := by
  induction stmts generalizing dead f f' with
  | nil =>
      cases dead with
      | nil => exact ⟨fun v hv hmem => hm.look v hv (List.mem_append_right _ hmem), hm.st⟩
      | cons d dead => exact hok.elim
  | cons s rest ih =>
      cases dead with
      | nil => exact hok.elim
      | cons d dead =>
          have hlen : (stepStmt world f s).vals.length = f.vals.length + 1 := stepStmt_length ..
          have hd' : Defined (stepStmt world f s).vals.length rest := hlen ▸ hd.2
          have hok' : DeadOk (stepStmt world f s).vals.length dead rest after := hlen ▸ hok.2
          cases d with
          | true =>
              -- the result is not used again, and the statement changes no observable state
              refine ih hok' (hlen ▸ hg) hd' ⟨fun v hv hmem => ?_, ?_⟩
              · have hne : v ≠ f.vals.length := fun e => (hok.1 rfl).2 (e ▸ hmem)
                have hlt : v < f.vals.length := by omega
                rw [stepStmt_look hlt]
                exact hm.look v hlt hmem
              · obtain ⟨hs, he⟩ := evalStmt_snd_of_pure world f.st
                  (s := s.mapVars (look f.vals)) (by simpa using (hok.1 rfl).1)
                exact ⟨hs.trans hm.st.1, he.trans hm.st.2⟩
          | false =>
              have hlen' : (stepStmt world f' (s.mapVars g)).vals.length = f'.vals.length + 1 :=
                stepStmt_length ..
              rw [keptUses_keep] at hm
              have hops : (s.mapVars g).mapVars (look f'.vals) = s.mapVars (look f.vals) := by
                rw [BIrStmt.mapVars_mapVars]
                exact BIrStmt.mapVars_congr fun v hv =>
                  (hm.look v (hd.1 v hv) (List.mem_append_left _ hv)).2
              obtain ⟨hval, hst⟩ := evalStmt_sameEffects world hm.st
                (s.mapVars (look f.vals))
              have hg' : Renumbers g (stepStmt world f s).vals.length
                  (stepStmt world f' (s.mapVars g)).vals.length dead := by
                rw [hlen, hlen']
                exact hg.2
              refine ih hok' hg' hd' ⟨fun v hv hmem => ?_, ?_⟩
              · rcases Nat.lt_or_eq_of_le (Nat.le_of_lt_succ (hlen ▸ hv)) with hlt | rfl
                · have hold := hm.look v hlt (List.mem_append_right _ hmem)
                  rw [stepStmt_look hlt, stepStmt_look hold.1, hlen']
                  exact ⟨Nat.lt_succ_of_lt hold.1, hold.2⟩
                · rw [hg.1, hlen']
                  refine ⟨Nat.lt_succ_self _, ?_⟩
                  simp only [stepStmt, look_append_length, hops]
                  exact hval.symm
              · simp only [stepStmt, hops]
                exact hst

end VolarIR.Opt
