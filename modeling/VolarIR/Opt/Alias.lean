import VolarIR.Boolar.Eval

/-!
# Aliases

`canon_alias` of `volar-ir-opt/src/common.rs`, and the rewriting of statements and
terminators through it. A `BTreeMap` is the list of its insertions, the newest first.
-/
namespace VolarIR

namespace Boolar

def BIrTerminator.mapVars {V W : Type} (f : V → W) : BIrTerminator V → BIrTerminator W
  | .jmp t => .jmp (t.mapVars f)
  | .condJmp val t e => .condJmp (f val) (t.mapVars f) (e.mapVars f)

end Boolar

namespace Opt
open Boolar

abbrev AliasMap := List (ℕ × ℕ)

/-- `canon_alias`, for at most `hops` hops. -/
def canonHops (aliases : AliasMap) : ℕ → ℕ → ℕ
  | 0, v => v
  | hops + 1, v =>
      match aliases.lookup v with
      | some w => if w = v then v else canonHops aliases hops w
      | none => v

/-- `canon_alias`. -/
def canonAlias (aliases : AliasMap) (v : ℕ) : ℕ := canonHops aliases 64 v

/-- `apply_aliases_to_biir_stmt`: the rewritten statement, and whether it changed. -/
def applyAliasesStmt (aliases : AliasMap) (s : Stmt) : Stmt × Bool :=
  if aliases.isEmpty then (s, false)
  else (s.mapVars (canonAlias aliases), s.operands.any fun v => canonAlias aliases v ≠ v)

/-- `apply_aliases_to_biir_terminator`. -/
def applyAliasesTerminator (aliases : AliasMap) (t : BIrTerminator ℕ) : BIrTerminator ℕ × Bool :=
  if aliases.isEmpty then (t, false)
  else (t.mapVars (canonAlias aliases), t.mapVars (canonAlias aliases) ≠ t)

theorem canonAlias_rel {aliases : AliasMap} {R : ℕ → ℕ → Prop} (hrefl : ∀ v, R v v)
    (htrans : ∀ u v w, R u v → R v w → R u w) (h : ∀ v w, aliases.lookup v = some w → R v w)
    (v : ℕ) : R v (canonAlias aliases v) := by
  unfold canonAlias
  generalize 64 = hops
  induction hops generalizing v with
  | zero => exact hrefl v
  | succ hops ih =>
      rw [canonHops]
      cases hw : aliases.lookup v with
      | none => exact hrefl v
      | some w =>
          dsimp only
          split_ifs
          · exact hrefl v
          · exact htrans _ _ _ (h v w hw) (ih w)

theorem canonAlias_of_not_mem {aliases : AliasMap} {v : ℕ} (h : aliases.lookup v = none) :
    canonAlias aliases v = v := by
  rw [canonAlias, canonHops, h]

/-- Aliases lead from the first `n` vars to earlier vars that are no aliases themselves. -/
def OneHop (aliases : AliasMap) (n : ℕ) : Prop :=
  ∀ v w, aliases.lookup v = some w → w < v ∧ v < n ∧ aliases.lookup w = none

section
variable {aliases : AliasMap} {n first v : ℕ}

theorem OneHop.canon_eq (h : OneHop aliases n) (v : ℕ) :
    canonAlias aliases v = (aliases.lookup v).getD v := by
  cases hw : aliases.lookup v with
  | none => exact canonAlias_of_not_mem hw
  | some w =>
      have hlt := h v w hw
      rw [canonAlias, canonHops, hw]
      dsimp only
      rw [if_neg (Nat.ne_of_lt hlt.1), canonHops, hlt.2.2]
      rfl

theorem OneHop.canon_le (h : OneHop aliases n) (v : ℕ) : canonAlias aliases v ≤ v :=
  canonAlias_rel (R := fun v w => w ≤ v) (fun v => Nat.le_refl v)
    (fun _ _ _ h₁ h₂ => Nat.le_trans h₂ h₁) (fun v w hw => Nat.le_of_lt (h v w hw).1) v

theorem OneHop.lookup_canon (h : OneHop aliases n) (v : ℕ) :
    aliases.lookup (canonAlias aliases v) = none := by
  rw [h.canon_eq v]
  cases hw : aliases.lookup v with
  | none => exact hw
  | some w => exact (h v w hw).2.2

theorem OneHop.idem (h : OneHop aliases n) (v : ℕ) :
    canonAlias aliases (canonAlias aliases v) = canonAlias aliases v :=
  canonAlias_of_not_mem (h.lookup_canon v)

theorem OneHop.mono (h : OneHop aliases n) {m : ℕ} (hn : n ≤ m) : OneHop aliases m :=
  fun v w hw => ⟨(h v w hw).1, Nat.lt_of_lt_of_le (h v w hw).2.1 hn, (h v w hw).2.2⟩

theorem OneHop.lookup_self (h : OneHop aliases n) : aliases.lookup n = none := by
  cases hw : aliases.lookup n with
  | none => rfl
  | some w => exact absurd (h n w hw).2.1 (Nat.lt_irrefl n)

theorem lookup_cons_of_ne {β : Type} {v n : ℕ} (hv : v ≠ n) (b : β) (m : List (ℕ × β)) :
    List.lookup v ((n, b) :: m) = m.lookup v := by
  simp [List.lookup_cons, beq_false_of_ne hv]

theorem lookup_cons_cases {β : Type} {v n : ℕ} {a b : β} {m : List (ℕ × β)}
    (h : List.lookup v ((n, b) :: m) = some a) :
    v = n ∧ a = b ∨ v ≠ n ∧ m.lookup v = some a := by
  by_cases hv : v = n
  · subst hv
    exact .inl ⟨rfl, by simpa [eq_comm] using h⟩
  · exact .inr ⟨hv, by rwa [lookup_cons_of_ne hv] at h⟩

theorem OneHop.cons (h : OneHop aliases n) (hf : aliases.lookup first = none) (hn : first < n) :
    OneHop ((n, first) :: aliases) (n + 1) := by
  intro v w hw
  rcases lookup_cons_cases hw with ⟨rfl, rfl⟩ | ⟨-, hw⟩
  · exact ⟨hn, Nat.lt_succ_self _, (lookup_cons_of_ne (Nat.ne_of_lt hn) _ _).trans hf⟩
  · obtain ⟨hwv, hvn, hnone⟩ := h v w hw
    exact ⟨hwv, Nat.lt_succ_of_lt hvn,
      (lookup_cons_of_ne (Nat.ne_of_lt (Nat.lt_trans hwv hvn)) _ _).trans hnone⟩

theorem OneHop.canon_cons (h : OneHop aliases n) (hf : aliases.lookup first = none)
    (hn : first < n) :
    canonAlias ((n, first) :: aliases) v = if v = n then first else canonAlias aliases v := by
  rw [(h.cons hf hn).canon_eq]
  split_ifs with hv
  · subst hv
    simp
  · rw [lookup_cons_of_ne hv, h.canon_eq]

end

theorem canonAlias_nil (v : ℕ) : canonAlias [] v = v := canonAlias_of_not_mem rfl

theorem applyAliasesStmt_fst (aliases : AliasMap) (s : Stmt) :
    (applyAliasesStmt aliases s).1 = s.mapVars (canonAlias aliases) := by
  unfold applyAliasesStmt
  cases aliases with
  | nil => exact (BIrStmt.mapVars_eq_self fun v _ => canonAlias_nil v).symm
  | cons a aliases => rfl

theorem applyAliasesStmt_snd (aliases : AliasMap) (s : Stmt) :
    (applyAliasesStmt aliases s).2 = s.operands.any fun v => canonAlias aliases v ≠ v := by
  unfold applyAliasesStmt
  cases aliases with
  | nil => simp [canonAlias_nil]
  | cons a aliases => rfl

theorem applyAliasesStmt_eq (aliases : AliasMap) (s : Stmt) :
    applyAliasesStmt aliases s =
      (s.mapVars (canonAlias aliases), decide (s.mapVars (canonAlias aliases) ≠ s)) := by
  refine Prod.ext (applyAliasesStmt_fst aliases s) ?_
  rw [applyAliasesStmt_snd, Bool.eq_iff_iff, List.any_eq_true, decide_eq_true_iff]
  constructor
  · rintro ⟨v, hv, hne⟩ heq
    have hmap := congrArg BIrStmt.operands heq
    rw [BIrStmt.operands_mapVars, ← List.map_id s.operands, List.map_map] at hmap
    exact of_decide_eq_true hne (List.map_inj_left.mp hmap v hv)
  · intro hne
    by_contra hall
    exact hne (BIrStmt.mapVars_eq_self fun v hv =>
      by_contra fun hv' => hall ⟨v, hv, decide_eq_true hv'⟩)

theorem BIrTarget.mapVars_eq_self {f : ℕ → ℕ} (h : ∀ v, f v = v) (t : BIrTarget ℕ) :
    t.mapVars f = t := by
  obtain ⟨block, args⟩ := t
  cases block <;> simp [Boolar.BIrTarget.mapVars, funext h]

theorem mapVars_terminator_eq_self {f : ℕ → ℕ} (h : ∀ v, f v = v) (t : BIrTerminator ℕ) :
    t.mapVars f = t := by
  cases t <;> simp [BIrTerminator.mapVars, BIrTarget.mapVars_eq_self h, h]

theorem applyAliasesTerminator_eq (aliases : AliasMap) (t : BIrTerminator ℕ) :
    applyAliasesTerminator aliases t =
      (t.mapVars (canonAlias aliases), decide (t.mapVars (canonAlias aliases) ≠ t)) := by
  unfold applyAliasesTerminator
  cases aliases with
  | nil => simp [mapVars_terminator_eq_self canonAlias_nil]
  | cons a aliases => rfl

theorem resolveTarget_mapVars {vals : List Value} {g : ℕ → ℕ}
    (hg : ∀ v, (look vals (g v)).bit = (look vals v).bit) (t : BIrTarget ℕ) :
    resolveTarget vals (t.mapVars g) = resolveTarget vals t := by
  obtain ⟨block, args⟩ := t
  cases block <;> simp [resolveTarget, BIrTarget.mapVars, Function.comp_def, hg]

theorem evalTerminator_mapVars {vals : List Value} {g : ℕ → ℕ}
    (hg : ∀ v, (look vals (g v)).bit = (look vals v).bit) (t : BIrTerminator ℕ) :
    evalTerminator vals (t.mapVars g) = evalTerminator vals t := by
  cases t with
  | jmp t => exact resolveTarget_mapVars hg t
  | condJmp val t e =>
      simp only [BIrTerminator.mapVars, evalTerminator, hg, resolveTarget_mapVars hg]

end Opt
end VolarIR
