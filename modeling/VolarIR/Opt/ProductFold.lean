import VolarIR.Opt.BitFold

/-!
# Folding the factors of a typed product

At a reading of the type the constants that are dropped are zero or one, so the vars that stay
multiply to the monomial. Extension fields and prime fields share this.
-/
namespace VolarIR.Opt
open Ir Common

section
variable {table : TypeTable}

theorem containsExtFieldFrom_of_idempotent {fuel : ℕ} {ty : TypeId}
    (h : mulIsIdempotentFrom table fuel ty = true) :
    containsExtFieldFrom table fuel ty = false := by
  induction fuel generalizing ty with
  | zero => rfl
  | succ fuel ih =>
      rw [mulIsIdempotentFrom] at h
      rw [containsExtFieldFrom]
      split at h
      · next heq => rw [heq]
      · next heq =>
          rw [heq]
          exact ih h
      · next heq =>
          rw [heq]
          apply List.any_eq_false.mpr
          intro part hpart
          rw [ih (List.all_eq_true.mp h part hpart)]
          decide
      · cases h

theorem isFieldType_of_idempotent {ty : TypeId} (h : table.mulIsIdempotent ty = true) :
    isFieldType table ty = false := containsExtFieldFrom_of_idempotent h

theorem containsExtFieldFrom_of_rank {d fuel : ℕ} {ty : TypeId} (h : Rank table d ty)
    (hfuel : d < fuel) :
    containsExtFieldFrom table fuel ty = !mulIsIdempotentFrom table fuel ty := by
  induction h generalizing fuel with
  | bit get =>
      obtain ⟨fuel, rfl⟩ : ∃ m, fuel = m + 1 := ⟨fuel - 1, by omega⟩
      rw [containsExtFieldFrom, mulIsIdempotentFrom, get]
      rfl
  | vec get _ ih =>
      obtain ⟨fuel, rfl⟩ : ∃ m, fuel = m + 1 := ⟨fuel - 1, by omega⟩
      rw [containsExtFieldFrom, mulIsIdempotentFrom, get]
      exact ih (Nat.lt_of_succ_lt_succ hfuel)
  | ext get =>
      obtain ⟨fuel, rfl⟩ : ∃ m, fuel = m + 1 := ⟨fuel - 1, by omega⟩
      rw [containsExtFieldFrom, mulIsIdempotentFrom, get]
      rfl

theorem isFieldType_of_means {ty : TypeId} {A : BitAlgebra} (h : Means table ty A)
    (hring : table.mulIsIdempotent ty = false) : isFieldType table ty = true := by
  obtain ⟨d, hd⟩ := h.rank
  rw [isFieldType, containsExtFieldFrom_of_rank hd hd.lt_length]
  exact congrArg not hring

theorem valueBitWidthFrom_mono {fuel m w : ℕ} {ty : TypeId} (hle : fuel ≤ m)
    (h : valueBitWidthFrom table fuel ty = some w) : valueBitWidthFrom table m ty = some w := by
  induction m, hle using Nat.le_induction with
  | base => exact h
  | succ m _ ih => exact valueBitWidthFrom_succ ih

theorem length_identityBitsFrom {fuel w : ℕ} {ty : TypeId} {bits : List Bool}
    (hfuel : fuel ≤ table.types.length)
    (hw : valueBitWidthFrom table fuel ty = some w)
    (h : identityBitsFrom boolBits table fuel ty = some bits) : bits.length = w := by
  induction fuel generalizing ty w bits with
  | zero => cases h
  | succ fuel ih =>
      have hwhole : table.valueBitWidth ty = some w := valueBitWidthFrom_mono hfuel hw
      have hones : ∀ v, table.valueBitWidth ty = some v →
          (if v > 0 then boolBits.one :: zeros boolBits (v - 1) else []).length = w := by
        intro v hv
        cases hwhole.symm.trans hv
        split_ifs with hpos
        · simp [zeros]
          omega
        · exact (Nat.eq_zero_of_not_pos hpos).symm
      rw [identityBitsFrom] at h
      rw [valueBitWidthFrom] at hw
      split at h
      · next heq =>
          rw [heq] at hw
          cases h
          exact Option.some.inj hw
      · next n elem heq =>
          rw [heq] at hw
          obtain ⟨lane, hlane, rfl⟩ := Option.map_eq_some_iff.mp h
          obtain ⟨laneW, hlaneW, hmul⟩ := Option.bind_eq_some_iff.mp hw
          rw [checkedMul, Option.ite_none_right_eq_some, Option.some.injEq] at hmul
          rw [← hmul.2, ← ih (by omega) hlaneW hlane]
          simp
      · obtain ⟨v, hv, rfl⟩ := Option.map_eq_some_iff.mp h
        exact hones v hv
      · obtain ⟨v, hv, rfl⟩ := Option.map_eq_some_iff.mp h
        exact hones v hv
      · next parts heq =>
          rw [heq] at hw
          obtain ⟨lanes, hlanes, rfl⟩ := Option.map_eq_some_iff.mp h
          have hsum : ∀ (parts : List TypeId) (lanes : List (List Bool)) (start : ℕ),
              parts.mapM (identityBitsFrom boolBits table fuel) = some lanes →
              parts.foldlM (fun sum part =>
                (valueBitWidthFrom table fuel part).bind (checkedAdd sum)) start = some w →
              start + lanes.flatten.length = w := by
            intro parts
            induction parts with
            | nil =>
                intro lanes start hlanes hfold
                cases hlanes
                exact Option.some.inj hfold
            | cons part rest ihparts =>
                intro lanes start hlanes hfold
                rw [List.mapM_cons] at hlanes
                obtain ⟨lane, hlane, hlanes⟩ := Option.bind_eq_some_iff.mp hlanes
                obtain ⟨lanes', hlanes', hlanes⟩ := Option.bind_eq_some_iff.mp hlanes
                cases hlanes
                rw [List.foldlM_cons] at hfold
                obtain ⟨sum, hsum, hfold⟩ := Option.bind_eq_some_iff.mp hfold
                obtain ⟨width, hwidth, hadd⟩ := Option.bind_eq_some_iff.mp hsum
                rw [checkedAdd, Option.ite_none_right_eq_some, Option.some.injEq] at hadd
                rw [List.flatten_cons, List.length_append, ih (by omega) hwidth hlane,
                  ← Nat.add_assoc, hadd.2]
                exact ihparts lanes' sum hlanes' hfold
          have htotal := hsum parts lanes 0 hlanes hw
          rwa [Nat.zero_add] at htotal
      · cases h

theorem length_mulIdentity {w : ℕ} {ty : TypeId} {bits : List Bool}
    (hw : table.valueBitWidth ty = some w) (h : mulIdentity table ty = some bits) :
    bits.length = w := length_identityBitsFrom le_rfl hw h

end

section
variable {table : TypeTable} {ty : TypeId} {V : Type} {constMap : V → Option Constant}
  {typeMap : V → Option TypeId} {look : V → Value} {coeffs : Common.PolyCoeffs V}
  {R : Type} [CommRing R] {x : Factor Bool → R}

theorem Consistent.asFactor_eq (hagrees : Consistent table constMap typeMap look) {v : V}
    {c : Constant}
    {fty : TypeId} (hc : constMap v = some c) (hty : typeMap v = some fty) :
    (look v).asFactor = (fty, constBits c (table.bitWidth fty)) := by
  rw [Value.asFactor, hagrees.typed v fty hty, hagrees.bits v c fty hc hty]
  rfl

variable (hx : Reading table ty x) (hring : table.mulIsIdempotent ty = false)
  (hlisted : Listed table ty constMap typeMap coeffs)
  (hwidths : ∀ v fty, Occurs coeffs v → typeMap v = some fty →
    table.valueBitWidth fty = some (table.bitWidth fty))
  (hagrees : Consistent table constMap typeMap look)
include hx hring hlisted hwidths hagrees

/-- The vars that stay multiply to the monomial, and constants alone are known factors. -/
theorem simplifyFactors_reading {key : List V} (hkey : ∀ v ∈ key, Occurs coeffs v) :
    match simplifyFactors table constMap typeMap key with
    | none => (key.map fun v => x (look v).asFactor).prod = 0
    | some s => (key.map fun v => x (look v).asFactor).prod =
          (s.newKey.map fun v => x (look v).asFactor).prod ∧ s.newKey.Sublist key ∧
        (s.allConstant = true →
          s.constFactors = s.newKey.map fun v => (look v).asFactor) ∧
        (s.newKey = [] → s.allConstant = true) := by
  apply simplifyFactors_spec
  · intro v hv c fty hc hty hzero
    have hwidth := hwidths v fty (hkey v hv) hty
    rw [hwidth, Option.getD_some, constantIsZero_iff] at hzero
    have hbits : constBits c (table.bitWidth fty) =
        List.replicate (table.bitWidth fty) false := by
      rw [← constBits_maskConstant]
      apply List.eq_replicate_iff.mpr
      refine ⟨length_constBits _ _, ?_⟩
      intro b hb
      obtain ⟨k, _, rfl⟩ := List.mem_map.mp hb
      exact hzero k
    rw [hagrees.asFactor_eq hc hty, hbits]
    exact hx.zero fty (hlisted.accepted v fty (hkey v hv) hty)
  · intro v hv c fty hc hty hone
    have hwidth := hwidths v fty (hkey v hv) hty
    rw [hwidth, Option.getD_some] at hone
    unfold constantIsMulIdentity at hone
    cases hidentity : mulIdentity table fty with
    | none =>
        rw [hidentity] at hone
        cases hone
    | some identity =>
        rw [hidentity] at hone
        dsimp only at hone
        rw [decide_eq_true_iff, length_mulIdentity hwidth hidentity,
          constBits_maskConstant] at hone
        rw [hagrees.asFactor_eq hc hty, hone]
        exact hx.one fty identity (hlisted.accepted v fty (hkey v hv) hty)
          (fun hidem => absurd hidem (by rw [hring]; decide)) hidentity
  · intro v hv c fty hc hty
    rw [hwidths v fty (hkey v hv) hty, Option.getD_some, constBits_maskConstant]
    exact hagrees.asFactor_eq hc hty

omit hring hlisted hwidths in
theorem idempotentVar_reading {v : V} (hfits : ValueFits table ty (look v))
    (hidem : idempotentVar table typeMap v = true) :
    x (look v).asFactor * x (look v).asFactor = x (look v).asFactor := by
  unfold idempotentVar at hidem
  cases hty : typeMap v with
  | none =>
      rw [hty] at hidem
      cases hidem
  | some fty =>
      rw [hty, Option.any_some] at hidem
      apply hx.idem _ hfits.fits
      rw [Value.asFactor, hagrees.typed v fty hty]
      exact hidem

end

end VolarIR.Opt
