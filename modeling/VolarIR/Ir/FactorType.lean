import VolarIR.Field.FieldLaws
import VolarIR.Ir.Eval

/-!
# Factors of a typed product

Which types may stand as a factor of a `Poly` of a given type, and the widths, identities and
squares that the passes ask of such factors.
-/
namespace VolarIR

section
variable {table : TypeTable} {a b ty : TypeId}

theorem TypeTable.exists_length {t : IrType} (get : table.get ty = some t) :
    ∃ fuel, table.types.length = fuel + 1 := by
  have hlt := (List.getElem?_eq_some_iff.mp get).1
  exact ⟨table.types.length - 1, by omega⟩

theorem TypeTable.sameType_of_get (h : table.get a = table.get b)
    (hsome : (table.get a).isSome = true) : table.sameType a b = true := by
  rw [TypeTable.sameType, hsome, h, decide_eq_true rfl, Bool.and_true, Bool.or_true]

theorem TypeTable.sameType_congr (h : table.sameType a b = true) :
    table.sameType a ty = table.sameType b ty := by
  rw [sameType, Bool.or_eq_true, Bool.and_eq_true, decide_eq_true_iff, decide_eq_true_iff] at h
  rcases h with rfl | ⟨hsome, hget⟩
  · rfl
  · rw [Bool.eq_iff_iff]
    constructor
    · intro hab
      rw [hget] at hsome
      exact sameType_of_get (hget.symm.trans (get_of_sameType hab)) hsome
    · intro hab
      exact sameType_of_get (hget.trans (get_of_sameType hab)) hsome

theorem bitWidth_congr (h : table.get a = table.get b) : table.bitWidth a = table.bitWidth b := by
  unfold TypeTable.bitWidth
  cases table.types.length with
  | zero => rfl
  | succ fuel => rw [bitWidthFrom, bitWidthFrom, h]

theorem mulIsIdempotent_congr (h : table.get a = table.get b) :
    table.mulIsIdempotent a = table.mulIsIdempotent b := by
  unfold TypeTable.mulIsIdempotent
  cases table.types.length with
  | zero => rfl
  | succ fuel => rw [mulIsIdempotentFrom, mulIsIdempotentFrom, h]

theorem valueBitWidth_congr (h : table.get a = table.get b) :
    table.valueBitWidth a = table.valueBitWidth b := by
  unfold TypeTable.valueBitWidth
  cases table.types.length with
  | zero => rfl
  | succ fuel => rw [valueBitWidthFrom, valueBitWidthFrom, h]

theorem mulIdentity_congr (h : table.get a = table.get b) :
    mulIdentity table a = mulIdentity table b := by
  unfold mulIdentity identityBits
  cases table.types.length with
  | zero => rfl
  | succ fuel =>
      rw [identityBitsFrom, identityBitsFrom, h, valueBitWidth_congr h]

theorem bitWidthFrom_eq {fuel w : ℕ} (h : valueBitWidthFrom table fuel ty = some w) :
    bitWidthFrom table fuel ty = w := by
  induction fuel generalizing ty w with
  | zero => cases h
  | succ fuel ih =>
      rw [valueBitWidthFrom] at h
      rw [bitWidthFrom]
      split at h
      · next heq =>
          rw [heq]
          exact Option.some.inj h
      · next n elem heq =>
          obtain ⟨lane, hlane, hmul⟩ := Option.bind_eq_some_iff.mp h
          rw [heq]
          rw [checkedMul, Option.ite_none_right_eq_some, Option.some.injEq] at hmul
          dsimp only
          rw [ih hlane, hmul.2]
      · next parts heq =>
          rw [heq]
          have hsum : ∀ (parts : List TypeId) (start : ℕ), parts.foldlM (fun sum part =>
              (valueBitWidthFrom table fuel part).bind (checkedAdd sum)) start = some w →
              start + (parts.map (bitWidthFrom table fuel)).sum = w := by
            intro parts
            induction parts with
            | nil => exact fun start h => Option.some.inj h
            | cons part rest ihparts =>
                intro start h
                rw [List.foldlM_cons] at h
                obtain ⟨sum, hsum, hrest⟩ := Option.bind_eq_some_iff.mp h
                obtain ⟨width, hwidth, hadd⟩ := Option.bind_eq_some_iff.mp hsum
                rw [checkedAdd, Option.ite_none_right_eq_some, Option.some.injEq] at hadd
                rw [List.map_cons, List.sum_cons, ih hwidth, ← Nat.add_assoc, hadd.2]
                exact ihparts sum hrest
          dsimp only
          exact (Nat.zero_add _).symm.trans (hsum parts 0 h)
      · next wrapped degree irreducible heq =>
          obtain ⟨width, hwidth, hmul⟩ := Option.bind_eq_some_iff.mp h
          rw [heq]
          rw [checkedMul, Option.ite_none_right_eq_some, Option.some.injEq] at hmul
          dsimp only
          rw [ih hwidth, hmul.2]
      · next k n heq =>
          rw [heq]
          exact Option.some.inj h
      · cases h

theorem bitWidth_eq_of_valueBitWidth {w : ℕ} (h : table.valueBitWidth ty = some w) :
    table.bitWidth ty = w := bitWidthFrom_eq h

theorem Means.bitWidth_eq {A : BitAlgebra} (h : Means table ty A) (hfits : A.width ≤ usizeMax) :
    table.bitWidth ty = A.width := bitWidth_eq_of_valueBitWidth (h.valueBitWidth_eq hfits)

theorem bitWidth_of_isBit (h : table.isBit ty = true) : table.bitWidth ty = 1 := by
  have hget := TypeTable.isBit_iff.mp h
  unfold TypeTable.bitWidth
  obtain ⟨fuel, hfuel⟩ := TypeTable.exists_length hget
  rw [hfuel, bitWidthFrom, hget]

theorem mulIsIdempotent_of_isBit (h : table.isBit ty = true) :
    table.mulIsIdempotent ty = true := by
  have hget := TypeTable.isBit_iff.mp h
  unfold TypeTable.mulIsIdempotent
  obtain ⟨fuel, hfuel⟩ := TypeTable.exists_length hget
  rw [hfuel, mulIsIdempotentFrom, hget]

theorem identityBitsFrom_of_idempotent {fuel : ℕ} {bits : List Bool}
    (hidem : mulIsIdempotentFrom table fuel ty = true)
    (h : identityBitsFrom boolBits table fuel ty = some bits) :
    bits = List.replicate (bitWidthFrom table fuel ty) true := by
  induction fuel generalizing ty bits with
  | zero => cases h
  | succ fuel ih =>
      rw [identityBitsFrom] at h
      rw [mulIsIdempotentFrom] at hidem
      rw [bitWidthFrom]
      split at h
      · next heq =>
          rw [heq]
          exact (Option.some.inj h).symm
      · next n elem heq =>
          rw [heq] at hidem ⊢
          obtain ⟨lane, hlane, rfl⟩ := Option.map_eq_some_iff.mp h
          rw [ih hidem hlane]
          simp
      · next heq => simp [heq] at hidem
      · next heq => simp [heq] at hidem
      · next parts heq =>
          rw [heq] at hidem ⊢
          obtain ⟨lanes, hlanes, rfl⟩ := Option.map_eq_some_iff.mp h
          have hall : ∀ part ∈ parts, mulIsIdempotentFrom table fuel part = true :=
            List.all_eq_true.mp hidem
          have hflat : ∀ (parts : List TypeId) (lanes : List (List Bool)),
              (∀ part ∈ parts, mulIsIdempotentFrom table fuel part = true) →
              parts.mapM (identityBitsFrom boolBits table fuel) = some lanes →
              lanes.flatten = List.replicate (parts.map (bitWidthFrom table fuel)).sum true := by
            intro parts
            induction parts with
            | nil =>
                intro lanes _ h
                cases h
                rfl
            | cons part rest ihparts =>
                intro lanes hall h
                rw [List.mapM_cons] at h
                obtain ⟨lane, hlane, h⟩ := Option.bind_eq_some_iff.mp h
                obtain ⟨lanes', hlanes', h⟩ := Option.bind_eq_some_iff.mp h
                cases h
                rw [List.flatten_cons, ih (hall part List.mem_cons_self) hlane,
                  ihparts lanes' (fun p hp => hall p (List.mem_cons_of_mem part hp)) hlanes',
                  List.map_cons, List.sum_cons, List.replicate_append_replicate]
          exact hflat parts lanes hall hlanes
      · cases h

theorem mulIdentity_of_idempotent {bits : List Bool} (hidem : table.mulIsIdempotent ty = true)
    (h : mulIdentity table ty = some bits) : bits = List.replicate (table.bitWidth ty) true :=
  identityBitsFrom_of_idempotent hidem h

end

end VolarIR
