import VolarIR.Field.Irreducibility
import VolarIR.Library.Loop

/-!
# Field types of a table

`Bit` and the extension fields `ext_field` accepts. Each has a descriptor, which describes a
field; the check of a new polynomial over one is exact up to the unit Euclid's algorithm
ends in.
-/
namespace VolarIR
open Polynomial

section
variable {table : TypeTable}

theorem fieldDescFrom_succ {id wrapped : TypeId} {degree : ℕ} {irreducible : List U64}
    (h : table.get id = some (.extField wrapped degree irreducible)) (fuel : ℕ) :
    fieldDescFrom table (fuel + 1) id =
      (wrappedDescWith (fieldDescFrom table fuel) table wrapped).map fun w =>
        ⟨degree, irreducible, w, degree * w.width⟩ := by
  rw [fieldDescFrom, h]

theorem get_of_fieldDescFrom {fuel : ℕ} {id : TypeId} (h : fieldDescFrom table fuel id ≠ none) :
    ∃ wrapped degree irreducible, table.get id = some (.extField wrapped degree irreducible) := by
  cases fuel with
  | zero => exact absurd rfl h
  | succ fuel =>
      rw [fieldDescFrom] at h
      split at h
      · next wrapped degree irreducible hget => exact ⟨wrapped, degree, irreducible, hget⟩
      · exact absurd rfl h

theorem wrappedDescWith_mono {next next' : TypeId → Option FieldDesc} {wrapped : TypeId}
    {w : WrappedDesc} (hnext : ∀ id desc, next id = some desc → next' id = some desc)
    (h : wrappedDescWith next table wrapped = some w) :
    wrappedDescWith next' table wrapped = some w := by
  unfold wrappedDescWith at h ⊢
  split at h
  · exact h
  · obtain ⟨desc, hdesc, hw⟩ := Option.map_eq_some_iff.mp h
    exact Option.map_eq_some_iff.mpr ⟨desc, hnext _ _ hdesc, hw⟩
  · cases h

theorem fieldDescFrom_mono_succ {fuel : ℕ} {id : TypeId} {desc : FieldDesc}
    (h : fieldDescFrom table fuel id = some desc) :
    fieldDescFrom table (fuel + 1) id = some desc := by
  induction fuel generalizing id desc with
  | zero => cases h
  | succ fuel ih =>
      obtain ⟨wrapped, degree, irreducible, hget⟩ :=
        get_of_fieldDescFrom (Option.ne_none_iff_exists'.mpr ⟨desc, h⟩)
      rw [fieldDescFrom_succ hget] at h ⊢
      obtain ⟨w, hw, hdesc⟩ := Option.map_eq_some_iff.mp h
      exact Option.map_eq_some_iff.mpr
        ⟨w, wrappedDescWith_mono (fun _ _ h => ih h) hw, hdesc⟩

theorem fieldDescFrom_mono {fuel fuel' : ℕ} {id : TypeId} {desc : FieldDesc} (hle : fuel ≤ fuel')
    (h : fieldDescFrom table fuel id = some desc) : fieldDescFrom table fuel' id = some desc := by
  induction hle with
  | refl => exact h
  | step _ ih => exact fieldDescFrom_mono_succ ih

/-- The descent from `id` takes exactly `depth + 1` levels. -/
def Depth (table : TypeTable) (depth : ℕ) (id : TypeId) : Prop :=
  fieldDescFrom table (depth + 1) id ≠ none ∧ fieldDescFrom table depth id = none

theorem Depth.pred {depth : ℕ} {id : TypeId} (h : Depth table (depth + 1) id) :
    ∃ wrapped, Depth table depth wrapped := by
  obtain ⟨wrapped, degree, irreducible, hget⟩ := get_of_fieldDescFrom h.1
  have hsome := h.1
  have hnone := h.2
  rw [fieldDescFrom_succ hget, ne_eq, Option.map_eq_none_iff] at hsome
  rw [fieldDescFrom_succ hget, Option.map_eq_none_iff] at hnone
  unfold wrappedDescWith at hsome hnone
  refine ⟨wrapped, ?_⟩
  split at hsome
  · next hbit =>
      rw [hbit] at hnone
      cases hnone
  · next hext =>
      rw [hext] at hnone
      exact ⟨fun h => hsome (Option.map_eq_none_iff.mpr h), Option.map_eq_none_iff.mp hnone⟩
  · exact absurd rfl hsome

theorem Depth.unique {j k : ℕ} {id : TypeId} (hj : Depth table j id) (hk : Depth table k id) :
    j = k := by
  have hle : ∀ {j k : ℕ}, Depth table j id → Depth table k id → k ≤ j := by
    intro j k hj hk
    by_contra hlt
    obtain ⟨desc, hdesc⟩ := Option.ne_none_iff_exists'.mp hj.1
    have hsome := fieldDescFrom_mono (by omega : j + 1 ≤ k) hdesc
    rw [hk.2] at hsome
    cases hsome
  exact Nat.le_antisymm (hle hk hj) (hle hj hk)

theorem TypeId.id_injective : Function.Injective TypeId.id := fun a b h => by
  cases a
  cases b
  exact congrArg TypeId.mk h

theorem Depth.lt_length {depth : ℕ} {id : TypeId} (h : Depth table depth id) :
    depth < table.types.length := by
  apply Descent.lt_of_rank (Depth table) TypeId.id_injective _
    (fun _ _ => Depth.pred) (fun _ _ _ => Depth.unique) h
  intro depth id h
  obtain ⟨wrapped, degree, irreducible, hget⟩ := get_of_fieldDescFrom h.1
  exact (List.getElem?_eq_some_iff.mp hget).1

theorem fieldDesc_of_from {fuel : ℕ} {id : TypeId} {desc : FieldDesc}
    (h : fieldDescFrom table fuel id = some desc) : fieldDesc table id = some desc := by
  have hex : ∃ fuel, fieldDescFrom table fuel id ≠ none :=
    ⟨fuel, Option.ne_none_iff_exists'.mpr ⟨desc, h⟩⟩
  classical
  cases hmin : Nat.find hex with
  | zero =>
      have hspec := Nat.find_spec hex
      rw [hmin] at hspec
      exact absurd rfl hspec
  | succ depth =>
      have hdepth : Depth table depth id := by
        constructor
        · have hspec := Nat.find_spec hex
          rwa [hmin] at hspec
        · exact not_not.mp (Nat.find_min hex (by omega))
      have hlt := hdepth.lt_length
      obtain ⟨desc', hdesc'⟩ := Option.ne_none_iff_exists'.mp hdepth.1
      have hlen := fieldDescFrom_mono hlt hdesc'
      have hboth := fieldDescFrom_mono (Nat.le_max_left fuel (depth + 1)) h
      rw [fieldDescFrom_mono (Nat.le_max_right fuel (depth + 1)) hdesc'] at hboth
      rw [fieldDesc, hlen, hboth]

end

/-- `Bit`, or an extension field over such a type that the check accepts. -/
inductive FieldType (table : TypeTable) : TypeId → Prop
  | bit {id : TypeId} (get : table.get id = some (.primitive .bit)) : FieldType table id
  | ext {id wrapped : TypeId} {degree : ℕ} {irreducible : List U64}
      (get : table.get id = some (.extField wrapped degree irreducible))
      (le_max : degree ≤ u32Max) (coeffs : FieldType table wrapped)
      (accepted : validateExtField table wrapped degree irreducible = .ok ()) :
      FieldType table id

section
variable {table : TypeTable} {wrapped : TypeId} {degree : ℕ} {irreducible : List U64}

theorem validateExtField_eq_ok
    (h : validateExtField table wrapped degree irreducible = .ok ()) :
    ∃ w, wrappedDesc table wrapped = some w ∧ 2 ≤ degree ∧ w.width ≤ 64 ∧
      irreducible.length = degree + 1 ∧ irreducible.getD degree 0 = 1 ∧
      isIrreducible ⟨degree, irreducible, w, degree * w.width⟩ = true := by
  unfold validateExtField at h
  split at h
  · cases h
  · next hdegree =>
      split at h
      · cases h
      · next w hw =>
          simp only at h
          split at h
          · cases h
          · next hwidth =>
              split at h
              · cases h
              · next hlen =>
                  split at h
                  · cases h
                  · next hlead =>
                      split at h
                      · cases h
                      · split at h
                        · cases h
                        · split at h
                          · cases h
                          · next htest =>
                              refine ⟨w, hw, by omega, by omega, not_not.mp hlen,
                                not_not.mp hlead, ?_⟩
                              simpa using htest

/-- With everything else in order the check is the irreducibility test. -/
theorem validateExtField_of_wellFormed {w : WrappedDesc} (hw : wrappedDesc table wrapped = some w)
    (hn : 2 ≤ degree) (hmax : degree ≤ u32Max) (hpos : 0 < w.width) (hwidth : w.width ≤ 64)
    (hlen : irreducible.length = degree + 1) (hlead : irreducible.getD degree 0 = 1)
    (hrange : ∀ coeff ∈ irreducible.take degree, coeff.toNat < 2 ^ w.width) :
    validateExtField table wrapped degree irreducible =
      if isIrreducible ⟨degree, irreducible, w, degree * w.width⟩ then .ok ()
      else .error (.error .reducible) := by
  have hlimit : (irreducible.take degree).findIdx? (fun coeff => decide
      ((if w.width = 64 then 2 ^ 64 - 1 else 2 ^ w.width - 1) < coeff.toNat)) = none := by
    rw [List.findIdx?_eq_none_iff]
    intro coeff hcoeff
    have hlt := hrange coeff hcoeff
    rw [decide_eq_false_iff_not]
    split
    · next heq =>
        rw [heq] at hlt
        omega
    · omega
  have hfits : degree * w.width ≤ usizeMax := by
    have hmul := Nat.mul_le_mul hmax hwidth
    have hbound : u32Max * 64 ≤ usizeMax := by decide
    omega
  unfold validateExtField
  rw [if_neg (by omega), hw]
  simp only [hlen, hlead, ne_eq, not_true_eq_false, if_false, hlimit]
  rw [if_neg (by omega), if_neg (by omega)]
  cases isIrreducible ⟨degree, irreducible, w, degree * w.width⟩ <;> rfl

theorem FieldType.describes {id : TypeId} (h : FieldType table id) :
    ∃ w F, wrappedDesc table id = some w ∧ Describes w F := by
  induction h with
  | bit get => exact ⟨.bit, .gf2, by rw [wrappedDesc, wrappedDescWith, get], .bit⟩
  | @ext id wrapped degree irreducible get _ _ accepted ih =>
      obtain ⟨w, hw, hn, -, hlen, hlead, htest⟩ := validateExtField_eq_ok accepted
      obtain ⟨w', F, hw', hF⟩ := ih
      cases hw.symm.trans hw'
      have hm : Modulus F degree irreducible := ⟨hlen, hlead⟩
      have hirr := ((isIrreducible_iff hF hm hn _).mp htest).1
      have hdesc : fieldDesc table id = some ⟨degree, irreducible, w, degree * w.width⟩ := by
        have hfrom : fieldDescFrom table (table.types.length + 1) id =
            some ⟨degree, irreducible, w, degree * w.width⟩ := by
          rw [fieldDescFrom_succ get]
          exact Option.map_eq_some_iff.mpr ⟨w, hw, rfl⟩
        exact fieldDesc_of_from hfrom
      refine ⟨_, _, ?_, .field hF hn hm hirr⟩
      rw [wrappedDesc, wrappedDescWith, get]
      simp only [hdesc]
      rfl

end

section
variable {table table' : TypeTable}
  (hkeep : ∀ id t, table.get id = some t → table'.get id = some t)
include hkeep

theorem wrappedDescWith_keep {next next' : TypeId → Option FieldDesc} {wrapped : TypeId}
    {w : WrappedDesc} (hnext : ∀ id desc, next id = some desc → next' id = some desc)
    (h : wrappedDescWith next table wrapped = some w) :
    wrappedDescWith next' table' wrapped = some w := by
  apply wrappedDescWith_mono hnext
  cases hget : table.get wrapped with
  | none => simp [wrappedDescWith, hget] at h
  | some t =>
      rw [wrappedDescWith, hget] at h
      rwa [wrappedDescWith, hkeep wrapped t hget]

theorem fieldDescFrom_keep {fuel : ℕ} {id : TypeId} {desc : FieldDesc}
    (h : fieldDescFrom table fuel id = some desc) : fieldDescFrom table' fuel id = some desc := by
  induction fuel generalizing id desc with
  | zero => cases h
  | succ fuel ih =>
      obtain ⟨wrapped, degree, irreducible, hget⟩ :=
        get_of_fieldDescFrom (Option.ne_none_iff_exists'.mpr ⟨desc, h⟩)
      rw [fieldDescFrom_succ hget] at h
      rw [fieldDescFrom_succ (hkeep id _ hget)]
      obtain ⟨w, hw, hdesc⟩ := Option.map_eq_some_iff.mp h
      exact Option.map_eq_some_iff.mpr
        ⟨w, wrappedDescWith_keep hkeep (fun _ _ h => ih h) hw, hdesc⟩

theorem wrappedDesc_keep {wrapped : TypeId} {w : WrappedDesc}
    (h : wrappedDesc table wrapped = some w) : wrappedDesc table' wrapped = some w :=
  wrappedDescWith_keep hkeep
    (fun _ _ hdesc => fieldDesc_of_from (fieldDescFrom_keep hkeep hdesc)) h

theorem FieldType.keep {id : TypeId} (h : FieldType table id) : FieldType table' id := by
  induction h with
  | bit get => exact .bit (hkeep _ _ get)
  | @ext id wrapped degree irreducible get le_max _ accepted ih =>
      obtain ⟨w, hw, -⟩ := validateExtField_eq_ok accepted
      refine .ext (hkeep _ _ get) le_max ih ?_
      rw [← accepted, validateExtField, validateExtField, hw, wrappedDesc_keep hkeep hw]

end

/-- `ext_field` returns a field type. -/
theorem FieldType.of_extField {table table' : TypeTable} {id wrapped : TypeId} {degree : ℕ}
    {irreducible : List U64} (hmax : degree ≤ u32Max) (hwrapped : FieldType table wrapped)
    (h : table.extField wrapped degree irreducible = .ok (id, table')) : FieldType table' id := by
  rw [TypeTable.extField, Except.bind_eq_ok] at h
  obtain ⟨⟨⟩, accepted, hintern⟩ := h
  have hpair := Except.ok.inj hintern
  have hid : id = (table.intern (.extField wrapped degree irreducible)).1 :=
    congrArg Prod.fst hpair.symm
  have htable : table' = (table.intern (.extField wrapped degree irreducible)).2 :=
    congrArg Prod.snd hpair.symm
  subst hid htable
  have hkeep : ∀ id t, table.get id = some t →
      (table.intern (.extField wrapped degree irreducible)).2.get id = some t :=
    fun id t => table.get_intern_of_get _
  obtain ⟨w, hw, -⟩ := validateExtField_eq_ok accepted
  refine .ext (table.get_intern _) hmax (hwrapped.keep hkeep) ?_
  rw [← accepted, validateExtField, validateExtField, hw, wrappedDesc_keep hkeep hw]

/-- For each polynomial in order, `ext_field` returns `Ok` on the irreducible ones and
`Reducible` on the others just when no irreducible one leaves Euclid's algorithm with a unit
other than one. -/
theorem extField_exact_iff {table : TypeTable} {wrapped : TypeId} {degree : ℕ}
    {irreducible : List U64} {w : WrappedDesc} (hwrapped : FieldType table wrapped)
    (hw : wrappedDesc table wrapped = some w) (hwidth : w.width ≤ 64) (hn : 2 ≤ degree)
    (hmax : degree ≤ u32Max) (hlen : irreducible.length = degree + 1)
    (hlead : irreducible.getD degree 0 = 1)
    (hrange : ∀ coeff ∈ irreducible.take degree, coeff.toNat < 2 ^ w.width) :
    ∃ F, Describes w F ∧
      (((Irreducible (modulusOf F irreducible) → table.extField wrapped degree irreducible =
            .ok (table.intern (.extField wrapped degree irreducible))) ∧
          (¬ Irreducible (modulusOf F irreducible) →
            table.extField wrapped degree irreducible = .error (.error .reducible))) ↔
        (Irreducible (modulusOf F irreducible) → ∀ r, r.Prime → r ∣ degree →
          euclid (frobeniusDefect F degree (modulusOf F irreducible) r)
            (modulusOf F irreducible) = 1)) := by
  obtain ⟨w', F, hw', hF⟩ := hwrapped.describes
  cases hw.symm.trans hw'
  have hpos : 0 < w.width := hF.width_eq ▸ F.width_pos
  have hm : Modulus F degree irreducible := ⟨hlen, hlead⟩
  have hcheck := validateExtField_of_wellFormed hw hn hmax hpos hwidth hlen hlead hrange
  have htest := isIrreducible_iff hF hm hn (degree * w.width)
  refine ⟨F, hF, ?_⟩
  rw [TypeTable.extField, hcheck]
  by_cases hirr : Irreducible (modulusOf F irreducible)
  · by_cases hone : ∀ r, r.Prime → r ∣ degree →
        euclid (frobeniusDefect F degree (modulusOf F irreducible) r) (modulusOf F irreducible) = 1
    · rw [if_pos (htest.mpr ⟨hirr, hone⟩)]
      exact ⟨fun _ _ => hone, fun _ => ⟨fun _ => rfl, absurd hirr⟩⟩
    · rw [if_neg fun h => hone (htest.mp h).2]
      constructor
      · intro h
        cases h.1 hirr
      · exact fun h => absurd (h hirr) hone
  · rw [if_neg fun h => hirr (htest.mp h).1]
    exact ⟨fun _ h => absurd h hirr, fun _ => ⟨fun h => absurd h hirr, fun _ => rfl⟩⟩

/-- A table with `Bit` and the field of four elements over it. -/
def gf4Table : TypeTable := ⟨[.primitive .bit, .extField ⟨0⟩ 2 [1, 1, 1]]⟩

def gf4Desc : WrappedDesc := .field 2 [1, 1, 1] .bit 2

theorem fieldType_gf4 : FieldType gf4Table ⟨1⟩ := by
  have get : gf4Table.get ⟨1⟩ = some (.extField ⟨0⟩ 2 [1, 1, 1]) := rfl
  exact .ext get (by decide) (.bit rfl) (by decide +kernel)

theorem extField_exact_gf4 : ∃ F, Describes gf4Desc F ∧
    (((Irreducible (modulusOf F [3, 0, 1]) → gf4Table.extField ⟨1⟩ 2 [3, 0, 1] =
          .ok (gf4Table.intern (.extField ⟨1⟩ 2 [3, 0, 1]))) ∧
        (¬ Irreducible (modulusOf F [3, 0, 1]) →
          gf4Table.extField ⟨1⟩ 2 [3, 0, 1] = .error (.error .reducible))) ↔
      (Irreducible (modulusOf F [3, 0, 1]) → ∀ r, r.Prime → r ∣ 2 →
        euclid (frobeniusDefect F 2 (modulusOf F [3, 0, 1]) r) (modulusOf F [3, 0, 1]) = 1)) :=
  extField_exact_iff fieldType_gf4 rfl (by decide) (by decide) (by decide) rfl rfl
    (by simp [WrappedDesc.width, gf4Desc])

/-- `x² + ωx + 1` has no root among the four elements, and the check calls it reducible. -/
theorem extField_gf4_irreducible_refused : ∃ F, Describes gf4Desc F ∧
    Irreducible (modulusOf F [1, 2, 1]) ∧
      gf4Table.extField ⟨1⟩ 2 [1, 2, 1] = .error (.error .reducible) := by
  obtain ⟨w, F, hw, hF⟩ := fieldType_gf4.describes
  cases hw
  have hm : Modulus F 2 [1, 2, 1] := ⟨rfl, rfl⟩
  refine ⟨F, hF, ?_, by decide +kernel⟩
  rw [irreducible_iff_polyDegree hF hm (le_refl 2) 4]
  decide +kernel

end VolarIR
