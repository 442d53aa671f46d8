import VolarIR.Ir.PrimeValuation

/-!
# Readings of a prime-field polynomial

The residues of the factors are a reading of a prime field, and a reading of one lane or part
is a reading of the whole type.
-/
namespace VolarIR.Ir

section
variable {table : TypeTable} {ty : TypeId} {k : ℕ} {n : List U64}
  (get : table.get ty = some (.primeField k n))
include get

theorem mulIsIdempotent_primeField : table.mulIsIdempotent ty = false := by
  unfold TypeTable.mulIsIdempotent
  obtain ⟨fuel, hfuel⟩ := TypeTable.exists_length get
  rw [hfuel, mulIsIdempotentFrom, get]

theorem FactorTyped.primeField {fty : TypeId} (h : FactorTyped table ty fty) :
    table.isBit fty = true ∨ table.isBit fty = false ∧ table.sameType fty ty = true := by
  have hfits : FactorFits table ty (fty, List.replicate (table.bitWidth fty) false) :=
    ⟨h, List.length_replicate⟩
  rcases hfits.primeField get with ⟨hbit, _⟩ | ⟨hbit, hsame, _⟩
  · exact .inl hbit
  · exact .inr ⟨hbit, hsame⟩

omit get in
theorem fieldDigits_gate {fty : TypeId} {bits : List Bool} (hbit : table.isBit fty = true) :
    fieldDigits boolRing table ty k (fty, bits) =
      some ((List.replicate k false).set 0 (bits.headD false)) := if_pos hbit

omit get in
theorem fieldDigits_element {fty : TypeId} {bits : List Bool} (hbit : table.isBit fty = false)
    (hsame : table.sameType fty ty = true) (hlen : bits.length = k) :
    fieldDigits boolRing table ty k (fty, bits) = some bits := by
  rw [fieldDigits, if_neg (by rw [hbit]; decide), if_pos hsame]
  exact congrArg some (sliceWires_self hlen)

theorem bitWidth_primeField : table.bitWidth ty = k :=
  bitWidth_eq_of_valueBitWidth (valueBitWidth_primeField get)

theorem mulIdentity_primeField (hk : 2 ≤ k) :
    mulIdentity table ty = some ((List.replicate k false).set 0 true) := by
  obtain ⟨fuel, hfuel⟩ := TypeTable.exists_length get
  obtain ⟨k, rfl⟩ : ∃ m, k = m + 1 := ⟨k - 1, by omega⟩
  unfold mulIdentity identityBits
  rw [hfuel, identityBitsFrom, get]
  simp only [valueBitWidth_primeField get, Option.map_some]
  rfl

theorem reading_residueAt (hc : Canonical k (Limbs.value n)) (p : ℕ) :
    Reading table ty (residueAt table ty k p) where
  zero fty htyped := by
    have hzero : residueAt table ty k p (fty, List.replicate (table.bitWidth fty) false) =
        ((0 : ℕ) : ZMod p) := by
      unfold residueAt
      rcases htyped.primeField get with hbit | ⟨hbit, hsame⟩
      · have hhead : (List.replicate (table.bitWidth fty) false).headD false = false := by
          rw [List.headD_eq_head?_getD, List.head?_replicate]
          split_ifs <;> rfl
        rw [fieldDigits_gate hbit, hhead, Option.getD_some, value_set_zero hc.two_le]
        rfl
      · have hwidth : table.bitWidth fty = k :=
          (bitWidth_congr (TypeTable.get_of_sameType hsame)).trans (bitWidth_primeField get)
        rw [hwidth, fieldDigits_element hbit hsame List.length_replicate, Option.getD_some,
          Bits.value_replicate_false]
    rw [hzero, Nat.cast_zero]
  one fty bits htyped _ hbits := by
    have hone : residueAt table ty k p (fty, bits) = ((1 : ℕ) : ZMod p) := by
      unfold residueAt
      rcases htyped.primeField get with hbit | ⟨hbit, hsame⟩
      · have hbits' := mulIdentity_of_idempotent (mulIsIdempotent_of_isBit hbit) hbits
        rw [bitWidth_of_isBit hbit] at hbits'
        rw [fieldDigits_gate hbit, hbits', Option.getD_some, value_set_zero hc.two_le]
        rfl
      · rw [mulIdentity_congr (TypeTable.get_of_sameType hsame),
          mulIdentity_primeField get hc.two_le] at hbits
        cases hbits
        rw [fieldDigits_element hbit hsame (by simp), Option.getD_some,
          value_set_zero hc.two_le]
        rfl
    rw [hone, Nat.cast_one]
  idem f hf hidem := by
    rcases hf.primeField get with ⟨hbit, b, hb⟩ | ⟨_, hsame, _⟩
    · obtain ⟨fty, bits⟩ := f
      dsimp only at hb hbit
      subst hb
      unfold residueAt
      rw [fieldDigits_gate hbit, Option.getD_some, value_set_zero hc.two_le]
      cases b <;> simp
    · rw [mulIsIdempotent_congr (TypeTable.get_of_sameType hsame),
        mulIsIdempotent_primeField get] at hidem
      cases hidem
  congr f g _ _ hbits hty := by
    have hsame : table.sameType f.1 g.1 = true :=
      hty.resolve_left (by rw [mulIsIdempotent_primeField get]; decide)
    have hbit : table.isBit f.1 = table.isBit g.1 := by
      rw [TypeTable.isBit, TypeTable.isBit, TypeTable.get_of_sameType hsame]
    unfold residueAt fieldDigits
    rw [hbit, TypeTable.sameType_congr hsame, hbits]

end

section
variable {table : TypeTable} {ty part : TypeId} {start width : ℕ}

/-- `part` stands at bit `start` of a type of lanes or parts. -/
structure PartOf (table : TypeTable) (ty part : TypeId) (start width : ℕ) : Prop where
  ring : table.mulIsIdempotent ty = false
  typed : ∀ fty, FactorTyped table ty fty →
    table.sameType fty ty = true ∨ table.sameType fty part = true ∨ table.isBit fty = true
  partWidth : table.bitWidth part = width
  identity : ∀ bits, mulIdentity table ty = some bits →
    mulIdentity table part = some (sliceWires boolRing bits start width)

def partAt (table : TypeTable) (ty part : TypeId) (start width : ℕ) (f : Factor Bool) :
    Factor Bool :=
  if table.sameType f.1 ty then (part, sliceWires boolRing f.2 start width) else f

theorem PartOf.typed_part (h : PartOf table ty part start width) {fty : TypeId}
    (hf : FactorTyped table ty fty) (hsame : table.sameType fty ty = false) :
    FactorTyped table part fty := by
  rcases h.typed fty hf with hty | hpart | hbit
  · rw [hsame] at hty
    cases hty
  · exact .own hpart
  · exact .gate hbit

theorem PartOf.partFactor_eq (h : PartOf table ty part start width) {f : Factor Bool}
    (hf : FactorTyped table ty f.1) :
    partFactor boolRing table ty part start width f =
      some (partAt table ty part start width f) := by
  unfold partFactor partAt
  by_cases hsame : table.sameType f.1 ty = true
  · rw [if_pos hsame, if_pos hsame]
  · rw [if_neg hsame, if_neg hsame]
    rcases h.typed f.1 hf with hty | hpart | hbit
    · exact absurd hty hsame
    · rw [hpart, Bool.true_or, if_pos rfl]
    · rw [hbit, Bool.or_true, if_pos rfl]

theorem PartOf.fits (h : PartOf table ty part start width) {f : Factor Bool}
    (hf : FactorFits table ty f) : FactorFits table part (partAt table ty part start width f) := by
  unfold partAt
  by_cases hsame : table.sameType f.1 ty = true
  · rw [if_pos hsame]
    exact ⟨.own (TypeTable.sameType_self part), (length_sliceWires _ _ _).trans h.partWidth.symm⟩
  · rw [if_neg hsame]
    exact ⟨h.typed_part hf.typed (Bool.eq_false_iff.mpr hsame), hf.length⟩

theorem PartOf.partTerms_eq (h : PartOf table ty part start width) {terms : List (Term Bool)}
    (hterms : ∀ t ∈ terms, ∀ f ∈ t.1, FactorFits table ty f) :
    partTerms boolRing table ty part start width terms =
      some (terms.map fun t => (t.1.map (partAt table ty part start width), t.2)) := by
  have hfactors : ∀ factors : List (Factor Bool), (∀ f ∈ factors, FactorFits table ty f) →
      factors.mapM (partFactor boolRing table ty part start width) =
        some (factors.map (partAt table ty part start width)) := by
    intro factors hfs
    induction factors with
    | nil => rfl
    | cons f rest ih =>
        rw [List.mapM_cons, h.partFactor_eq (hfs f List.mem_cons_self).typed,
          ih fun g hg => hfs g (List.mem_cons_of_mem f hg)]
        rfl
  unfold partTerms
  induction terms with
  | nil => rfl
  | cons t rest ih =>
      rw [List.mapM_cons, hfactors t.1 (hterms t List.mem_cons_self),
        ih fun u hu => hterms u (List.mem_cons_of_mem t hu)]
      rfl

variable {R : Type} [CommRing R] {x : Factor Bool → R}

theorem Reading.ofPart (h : PartOf table ty part start width) (hx : Reading table part x) :
    Reading table ty (x ∘ partAt table ty part start width) where
  zero fty htyped := by
    rw [Function.comp_apply, partAt]
    by_cases hsame : table.sameType fty ty = true
    · rw [if_pos hsame, sliceWires_zeros, ← h.partWidth]
      exact hx.zero part (.own (TypeTable.sameType_self part))
    · rw [if_neg hsame]
      exact hx.zero fty (h.typed_part htyped (Bool.eq_false_iff.mpr hsame))
  one fty bits htyped _ hbits := by
    rw [Function.comp_apply, partAt]
    by_cases hsame : table.sameType fty ty = true
    · rw [if_pos hsame]
      rw [mulIdentity_congr (TypeTable.get_of_sameType hsame)] at hbits
      exact hx.one part _ (.own (TypeTable.sameType_self part)) id (h.identity bits hbits)
    · rw [if_neg hsame]
      apply hx.one fty bits (h.typed_part htyped (Bool.eq_false_iff.mpr hsame)) _ hbits
      intro hidem
      rcases h.typed fty htyped with hty | hpart | hbit
      · exact absurd hty hsame
      · rw [mulIsIdempotent_congr (TypeTable.get_of_sameType hpart)]
        exact hidem
      · exact mulIsIdempotent_of_isBit hbit
  idem f hf hidem := by
    rw [Function.comp_apply, partAt]
    by_cases hsame : table.sameType f.1 ty = true
    · rw [mulIsIdempotent_congr (TypeTable.get_of_sameType hsame), h.ring] at hidem
      cases hidem
    · rw [if_neg hsame]
      exact hx.idem f ⟨h.typed_part hf.typed (Bool.eq_false_iff.mpr hsame), hf.length⟩ hidem
  congr f g hf hg hbits hty := by
    have hfg : table.sameType f.1 g.1 = true := hty.resolve_left (by rw [h.ring]; decide)
    have hffits := h.fits hf
    have hgfits := h.fits hg
    rw [Function.comp_apply, Function.comp_apply]
    unfold partAt at *
    rw [← TypeTable.sameType_congr hfg] at hgfits ⊢
    by_cases hsame : table.sameType f.1 ty = true
    · rw [if_pos hsame, if_pos hsame, hbits]
    · rw [if_neg hsame] at hffits hgfits
      rw [if_neg hsame, if_neg hsame]
      exact hx.congr f g hffits hgfits hbits (.inr hfg)

end

end VolarIR.Ir
