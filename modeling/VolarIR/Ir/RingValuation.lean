import VolarIR.Ir.Valuation

/-!
# Typed polynomials

A sum of type-directed products is the sum in the ring its type means.
-/
namespace VolarIR

section
variable {table : TypeTable}

theorem Means.identityBitsFrom_eq {id : TypeId} {A : BitAlgebra} (h : Means table id A)
    (hfits : A.width ≤ usizeMax) {d : ℕ} (hd : Rank table d id) {fuel : ℕ} (hfuel : d < fuel) :
    identityBitsFrom boolBits table fuel id = some A.one := by
  induction h generalizing d fuel with
  | @field id w F type desc describes =>
      obtain ⟨fuel, rfl⟩ : ∃ m, fuel = m + 1 := ⟨fuel - 1, by omega⟩
      have hmeans : Means table id (.ofField F) := .field type desc describes
      cases type with
      | bit get =>
          rw [wrappedDesc, wrappedDescWith, get] at desc
          cases desc
          cases describes
          rw [identityBitsFrom, get]
          rfl
      | ext get =>
          rw [identityBitsFrom, get]
          simp only [hmeans.valueBitWidth_eq hfits, Option.map_some, gt_iff_lt]
          exact congrArg some (if_pos F.width_pos)
  | @vec n id elem A get _ fits ih =>
      obtain ⟨fuel, rfl⟩ : ∃ m, fuel = m + 1 := ⟨fuel - 1, by omega⟩
      cases hd with
      | bit get' => simp [get] at get'
      | ext get' => simp [get] at get'
      | vec get' below =>
          cases Option.some.inj (get.symm.trans get')
          rw [identityBitsFrom, get]
          simp only [ih fits below (Nat.lt_of_succ_lt_succ hfuel), Option.map_some]
          rfl

theorem Means.mulIdentity_eq {id : TypeId} {A : BitAlgebra} (h : Means table id A)
    (hfits : A.width ≤ usizeMax) : mulIdentity table id = some A.one := by
  obtain ⟨d, hd⟩ := h.rank
  exact h.identityBitsFrom_eq hfits hd hd.lt_length

theorem mulIsIdempotent_extField {id wrapped : TypeId} {degree : ℕ} {irreducible : List U64}
    (get : table.get id = some (.extField wrapped degree irreducible)) :
    table.mulIsIdempotent id = false := by
  unfold TypeTable.mulIsIdempotent
  obtain ⟨fuel, hfuel⟩ := TypeTable.exists_length get
  rw [hfuel, mulIsIdempotentFrom, get]

theorem Rank.mulIsIdempotentFrom_eq {d : ℕ} {id : TypeId} (h : Rank table d id) {m n : ℕ}
    (hm : d < m) (hn : d < n) :
    mulIsIdempotentFrom table m id = mulIsIdempotentFrom table n id := by
  induction h generalizing m n with
  | bit get =>
      obtain ⟨m, rfl⟩ : ∃ k, m = k + 1 := ⟨m - 1, by omega⟩
      obtain ⟨n, rfl⟩ : ∃ k, n = k + 1 := ⟨n - 1, by omega⟩
      rw [mulIsIdempotentFrom, mulIsIdempotentFrom, get]
  | vec get _ ih =>
      obtain ⟨m, rfl⟩ : ∃ k, m = k + 1 := ⟨m - 1, by omega⟩
      obtain ⟨n, rfl⟩ : ∃ k, n = k + 1 := ⟨n - 1, by omega⟩
      rw [mulIsIdempotentFrom, mulIsIdempotentFrom, get]
      exact ih (Nat.lt_of_succ_lt_succ hm) (Nat.lt_of_succ_lt_succ hn)
  | ext get =>
      obtain ⟨m, rfl⟩ : ∃ k, m = k + 1 := ⟨m - 1, by omega⟩
      obtain ⟨n, rfl⟩ : ∃ k, n = k + 1 := ⟨n - 1, by omega⟩
      rw [mulIsIdempotentFrom, mulIsIdempotentFrom, get]

theorem mulIsIdempotent_vec {d n : ℕ} {id elem : TypeId} (get : table.get id = some (.vec n elem))
    (below : Rank table d elem) : table.mulIsIdempotent id = table.mulIsIdempotent elem := by
  have hlt := (Rank.vec get below).lt_length
  unfold TypeTable.mulIsIdempotent
  obtain ⟨fuel, hfuel⟩ : ∃ m, table.types.length = m + 1 := ⟨table.types.length - 1, by omega⟩
  rw [hfuel, mulIsIdempotentFrom, get]
  exact below.mulIsIdempotentFrom_eq (by omega) (by omega)

theorem Means.wrapped {id wrapped : TypeId} {degree : ℕ} {irreducible : List U64}
    {A : BitAlgebra} (h : Means table id A)
    (get : table.get id = some (.extField wrapped degree irreducible)) :
    ∃ F G, A = .ofField F ∧ FieldType table wrapped ∧ Means table wrapped (.ofField G) ∧
      G.width ≤ usizeMax ∧ F.width = degree * G.width := by
  cases h with
  | @field _ w F type desc describes =>
      cases type with
      | bit get' => simp [get] at get'
      | ext get' le_max coeffs accepted =>
          cases Option.some.inj (get.symm.trans get')
          obtain ⟨v, hv, -, rfl⟩ := wrappedDesc_extField get desc
          obtain ⟨v', G, hv', hG⟩ := coeffs.describes
          cases hv.symm.trans hv'
          obtain ⟨d, hd⟩ := coeffs.rank
          have hfit := (coeffs.valueBitWidthFrom_eq hv hd hd.lt_length).1
          refine ⟨F, G, rfl, coeffs, .field coeffs hv hG, hG.width_eq ▸ hfit, ?_⟩
          rw [← hG.width_eq]
          exact describes.width_eq.symm
  | vec get' => simp [get] at get'

theorem Means.elem {id elem : TypeId} {n : ℕ} {A : BitAlgebra} (h : Means table id A)
    (get : table.get id = some (.vec n elem)) :
    ∃ B : BitAlgebra, A = B.vec n ∧ Means table elem B ∧ B.width ≤ usizeMax := by
  cases h with
  | field type =>
      cases type with
      | bit get' => simp [get] at get'
      | ext get' => simp [get] at get'
  | vec get' lanes fits =>
      cases Option.some.inj (get.symm.trans get')
      exact ⟨_, rfl, lanes, fits⟩

theorem Means.not_tuple {id : TypeId} {parts : List TypeId} {A : BitAlgebra}
    (h : Means table id A) : table.get id ≠ some (.tuple parts) := by
  obtain ⟨d, hd⟩ := h.rank
  intro get
  cases hd with
  | bit get' => simp [get] at get'
  | vec get' => simp [get] at get'
  | ext get' => simp [get] at get'

theorem Means.length_identity {id : TypeId} {A : BitAlgebra} (h : Means table id A)
    (hfits : A.width ≤ usizeMax) {bits : List Bool} (hone : mulIdentity table id = some bits) :
    bits.length = table.bitWidth id := by
  rw [h.mulIdentity_eq hfits] at hone
  obtain rfl := Option.some.inj hone
  rw [A.length_one, h.bitWidth_eq hfits]

theorem Means.width_extField {id wrapped : TypeId} {degree : ℕ} {irreducible : List U64}
    {A : BitAlgebra} (h : Means table id A)
    (get : table.get id = some (.extField wrapped degree irreducible)) :
    degree * table.bitWidth wrapped = A.width := by
  obtain ⟨F, G, rfl, -, hG, hfit, hwidth⟩ := h.wrapped get
  rw [hG.bitWidth_eq hfit]
  exact hwidth.symm

theorem Means.width_vec {id elem : TypeId} {n : ℕ} {A : BitAlgebra} (h : Means table id A)
    (get : table.get id = some (.vec n elem)) : n * table.bitWidth elem = A.width := by
  obtain ⟨B, rfl, hB, hfit⟩ := h.elem get
  rw [hB.bitWidth_eq hfit]
  rfl

end

namespace Ir
section
variable {table : TypeTable} {ty : TypeId} {A : BitAlgebra}

def ringAt (table : TypeTable) (ty : TypeId) (A : BitAlgebra) (f : Factor Bool) : A.R :=
  A.decode ((monomialProduct boolBits table ty [f]).getD [])

variable (h : Means table ty A)
include h

theorem ringAt_eq {f : Factor Bool} {a : A.R} (hf : FactorMeans table ty A f a) :
    ringAt table ty A f = a := by
  have hfs : ∀ p ∈ [(f, a)], FactorMeans table ty A p.1 p.2 := by
    intro p hp
    obtain rfl := List.mem_singleton.mp hp
    exact hf
  obtain ⟨out, hout, -, hdecode⟩ := monomialProduct_means h hfs
  rw [List.map_singleton] at hout
  rw [ringAt, hout, Option.getD_some, hdecode]
  simp

variable (fits : A.width ≤ usizeMax) (hring : table.mulIsIdempotent ty = false)
include fits hring

theorem FactorFits.means {f : Factor Bool} (hf : FactorFits table ty f) :
    ∃ a, FactorMeans table ty A f a := by
  obtain ⟨fty, bits⟩ := f
  have hlen : bits.length = table.bitWidth fty := hf.length
  cases hf.typed with
  | own same =>
      refine ⟨_, .own same ?_⟩
      rw [hlen, bitWidth_congr (TypeTable.get_of_sameType same), h.bitWidth_eq fits]
  | gate bit =>
      rw [bitWidth_of_isBit bit] at hlen
      obtain ⟨b, rfl⟩ := List.length_eq_one_iff.mp hlen
      exact ⟨_, .gate bit⟩
  | constant get same =>
      refine ⟨_, .constant get same ?_⟩
      rw [hlen, bitWidth_congr (TypeTable.get_of_sameType same), h.width_extField get]
  | broadcast _ get same =>
      refine ⟨_, .broadcast get same ?_⟩
      rw [hlen, bitWidth_congr (TypeTable.get_of_sameType same), h.width_vec get]
  | parts _ get same => exact absurd get h.not_tuple
  | wide idem => exact absurd idem (by rw [hring]; decide)

omit fits in
theorem FactorTyped.isBit_of_idempotent {fty : TypeId} (hf : FactorTyped table ty fty)
    (hidem : table.mulIsIdempotent fty = true) : table.isBit fty = true := by
  cases hf with
  | own same =>
      rw [mulIsIdempotent_congr (TypeTable.get_of_sameType same), hring] at hidem
      cases hidem
  | gate bit => exact bit
  | constant get same =>
      have hget := TypeTable.get_of_sameType same
      rw [mulIsIdempotent_congr hget] at hidem
      obtain ⟨F, G, -, coeffs, -⟩ := h.wrapped get
      cases coeffs with
      | bit get' => exact TypeTable.isBit_iff.mpr (hget.trans get')
      | ext get' => exact absurd hidem (by rw [mulIsIdempotent_extField get']; decide)
  | broadcast _ get same =>
      rw [mulIsIdempotent_congr (TypeTable.get_of_sameType same)] at hidem
      obtain ⟨B, -, hB, -⟩ := h.elem get
      obtain ⟨d, hd⟩ := hB.rank
      rw [← mulIsIdempotent_vec get hd, hring] at hidem
      cases hidem
  | parts _ get same => exact absurd get h.not_tuple
  | wide idem => exact absurd idem (by rw [hring]; decide)

theorem FactorTyped.length_identity {fty : TypeId} (hf : FactorTyped table ty fty)
    {bits : List Bool} (hone : mulIdentity table fty = some bits) :
    bits.length = table.bitWidth fty := by
  cases hf with
  | own same =>
      have hget := TypeTable.get_of_sameType same
      rw [mulIdentity_congr hget] at hone
      rw [bitWidth_congr hget]
      exact h.length_identity fits hone
  | gate bit =>
      rw [mulIdentity_of_idempotent (mulIsIdempotent_of_isBit bit) hone, List.length_replicate]
  | constant get same =>
      have hget := TypeTable.get_of_sameType same
      rw [mulIdentity_congr hget] at hone
      obtain ⟨F, G, -, -, hG, hfit, -⟩ := h.wrapped get
      rw [bitWidth_congr hget]
      exact hG.length_identity hfit hone
  | broadcast _ get same =>
      have hget := TypeTable.get_of_sameType same
      rw [mulIdentity_congr hget] at hone
      obtain ⟨B, -, hB, hfit⟩ := h.elem get
      rw [bitWidth_congr hget]
      exact hB.length_identity hfit hone
  | parts _ get same => exact absurd get h.not_tuple
  | wide idem => exact absurd idem (by rw [hring]; decide)

end

section
variable {table : TypeTable} {ty : TypeId} {A : BitAlgebra} (h : Means table ty A)
include h

theorem eq_zero_of_factorMeans {fty : TypeId} {n : ℕ} {a : A.R}
    (hf : FactorMeans table ty A (fty, List.replicate n false) a) : a = 0 := by
  generalize hbits : List.replicate n false = bits at hf
  have hzero : ∀ m, m = A.width → A.decode (List.replicate m false) = 0 := by
    rintro m rfl
    exact A.decode_zero
  cases hf with
  | own same len =>
      subst hbits
      rw [List.length_replicate] at len
      exact hzero n len
  | @gate _ b bit =>
      have hb : b = false := by
        apply List.eq_of_mem_replicate (n := n)
        rw [hbits]
        exact List.mem_singleton_self b
      subst hb
      rfl
  | @constant _ wrapped degree irreducible _ get same len =>
      subst hbits
      rw [List.length_replicate] at len
      rw [List.length_replicate, List.replicate_append_replicate]
      obtain ⟨F, G, rfl, -⟩ := h.wrapped get
      apply hzero
      have hF : 0 < (BitAlgebra.ofField F).width := F.width_pos
      have hpos : 0 < degree := by
        apply Nat.pos_of_ne_zero
        rintro rfl
        omega
      have hle : n ≤ degree * n := Nat.le_mul_of_pos_left n hpos
      omega
  | @broadcast _ elem m _ get same len =>
      subst hbits
      rw [List.length_replicate] at len
      have hflat : (List.replicate m (List.replicate n false)).flatten =
          List.replicate (m * n) false := by simp
      rw [hflat]
      exact hzero _ len

theorem eq_one_of_factorMeans (fits : A.width ≤ usizeMax) {fty : TypeId} {bits : List Bool}
    {a : A.R} (hone : mulIdentity table fty = some bits)
    (hf : FactorMeans table ty A (fty, bits) a) : a = 1 := by
  cases hf with
  | own same len =>
      rw [mulIdentity_congr (TypeTable.get_of_sameType same), h.mulIdentity_eq fits] at hone
      obtain rfl := Option.some.inj hone
      exact A.decode_one
  | @gate _ b bit =>
      have hall := mulIdentity_of_idempotent (mulIsIdempotent_of_isBit bit) hone
      rw [bitWidth_of_isBit bit] at hall
      obtain rfl : b = true := List.head_eq_of_cons_eq hall
      rfl
  | @constant _ wrapped degree irreducible _ get same len =>
      rw [mulIdentity_congr (TypeTable.get_of_sameType same)] at hone
      obtain ⟨F, G, rfl, -, hmeans, hfit, hwidth⟩ := h.wrapped get
      rw [hmeans.mulIdentity_eq hfit] at hone
      obtain rfl := Option.some.inj hone
      have hG := G.width_pos
      have hF := F.width_pos
      have hle : G.width ≤ F.width := by
        rw [hwidth]
        apply Nat.le_mul_of_pos_left
        apply Nat.pos_of_ne_zero
        rintro rfl
        omega
      have hlength : (BitAlgebra.ofField G).one.length = G.width := G.length_oneBits
      have hsum : G.width - 1 + (F.width - G.width) = F.width - 1 := by omega
      have hpad : (BitAlgebra.ofField G).one ++
          List.replicate ((BitAlgebra.ofField F).width - G.width) false = F.oneBits := by
        change true :: (List.replicate (G.width - 1) false ++
          List.replicate (F.width - G.width) false) = F.oneBits
        rw [List.replicate_append_replicate, hsum]
        rfl
      rw [hlength, hpad]
      exact F.decode_oneBits
  | @broadcast _ elem n _ get same len =>
      rw [mulIdentity_congr (TypeTable.get_of_sameType same)] at hone
      obtain ⟨B, rfl, hB, hfit⟩ := h.elem get
      rw [hB.mulIdentity_eq hfit] at hone
      obtain rfl := Option.some.inj hone
      exact BitAlgebra.decode_one _

theorem factorMeans_congr_type {fty gty : TypeId} {bits : List Bool} {a : A.R}
    (hget : table.get fty = table.get gty) (hf : FactorMeans table ty A (fty, bits) a) :
    FactorMeans table ty A (gty, bits) a := by
  have hsame : ∀ {id : TypeId} {d : ℕ}, Rank table d id → table.sameType fty id = true →
      table.sameType gty id = true := by
    intro id d hd hid
    apply TypeTable.sameType_of_get (hget.symm.trans (TypeTable.get_of_sameType hid))
    obtain ⟨t, ht⟩ := hd.get
    rw [← hget, TypeTable.get_of_sameType hid, ht]
    rfl
  cases hf with
  | own same len =>
      obtain ⟨d, hd⟩ := h.rank
      exact .own (hsame hd same) len
  | gate bit => exact .gate (TypeTable.isBit_iff.mpr (hget ▸ TypeTable.isBit_iff.mp bit))
  | constant get same len =>
      obtain ⟨F, G, -, -, hG, -⟩ := h.wrapped get
      obtain ⟨d, hd⟩ := hG.rank
      exact .constant get (hsame hd same) len
  | broadcast get same len =>
      obtain ⟨B, -, hB, -⟩ := h.elem get
      obtain ⟨d, hd⟩ := hB.rank
      exact .broadcast get (hsame hd same) len

variable (fits : A.width ≤ usizeMax) (hring : table.mulIsIdempotent ty = false)
include fits hring

theorem valuation_ringAt (hprime : table.containsPrimeField ty = false) :
    Valuation table ty (ringAt table ty A) := by
  have hchar : CharOf table ty A.R := by
    unfold CharOf
    rw [if_neg (by rw [hprime]; decide)]
    have htwo := A.add_self 1
    rwa [one_add_one_eq_two] at htwo
  refine ⟨⟨?zero, ?one, ?idem, ?congr⟩, hchar⟩
  case zero =>
    intro fty htyped
    have hf : FactorFits table ty (fty, List.replicate (table.bitWidth fty) false) :=
      ⟨htyped, List.length_replicate⟩
    obtain ⟨a, ha⟩ := FactorFits.means h fits hring hf
    rw [ringAt_eq h ha]
    exact eq_zero_of_factorMeans h ha
  case one =>
    intro fty bits htyped _ hone
    have hf : FactorFits table ty (fty, bits) :=
      ⟨htyped, FactorTyped.length_identity h fits hring htyped hone⟩
    obtain ⟨a, ha⟩ := FactorFits.means h fits hring hf
    rw [ringAt_eq h ha]
    exact eq_one_of_factorMeans h fits hone ha
  case idem =>
    intro f hf hidem
    obtain ⟨fty, bits⟩ := f
    have hbit := FactorTyped.isBit_of_idempotent h hring hf.typed hidem
    have hlen : bits.length = 1 := hf.length.trans (bitWidth_of_isBit hbit)
    obtain ⟨b, rfl⟩ := List.length_eq_one_iff.mp hlen
    rw [ringAt_eq h (.gate hbit)]
    cases b <;> simp
  case congr =>
    intro f g hf hg hbits hsame
    obtain ⟨fty, bits⟩ := f
    obtain ⟨gty, bits'⟩ := g
    obtain rfl : bits = bits' := hbits
    have hsame : table.sameType fty gty = true :=
      hsame.resolve_left (by rw [hring]; decide)
    obtain ⟨a, ha⟩ := FactorFits.means h fits hring hf
    rw [ringAt_eq h ha, ringAt_eq h
      (factorMeans_congr_type h (TypeTable.get_of_sameType hsame) ha)]

theorem evalTypedPoly_spec {c : Constant} {terms : List ValueTerm}
    (hterms : ∀ t ∈ terms, ∀ v ∈ t.1, ValueFits table ty v) :
    ∃ bits, evalTypedPoly table ty c terms = some bits ∧ bits.length = A.width ∧
      A.decode bits = A.decode (constBits c A.width) +
        sumAt (ringAt table ty A) (factorTerms terms) := by
  have htwo : (2 : A.R) = 0 := by
    have h := A.add_self 1
    rwa [one_add_one_eq_two] at h
  unfold evalTypedPoly
  rw [h.bitWidth_eq fits]
  have hstart : (constBits c A.width).length = A.width := by simp [constBits]
  generalize constBits c A.width = acc at hstart
  induction terms generalizing acc with
  | nil => exact ⟨acc, rfl, hstart, by simp [factorTerms]⟩
  | cons t rest ih =>
      have hrest := fun u hu => hterms u (List.mem_cons_of_mem t hu)
      have hhead := hterms t List.mem_cons_self
      rw [List.foldlM_cons, factorTerms_cons, sumAt_cons, cast_toNat_of_two htwo]
      by_cases hodd : odd t.2 = true
      · have hfactors : t.1.mapM Value.factor = some (t.1.map Value.asFactor) :=
          mapM_eq_some fun v hv => (hhead v hv).factor_eq
        have hmeans : ∀ f ∈ withValues (ringAt table ty A) (t.1.map Value.asFactor),
            FactorMeans table ty A f.1 f.2 := by
          intro f hf
          obtain ⟨g, hg, rfl⟩ := List.mem_map.mp hf
          obtain ⟨v, hv, rfl⟩ := List.mem_map.mp hg
          obtain ⟨a, ha⟩ := FactorFits.means h fits hring (hhead v hv).fits
          dsimp only
          rw [ringAt_eq h ha]
          exact ha
        obtain ⟨product, hproduct, hlen, hdecode⟩ := monomialProduct_means h hmeans
        rw [map_fst_withValues] at hproduct
        rw [map_snd_withValues] at hdecode
        have hxor : xorInto acc product = List.zipWith xor acc product :=
          xorInto_eq (hstart.trans hlen.symm)
        have hnext : (xorInto acc product).length = A.width := by
          rw [hxor, List.length_zipWith, hstart, hlen, Nat.min_self]
        obtain ⟨bits, hbits, hbitsLen, hsum⟩ := ih hrest (xorInto acc product) hnext
        refine ⟨bits, ?_, hbitsLen, ?_⟩
        · simp only [hodd, if_true, hfactors, hproduct, Option.bind_eq_bind, Option.bind_some]
          exact hbits
        · rw [hsum, hxor, A.decode_xor _ _ hstart hlen, hdecode, if_pos hodd, one_mul, add_assoc]
      · obtain ⟨bits, hbits, hbitsLen, hsum⟩ := ih hrest acc hstart
        refine ⟨bits, ?_, hbitsLen, ?_⟩
        · rw [if_neg hodd]
          exact hbits
        · rw [hsum, if_neg hodd, zero_mul, zero_add]

end
end Ir
end VolarIR
