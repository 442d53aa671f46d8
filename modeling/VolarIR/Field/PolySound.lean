import VolarIR.Field.ExtFieldMul

/-!
# Polynomial arithmetic over the coefficients

The remainder, product and gcd of coefficient lists are those of the polynomials they
denote. Every list keeps the length it starts with; the polynomial's degree carries the
loops.
-/
namespace VolarIR
open Polynomial

section
variable {F : BitField} {field : FieldDesc} (hd : Describes field.wrap F)
include hd

theorem fieldMulDesc_spec {a b : List Bool} (ha : a.length = F.width) (hb : b.length = F.width) :
    (fieldMulDesc boolBits a b field).length = F.width ∧
      F.decode (fieldMulDesc boolBits a b field) = F.decode a * F.decode b := by
  have h := hd.multiplies a b ha hb
  rwa [FieldDesc.wrap, coeffMul] at h

theorem field_width_eq : field.width = F.width := hd.width_eq

/-- After `m` steps the square is `a^(2^(m+1))` and the product `a^(2^(m+2) - 2)`. -/
theorem iterate_invStep {a square : List Bool} (hlen : square.length = F.width)
    (hsq : F.decode square = F.decode a ^ 2) (m : ℕ) :
    (((invStep boolBits field)^[m] (square, square)).1.length = F.width ∧
        F.decode ((invStep boolBits field)^[m] (square, square)).1 = F.decode a ^ 2 ^ (m + 1)) ∧
      ((invStep boolBits field)^[m] (square, square)).2.length = F.width ∧
        F.decode ((invStep boolBits field)^[m] (square, square)).2 =
          F.decode a ^ (2 ^ (m + 2) - 2) := by
  induction m with
  | zero => exact ⟨⟨hlen, hsq⟩, hlen, hsq⟩
  | succ m ih =>
      rw [Function.iterate_succ_apply']
      generalize (invStep boolBits field)^[m] (square, square) = sr at ih ⊢
      have hnext := fieldMulDesc_spec hd ih.1.1 ih.1.1
      have hresult := fieldMulDesc_spec hd ih.2.1 hnext.1
      refine ⟨⟨hnext.1, ?_⟩, hresult.1, ?_⟩
      · rw [invStep, hnext.2, ih.1.2, ← pow_add, ← Nat.two_mul, ← pow_succ']
      · rw [invStep, hresult.2, hnext.2, ih.2.2, ih.1.2, ← pow_add, ← pow_add]
        congr 1
        have hpow : (2 : ℕ) ^ (m + 2) = 2 ^ (m + 1) + 2 ^ (m + 1) := by ring
        have hpow' : (2 : ℕ) ^ (m + 1 + 2) = 2 ^ (m + 2) + 2 ^ (m + 2) := by ring
        have hpos : 2 ≤ 2 ^ (m + 1) := Nat.pow_le_pow_right (n := 2) (by decide) (Nat.succ_pos m)
        omega

/-- Squaring and multiplying `w - 2` times gives the power `2^w - 2`. -/
theorem fieldInv_spec {a : List Bool} (ha : a.length = F.width) (hw : 1 < F.width) :
    (fieldInv boolBits a field).length = F.width ∧
      F.decode (fieldInv boolBits a field) = F.decode a ^ (2 ^ F.width - 2) := by
  have hsq := fieldMulDesc_spec hd ha ha
  have hend := (iterate_invStep hd (a := a) hsq.1 (by rw [hsq.2, pow_two]) (F.width - 2)).2
  rw [Nat.sub_add_cancel hw] at hend
  rw [fieldInv, if_neg (by rw [field_width_eq hd]; omega), field_width_eq hd]
  exact hend

end

section
variable {F : BitField} {wrapped : WrappedDesc} (hw : Describes wrapped F)
include hw

theorem coeffDiv_spec {a b : List Bool} (ha : a.length = F.width) (hb : b.length = F.width)
    (hne : F.decode b ≠ 0) :
    (coeffDiv boolBits a b wrapped).length = F.width ∧
      F.decode (coeffDiv boolBits a b wrapped) * F.decode b = F.decode a := by
  cases hw with
  | bit =>
      refine ⟨ha, ?_⟩
      match a, b, ha, hb with
      | [x], [y], _, _ =>
          cases y with
          | true => exact mul_one _
          | false => exact absurd rfl hne
  | @field inner G degree irreducible coeffs two_le modulus hi =>
      let field : FieldDesc := ⟨degree, irreducible, inner, degree * inner.width⟩
      have hd : Describes field.wrap (G.ext (modulusOf G irreducible) modulus.monic hi) :=
        .field coeffs two_le modulus hi
      have hwidth : 1 < (G.ext (modulusOf G irreducible) modulus.monic hi).width := by
        have hmul : degree * 1 ≤ degree * G.width := Nat.mul_le_mul_left _ G.width_pos
        have heq : (G.ext (modulusOf G irreducible) modulus.monic hi).width = degree * G.width :=
          congrArg (· * G.width) modulus.natDegree_eq
        omega
      have hinv := fieldInv_spec hd hb hwidth
      have hmul := fieldMulDesc_spec hd ha hinv.1
      refine ⟨hmul.1, ?_⟩
      rw [coeffDiv, hmul.2, hinv.2, mul_assoc,
        (G.ext (modulusOf G irreducible) modulus.monic hi).pow_mul_self hne, mul_one]

end

theorem find?_reverse_range (p : ℕ → Bool) (n : ℕ) :
    match (List.range n).reverse.find? p with
    | none => ∀ i, i < n → p i = false
    | some top => top < n ∧ p top = true ∧ ∀ i, top < i → i < n → p i = false := by
  induction n with
  | zero => exact nofun
  | succ n ih =>
      rw [List.range_succ, List.reverse_append, List.reverse_singleton, List.singleton_append,
        List.find?_cons]
      cases hn : p n with
      | true => exact ⟨Nat.lt_succ_self n, hn, fun i hi hi' => absurd hi (by omega)⟩
      | false =>
          have hlast : ∀ i, i < n + 1 → ¬ i < n → p i = false := by
            intro i hi hi'
            rw [show i = n by omega, hn]
          cases hfind : (List.range n).reverse.find? p with
          | none =>
              rw [hfind] at ih
              intro i hi
              by_cases hlt : i < n
              · exact ih i hlt
              · exact hlast i hi hlt
          | some top =>
              rw [hfind] at ih
              refine ⟨Nat.lt_succ_of_lt ih.1, ih.2.1, fun i hi hi' => ?_⟩
              by_cases hlt : i < n
              · exact ih.2.2 i hi hlt
              · exact hlast i hi' hlt

section
variable {F : BitField} {cs : List (List Bool)} (hcs : F.Coeffs cs)

theorem elemIsZero_iff {c : List Bool} (hc : c.length = F.width) :
    elemIsZero c = true ↔ F.decode c = 0 := by
  rw [F.decode_eq_zero hc, elemIsZero, List.all_eq_true, BitField.zeroBits, List.eq_replicate_iff]
  simp [hc]

theorem u64Elem_zero : u64Elem 0 F.width = F.zeroBits := by
  simp [u64Elem, coeffConst, BitField.zeroBits, boolBits]

include hcs

theorem getD_length {i : ℕ} (hi : i < cs.length) : (cs.getD i []).length = F.width := by
  rw [List.getD_eq_getElem _ _ hi]
  exact hcs _ (List.getElem_mem hi)

omit hcs in
theorem coeff_poly_getD {i : ℕ} (hi : i < cs.length) :
    (F.poly cs).coeff i = F.decode (cs.getD i []) := by
  rw [BitField.coeff_poly, List.getElem?_eq_getElem hi, List.getD_eq_getElem _ _ hi]
  rfl

theorem polyDegree_eq : ((polyDegree cs : Option ℕ) : WithBot ℕ) = (F.poly cs).degree := by
  have hcoeff : ∀ i, i < cs.length →
      ((F.poly cs).coeff i = 0 ↔ (!elemIsZero (cs.getD i [])) = false) := by
    intro i hi
    rw [coeff_poly_getD hi, ← elemIsZero_iff (getD_length hcs hi)]
    simp
  have hend : ∀ i, ¬ i < cs.length → (F.poly cs).coeff i = 0 := fun i hi =>
    coeff_eq_zero_of_degree_lt ((F.degree_poly_lt cs).trans_le
      (Nat.cast_le.mpr (Nat.le_of_not_lt hi)))
  have hfind := find?_reverse_range (fun index => !elemIsZero (cs.getD index [])) cs.length
  unfold polyDegree
  cases hdeg : (List.range cs.length).reverse.find? fun index => !elemIsZero (cs.getD index []) with
  | none =>
      rw [hdeg] at hfind
      have hzero : F.poly cs = 0 := by
        ext i
        rw [coeff_zero]
        by_cases hi : i < cs.length
        · exact (hcoeff i hi).mpr (hfind i hi)
        · exact hend i hi
      rw [hzero, degree_zero]
      rfl
  | some top =>
      rw [hdeg] at hfind
      symm
      apply degree_eq_of_le_of_coeff_ne_zero
      · rw [degree_le_iff_coeff_zero]
        intro i hi
        by_cases hlt : i < cs.length
        · exact (hcoeff i hlt).mpr (hfind.2.2 i (Nat.cast_lt.mp hi) hlt)
        · exact hend i hlt
      · intro h
        have hnot := (hcoeff top hfind.1).mp h
        rw [hfind.2.1] at hnot
        cases hnot

end

/-- `cs` is a list of `n` coefficients of `F` that denotes `p`. -/
structure Denotes (F : BitField) (n : ℕ) (cs : List (List Bool)) (p : F.K[X]) : Prop where
  length_eq : cs.length = n
  coeffs : F.Coeffs cs
  poly_eq : F.poly cs = p

section
variable {F : BitField} {n : ℕ} {cs : List (List Bool)} {p : F.K[X]}

theorem Denotes.degree_lt (h : Denotes F n cs p) : p.degree < n := by
  have hlt := F.degree_poly_lt cs
  rwa [h.poly_eq, h.length_eq] at hlt

theorem Denotes.degree_eq (h : Denotes F n cs p) :
    ((polyDegree cs : Option ℕ) : WithBot ℕ) = p.degree := by
  rw [polyDegree_eq h.coeffs, h.poly_eq]

theorem Denotes.polyDegree_none (h : Denotes F n cs p) : polyDegree cs = none ↔ p = 0 := by
  rw [← degree_eq_bot, ← h.degree_eq]
  exact Iff.rfl

theorem Denotes.polyDegree_some (h : Denotes F n cs p) {top : ℕ} :
    polyDegree cs = some top ↔ p.degree = top := by
  rw [← h.degree_eq]
  exact Iff.rfl

theorem Denotes.getD (h : Denotes F n cs p) {i : ℕ} (hi : i < n) :
    (cs.getD i []).length = F.width ∧ F.decode (cs.getD i []) = p.coeff i := by
  rw [← h.length_eq] at hi
  exact ⟨getD_length h.coeffs hi, by rw [← coeff_poly_getD hi, h.poly_eq]⟩

theorem denotes_replicate : Denotes F n (List.replicate n (u64Elem 0 F.width)) 0 := by
  rw [u64Elem_zero]
  constructor
  · exact List.length_replicate
  · intro c hc
    rw [List.eq_of_mem_replicate hc, F.length_zeroBits]
  · exact F.poly_replicate_zeroBits n

theorem Denotes.addAt (h : Denotes F n cs p) {i : ℕ} (hi : i < n) {term : List Bool}
    (hterm : term.length = F.width) :
    Denotes F n (addAt cs i term) (p + C (F.decode term) * X ^ i) := by
  have hlen := h.length_eq
  have hcs := h.coeffs
  have hp := h.poly_eq
  clear h
  induction cs generalizing i n p with
  | nil => exact absurd hi (by rw [← hlen]; exact Nat.not_lt_zero i)
  | cons c cs ih =>
      obtain ⟨m, rfl⟩ : ∃ m, n = m + 1 := ⟨cs.length, hlen.symm⟩
      cases i with
      | zero =>
          have hsum : coeffAdd boolBits c term = List.zipWith xor c term :=
            coeffAdd_eq (hcs.head.trans hterm.symm)
          rw [VolarIR.addAt, List.modify_zero_cons, hsum]
          constructor
          · exact hlen
          · exact BitField.Coeffs.cons (by simp [hcs.head, hterm]) hcs.tail
          · rw [BitField.poly_cons, F.decode_xor _ _ hcs.head hterm, C_add, ← hp,
              BitField.poly_cons]
            ring
      | succ i =>
          have hrest := ih (p := F.poly cs) (Nat.lt_of_succ_lt_succ hi) (Nat.succ.inj hlen)
            hcs.tail rfl
          rw [VolarIR.addAt, List.modify_succ_cons]
          constructor
          · exact congrArg (· + 1) hrest.length_eq
          · exact BitField.Coeffs.cons hcs.head hrest.coeffs
          · rw [BitField.poly_cons]
            have hpoly : F.poly (cs.modify i fun coeff => coeffAdd boolBits coeff term) =
                F.poly cs + C (F.decode term) * X ^ i := hrest.poly_eq
            rw [hpoly, ← hp, BitField.poly_cons, pow_succ]
            ring

/-- Adding a multiple of `ds` coefficient by coefficient. -/
theorem denotes_foldl_zipIdx {f : List (List Bool) → List Bool × ℕ → List (List Bool)}
    {t : F.K[X]} {ds : List (List Bool)} {m : ℕ}
    (hstep : ∀ c index, (c, index) ∈ ds.zipIdx m → ∀ rest q, Denotes F n rest q →
      Denotes F n (f rest (c, index)) (q + C (F.decode c) * X ^ index * t))
    (h : Denotes F n cs p) :
    Denotes F n ((ds.zipIdx m).foldl f cs) (p + X ^ m * F.poly ds * t) := by
  induction ds generalizing m cs p with
  | nil => simpa using h
  | cons d ds ih =>
      have hfirst := hstep d m (by simp) cs p h
      have hrest := ih (m := m + 1) (fun c index hmem => hstep c index (by simp [hmem])) hfirst
      rw [List.zipIdx_cons, List.foldl_cons]
      have heq : p + C (F.decode d) * X ^ m * t + X ^ (m + 1) * F.poly ds * t =
          p + X ^ m * F.poly (d :: ds) * t := by
        rw [BitField.poly_cons, pow_succ]
        ring
      rwa [heq] at hrest

/-- Adding a multiple of what `ds` denotes, zero coefficients skipped or not. -/
theorem Denotes.foldl_zipIdx {f : List (List Bool) → List Bool × ℕ → List (List Bool)}
    {t q : F.K[X]} {ds : List (List Bool)} {m : ℕ} (h : Denotes F n cs p) (hd : Denotes F m ds q)
    (hstep : ∀ c index, (c, index) ∈ ds.zipIdx → ∀ rest q, Denotes F n rest q →
      Denotes F n (f rest (c, index)) (q + C (F.decode c) * X ^ index * t)) :
    Denotes F n (ds.zipIdx.foldl f cs) (p + q * t) := by
  have hsum := denotes_foldl_zipIdx hstep h
  rwa [pow_zero, one_mul, hd.poly_eq] at hsum

theorem mem_zipIdx_zero {ds : List (List Bool)} {c : List Bool} {index : ℕ}
    (h : (c, index) ∈ ds.zipIdx) : index < ds.length ∧ c ∈ ds ∧ ds.getD index [] = c := by
  have hget := List.mem_zipIdx_iff_getElem?.mp h
  have hlt := (List.getElem?_eq_some_iff.mp hget).1
  have heq := (List.getElem?_eq_some_iff.mp hget).2
  exact ⟨hlt, List.mem_of_getElem? hget, by rw [List.getD_eq_getElem _ _ hlt, heq]⟩

theorem Denotes.polyAddAssign (hn : 0 < F.width) {ds : List (List Bool)} {q : F.K[X]}
    (h : Denotes F n cs p) (hd : Denotes F n ds q) :
    Denotes F n (polyAddAssign cs ds) (p + q) := by
  have hlen : cs.length = ds.length := h.length_eq.trans hd.length_eq.symm
  have hzip : VolarIR.polyAddAssign cs ds = List.zipWith (List.zipWith xor) cs ds := by
    apply List.ext_getElem
    · simp [VolarIR.polyAddAssign, hlen]
    · intro i hi hi'
      have hc : i < cs.length := by simpa [VolarIR.polyAddAssign, hlen] using hi
      have hd' : i < ds.length := hlen ▸ hc
      have hclen : cs[i].length = F.width := h.coeffs _ (List.getElem_mem hc)
      have hdlen : ds[i].length = F.width := hd.coeffs _ (List.getElem_mem hd')
      have hne : ¬ cs[i] = [] := fun heq => by
        rw [heq] at hclen
        exact absurd hclen (Nat.ne_of_lt hn)
      simp [VolarIR.polyAddAssign, hd', hc, hne, coeffAdd_eq (hclen.trans hdlen.symm)]
  rw [hzip]
  constructor
  · simp [h.length_eq, hd.length_eq]
  · exact h.coeffs.zipWith hd.coeffs
  · rw [BitField.poly_zipWith hlen h.coeffs hd.coeffs, h.poly_eq, hd.poly_eq]

theorem Denotes.eq_iff {ds : List (List Bool)} {q : F.K[X]} (h : Denotes F n cs p)
    (hd : Denotes F n ds q) : cs = ds ↔ p = q := by
  rw [← h.poly_eq, ← hd.poly_eq]
  constructor
  · exact congrArg _
  · exact BitField.poly_inj (h.length_eq.trans hd.length_eq.symm) h.coeffs hd.coeffs

end

section
variable {F : BitField} {wrapped : WrappedDesc} (hw : Describes wrapped F)
include hw

theorem u64Elem_wrapped : u64Elem 0 wrapped.width = u64Elem 0 F.width := by rw [hw.width_eq]

variable {n m d : ℕ} {cs ms : List (List Bool)} {p P : F.K[X]}

theorem Denotes.addProduct (h : Denotes F n cs p) {a b : List Bool} (ha : a.length = F.width)
    (hb : b.length = F.width) {index shift : ℕ} (hfit : index + shift < n) :
    Denotes F n (VolarIR.addAt cs (index + shift) (coeffMul boolBits wrapped a b))
      (p + C (F.decode b) * X ^ index * (C (F.decode a) * X ^ shift)) := by
  have hprod := hw.multiplies a b ha hb
  have hsum := h.addAt hfit hprod.1
  have heq : C (F.decode b) * X ^ index * (C (F.decode a) * X ^ shift) =
      C (F.decode (coeffMul boolBits wrapped a b)) * X ^ (index + shift) := by
    rw [hprod.2, C_mul, pow_add]
    ring
  rwa [heq]

theorem denotes_addShifted (hm : Denotes F m ms P) (h : Denotes F n cs p) {lead : List Bool}
    (hlead : lead.length = F.width) {shift : ℕ} (hfit : m + shift ≤ n) :
    Denotes F n (addShifted wrapped lead shift ms cs)
      (p + P * (C (F.decode lead) * X ^ shift)) := by
  apply h.foldl_zipIdx hm
  intro c index hmem rest q hrest
  have hindex := mem_zipIdx_zero hmem
  have hlt : index + shift < n := by
    have := hm.length_eq
    omega
  exact hrest.addProduct hw hlead (hm.coeffs c hindex.2.1) hlt

/-- The same over a polynomial of degree `k`, its zero coefficients skipped. -/
theorem denotes_addShifted_skip (hm : Denotes F m ms P) {k : ℕ} (hdeg : P.degree = k)
    (h : Denotes F n cs p) {lead : List Bool} (hlead : lead.length = F.width) {shift : ℕ}
    (hfit : k + shift < n) :
    Denotes F n (ms.zipIdx.foldl (fun rest (coeff, index) =>
        if elemIsZero coeff then rest
        else VolarIR.addAt rest (index + shift) (coeffMul boolBits wrapped lead coeff)) cs)
      (p + P * (C (F.decode lead) * X ^ shift)) := by
  apply h.foldl_zipIdx hm
  intro c index hmem rest q hrest
  have hindex := mem_zipIdx_zero hmem
  have hc : c.length = F.width := hm.coeffs c hindex.2.1
  simp only
  split
  · next hzero =>
      rw [(elemIsZero_iff hc).mp hzero, C_0, zero_mul, zero_mul, add_zero]
      exact hrest
  · next hne =>
      have hcoeff : P.coeff index ≠ 0 := by
        rw [← (hm.getD (hm.length_eq ▸ hindex.1)).2, hindex.2.2, ne_eq, ← elemIsZero_iff hc]
        exact hne
      have hle : index ≤ k := Nat.cast_le.mp (hdeg ▸ le_degree_of_ne_zero hcoeff)
      exact hrest.addProduct hw hlead hc (by omega)

omit hw in
theorem degree_cancel_lt {q : F.K[X]} {top k : ℕ} (hp : p.degree = top) (hq : q.degree = k)
    (hk : k ≤ top) {c : F.K} (hc : c * q.coeff k = p.coeff top) :
    (p + q * (C c * X ^ (top - k))).degree < p.degree := by
  have hpne : p ≠ 0 := fun h => by simp [h] at hp
  have hpc : p.coeff top ≠ 0 := coeff_ne_zero_of_eq_degree hp
  have hcne : c ≠ 0 := fun h => hpc (by rw [← hc, h, zero_mul])
  have hdeg : (q * (C c * X ^ (top - k))).degree = (top : WithBot ℕ) := by
    rw [degree_mul, degree_C_mul_X_pow _ hcne, hq, ← Nat.cast_add, Nat.add_sub_cancel' hk]
  have hlc : p.leadingCoeff = (q * (C c * X ^ (top - k))).leadingCoeff := by
    have hqlc : q.leadingCoeff = q.coeff k := by
      rw [leadingCoeff, natDegree_eq_of_degree_eq_some hq]
    have hplc : p.leadingCoeff = p.coeff top := by
      rw [leadingCoeff, natDegree_eq_of_degree_eq_some hp]
    rw [leadingCoeff_mul, leadingCoeff_C_mul_X_pow, hqlc, hplc, mul_comm, hc]
  have hneg : p + q * (C c * X ^ (top - k)) = p - q * (C c * X ^ (top - k)) := by
    have htwo := F.poly_add_self (q * (C c * X ^ (top - k)))
    linear_combination htwo
  rw [hneg]
  exact degree_sub_lt_left (hp.trans hdeg.symm) hpne hlc

omit hw in
theorem dvd_sub_of_dvd_add_mul {r t : F.K[X]} (h : P ∣ p + P * t - r) : P ∣ p - r := by
  have hsplit : p - r = p + P * t - r - P * t := by ring
  rw [hsplit]
  exact dvd_sub h (dvd_mul_right P t)

theorem polyModFrom_spec (hm : Denotes F (d + 1) ms P) (hmonic : P.Monic)
    (hdeg : P.natDegree = d) {fuel : ℕ} (h : Denotes F n cs p) (hfuel : p.degree < fuel) :
    ∃ r, Denotes F n (polyModFrom wrapped ms fuel cs) r ∧ r.degree < d ∧ P ∣ p - r := by
  have hlen : ms.length - 1 = d := by rw [hm.length_eq, Nat.add_sub_cancel]
  have hPdeg : P.degree = d := by rw [degree_eq_natDegree hmonic.ne_zero, hdeg]
  induction fuel generalizing cs p with
  | zero =>
      have hzero : p = 0 := by
        rw [← degree_eq_bot, ← Nat.WithBot.lt_zero_iff]
        exact_mod_cast hfuel
      exact ⟨p, h, by rw [hzero, degree_zero]; exact WithBot.bot_lt_coe d, by simp⟩
  | succ fuel ih =>
      rw [polyModFrom]
      cases htop : polyDegree cs with
      | none =>
          have hzero := h.polyDegree_none.mp htop
          exact ⟨p, h, by rw [hzero, degree_zero]; exact WithBot.bot_lt_coe d, by simp⟩
      | some top =>
          have hptop := h.polyDegree_some.mp htop
          have htopn : top < n := by
            have := h.degree_lt
            rw [hptop] at this
            exact_mod_cast this
          simp only [hlen]
          split
          · next hlt => exact ⟨p, h, by rw [hptop]; exact_mod_cast hlt, by simp⟩
          · next hge =>
              have hle : d ≤ top := Nat.le_of_not_lt hge
              have hlead := h.getD htopn
              have hfit : d + 1 + (top - d) ≤ n := by omega
              have hnext := denotes_addShifted hw hm h hlead.1 hfit
              have hlow := degree_cancel_lt hptop hPdeg hle (c := F.decode (cs.getD top []))
                (by rw [← hdeg, hmonic.coeff_natDegree, mul_one, hlead.2])
              have hfuel' : p.degree ≤ (fuel : WithBot ℕ) := by
                rw [hptop] at hfuel ⊢
                exact_mod_cast Nat.le_of_lt_succ (by exact_mod_cast hfuel)
              obtain ⟨r, hr, hrdeg, hdvd⟩ := ih hnext (hlow.trans_le hfuel')
              exact ⟨r, hr, hrdeg, dvd_sub_of_dvd_add_mul hdvd⟩

omit hw in
theorem denotes_resize {r : F.K[X]} (h : Denotes F n cs r) (hdeg : r.degree < d) :
    Denotes F d (cs.take d ++ List.replicate (d - (cs.take d).length) F.zeroBits) r := by
  have hlen : (cs.take d ++ List.replicate (d - (cs.take d).length) F.zeroBits).length = d := by
    rw [List.length_append, List.length_replicate, List.length_take]
    omega
  constructor
  · exact hlen
  · intro c hc
    cases List.mem_append.mp hc with
    | inl hleft => exact h.coeffs c (List.mem_of_mem_take hleft)
    | inr hright => rw [List.eq_of_mem_replicate hright, F.length_zeroBits]
  · rw [BitField.poly_append, F.poly_replicate_zeroBits, mul_zero, add_zero, ← h.poly_eq]
    ext i
    rw [BitField.coeff_poly]
    by_cases hi : i < d
    · rw [List.getElem?_take_of_lt hi, BitField.coeff_poly]
    · have hle : d ≤ i := Nat.le_of_not_lt hi
      rw [h.poly_eq, coeff_eq_zero_of_degree_lt (hdeg.trans_le (Nat.cast_le.mpr hle)),
        List.getElem?_eq_none (by rw [List.length_take]; omega)]
      rfl

theorem denotes_polyMod (hm : Denotes F (d + 1) ms P) (hmonic : P.Monic) (hdeg : P.natDegree = d)
    (h : Denotes F n cs p) : Denotes F d (polyMod wrapped cs ms) (p %ₘ P) := by
  have hlen : ms.length - 1 = d := by rw [hm.length_eq, Nat.add_sub_cancel]
  have hfuel : p.degree < cs.length := by
    rw [h.length_eq]
    exact h.degree_lt
  obtain ⟨r, hr, hrdeg, hdvd⟩ := polyModFrom_spec hw hm hmonic hdeg h hfuel
  have hmod : p %ₘ P = r := by
    rw [modByMonic_eq_of_dvd_sub hmonic hdvd, modByMonic_eq_self_iff hmonic,
      degree_eq_natDegree hmonic.ne_zero, hdeg]
    exact hrdeg
  rw [hmod, polyMod]
  simp only [hlen, u64Elem_wrapped hw, u64Elem_zero]
  exact denotes_resize hr hrdeg

/-- One row of a product, zero coefficients skipped. -/
theorem denotes_productRow {k : ℕ} {ds : List (List Bool)} {q : F.K[X]} (hd : Denotes F k ds q)
    (h : Denotes F n cs p) {left : List Bool} (hleft : left.length = F.width) {i : ℕ}
    (hfit : i + k ≤ n) :
    Denotes F n
      (if elemIsZero left then cs
        else ds.zipIdx.foldl (fun product (right, j) =>
          if elemIsZero right then product
          else VolarIR.addAt product (i + j) (coeffMul boolBits wrapped left right)) cs)
      (p + C (F.decode left) * X ^ i * q) := by
  split
  · next hzero =>
      rw [(elemIsZero_iff hleft).mp hzero, C_0, zero_mul, zero_mul, add_zero]
      exact h
  · rw [mul_comm _ q]
    apply h.foldl_zipIdx hd
    intro right j hmem rest s hrest
    have hj := mem_zipIdx_zero hmem
    have hright : right.length = F.width := hd.coeffs right hj.2.1
    have hlt : j + i < n := by
      have := hd.length_eq
      omega
    simp only
    split
    · next hzero =>
        rw [(elemIsZero_iff hright).mp hzero, C_0, zero_mul, zero_mul, add_zero]
        exact hrest
    · rw [Nat.add_comm i j]
      exact hrest.addProduct hw hleft hright hlt

theorem denotes_polyMulMod (hm : Denotes F (d + 1) ms P) (hmonic : P.Monic)
    (hdeg : P.natDegree = d) {k : ℕ} {ds : List (List Bool)} {q : F.K[X]} (h : Denotes F n cs p)
    (hd : Denotes F k ds q) : Denotes F d (polyMulMod wrapped cs ds ms) (p * q %ₘ P) := by
  have hzero : Denotes F (cs.length + ds.length)
      (List.replicate (cs.length + ds.length) (u64Elem 0 wrapped.width)) 0 := by
    rw [u64Elem_wrapped hw]
    exact denotes_replicate
  apply denotes_polyMod hw hm hmonic hdeg (n := cs.length + ds.length)
  rw [← zero_add (p * q)]
  apply hzero.foldl_zipIdx h
  intro left i hmem rest r hrest
  have hi := mem_zipIdx_zero hmem
  exact denotes_productRow hw hd hrest (h.coeffs left hi.2.1) (by rw [← hd.length_eq]; omega)

/-- `t` squarings of a reduced polynomial. -/
theorem denotes_iterate_square (hm : Denotes F (d + 1) ms P) (hmonic : P.Monic)
    (hdeg : P.natDegree = d) (h : Denotes F d cs (p %ₘ P)) (t : ℕ) :
    Denotes F d ((fun acc => polyMulMod wrapped acc acc ms)^[t] cs) (p ^ 2 ^ t %ₘ P) := by
  induction t with
  | zero => rwa [pow_zero, pow_one]
  | succ t ih =>
      rw [Function.iterate_succ_apply', pow_succ 2 t, pow_mul, sq, mul_modByMonic]
      exact denotes_polyMulMod hw hm hmonic hdeg ih ih

/-- `times` rounds of `qBits` squarings raise to the power `2^(qBits * times)`. -/
theorem denotes_frobeniusPow (hm : Denotes F (d + 1) ms P) (hmonic : P.Monic)
    (hdeg : P.natDegree = d) (h : Denotes F d cs (p %ₘ P)) (times qBits : ℕ) :
    Denotes F d (frobeniusPow wrapped cs times qBits ms) (p ^ 2 ^ (qBits * times) %ₘ P) := by
  have hiter := denotes_iterate_square hw hm hmonic hdeg h (qBits * times)
  rwa [Function.iterate_mul] at hiter

end

section
open scoped Classical

noncomputable def euclid {F : BitField} (p q : F.K[X]) : F.K[X] := EuclideanDomain.gcd p q

variable {F : BitField} (p q : F.K[X])

theorem euclid_zero_left : euclid 0 p = p := EuclideanDomain.gcd_zero_left p

theorem euclid_step : euclid q p = euclid (p % q) q := EuclideanDomain.gcd_val q p

theorem isUnit_euclid : IsUnit (euclid p q) ↔ IsCoprime p q := EuclideanDomain.gcd_isUnit_iff

end

section
variable {F : BitField} {wrapped : WrappedDesc} (hw : Describes wrapped F)
include hw
variable {n m : ℕ} {cs ds : List (List Bool)} {p q : F.K[X]}

theorem polyRemFrom_spec (hd : Denotes F m ds q) {k : ℕ} (hdeg : q.degree = k) {fuel : ℕ}
    (h : Denotes F n cs p) (hfuel : p.degree < fuel) :
    ∃ r, Denotes F n (polyRemFrom wrapped ds k fuel cs) r ∧ r.degree < k ∧ q ∣ p - r := by
  induction fuel generalizing cs p with
  | zero =>
      have hzero : p = 0 := by
        rw [← degree_eq_bot, ← Nat.WithBot.lt_zero_iff]
        exact_mod_cast hfuel
      exact ⟨p, h, by rw [hzero, degree_zero]; exact WithBot.bot_lt_coe k, by simp⟩
  | succ fuel ih =>
      rw [polyRemFrom]
      cases htop : polyDegree cs with
      | none =>
          have hzero := h.polyDegree_none.mp htop
          exact ⟨p, h, by rw [hzero, degree_zero]; exact WithBot.bot_lt_coe k, by simp⟩
      | some top =>
          have hptop := h.polyDegree_some.mp htop
          have htopn : top < n := Nat.cast_lt.mp (hptop ▸ h.degree_lt)
          have hkm : k < m := Nat.cast_lt.mp (hdeg ▸ hd.degree_lt)
          simp only
          split
          · next hlt => exact ⟨p, h, by rw [hptop]; exact_mod_cast hlt, by simp⟩
          · next hge =>
              have hle : k ≤ top := Nat.le_of_not_lt hge
              have htopc := h.getD htopn
              have hkc := hd.getD hkm
              have hlead := coeffDiv_spec hw htopc.1 hkc.1
                (by rw [hkc.2]; exact coeff_ne_zero_of_eq_degree hdeg)
              have hfit : k + (top - k) < n := by omega
              have hnext := denotes_addShifted_skip hw hd hdeg h hlead.1 hfit
              have hlow := degree_cancel_lt hptop hdeg hle (by rw [← hkc.2, hlead.2, htopc.2])
              have hfuel' : p.degree ≤ (fuel : WithBot ℕ) := by
                rw [hptop] at hfuel ⊢
                exact_mod_cast Nat.le_of_lt_succ (by exact_mod_cast hfuel)
              obtain ⟨r, hr, hrdeg, hdvd⟩ := ih hnext (hlow.trans_le hfuel')
              exact ⟨r, hr, hrdeg, dvd_sub_of_dvd_add_mul hdvd⟩

theorem denotes_polyRem (h : Denotes F n cs p) (hd : Denotes F m ds q) (hq : q ≠ 0) :
    Denotes F n (polyRem wrapped cs ds) (p % q) := by
  have hdeg : q.degree = (q.natDegree : WithBot ℕ) := degree_eq_natDegree hq
  have hfuel : p.degree < cs.length := by
    rw [h.length_eq]
    exact h.degree_lt
  obtain ⟨r, hr, hrdeg, hdvd⟩ := polyRemFrom_spec hw hd hdeg h hfuel
  have hmod : p % q = r := by
    have hzero := (EuclideanDomain.mod_eq_zero).mpr hdvd
    rw [sub_mod, sub_eq_zero] at hzero
    rw [hzero, mod_eq_self_iff hq, hdeg]
    exact hrdeg
  rw [polyRem, hd.polyDegree_some.mpr hdeg, hmod]
  exact hr

theorem polyGcdFrom_spec {fuel : ℕ} (h : Denotes F n cs p) (hd : Denotes F m ds q)
    (hfuel : q.degree < fuel) : ∃ k, Denotes F k (polyGcdFrom wrapped fuel cs ds) (euclid q p) := by
  induction fuel generalizing n m cs ds p q with
  | zero =>
      have hzero : q = 0 := by
        rw [← degree_eq_bot, ← Nat.WithBot.lt_zero_iff]
        exact_mod_cast hfuel
      rw [hzero, euclid_zero_left]
      exact ⟨n, h⟩
  | succ fuel ih =>
      rw [polyGcdFrom]
      cases htop : polyDegree ds with
      | none =>
          rw [hd.polyDegree_none.mp htop, euclid_zero_left]
          exact ⟨n, h⟩
      | some top =>
          have hqtop := hd.polyDegree_some.mp htop
          have hq : q ≠ 0 := fun hzero => by simp [hzero] at hqtop
          have hrem := denotes_polyRem hw h hd hq
          have hlow : (p % q).degree < q.degree := EuclideanDomain.mod_lt p hq
          have hfuel' : q.degree ≤ (fuel : WithBot ℕ) := by
            rw [hqtop] at hfuel ⊢
            exact_mod_cast Nat.le_of_lt_succ (by exact_mod_cast hfuel)
          rw [euclid_step]
          exact ih hd hrem (hlow.trans_le hfuel')

theorem denotes_polyGcd (h : Denotes F n cs p) (hd : Denotes F m ds q) :
    ∃ k, Denotes F k (polyGcd wrapped cs ds) (euclid q p) := by
  apply polyGcdFrom_spec hw h hd
  rw [hd.length_eq]
  exact hd.degree_lt.trans (by exact_mod_cast Nat.lt_succ_self m)

omit hw in
theorem polyIsOne_iff (h : Denotes F n cs p) : polyIsOne cs = true ↔ p = 1 := by
  have hlen := h.length_eq
  cases cs with
  | nil =>
      have hzero : p = 0 := by rw [← h.poly_eq, BitField.poly_nil]
      rw [hzero]
      simp [polyIsOne, polyDegree]
  | cons c cs =>
      have hc : c.length = F.width := h.coeffs.head
      have hhead : (c.headD false && c.tail.all fun bit => !bit) = true ↔ F.decode c = 1 := by
        rw [F.decode_eq_one hc, BitField.oneBits]
        cases c with
        | nil => exact absurd hc (Nat.ne_of_lt F.width_pos)
        | cons b c =>
            have hc' : F.width - 1 = c.length := by
              rw [← hc, List.length_cons, Nat.add_sub_cancel]
            simp [List.eq_replicate_iff, hc']
      have hcoeff : F.decode c = p.coeff 0 := by rw [← h.poly_eq]; simp
      rw [polyIsOne, Bool.and_eq_true, beq_iff_eq, h.polyDegree_some]
      simp only [List.head?_cons]
      rw [hhead, hcoeff]
      constructor
      · rintro ⟨hdeg, hone⟩
        rw [eq_C_of_degree_eq_zero hdeg, hone, C_1]
      · rintro rfl
        exact ⟨degree_one, coeff_one_zero⟩

end

end VolarIR
