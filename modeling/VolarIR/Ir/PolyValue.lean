import VolarIR.Ir.PrimePoly
import VolarIR.Ir.RingValuation

/-!
# The value of a polynomial of any type

A well-typed polynomial has a value of its type, and two polynomials that no valuation tells
apart have the same value.
-/
namespace VolarIR.Ir

/-- The type of a polynomial: bits, the ring of an extension field, or prime fields. -/
inductive PolyType (table : TypeTable) (ty : TypeId) : Prop
  | bits (prime : table.containsPrimeField ty = false) (idem : table.mulIsIdempotent ty = true)
  | ring {A : BitAlgebra} (prime : table.containsPrimeField ty = false)
      (ring : table.mulIsIdempotent ty = false) (means : Means table ty A)
      (fits : A.width ≤ usizeMax)
  | prime {w : ℕ} (fields : PrimeType table ty) (width : table.valueBitWidth ty = some w)

section
variable {table : TypeTable} {ty : TypeId}

theorem factorTerms_mapM {terms : List ValueTerm}
    (h : ∀ t ∈ terms, ∀ v ∈ t.1, ValueFits table ty v) :
    (terms.mapM fun term => do some (← term.1.mapM Value.factor, term.2)) =
      some (factorTerms terms) := by
  apply mapM_eq_some
  intro t ht
  rw [mapM_eq_some fun v hv => (h t ht v hv).factor_eq]
  rfl

theorem forall_factorTerms {terms : List ValueTerm}
    (h : ∀ t ∈ terms, ∀ v ∈ t.1, ValueFits table ty v) :
    ∀ t ∈ factorTerms terms, ∀ f ∈ t.1, FactorFits table ty f := by
  intro t ht f hf
  obtain ⟨u, hu, rfl⟩ := List.mem_map.mp ht
  obtain ⟨v, hv, rfl⟩ := List.mem_map.mp hf
  exact (h u hu v hv).fits

theorem evalTerms_bits (hprime : table.containsPrimeField ty = false)
    (hidem : table.mulIsIdempotent ty = true) (c : Constant) (terms : List ValueTerm) :
    evalTerms table ty c terms = some (evalBitPoly c (table.bitWidth ty) terms) := by
  rw [evalTerms, if_neg (by rw [hprime]; decide), if_pos hidem]

theorem evalTerms_ring (hprime : table.containsPrimeField ty = false)
    (hring : table.mulIsIdempotent ty = false) (c : Constant) (terms : List ValueTerm) :
    evalTerms table ty c terms = evalTypedPoly table ty c terms := by
  rw [evalTerms, if_neg (by rw [hprime]; decide), if_neg (by rw [hring]; decide)]

theorem evalTerms_prime (hprime : table.containsPrimeField ty = true) (c : Constant)
    {terms : List ValueTerm} (h : ∀ t ∈ terms, ∀ v ∈ t.1, ValueFits table ty v) :
    evalTerms table ty c terms =
      evalPrimePoly boolRing table ty (constBits c (table.bitWidth ty)) (factorTerms terms) := by
  rw [evalTerms, if_pos hprime, factorTerms_mapM h]
  rfl

theorem evalTerms_isSome (hty : PolyType table ty) (c : Constant) {terms : List ValueTerm}
    (h : ∀ t ∈ terms, ∀ v ∈ t.1, ValueFits table ty v) :
    ∃ bits, evalTerms table ty c terms = some bits ∧ bits.length = table.bitWidth ty := by
  cases hty with
  | bits prime idem =>
      exact ⟨_, evalTerms_bits prime idem c terms, by simp [evalBitPoly]⟩
  | ring prime ring means fits =>
      obtain ⟨bits, hbits, hlen, _⟩ := evalTypedPoly_spec means fits ring (c := c) h
      exact ⟨bits, (evalTerms_ring prime ring c terms).trans hbits,
        hlen.trans (means.bitWidth_eq fits).symm⟩
  | prime fields width =>
      obtain ⟨bits, hbits, hlen⟩ := evalPrimePolyFrom_isSome fields le_rfl width
        (c := constBits c (table.bitWidth ty)) (forall_factorTerms h)
      exact ⟨bits, (evalTerms_prime (fields.containsPrimeField le_rfl) c h).trans hbits,
        hlen.trans (bitWidth_eq_of_valueBitWidth width).symm⟩

theorem evalTerms_congr (hty : PolyType table ty) (c : Constant) {terms terms' : List ValueTerm}
    (h : ∀ t ∈ terms, ∀ v ∈ t.1, ValueFits table ty v)
    (h' : ∀ t ∈ terms', ∀ v ∈ t.1, ValueFits table ty v)
    (hsums : SameSums table ty (factorTerms terms) (factorTerms terms')) :
    evalTerms table ty c terms = evalTerms table ty c terms' := by
  cases hty with
  | bits prime idem =>
      rw [evalTerms_bits prime idem, evalTerms_bits prime idem]
      apply congrArg
      apply evalBitPoly_congr
      intro k hk
      exact hsums _ _ (valuation_laneAt prime idem hk)
  | @ring A prime ring means fits =>
      rw [evalTerms_ring prime ring, evalTerms_ring prime ring]
      obtain ⟨bits, hbits, hlen, hval⟩ := evalTypedPoly_spec means fits ring (c := c) h
      obtain ⟨bits', hbits', hlen', hval'⟩ := evalTypedPoly_spec means fits ring (c := c) h'
      rw [hbits, hbits']
      have hsame := hsums _ _ (valuation_ringAt means fits ring prime)
      rw [hsame, ← hval'] at hval
      exact congrArg some (A.decode_inj bits bits' hlen hlen' hval)
  | prime fields width =>
      have hprime := fields.containsPrimeField le_rfl
      rw [evalTerms_prime hprime c h, evalTerms_prime hprime c h']
      exact evalPrimePolyFrom_congr fields le_rfl (forall_factorTerms h)
        (forall_factorTerms h') hsums

end

def BitPoly (table : TypeTable) (ty : TypeId) : Prop :=
  table.containsPrimeField ty = false ∧ table.mulIsIdempotent ty = true

section
variable {types : TypeTable} {ty elem : TypeId} {n : ℕ}

theorem exists_length_of_vec (get : types.get ty = some (.vec n elem))
    (bit : types.isBit elem = true) : ∃ fuel, types.types.length = fuel + 2 := by
  have helem := TypeTable.isBit_iff.mp bit
  have hne : ty.id ≠ elem.id := by
    intro heq
    have hsame : types.get ty = types.get elem := by
      rw [TypeTable.get, TypeTable.get, heq]
    rw [get, helem] at hsame
    cases hsame
  have hlt := (List.getElem?_eq_some_iff.mp get).1
  have hlt' := (List.getElem?_eq_some_iff.mp helem).1
  exact ⟨types.types.length - 2, by omega⟩

theorem bitPoly_of_vec (get : types.get ty = some (.vec n elem)) (bit : types.isBit elem = true) :
    BitPoly types ty := by
  have helem := TypeTable.isBit_iff.mp bit
  obtain ⟨fuel, hfuel⟩ := exists_length_of_vec get bit
  constructor
  · rw [TypeTable.containsPrimeField, hfuel, containsPrimeFieldFrom, get]
    dsimp only
    rw [containsPrimeFieldFrom, helem]
  · rw [TypeTable.mulIsIdempotent, hfuel, mulIsIdempotentFrom, get]
    dsimp only
    rw [mulIsIdempotentFrom, helem]

end

section
variable {table : TypeTable} {ty : TypeId}

end

/-!
## Types of characteristic two

Bits, elements of extension fields, and vectors of these. Over such a type a polynomial of
one gated var is a multiplexer with zero, and a polynomial of two vars is their exclusive or.
-/

/-- Values of the type add by exclusive or, and a bit gates them. -/
inductive BinaryType (table : TypeTable) (ty : TypeId) : Prop
  | bits (prime : table.containsPrimeField ty = false) (idem : table.mulIsIdempotent ty = true)
  | ring {A : BitAlgebra} (prime : table.containsPrimeField ty = false)
      (ring : table.mulIsIdempotent ty = false) (means : Means table ty A)
      (fits : A.width ≤ usizeMax)

section
variable {table : TypeTable} {ty : TypeId}

theorem BinaryType.polyType (h : BinaryType table ty) : PolyType table ty := by
  cases h with
  | bits prime idem => exact .bits prime idem
  | ring prime ring means fits => exact .ring prime ring means fits

theorem BinaryType.of_isBit (h : table.isBit ty = true) : BinaryType table ty := by
  have get := TypeTable.isBit_iff.mp h
  obtain ⟨fuel, hfuel⟩ := TypeTable.exists_length get
  apply BinaryType.bits
  · rw [TypeTable.containsPrimeField, hfuel, containsPrimeFieldFrom, get]
  · rw [TypeTable.mulIsIdempotent, hfuel, mulIsIdempotentFrom, get]

theorem bitWidth_of_isBit (h : table.isBit ty = true) : table.bitWidth ty = 1 := by
  have get := TypeTable.isBit_iff.mp h
  obtain ⟨fuel, hfuel⟩ := TypeTable.exists_length get
  rw [TypeTable.bitWidth, hfuel, bitWidthFrom, get]

theorem constBits_zero (width : ℕ) : constBits .zero width = List.replicate width false := by
  apply List.ext_getElem
  · simp [constBits]
  · intro k hk hk'
    simp [constBits, Constant.zero, Constant.bit]

theorem Value.lane_eq {v : Value} {k : ℕ} (hk : k < v.bits.length) :
    v.lane k = v.bits.getD k false := by
  unfold Value.lane
  split_ifs with hone
  · obtain ⟨b, hb⟩ := List.length_eq_one_iff.mp hone
    obtain rfl : k = 0 := by omega
    rw [hb]
    rfl
  · rfl

theorem Value.lane_scalar {v : Value} {b : Bool} (h : v.bits = [b]) (k : ℕ) : v.lane k = b := by
  rw [Value.lane, h]
  rfl

theorem zipWith_xor_getD {xs ys : List Bool} {k : ℕ} (hx : k < xs.length)
    (hy : k < ys.length) :
    (List.zipWith xor xs ys).getD k false = (xs.getD k false ^^ ys.getD k false) := by
  simp [List.getD_eq_getElem?_getD, hx, hy]

theorem eq_map_getD {xs : List Bool} {width : ℕ} (h : xs.length = width) :
    xs = (List.range width).map fun k => xs.getD k false := by
  apply List.ext_getElem
  · simp [h]
  · intro k hk hk'
    simp [hk]

structure IsBitValue (table : TypeTable) (v : Value) (b : Bool) : Prop where
  type : ∃ bty, v.ty = some bty ∧ table.isBit bty = true
  bits : v.bits = [b]

structure IsValue (table : TypeTable) (ty : TypeId) (v : Value) (xs : List Bool) : Prop where
  type : v.ty = some ty
  bits : v.bits = xs
  length : xs.length = table.bitWidth ty

theorem IsBitValue.valueFits {v : Value} {b : Bool} (h : IsBitValue table v b) :
    ValueFits table ty v := by
  obtain ⟨bty, hty, hbit⟩ := h.type
  refine ⟨by rw [hty]; rfl, ?_, ?_⟩
  · rw [Value.asFactor, hty]
    exact .gate hbit
  · rw [Value.asFactor, hty]
    exact (congrArg List.length h.bits).trans (bitWidth_of_isBit hbit).symm

theorem IsValue.valueFits {v : Value} {bits : List Bool} (h : IsValue table ty v bits) :
    ValueFits table ty v := by
  refine ⟨by rw [h.type]; rfl, ?_, ?_⟩
  · rw [Value.asFactor, h.type]
    exact .own (TypeTable.sameType_self ty)
  · rw [Value.asFactor, h.type]
    exact (congrArg List.length h.bits).trans h.length

section
variable {A : BitAlgebra} (means : Means table ty A) (fits : A.width ≤ usizeMax)

include means in
theorem IsBitValue.ringAt {v : Value} {b : Bool} (h : IsBitValue table v b) :
    ringAt table ty A v.asFactor = if b then 1 else 0 := by
  obtain ⟨bty, hty, hbit⟩ := h.type
  apply ringAt_eq means
  rw [Value.asFactor, hty, h.bits]
  exact .gate hbit

include means fits in
theorem IsValue.ringAt {v : Value} {bits : List Bool} (h : IsValue table ty v bits) :
    Ir.ringAt table ty A v.asFactor = A.decode bits := by
  apply ringAt_eq means
  rw [Value.asFactor, h.type, h.bits]
  exact .own (TypeTable.sameType_self ty) (h.length.trans (means.bitWidth_eq fits))

end

theorem BinaryType.evalTerms_gate (h : BinaryType table ty) {g v : Value} {b : Bool}
    {bits : List Bool} (hg : IsBitValue table g b) (hv : IsValue table ty v bits)
    {factors : List Value} (hfactors : factors.Perm [g, v]) :
    evalTerms table ty .zero [(factors, 1)] =
      some (if b then bits else List.replicate (table.bitWidth ty) false) := by
  have hall : ∀ t ∈ [(factors, (1 : U8))], ∀ f ∈ t.1, ValueFits table ty f := by
    intro t ht f hf
    rw [List.mem_singleton.mp ht] at hf
    rcases List.mem_pair.mp (hfactors.mem_iff.mp hf) with rfl | rfl
    · exact hg.valueFits
    · exact hv.valueFits
  cases h with
  | bits prime idem =>
      rw [evalTerms_bits prime idem, evalBitPoly]
      have hlane : ∀ k < table.bitWidth ty, factors.all (·.lane k) = (b && bits.getD k false) := by
        intro k hk
        rw [hfactors.all_eq]
        have hown : v.lane k = bits.getD k false := by
          rw [Value.lane_eq (by rw [hv.bits, hv.length]; exact hk), hv.bits]
        simp [Value.lane_scalar hg.bits k, hown]
      have hmap : (List.range (table.bitWidth ty)).map (fun k =>
          [(factors, (1 : U8))].foldl (fun acc term =>
            if odd term.2 then acc ^^ term.1.all (·.lane k) else acc) (Constant.zero.bit k)) =
          (List.range (table.bitWidth ty)).map fun k => b && bits.getD k false := by
        apply List.map_congr_left
        intro k hk
        rw [List.foldl_cons, List.foldl_nil, if_pos (show odd 1 = true by decide),
            hlane k (List.mem_range.mp hk)]
        simp [Constant.zero, Constant.bit]
      rw [hmap]
      cases b with
      | true => exact congrArg some (eq_map_getD hv.length).symm
      | false => simp
  | @ring A prime ring means fits =>
      rw [evalTerms_ring prime ring]
      obtain ⟨out, hout, hlen, hval⟩ := evalTypedPoly_spec means fits ring (c := .zero) hall
      have hwidth := means.bitWidth_eq fits
      have hprod : sumAt (Ir.ringAt table ty A) (factorTerms [(factors, (1 : U8))]) =
          (if b then 1 else 0) * A.decode bits := by
        rw [factorTerms_cons, sumAt_cons, ((hfactors.map Value.asFactor).map _).prod_eq]
        simp [factorTerms, hg.ringAt means, hv.ringAt means fits]
      rw [hprod, constBits_zero, ← BitAlgebra.zero, A.decode_zero, zero_add] at hval
      rw [hout]
      apply congrArg
      cases b with
      | true =>
          rw [if_pos rfl, one_mul] at hval
          exact A.decode_inj _ _ hlen (hv.length.trans hwidth) hval
      | false =>
          rw [if_neg Bool.false_ne_true, zero_mul, ← A.decode_zero] at hval
          rw [hwidth]
          exact A.decode_inj _ _ hlen A.length_zero hval

theorem BinaryType.evalTerms_sum (h : BinaryType table ty) {u v : Value} {xs ys : List Bool}
    (hu : IsValue table ty u xs) (hv : IsValue table ty v ys)
    {terms : List ValueTerm} (hterms : terms.Perm [([u], 1), ([v], 1)]) :
    evalTerms table ty .zero terms = some (List.zipWith xor xs ys) := by
  have hall : ∀ t ∈ terms, ∀ f ∈ t.1, ValueFits table ty f := by
    intro t ht f hf
    rcases List.mem_pair.mp (hterms.mem_iff.mp ht) with rfl | rfl
    · rw [List.mem_singleton.mp hf]
      exact hu.valueFits
    · rw [List.mem_singleton.mp hf]
      exact hv.valueFits
  have hlenU := hu.length
  have hlenV := hv.length
  cases h with
  | bits prime idem =>
      have hpair : ∀ t ∈ [([u], (1 : U8)), ([v], 1)], ∀ f ∈ t.1, ValueFits table ty f :=
        fun t ht => hall t (hterms.mem_iff.mpr ht)
      have hsums : SameSums table ty (factorTerms terms) (factorTerms [([u], 1), ([v], 1)]) :=
        fun _ _ _ _ => sumAt_perm _ (hterms.map _)
      rw [evalTerms_congr (.bits prime idem) .zero hall hpair hsums, evalTerms_bits prime idem,
        evalBitPoly]
      apply congrArg
      have hlen : (List.zipWith xor xs ys).length = table.bitWidth ty := by
        rw [List.length_zipWith, hlenU, hlenV, Nat.min_self]
      rw [eq_map_getD hlen]
      apply List.map_congr_left
      intro k hk
      rw [List.mem_range] at hk
      have hx : u.lane k = xs.getD k false := by
        rw [Value.lane_eq (by rw [hu.bits, hlenU]; exact hk), hu.bits]
      have hy : v.lane k = ys.getD k false := by
        rw [Value.lane_eq (by rw [hv.bits, hlenV]; exact hk), hv.bits]
      rw [zipWith_xor_getD (hlenU.symm ▸ hk) (hlenV.symm ▸ hk), ← hx, ← hy]
      simp [odd, Constant.zero, Constant.bit]
  | @ring A prime ring means fits =>
      rw [evalTerms_ring prime ring]
      obtain ⟨out, hout, hlen, hval⟩ := evalTypedPoly_spec means fits ring (c := .zero) hall
      have hwidth := means.bitWidth_eq fits
      have hsum : sumAt (Ir.ringAt table ty A) (factorTerms terms) =
          A.decode xs + A.decode ys := by
        have hperm : (factorTerms terms).Perm (factorTerms [([u], 1), ([v], 1)]) := hterms.map _
        rw [sumAt_perm _ hperm]
        simp [factorTerms, hu.ringAt means fits, hv.ringAt means fits]
      have hlenU' := hlenU.trans hwidth
      have hlenV' := hlenV.trans hwidth
      rw [hsum, constBits_zero, ← BitAlgebra.zero, A.decode_zero, zero_add,
        ← A.decode_xor _ _ hlenU' hlenV'] at hval
      rw [hout]
      apply congrArg
      apply A.decode_inj _ _ hlen _ hval
      rw [List.length_zipWith, hlenU', hlenV', Nat.min_self]

theorem evalTerms_of_isBit (hty : table.isBit ty = true) (c : Constant) (terms : List ValueTerm) :
    evalTerms table ty c terms = some (evalBitPoly c 1 terms) := by
  have get := TypeTable.isBit_iff.mp hty
  obtain ⟨fuel, hfuel⟩ := TypeTable.exists_length get
  rw [← bitWidth_of_isBit hty]
  apply evalTerms_bits
  · rw [TypeTable.containsPrimeField, hfuel, containsPrimeFieldFrom, get]
  · rw [TypeTable.mulIsIdempotent, hfuel, mulIsIdempotentFrom, get]

end

end VolarIR.Ir
