import Mathlib.FieldTheory.Finite.Extension
import Mathlib.RingTheory.AdjoinRoot

/-!
# Finite fields of characteristic two as bit strings

A `BitField` is a field with a bijective reading of the bit strings of one length in which
exclusive or is addition. The two-element field is one, and so is the quotient of the
polynomials over one by a monic irreducible, read as its strings of coefficients.
-/

open Polynomial

/-- A field read off bit strings of length `width`, low bit first. -/
structure BitField where
  K : Type
  [field : Field K]
  width : ℕ
  decode : List Bool → K
  width_pos : 0 < width
  add_self : ∀ x : K, x + x = 0
  decode_xor : ∀ a b : List Bool, a.length = width → b.length = width →
    decode (List.zipWith xor a b) = decode a + decode b
  decode_inj : ∀ a b : List Bool, a.length = width → b.length = width →
    decode a = decode b → a = b
  decode_surj : ∀ x : K, ∃ a : List Bool, a.length = width ∧ decode a = x
  decode_one : decode (true :: List.replicate (width - 1) false) = 1

attribute [instance] BitField.field

namespace BitField

theorem zipWith_xor_self (a : List Bool) :
    List.zipWith xor a a = List.replicate a.length false := by
  simp

section
variable (F : BitField)

def oneBits : List Bool := true :: List.replicate (F.width - 1) false

def zeroBits : List Bool := List.replicate F.width false

@[simp] theorem length_zeroBits : F.zeroBits.length = F.width := List.length_replicate

@[simp] theorem length_oneBits : F.oneBits.length = F.width := by
  have h := F.width_pos
  simp only [oneBits, List.length_cons, List.length_replicate]
  omega

@[simp] theorem decode_oneBits : F.decode F.oneBits = 1 := F.decode_one

@[simp] theorem decode_zeroBits : F.decode F.zeroBits = 0 := by
  have h := F.decode_xor F.zeroBits F.zeroBits (by simp) (by simp)
  rw [zipWith_xor_self, length_zeroBits, F.add_self] at h
  exact h

theorem decode_eq_zero {a : List Bool} (ha : a.length = F.width) :
    F.decode a = 0 ↔ a = F.zeroBits := by
  constructor
  · exact fun h => F.decode_inj _ _ ha (by simp) (h.trans F.decode_zeroBits.symm)
  · rintro rfl
    exact F.decode_zeroBits

theorem decode_eq_one {a : List Bool} (ha : a.length = F.width) :
    F.decode a = 1 ↔ a = F.oneBits := by
  constructor
  · exact fun h => F.decode_inj _ _ ha (by simp) (h.trans F.decode_oneBits.symm)
  · rintro rfl
    exact F.decode_oneBits

noncomputable def equiv : List.Vector Bool F.width ≃ F.K :=
  Equiv.ofBijective (fun v => F.decode v.toList) <| by
    constructor
    · exact fun v w h => Subtype.ext (F.decode_inj _ _ v.2 w.2 h)
    · intro x
      obtain ⟨a, ha, hx⟩ := F.decode_surj x
      exact ⟨⟨a, ha⟩, hx⟩

instance : Finite F.K := Finite.of_equiv _ F.equiv

theorem natCard : Nat.card F.K = 2 ^ F.width := by
  rw [← Nat.card_congr F.equiv, Nat.card_eq_fintype_card, card_vector, Fintype.card_bool]

theorem pow_mul_self {x : F.K} (hx : x ≠ 0) : x ^ (2 ^ F.width - 2) * x = 1 := by
  have := Fintype.ofFinite F.K
  have hcard : Fintype.card F.K = 2 ^ F.width := by rw [← Nat.card_eq_fintype_card, F.natCard]
  have htwo : 2 ≤ 2 ^ F.width := Nat.pow_le_pow_right (n := 2) (by decide) F.width_pos
  rw [← pow_succ, ← FiniteField.pow_card_sub_one_eq_one x hx, hcard]
  congr 1
  omega

end

section
variable (F : BitField)

def Coeffs (cs : List (List Bool)) : Prop := ∀ c ∈ cs, c.length = F.width

noncomputable def poly : List (List Bool) → F.K[X]
  | [] => 0
  | c :: cs => C (F.decode c) + X * poly cs

@[simp] theorem poly_nil : F.poly [] = 0 := rfl

@[simp] theorem poly_cons (c : List Bool) (cs : List (List Bool)) :
    F.poly (c :: cs) = C (F.decode c) + X * F.poly cs := rfl

theorem poly_append (cs ds : List (List Bool)) :
    F.poly (cs ++ ds) = F.poly cs + X ^ cs.length * F.poly ds := by
  induction cs with
  | nil => simp
  | cons c cs ih =>
      rw [List.cons_append, poly_cons, ih, poly_cons, List.length_cons, pow_succ]
      ring

theorem coeff_poly (cs : List (List Bool)) (i : ℕ) :
    (F.poly cs).coeff i = (cs[i]?.map F.decode).getD 0 := by
  induction cs generalizing i with
  | nil => simp
  | cons c cs ih =>
      cases i with
      | zero => simp
      | succ i => simp [ih]

theorem degree_poly_lt (cs : List (List Bool)) : (F.poly cs).degree < cs.length := by
  rw [degree_lt_iff_coeff_zero]
  intro i hi
  rw [coeff_poly, List.getElem?_eq_none (by exact_mod_cast hi)]
  rfl

theorem poly_replicate_zeroBits (n : ℕ) : F.poly (List.replicate n F.zeroBits) = 0 := by
  induction n with
  | zero => rfl
  | succ n ih => simp [List.replicate_succ, ih]

variable {F}

theorem Coeffs.cons {c : List Bool} {cs : List (List Bool)} (hc : c.length = F.width)
    (h : F.Coeffs cs) : F.Coeffs (c :: cs) := by
  intro d hd
  cases List.mem_cons.mp hd with
  | inl heq => rw [heq, hc]
  | inr hmem => exact h d hmem

theorem Coeffs.head {c : List Bool} {cs : List (List Bool)} (h : F.Coeffs (c :: cs)) :
    c.length = F.width := h c (List.mem_cons_self ..)

theorem Coeffs.tail {c : List Bool} {cs : List (List Bool)} (h : F.Coeffs (c :: cs)) :
    F.Coeffs cs := fun d hd => h d (List.mem_cons_of_mem _ hd)

theorem poly_zipWith {cs ds : List (List Bool)} (hlen : cs.length = ds.length)
    (hc : F.Coeffs cs) (hd : F.Coeffs ds) :
    F.poly (List.zipWith (List.zipWith xor) cs ds) = F.poly cs + F.poly ds := by
  induction cs generalizing ds with
  | nil => simp [List.length_eq_zero_iff.mp hlen.symm]
  | cons c cs ih =>
      cases ds with
      | nil => cases hlen
      | cons d ds =>
          rw [List.zipWith_cons_cons, poly_cons, ih (Nat.succ.inj hlen) hc.tail hd.tail,
            F.decode_xor _ _ hc.head hd.head, C_add, poly_cons, poly_cons]
          ring

theorem Coeffs.zipWith {cs ds : List (List Bool)} (hc : F.Coeffs cs) (hd : F.Coeffs ds) :
    F.Coeffs (List.zipWith (List.zipWith xor) cs ds) := by
  induction cs generalizing ds with
  | nil => exact nofun
  | cons c cs ih =>
      cases ds with
      | nil => exact nofun
      | cons d ds =>
          exact Coeffs.cons (by simp [hc.head, hd.head]) (ih hc.tail hd.tail)

theorem poly_inj {cs ds : List (List Bool)} (hlen : cs.length = ds.length) (hc : F.Coeffs cs)
    (hd : F.Coeffs ds) (h : F.poly cs = F.poly ds) : cs = ds := by
  apply List.ext_getElem hlen
  intro i hi hi'
  have hcoeff := congrArg (fun p => p.coeff i) h
  simp only [coeff_poly, List.getElem?_eq_getElem hi, List.getElem?_eq_getElem hi',
    Option.map_some, Option.getD_some] at hcoeff
  exact F.decode_inj _ _ (hc _ (List.getElem_mem hi)) (hd _ (List.getElem_mem hi')) hcoeff

/-- A polynomial of degree below `n` has a list of `n` coefficients. -/
theorem exists_poly_eq {n : ℕ} {p : F.K[X]} (hp : p.degree < n) :
    ∃ cs, cs.length = n ∧ F.Coeffs cs ∧ F.poly cs = p := by
  choose bits hlen hbits using F.decode_surj
  refine ⟨(List.range n).map fun i => bits (p.coeff i), by simp, ?_, ?_⟩
  · intro c hc
    obtain ⟨i, -, rfl⟩ := List.mem_map.mp hc
    exact hlen _
  · ext i
    rw [coeff_poly, List.getElem?_map]
    by_cases hi : i < n
    · simp [hi, hbits]
    · have hzero := coeff_eq_zero_of_degree_lt (hp.trans_le (Nat.cast_le.mpr (Nat.le_of_not_lt hi)))
      simp [hi, hzero]

end

/-- The first `n` pieces of length `w`. -/
def chunks (w : ℕ) : ℕ → List Bool → List (List Bool)
  | 0, _ => []
  | n + 1, bits => bits.take w :: chunks w n (bits.drop w)

section
variable {w : ℕ}

@[simp] theorem length_chunks (n : ℕ) (bits : List Bool) : (chunks w n bits).length = n := by
  induction n generalizing bits with
  | zero => rfl
  | succ n ih => simp [chunks, ih]

theorem length_of_mem_chunks {n : ℕ} {bits : List Bool} (h : n * w ≤ bits.length) :
    ∀ c ∈ chunks w n bits, c.length = w := by
  induction n generalizing bits with
  | zero => exact nofun
  | succ n ih =>
      rw [Nat.succ_mul] at h
      intro c hc
      cases List.mem_cons.mp hc with
      | inl heq => rw [heq, List.length_take]; omega
      | inr hmem => exact ih (by rw [List.length_drop]; omega) c hmem

theorem chunks_flatten {cs : List (List Bool)} (h : ∀ c ∈ cs, c.length = w) :
    chunks w cs.length cs.flatten = cs := by
  induction cs with
  | nil => rfl
  | cons c cs ih =>
      have hc : c.length = w := h c (List.mem_cons_self ..)
      rw [List.length_cons, chunks, List.flatten_cons, List.take_left' hc, List.drop_left' hc,
        ih fun d hd => h d (List.mem_cons_of_mem _ hd)]

theorem flatten_chunks {n : ℕ} {bits : List Bool} (h : bits.length = n * w) :
    (chunks w n bits).flatten = bits := by
  induction n generalizing bits with
  | zero =>
      rw [Nat.zero_mul] at h
      rw [List.length_eq_zero_iff.mp h]
      rfl
  | succ n ih =>
      rw [Nat.succ_mul] at h
      rw [chunks, List.flatten_cons, ih (by rw [List.length_drop]; omega), List.take_append_drop]

theorem chunks_zipWith {n : ℕ} {a b : List Bool} :
    chunks w n (List.zipWith xor a b) =
      List.zipWith (List.zipWith xor) (chunks w n a) (chunks w n b) := by
  induction n generalizing a b with
  | zero => rfl
  | succ n ih => simp [chunks, List.take_zipWith, List.drop_zipWith, ih]

theorem length_flatten {cs : List (List Bool)} (h : ∀ c ∈ cs, c.length = w) :
    cs.flatten.length = cs.length * w := by
  induction cs with
  | nil => simp
  | cons c cs ih =>
      rw [List.flatten_cons, List.length_append, h c (List.mem_cons_self ..),
        ih fun d hd => h d (List.mem_cons_of_mem _ hd), List.length_cons, Nat.succ_mul,
        Nat.add_comm]

end

/-- One bit. -/
def gf2 : BitField where
  K := ZMod 2
  width := 1
  decode bits := if bits.headD false then 1 else 0
  width_pos := Nat.one_pos
  add_self := by decide
  decode_xor a b ha hb := by
    match a, b, ha, hb with
    | [x], [y], _, _ => cases x <;> cases y <;> rfl
  decode_inj a b ha hb h := by
    match a, b, ha, hb with
    | [x], [y], _, _ => cases x <;> cases y <;> first | rfl | exact absurd h (by decide)
  decode_surj x := ⟨[decide (x = 1)], rfl, by revert x; decide⟩
  decode_one := rfl

section
variable (F : BitField) {P : F.K[X]}

noncomputable def extDecode (P : F.K[X]) (bits : List Bool) : AdjoinRoot P :=
  AdjoinRoot.mk P (F.poly (chunks F.width P.natDegree bits))

variable {F}

theorem mk_eq_mk_iff (hm : P.Monic) {p q : F.K[X]} (hp : p.degree < P.natDegree)
    (hq : q.degree < P.natDegree) : AdjoinRoot.mk P p = AdjoinRoot.mk P q ↔ p = q := by
  rw [AdjoinRoot.mk_eq_mk]
  constructor
  · intro h
    have hdeg : (p - q).degree < P.degree := by
      rw [degree_eq_natDegree hm.ne_zero]
      exact (degree_sub_le p q).trans_lt (max_lt hp hq)
    exact sub_eq_zero.mp (eq_zero_of_dvd_of_degree_lt h hdeg)
  · rintro rfl
    rw [sub_self]
    exact dvd_zero P

variable (F)

theorem poly_add_self (p : F.K[X]) : p + p = 0 := by
  ext i
  rw [coeff_add, F.add_self, coeff_zero]

/-- The string of the one of an extension of degree `n`, as coefficients. -/
theorem flatten_oneBits {n : ℕ} (hn : 0 < n) :
    (F.oneBits :: List.replicate (n - 1) F.zeroBits).flatten =
      true :: List.replicate (n * F.width - 1) false := by
  have hw := F.width_pos
  have hsplit : n * F.width - 1 = F.width - 1 + (n - 1) * F.width := by
    obtain ⟨m, rfl⟩ : ∃ m, n = m + 1 := ⟨n - 1, by omega⟩
    rw [Nat.succ_mul, Nat.add_sub_cancel]
    omega
  rw [List.flatten_cons, zeroBits, List.flatten_replicate_replicate, oneBits, List.cons_append,
    List.replicate_append_replicate, hsplit]

theorem chunks_oneBits {n : ℕ} (hn : 0 < n) :
    chunks F.width n (F.oneBits :: List.replicate (n - 1) F.zeroBits).flatten =
      F.oneBits :: List.replicate (n - 1) F.zeroBits := by
  have hlen : (F.oneBits :: List.replicate (n - 1) F.zeroBits).length = n := by
    simp only [List.length_cons, List.length_replicate]
    omega
  have hall : ∀ c ∈ F.oneBits :: List.replicate (n - 1) F.zeroBits, c.length = F.width := by
    intro c hc
    cases List.mem_cons.mp hc with
    | inl heq => rw [heq, length_oneBits]
    | inr hmem => rw [List.eq_of_mem_replicate hmem, length_zeroBits]
  have h := chunks_flatten hall
  rwa [hlen] at h

/-- The extension of `F` by a root of a monic irreducible polynomial. -/
noncomputable def ext (P : F.K[X]) (hm : P.Monic) (hi : Irreducible P) : BitField where
  K := AdjoinRoot P
  field := have := Fact.mk hi; inferInstance
  width := P.natDegree * F.width
  decode := F.extDecode P
  width_pos := Nat.mul_pos hi.natDegree_pos F.width_pos
  add_self x := by
    obtain ⟨p, rfl⟩ := AdjoinRoot.mk_surjective x
    rw [← map_add, F.poly_add_self, map_zero]
  decode_xor a b ha hb := by
    have hca := length_of_mem_chunks (w := F.width) (Nat.le_of_eq ha.symm)
    have hcb := length_of_mem_chunks (w := F.width) (Nat.le_of_eq hb.symm)
    rw [extDecode, chunks_zipWith, poly_zipWith (by simp) hca hcb, map_add]
    rfl
  decode_inj a b ha hb h := by
    have hca := length_of_mem_chunks (w := F.width) (Nat.le_of_eq ha.symm)
    have hcb := length_of_mem_chunks (w := F.width) (Nat.le_of_eq hb.symm)
    have hda := F.degree_poly_lt (chunks F.width P.natDegree a)
    have hdb := F.degree_poly_lt (chunks F.width P.natDegree b)
    rw [length_chunks] at hda hdb
    rw [extDecode, extDecode, mk_eq_mk_iff hm hda hdb] at h
    rw [← flatten_chunks ha, ← flatten_chunks hb, poly_inj (by simp) hca hcb h]
  decode_surj x := by
    obtain ⟨p, rfl⟩ := AdjoinRoot.mk_surjective x
    have hdeg : (p %ₘ P).degree < P.natDegree := by
      rw [← degree_eq_natDegree hm.ne_zero]
      exact degree_modByMonic_lt p hm
    obtain ⟨cs, hlen, hcs, hp⟩ := exists_poly_eq hdeg
    refine ⟨cs.flatten, by rw [length_flatten hcs, hlen], ?_⟩
    rw [extDecode, ← hlen, chunks_flatten hcs, hp, AdjoinRoot.mk_eq_mk,
      modByMonic_eq_sub_mul_div, sub_right_comm, sub_self, zero_sub, dvd_neg]
    exact dvd_mul_right P _
  decode_one := by
    rw [← F.flatten_oneBits hi.natDegree_pos, extDecode, chunks_oneBits F hi.natDegree_pos,
      poly_cons, decode_oneBits, poly_replicate_zeroBits, mul_zero, add_zero, C_1, map_one]

end

end BitField
