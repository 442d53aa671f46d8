import VolarIR.Field.SolinasWires
import VolarIR.Field.PrimeFieldSound
import VolarIR.Library.Bits

/-!
# The Solinas circuits compute modulo the prime

Over `Bit` the digit strings are read as numbers. A fold of the high half subtracts a
multiple of the prime, and `k` of them leave less than twice the prime.
-/
namespace VolarIR

section
variable (a b c : Bool) (bs : List Bool) (i : ℕ)

@[simp] theorem embedXor_boolRing : embedXor boolRing a b = (a ^^ b) := rfl

@[simp] theorem embedAnd_boolRing : embedAnd boolRing a b = (a && b) := rfl

@[simp] theorem orGate_boolRing : orGate boolRing a b = (a || b) := by
  cases a <;> cases b <;> rfl

@[simp] theorem notGate_boolRing : notGate boolRing a = !a := by
  cases a <;> rfl

@[simp] theorem mux_boolRing : mux boolRing a b c = if a then b else c := by
  cases a <;> cases b <;> cases c <;> rfl

@[simp] theorem digit_boolRing : digit boolRing bs i = bs.getD i false := rfl

end

section
variable {as bs : List Bool} {spec : PrimeSpec}

theorem resize_of_length (k : ℕ) (h : as.length = k) : resize boolRing as k = as := by
  subst h
  simp [resize]

theorem length_resize (k : ℕ) : (resize boolRing as k).length = k := by
  rw [resize, List.length_append, List.length_take, List.length_replicate]
  omega

theorem value_resize (k : ℕ) : Bits.value (resize boolRing as k) = Bits.value as % 2 ^ k := by
  have hzero : Bits.value (List.replicate (k - as.length) boolRing.zero) = 0 :=
    Bits.value_replicate_false _
  rw [resize, Bits.value_append, Bits.value_take, hzero, Nat.mul_zero, Nat.add_zero]

theorem length_nDigits (spec : PrimeSpec) : (nDigits boolRing spec).length = spec.k := by
  simp [nDigits]

theorem value_nDigits (h : spec.offset < 2 ^ spec.k) :
    Bits.value (nDigits boolRing spec) = spec.offset := by
  rw [← Bits.value_map_testBit h]
  congr 1
  apply List.map_congr_left
  intro i _
  rw [PrimeSpec.offset, Limbs.testBit_value (by decide), Limbs.bit]
  cases (spec.n.getD (i / 64) 0).getLsbD (i % 64) <;> rfl

theorem length_addDigitsFrom (left index : ℕ) (carry : Bool) :
    (addDigitsFrom boolRing as bs left index carry).length = left + 1 := by
  induction left generalizing index carry with
  | zero => rfl
  | succ left ih => simp [addDigitsFrom, ih]

theorem value_addDigitsFrom (left index : ℕ) (carry : Bool) (ha : as.length ≤ index + left)
    (hb : bs.length ≤ index + left) :
    Bits.value (addDigitsFrom boolRing as bs left index carry) =
      Bits.value (as.drop index) + Bits.value (bs.drop index) + carry.toNat := by
  induction left generalizing index carry with
  | zero =>
      rw [Nat.add_zero] at ha hb
      rw [List.drop_eq_nil_of_le ha, List.drop_eq_nil_of_le hb]
      simp [addDigitsFrom]
  | succ left ih =>
      have hrest := ih (index + 1) ((as.getD index false && bs.getD index false) ||
        (carry && (as.getD index false ^^ bs.getD index false))) (by omega) (by omega)
      have hbit := Bits.fullAdder (as.getD index false) (bs.getD index false) carry
      rw [Bits.value_drop as index, Bits.value_drop bs index]
      simp only [addDigitsFrom, digit_boolRing, embedXor_boolRing, embedAnd_boolRing,
        orGate_boolRing, Bits.value_cons, hrest]
      omega

theorem length_addDigits : (addDigits boolRing as bs).length = max as.length bs.length + 1 :=
  length_addDigitsFrom ..

theorem value_addDigits :
    Bits.value (addDigits boolRing as bs) = Bits.value as + Bits.value bs := by
  have ha : as.length ≤ 0 + max as.length bs.length := by omega
  have hb : bs.length ≤ 0 + max as.length bs.length := by omega
  have h := value_addDigitsFrom (max as.length bs.length) 0 false ha hb
  rwa [List.drop_zero, List.drop_zero, Bool.toNat_false, Nat.add_zero] at h

theorem value_map_and (b : Bool) :
    Bits.value (as.map fun a => embedAnd boolRing a b) = Bits.value as * b.toNat := by
  induction as with
  | nil => simp
  | cons a as ih =>
      rw [List.map_cons, Bits.value_cons, ih, Bits.value_cons]
      cases a <;> cases b <;> simp

theorem schoolbookFrom_spec (len i : ℕ) {acc : List Bool} (hacc : acc.length = len)
    (hlen : i + bs.length + as.length ≤ len) :
    (schoolbookFrom boolRing as len i bs acc).length = len ∧
      Bits.value (schoolbookFrom boolRing as len i bs acc) =
        (Bits.value acc + 2 ^ i * (Bits.value as * Bits.value bs)) % 2 ^ len := by
  induction bs generalizing i acc with
  | nil =>
      have hlt := Bits.value_lt acc
      rw [hacc] at hlt
      simp [schoolbookFrom, hacc, Nat.mod_eq_of_lt hlt]
  | cons b bs ih =>
      rw [List.length_cons] at hlen
      have hrow : Bits.value (List.replicate i boolRing.zero ++
          as.map fun src => embedAnd boolRing src b) = 2 ^ i * (Bits.value as * b.toNat) := by
        rw [Bits.value_append, value_map_and]
        simp [boolRing]
      have hnext : ((addDigits boolRing acc (List.replicate i boolRing.zero ++
          as.map fun src => embedAnd boolRing src b)).take len).length = len := by
        rw [List.length_take, length_addDigits]
        simp
        omega
      have hrest := ih (i + 1) hnext (by omega)
      rw [schoolbookFrom]
      refine ⟨hrest.1, ?_⟩
      rw [hrest.2, Bits.value_take, value_addDigits, hrow, Nat.mod_add_mod, Bits.value_cons]
      congr 1
      ring

theorem length_schoolbookMul :
    (schoolbookMul boolRing as bs).length = as.length + bs.length :=
  (schoolbookFrom_spec _ 0 (by simp) (by omega)).1

theorem value_schoolbookMul :
    Bits.value (schoolbookMul boolRing as bs) = Bits.value as * Bits.value bs := by
  have hacc : (List.replicate (as.length + bs.length) boolRing.zero).length =
      as.length + bs.length := List.length_replicate
  have hlen : 0 + bs.length + as.length ≤ as.length + bs.length := by omega
  have h := (schoolbookFrom_spec (as.length + bs.length) 0 hacc hlen).2
  have hlt : Bits.value as * Bits.value bs < 2 ^ (as.length + bs.length) := by
    rw [pow_add]
    exact Nat.mul_lt_mul'' (Bits.value_lt as) (Bits.value_lt bs)
  have hzero : Bits.value (List.replicate (as.length + bs.length) boolRing.zero) = 0 :=
    Bits.value_replicate_false _
  rwa [hzero, pow_zero, Nat.one_mul, Nat.zero_add, Nat.mod_eq_of_lt hlt] at h

theorem length_decrementFrom (borrow : Bool) :
    (decrementFrom boolRing as borrow).length = as.length := by
  induction as generalizing borrow with
  | nil => rfl
  | cons a as ih => simp [decrementFrom, ih]

theorem value_decrementFrom {borrow : Bool} (h : borrow.toNat ≤ Bits.value as) :
    Bits.value (decrementFrom boolRing as borrow) + borrow.toNat = Bits.value as := by
  induction as generalizing borrow with
  | nil => simpa [decrementFrom] using h
  | cons a as ih =>
      rw [Bits.value_cons] at h
      have hnext : (!a && borrow).toNat ≤ Bits.value as := by
        cases a <;> cases borrow <;> (simp at h ⊢; try omega)
      have hrest := ih hnext
      simp only [decrementFrom, embedXor_boolRing, embedAnd_boolRing, notGate_boolRing,
        Bits.value_cons]
      cases a <;> cases borrow <;> (simp at hrest ⊢; omega)

theorem length_modulusDigits (spec : PrimeSpec) :
    (modulusDigits boolRing spec).length = spec.k := by
  rw [modulusDigits, List.length_map, length_decrementFrom, length_nDigits]

theorem value_modulusDigits (hpos : 0 < spec.offset) (hlt : spec.offset < 2 ^ spec.k) :
    Bits.value (modulusDigits boolRing spec) = spec.modulus := by
  have hborrow : true.toNat ≤ Bits.value (nDigits boolRing spec) := by
    rw [value_nDigits hlt]
    exact hpos
  have hdec := value_decrementFrom hborrow
  have hnot := Bits.value_map_not (decrementFrom boolRing (nDigits boolRing spec) true)
  rw [length_decrementFrom, length_nDigits] at hnot
  rw [value_nDigits hlt] at hdec
  have hmap : modulusDigits boolRing spec =
      (decrementFrom boolRing (nDigits boolRing spec) true).map not :=
    List.map_congr_left fun b _ => notGate_boolRing b
  rw [hmap, PrimeSpec.modulus]
  have hone : true.toNat = 1 := rfl
  omega

theorem length_subDigitsFrom (left index : ℕ) (borrow : Bool) :
    (subDigitsFrom boolRing as bs left index borrow).1.length = left := by
  induction left generalizing index borrow with
  | zero => rfl
  | succ left ih => simp [subDigitsFrom, ih]

/-- The digits written and the final borrow hold the difference of what was read. -/
theorem value_subDigitsFrom (as bs : List Bool) (left index : ℕ) (borrow : Bool) :
    Bits.value (subDigitsFrom boolRing as bs left index borrow).1 +
        Bits.value (bs.drop index) + borrow.toNat +
        2 ^ left * Bits.value (as.drop (index + left)) =
      Bits.value (as.drop index) +
        2 ^ left * ((subDigitsFrom boolRing as bs left index borrow).2.toNat +
          Bits.value (bs.drop (index + left))) := by
  induction left generalizing index borrow with
  | zero =>
      simp only [subDigitsFrom, Bits.value_nil, pow_zero, Nat.one_mul, Nat.add_zero]
      omega
  | succ left ih =>
      have hrest := ih (index + 1) ((!as.getD index false && bs.getD index false) ||
        (borrow && !(as.getD index false ^^ bs.getD index false)))
      have hbit := Bits.fullSubtractor (as.getD index false) (bs.getD index false) borrow
      rw [Bits.value_drop as index, Bits.value_drop bs index, ← Nat.succ_add_eq_add_succ index left]
      simp only [subDigitsFrom, digit_boolRing, embedXor_boolRing, embedAnd_boolRing,
        orGate_boolRing, notGate_boolRing, Bits.value_cons, pow_succ, Nat.succ_eq_add_one]
      generalize (subDigitsFrom boolRing as bs left (index + 1) _) = rest at hrest ⊢
      linarith

theorem fold_bound {p k V W Q : ℕ} (hp : 2 ^ k < 2 * p) (hV : V < (2 * Q + 1) * p)
    (hW : W + V / 2 ^ k * p = V) : W < (Q + 1) * p := by
  have hlt : V < (V / 2 ^ k + 1) * 2 ^ k := by
    rw [Nat.mul_comm]
    exact Nat.lt_mul_div_succ V (Nat.two_pow_pos k)
  generalize V / 2 ^ k = h at hW hlt
  by_contra hge
  have hV' : (Q + 1 + h) * p ≤ V := by
    rw [Nat.add_mul (Q + 1)]
    omega
  have hfew : Q + 1 + h < 2 * Q + 1 := Nat.lt_of_mul_lt_mul_right (hV'.trans_lt hV)
  have hmany : Q + 1 + h < (h + 1) * 2 := by
    have hstep : (h + 1) * 2 ^ k ≤ (h + 1) * (2 * p) := Nat.mul_le_mul_left _ (Nat.le_of_lt hp)
    rw [← Nat.mul_assoc] at hstep
    exact Nat.lt_of_mul_lt_mul_right (hV'.trans_lt (hlt.trans_le hstep))
  omega

section
variable (hc : Canonical spec.k spec.offset)
include hc

theorem offset_lt : spec.offset < 2 ^ spec.k :=
  hc.lt.trans_le (Nat.pow_le_pow_right (by decide) (Nat.sub_le _ 1))

theorem two_mul_offset_lt : 2 * spec.offset < 2 ^ spec.k := by
  have hk := hc.two_le
  have hsplit : (2 : ℕ) ^ spec.k = 2 * 2 ^ (spec.k - 1) := by
    rw [← pow_succ', Nat.sub_add_cancel (by omega)]
  have hlt := hc.lt
  omega

omit hc in
theorem length_subPIfGe : (subPIfGe boolRing as spec).length = spec.k := by
  simp [subPIfGe]

theorem value_subPIfGe (h : Bits.value as < 2 * spec.modulus) :
    Bits.value (subPIfGe boolRing as spec) = Bits.value as % spec.modulus := by
  have htwo := two_mul_offset_lt hc
  have hp : spec.modulus = 2 ^ spec.k - spec.offset := rfl
  have hpos := hc.pos
  have hmod := value_modulusDigits hpos (offset_lt hc)
  have hlen := length_modulusDigits spec
  have hsub := value_subDigitsFrom as (modulusDigits boolRing spec) spec.k 0 false
  have hdrop : (modulusDigits boolRing spec).drop spec.k = [] :=
    List.drop_eq_nil_of_le (Nat.le_of_eq hlen)
  -- the value has at most `k + 1` digits
  have hbit := (as.getD spec.k false).toNat_lt
  have hsplit := Nat.mod_add_div (Bits.value as) (2 ^ spec.k)
  have hhigh : Bits.value as / 2 ^ spec.k = (as.getD spec.k false).toNat := by
    have hread := Bits.value_drop as spec.k
    rw [Bits.value_drop_eq] at hread
    have hlt : Bits.value as / 2 ^ spec.k < 2 := by
      rw [Nat.div_lt_iff_lt_mul (Nat.two_pow_pos _)]
      omega
    omega
  have hdiff := Bits.value_lt (subDigitsFrom boolRing as (modulusDigits boolRing spec) spec.k 0
    false).1
  rw [length_subDigitsFrom] at hdiff
  simp only [Nat.zero_add, List.drop_zero, hdrop, hmod, Bits.value_drop_eq as, hhigh,
    Bits.value_nil, Nat.add_zero, Bool.toNat_false] at hsub
  rw [hhigh] at hsplit
  have hlow := Nat.mod_lt (Bits.value as) (Nat.two_pow_pos spec.k)
  unfold subPIfGe
  have hstart : boolRing.zero = false := rfl
  simp only [hstart, digit_boolRing, mux_boolRing, orGate_boolRing, notGate_boolRing]
  generalize subDigitsFrom boolRing as (modulusDigits boolRing spec) spec.k 0 false = out
    at hsub hdiff ⊢
  generalize as.getD spec.k false = extra at hsub hsplit ⊢
  generalize out.2 = borrow at hsub ⊢
  have hresult : Bits.value as = Bits.value as % 2 ^ spec.k + 2 ^ spec.k * extra.toNat :=
    hsplit.symm
  cases extra with
  | true =>
      -- the value is at least `2^k`, so the subtraction borrows from the extra digit
      have hge : spec.modulus ≤ Bits.value as := by
        rw [Bool.toNat_true, Nat.mul_one] at hresult
        omega
      simp only [Bool.true_or, if_true]
      rw [Bits.value_map_getD, Nat.mod_eq_of_lt hdiff, Nat.mod_eq_sub_mod hge,
        Nat.mod_eq_of_lt (by omega)]
      cases borrow with
      | true => simp only [Bool.toNat_true, Nat.mul_one] at hsub; omega
      | false =>
          simp only [Bool.toNat_true, Bool.toNat_false, Nat.mul_one, Nat.mul_zero,
            Nat.add_zero] at hsub hresult
          omega
  | false =>
      simp only [Bool.toNat_false, Nat.mul_zero, Nat.add_zero] at hresult hsub
      cases borrow with
      | true =>
          simp only [Bool.toNat_true, Nat.mul_one] at hsub
          simp only [Bool.not_true, Bool.or_self, Bool.false_eq_true, if_false]
          rw [Bits.value_map_getD, ← hresult, Nat.mod_eq_of_lt (by omega)]
      | false =>
          simp only [Bool.toNat_false, Nat.mul_zero, Nat.add_zero] at hsub
          simp only [Bool.not_false, Bool.or_true, if_true]
          rw [Bits.value_map_getD, Nat.mod_eq_of_lt hdiff, Nat.mod_eq_sub_mod (by omega),
            Nat.mod_eq_of_lt (by omega)]
          omega

theorem value_reduceSum (h : Bits.value as < 2 * spec.modulus) :
    Bits.value (reduceSum boolRing as spec) = Bits.value as % spec.modulus := by
  have htwo := two_mul_offset_lt hc
  have hp : spec.modulus = 2 ^ spec.k - spec.offset := rfl
  have hsplit := Nat.mod_add_div (Bits.value as) (2 ^ spec.k)
  have hlow := Nat.mod_lt (Bits.value as) (Nat.two_pow_pos spec.k)
  have hlt : Bits.value as / 2 ^ spec.k < 2 := by
    rw [Nat.div_lt_iff_lt_mul (Nat.two_pow_pos _)]
    omega
  have hhi : (as.getD spec.k false).toNat = Bits.value as / 2 ^ spec.k := by
    have hread := Bits.value_drop as spec.k
    have hbit := (as.getD spec.k false).toNat_lt
    rw [Bits.value_drop_eq] at hread
    omega
  have hfold : Bits.value (addDigits boolRing ((List.range spec.k).map fun i => digit boolRing as i)
      ((nDigits boolRing spec).map fun bit => embedAnd boolRing bit (digit boolRing as spec.k))) +
        Bits.value as / 2 ^ spec.k * spec.modulus = Bits.value as := by
    rw [value_addDigits, value_map_and, value_nDigits (offset_lt hc), digit_boolRing, hhi]
    have hlo : Bits.value ((List.range spec.k).map fun i => digit boolRing as i) =
        Bits.value as % 2 ^ spec.k := Bits.value_map_getD as spec.k
    rw [hlo]
    generalize Bits.value as / 2 ^ spec.k = hi at hsplit hlt ⊢
    interval_cases hi <;> omega
  rw [reduceSum, value_subPIfGe hc (by omega)]
  conv_rhs => rw [← hfold, Nat.add_mul_mod_self_right]

theorem foldProduct_spec (hlen : as.length = spec.k * 2) :
    (foldProduct boolRing spec as).length = spec.k * 2 ∧
      Bits.value (foldProduct boolRing spec as) +
        Bits.value as / 2 ^ spec.k * spec.modulus = Bits.value as := by
  have hsplit := Nat.mod_add_div (Bits.value as) (2 ^ spec.k)
  have hlt := Bits.value_lt as
  have hpow : (2 : ℕ) ^ (spec.k * 2) = 2 ^ spec.k * 2 ^ spec.k := by rw [Nat.mul_two, pow_add]
  have hoffset := offset_lt hc
  have hhi : Bits.value ((as.drop spec.k).take spec.k) = Bits.value as / 2 ^ spec.k := by
    rw [Bits.value_take, Bits.value_drop_eq, Nat.mod_eq_of_lt]
    rw [Nat.div_lt_iff_lt_mul (Nat.two_pow_pos _), ← hpow, ← hlen]
    exact hlt
  have hhilen : ((as.drop spec.k).take spec.k).length = spec.k := by
    rw [List.length_take, List.length_drop, hlen]
    omega
  have hmullen : (schoolbookMul boolRing ((as.drop spec.k).take spec.k)
      (nDigits boolRing spec)).length = spec.k * 2 := by
    rw [length_schoolbookMul, hhilen, length_nDigits]
    omega
  have hlo : Bits.value (resize boolRing (as.take spec.k) (spec.k * 2)) =
      Bits.value as % 2 ^ spec.k := by
    rw [value_resize, Bits.value_take, Nat.mod_eq_of_lt]
    exact (Nat.mod_lt _ (Nat.two_pow_pos _)).trans_le
      (Nat.pow_le_pow_right (by decide) (by omega))
  have hsum : Bits.value as % 2 ^ spec.k + Bits.value as / 2 ^ spec.k * spec.offset +
      Bits.value as / 2 ^ spec.k * spec.modulus = Bits.value as := by
    rw [PrimeSpec.modulus, Nat.add_assoc, ← Nat.mul_add, Nat.add_sub_cancel' (Nat.le_of_lt hoffset),
      Nat.mul_comm]
    exact hsplit
  constructor
  · rw [foldProduct, List.length_take, length_addDigits, length_resize, length_resize]
    omega
  · rw [foldProduct, Bits.value_take, value_addDigits, hlo, resize_of_length _ hmullen,
      value_schoolbookMul, hhi, value_nDigits hoffset, Nat.mod_eq_of_lt, hsum]
    rw [← hlen]
    omega

/-- After `m` of the `k` folds the value is at most `2 ^ (k - m)` multiples up. -/
theorem iterate_foldProduct (hlen : as.length = spec.k * 2)
    (h : Bits.value as < 2 ^ spec.k * spec.modulus) {m : ℕ} (hm : m ≤ spec.k) :
    ((foldProduct boolRing spec)^[m] as).length = spec.k * 2 ∧
      Bits.value ((foldProduct boolRing spec)^[m] as) % spec.modulus =
        Bits.value as % spec.modulus ∧
      Bits.value ((foldProduct boolRing spec)^[m] as) <
        (2 ^ (spec.k - m) + 1) * spec.modulus := by
  induction m with
  | zero =>
      refine ⟨hlen, rfl, h.trans_le ?_⟩
      exact Nat.mul_le_mul_right _ (Nat.le_succ _)
  | succ m ih =>
      obtain ⟨hlen', hmod, hlt⟩ := ih (by omega)
      have hfold := foldProduct_spec hc hlen'
      have hp : 2 ^ spec.k < 2 * spec.modulus := by
        have htwo := two_mul_offset_lt hc
        rw [PrimeSpec.modulus]
        omega
      have hpow : (2 : ℕ) ^ (spec.k - m) = 2 * 2 ^ (spec.k - (m + 1)) := by
        rw [← pow_succ']
        congr 1
        omega
      rw [hpow] at hlt
      rw [Function.iterate_succ_apply']
      refine ⟨hfold.1, ?_, fold_bound hp hlt hfold.2⟩
      rw [← hmod]
      conv_rhs => rw [← hfold.2, Nat.add_mul_mod_self_right]

theorem value_reduceProduct (hlen : as.length = spec.k * 2)
    (h : Bits.value as < 2 ^ spec.k * spec.modulus) :
    Bits.value (reduceProduct boolRing as spec) = Bits.value as % spec.modulus := by
  obtain ⟨-, hmod, hlt⟩ := iterate_foldProduct hc hlen h (Nat.le_refl _)
  rw [Nat.sub_self, pow_zero] at hlt
  rw [reduceProduct, resize_of_length _ hlen, value_subPIfGe hc hlt, hmod]

theorem value_solinasAdd_of_lt (h : Bits.value as + Bits.value bs < 2 * spec.modulus) :
    Bits.value (solinasAdd boolRing as bs spec) =
      (Bits.value as + Bits.value bs) % spec.modulus := by
  rw [solinasAdd, value_reduceSum hc, value_addDigits]
  rw [value_addDigits]
  exact h

variable (hp : Bits.value as < spec.modulus)
include hp

theorem value_solinasAdd (hq : Bits.value bs < spec.modulus) :
    Bits.value (solinasAdd boolRing as bs spec) =
      (Bits.value as + Bits.value bs) % spec.modulus := by
  apply value_solinasAdd_of_lt hc
  omega

theorem value_solinasMul (ha : as.length = spec.k) (hb : bs.length = spec.k) :
    Bits.value (solinasMul boolRing as bs spec) =
      Bits.value as * Bits.value bs % spec.modulus := by
  have hlt : Bits.value as * Bits.value bs < 2 ^ spec.k * spec.modulus := by
    rw [Nat.mul_comm (2 ^ spec.k)]
    exact Nat.mul_lt_mul'' hp (hb ▸ Bits.value_lt bs)
  have hlen : (schoolbookMul boolRing as bs).length = spec.k * 2 := by
    rw [length_schoolbookMul]
    omega
  rw [solinasMul, resize_of_length _ ha, resize_of_length _ hb,
    value_reduceProduct hc hlen (by rwa [value_schoolbookMul]), value_schoolbookMul]

omit hc hp in
theorem length_solinasAdd : (solinasAdd boolRing as bs spec).length = spec.k :=
  length_subPIfGe

omit hc hp in
theorem length_solinasMul : (solinasMul boolRing as bs spec).length = spec.k :=
  length_subPIfGe

theorem value_iterate_solinasAdd (hq : Bits.value bs < spec.modulus) (times : ℕ) :
    Bits.value ((fun out => solinasAdd boolRing out bs spec)^[times] as) =
      (Bits.value as + times * Bits.value bs) % spec.modulus := by
  have hpos : 0 < spec.modulus := Nat.zero_lt_of_lt hp
  induction times with
  | zero => simp [Nat.mod_eq_of_lt hp]
  | succ times ih =>
      have hlt : Bits.value ((fun out => solinasAdd boolRing out bs spec)^[times] as) <
          spec.modulus := ih ▸ Nat.mod_lt _ hpos
      rw [Function.iterate_succ_apply', value_solinasAdd hc hlt hq, ih, Nat.mod_add_mod]
      congr 1
      ring

omit hp in
theorem head_offset (hk : ¬ spec.k > 8) :
    ((spec.n.head?.getD 0).setWidth 16).toNat = spec.offset := by
  have hlt : spec.offset < 2 ^ 8 :=
    (offset_lt hc).trans_le (Nat.pow_le_pow_right (by decide) (Nat.le_of_not_lt hk))
  unfold PrimeSpec.offset at hlt ⊢
  generalize spec.n = n at hlt ⊢
  cases n with
  | nil => rfl
  | cons limb rest =>
      rw [Limbs.value_cons] at hlt ⊢
      rw [List.head?_cons, Option.getD_some, BitVec.toNat_setWidth]
      omega

omit hp in
theorem repetitionResidue_modEq (times : U8) :
    repetitionResidue times spec ≡ times.toNat [MOD spec.modulus] := by
  unfold repetitionResidue
  by_cases hk : spec.k > 8
  · rw [if_pos hk]
  · simp only [if_neg hk, head_offset hc hk]
    exact Nat.mod_modEq _ _

end

end

section
variable {W F : Type} [Field F]

/-- `k` wires holding bits, the digits of a number below the modulus. -/
structure Residue (den : W → F) (spec : PrimeSpec) (ws : List W) (x : ℕ) : Prop where
  digits : ∃ bits, List.Forall₂ (Holds den) ws bits ∧ bits.length = spec.k ∧ Bits.value bits = x
  lt : x < spec.modulus

end

def mod3 : FieldSink (ZMod 3) := ⟨0, 1, (· + ·), (· - ·), (· * ·), false⟩

end VolarIR
