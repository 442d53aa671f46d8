import Mathlib.Tactic.Ring
import Mathlib.Tactic.Linarith
import Mathlib.Data.List.GetD
import Mathlib.Data.Nat.Bitwise

/-!
# Little-endian bit strings

The number a bit string denotes, how taking, dropping and padding change it, and the full
adder and full subtractor that ripple through one.
-/
namespace Bits

def value : List Bool → ℕ
  | [] => 0
  | b :: bs => b.toNat + 2 * value bs

@[simp] theorem value_nil : value [] = 0 := rfl

@[simp] theorem value_cons (b : Bool) (bs : List Bool) :
    value (b :: bs) = b.toNat + 2 * value bs := rfl

theorem value_lt (bs : List Bool) : value bs < 2 ^ bs.length := by
  induction bs with
  | nil => simp
  | cons b bs ih =>
      have hb := b.toNat_lt
      rw [value_cons, List.length_cons, pow_succ]
      omega

theorem eq_of_value_eq {as bs : List Bool} (hlength : as.length = bs.length)
    (hvalue : value as = value bs) : as = bs := by
  induction as generalizing bs with
  | nil => exact (List.length_eq_zero_iff.mp hlength.symm).symm
  | cons a as ih =>
      cases bs with
      | nil => cases hlength
      | cons b bs =>
          rw [value_cons, value_cons] at hvalue
          have hbits : a = b ∧ value as = value bs := by
            cases a <;> cases b <;> simp at hvalue ⊢ <;> omega
          rw [hbits.1, ih (Nat.succ.inj hlength) hbits.2]

theorem value_append (bs cs : List Bool) :
    value (bs ++ cs) = value bs + 2 ^ bs.length * value cs := by
  induction bs with
  | nil => simp
  | cons b bs ih =>
      rw [List.cons_append, value_cons, value_cons, ih, List.length_cons, pow_succ]
      ring

@[simp] theorem value_replicate_false (n : ℕ) : value (List.replicate n false) = 0 := by
  induction n with
  | zero => rfl
  | succ n ih => rw [List.replicate_succ, value_cons, ih]; rfl

theorem value_take (n : ℕ) (bs : List Bool) : value (bs.take n) = value bs % 2 ^ n := by
  induction n generalizing bs with
  | zero => simp [Nat.mod_one]
  | succ n ih =>
      cases bs with
      | nil => simp
      | cons b bs =>
          have hb := b.toNat_lt
          have hsplit := Nat.mod_add_div (value bs) (2 ^ n)
          have hlt := Nat.mod_lt (value bs) (Nat.two_pow_pos n)
          rw [List.take_succ_cons, value_cons, ih, value_cons, pow_succ]
          generalize value bs % 2 ^ n = low at hsplit hlt ⊢
          have heq : b.toNat + 2 * value bs =
              b.toNat + 2 * low + 2 ^ n * 2 * (value bs / 2 ^ n) := by
            conv_lhs => rw [← hsplit]
            ring
          rw [heq, Nat.add_mul_mod_self_left, Nat.mod_eq_of_lt (by omega)]

/-- A bit string read from position `i` on, bits past its end being zero. -/
theorem value_drop (bs : List Bool) (i : ℕ) :
    value (bs.drop i) = (bs.getD i false).toNat + 2 * value (bs.drop (i + 1)) := by
  by_cases h : i < bs.length
  · rw [List.drop_eq_getElem_cons h, value_cons, List.getD_eq_getElem _ _ h]
  · rw [List.drop_eq_nil_of_le (Nat.le_of_not_lt h), List.getD_eq_default _ _ (Nat.le_of_not_lt h),
      List.drop_eq_nil_of_le (by omega)]
    rfl

theorem value_drop_eq (bs : List Bool) (k : ℕ) : value (bs.drop k) = value bs / 2 ^ k := by
  induction k with
  | zero => simp
  | succ k ih =>
      have hb := (bs.getD k false).toNat_lt
      rw [pow_succ, ← Nat.div_div_eq_div_mul, ← ih, value_drop bs k]
      omega

theorem testBit_value (bs : List Bool) (i : ℕ) : (value bs).testBit i = bs.getD i false := by
  induction bs generalizing i with
  | nil => simp
  | cons b bs ih =>
      cases i with
      | zero => cases b <;> simp [Nat.testBit_zero, Nat.add_mod]
      | succ i =>
          rw [value_cons, Nat.testBit_add_one, List.getD_cons_succ, ← ih]
          congr 1
          have hb := b.toNat_lt
          omega

/-- The bits of a number below `2 ^ k`. -/
theorem value_map_testBit {n k : ℕ} (h : n < 2 ^ k) :
    value ((List.range k).map n.testBit) = n := by
  apply Nat.eq_of_testBit_eq
  intro i
  rw [testBit_value, List.getD_eq_getElem?_getD, List.getElem?_map]
  by_cases hi : i < k
  · simp [hi]
  · simp [hi, Nat.testBit_lt_two_pow (h.trans_le (Nat.pow_le_pow_right (by decide)
      (Nat.le_of_not_lt hi)))]

/-- The first `k` bits, zeros past the end. -/
theorem value_map_getD (bs : List Bool) (k : ℕ) :
    value ((List.range k).map fun i => bs.getD i false) = value bs % 2 ^ k := by
  rw [← value_map_testBit (Nat.mod_lt (value bs) (Nat.two_pow_pos k))]
  congr 1
  apply List.map_congr_left
  intro i hi
  rw [Nat.testBit_mod_two_pow, testBit_value]
  simp [List.mem_range.mp hi]

theorem fullAdder (a b carry : Bool) :
    ((a ^^ b) ^^ carry).toNat + 2 * ((a && b) || (carry && (a ^^ b))).toNat =
      a.toNat + b.toNat + carry.toNat := by
  cases a <;> cases b <;> cases carry <;> rfl

theorem fullSubtractor (a b borrow : Bool) :
    ((a ^^ b) ^^ borrow).toNat + b.toNat + borrow.toNat =
      a.toNat + 2 * ((!a && b) || (borrow && !(a ^^ b))).toNat := by
  cases a <;> cases b <;> cases borrow <;> rfl

theorem value_map_not (bs : List Bool) : value (bs.map not) + value bs + 1 = 2 ^ bs.length := by
  induction bs with
  | nil => rfl
  | cons b bs ih =>
      rw [List.map_cons, value_cons, value_cons, List.length_cons, pow_succ, ← ih]
      cases b <;> simp <;> ring

end Bits

/-!
## Bit strings as words

A little-endian bit string and the word of its width.
-/
namespace Bits

def word (n : ℕ) (bs : List Bool) : BitVec n := BitVec.ofNat n (value bs)

def ofWord {n : ℕ} (v : BitVec n) : List Bool := (List.range n).map v.getLsbD

@[simp] theorem length_ofWord {n : ℕ} (v : BitVec n) : (ofWord v).length = n := by simp [ofWord]

theorem toNat_word {n : ℕ} {bs : List Bool} (h : bs.length = n) :
    (word n bs).toNat = value bs := by
  rw [word, BitVec.toNat_ofNat, Nat.mod_eq_of_lt (h ▸ value_lt bs)]

@[simp] theorem value_ofWord {n : ℕ} (v : BitVec n) : value (ofWord v) = v.toNat :=
  value_map_testBit v.isLt

theorem eq_ofWord {n : ℕ} {bs : List Bool} {v : BitVec n} (hlen : bs.length = n)
    (hval : value bs = v.toNat) : bs = ofWord v := by
  apply eq_of_value_eq
  · rw [hlen, length_ofWord]
  · rw [hval, value_ofWord]

theorem ofWord_word {n : ℕ} {bs : List Bool} (h : bs.length = n) : ofWord (word n bs) = bs :=
  (eq_ofWord h (toNat_word h).symm).symm

theorem word_ofWord {n : ℕ} (v : BitVec n) : word n (ofWord v) = v := by
  apply BitVec.eq_of_toNat_eq
  rw [toNat_word (length_ofWord v), value_ofWord]

theorem getLsbD_word {n : ℕ} {bs : List Bool} (h : bs.length = n) (i : ℕ) :
    (word n bs).getLsbD i = bs.getD i false := by
  rw [← BitVec.testBit_toNat, toNat_word h, testBit_value]

theorem eq_ofWord_of_getD {n : ℕ} {bs : List Bool} {v : BitVec n} (hlen : bs.length = n)
    (h : ∀ i < n, bs.getD i false = v.getLsbD i) : bs = ofWord v := by
  apply List.ext_getElem
  · rw [hlen, length_ofWord]
  · intro i hi hi'
    have hbit := h i (hlen ▸ hi)
    rw [List.getD_eq_getElem _ _ hi] at hbit
    simpa [ofWord] using hbit

theorem msb_word {n : ℕ} {bs : List Bool} (h : bs.length = n) :
    (word n bs).msb = bs.getLastD false := by
  rw [BitVec.msb_eq_getLsbD_last, getLsbD_word h, List.getLastD_eq_getLast?,
    List.getLast?_eq_getElem?, List.getD_eq_getElem?_getD, h]

end Bits
