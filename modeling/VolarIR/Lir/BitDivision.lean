import VolarIR.Lir.BitArithmetic

/-!
# Division on bits

The restoring division: before the step at bit `k` the remainder register holds what is left
of the dividend's bits above `k`, and it always fits.
-/
namespace VolarIR.Lir
open Bits

section
variable {n : ℕ} {a x : List Bool}

theorem subBorrow_spec (c : Bool) (h : a.length = x.length) :
    (onBits (bcSubBorrow c a x)).1.length = a.length ∧
      value (onBits (bcSubBorrow c a x)).1 + value x + c.toNat =
        value a + 2 ^ a.length * (onBits (bcSubBorrow c a x)).2.toNat := by
  induction a generalizing c x with
  | nil =>
      obtain rfl : x = [] := List.length_eq_zero_iff.mp h.symm
      simp [bcSubBorrow]
  | cons b bs ih =>
      cases x with
      | nil => cases h
      | cons y ys =>
          have hrest := ih ((!b && y) ^^ ((!b && c) ^^ (y && c))) (Nat.succ.inj h)
          simp only [bcSubBorrow, onBits_bind, onBits_not, onBits_xor, onBits_carry3, onBits_pure,
            List.length_cons, value_cons]
          refine ⟨congrArg Nat.succ hrest.1, ?_⟩
          have hbit : ((b ^^ y) ^^ c).toNat + y.toNat + c.toNat =
              b.toNat + 2 * ((!b && y) ^^ ((!b && c) ^^ (y && c))).toNat := by
            cases b <;> cases y <;> cases c <;> rfl
          rw [pow_succ, Nat.mul_comm (2 ^ bs.length) 2, Nat.mul_assoc]
          omega

theorem subBorrow_cases (h : a.length = x.length) :
    ((onBits (bcSubBorrow false a x)).2 = false ∧ value x ≤ value a ∧
      value (onBits (bcSubBorrow false a x)).1 = value a - value x) ∨
    ((onBits (bcSubBorrow false a x)).2 = true ∧ value a < value x) := by
  have hspec := subBorrow_spec false h
  have hlt := value_lt (onBits (bcSubBorrow false a x)).1
  rw [hspec.1] at hlt
  have hval := hspec.2
  rw [Bool.toNat_false, Nat.add_zero] at hval
  cases hborrow : (onBits (bcSubBorrow false a x)).2 with
  | false =>
      rw [hborrow, Bool.toNat_false, Nat.mul_zero, Nat.add_zero] at hval
      exact Or.inl ⟨rfl, by omega, by omega⟩
  | true =>
      rw [hborrow, Bool.toNat_true, Nat.mul_one] at hval
      exact Or.inr ⟨rfl, by omega⟩

/-- The registers before the step at bit `k - 1`: the bits from `k` on are divided. -/
structure Divided (n : ℕ) (a x : List Bool) (k : ℕ) (rq : List Bool × List Bool) : Prop where
  lengthR : rq.1.length = n
  lengthQ : rq.2.length = n
  remainder : value rq.1 = value a / 2 ^ k % value x
  quotient : value (rq.2.drop k) = value a / 2 ^ k / value x

theorem div_two_pow_succ (a : List Bool) (k : ℕ) :
    value a / 2 ^ k = (a.getD k false).toNat + 2 * (value a / 2 ^ (k + 1)) := by
  rw [← value_drop_eq, ← value_drop_eq, value_drop]

def shiftIn (a r : List Bool) (k : ℕ) : List Bool := a.getD k false :: r.take (a.length - 1)

theorem onBits_divStep {r q : List Bool} {k : ℕ} (hlen : (shiftIn a r k).length = x.length) :
    onBits (divStep a x (r, q) k) =
      (if (onBits (bcSubBorrow false (shiftIn a r k) x)).2 then shiftIn a r k
        else (onBits (bcSubBorrow false (shiftIn a r k) x)).1,
      q.set k !(onBits (bcSubBorrow false (shiftIn a r k) x)).2) := by
  have hspec := subBorrow_spec false hlen
  have hrow : a.getD k default :: r.take (a.length - 1) = shiftIn a r k := rfl
  simp only [divStep, onBits_bind, onBits_const, onBits_not, onBits_pure, hrow]
  rw [onBits_selectVec _ hspec.1]
  cases (onBits (bcSubBorrow false (shiftIn a r k) x)).2 <;> rfl

theorem Divided.shiftIn_spec (ha : a.length = n) {k : ℕ} (hk : k < n) {r q : List Bool}
    (h : Divided n a x (k + 1) (r, q)) :
    (shiftIn a r k).length = n ∧
      value (shiftIn a r k) = (a.getD k false).toNat + 2 * value r := by
  have hlen : r.length = n := h.lengthR
  have hr : value r = value a / 2 ^ (k + 1) % value x := h.remainder
  have hsmall : value r < 2 ^ (n - 1) := by
    have hhigh : value a / 2 ^ (k + 1) < 2 ^ (n - 1) := by
      apply Nat.div_lt_of_lt_mul
      rw [← pow_add]
      exact (value_lt a).trans_le (Nat.pow_le_pow_right (by decide) (by omega))
    rw [hr]
    exact (Nat.mod_le _ _).trans_lt hhigh
  constructor
  · rw [shiftIn, List.length_cons, List.length_take]
    omega
  · rw [shiftIn, value_cons, value_take, ha, Nat.mod_eq_of_lt hsmall]

theorem div_mod_of_split (bit t rest : ℕ) {high r quot d : ℕ} (hr : d * quot + r = high)
    (hrest : rest + d * t = bit + 2 * r) (hlt : rest < d) :
    (bit + 2 * high) % d = rest ∧ (bit + 2 * high) / d = t + 2 * quot := by
  have hpos : 0 < d := by omega
  have hdecomp : bit + 2 * high = rest + d * (t + 2 * quot) := by
    rw [← hr, Nat.mul_add, Nat.mul_add, Nat.mul_left_comm]
    omega
  rw [hdecomp, Nat.add_mul_mod_self_left, Nat.mod_eq_of_lt hlt, Nat.add_mul_div_left _ _ hpos,
    Nat.div_eq_of_lt hlt, Nat.zero_add]
  exact ⟨rfl, rfl⟩

theorem Divided.step (ha : a.length = n) (hx : x.length = n) (hpos : 0 < value x) {k : ℕ}
    (hk : k < n) {rq : List Bool × List Bool} (h : Divided n a x (k + 1) rq) :
    Divided n a x k (onBits (divStep a x rq k)) := by
  obtain ⟨r, q⟩ := rq
  have hlenQ : q.length = n := h.lengthQ
  have hr : value r = value a / 2 ^ (k + 1) % value x := h.remainder
  have hq : value (q.drop (k + 1)) = value a / 2 ^ (k + 1) / value x := h.quotient
  have hrow := h.shiftIn_spec ha hk
  have hlenRow := hrow.1.trans hx.symm
  have hsplit : value x * (value a / 2 ^ (k + 1) / value x) + value r = value a / 2 ^ (k + 1) := by
    rw [hr]
    exact Nat.div_add_mod _ _
  have hlt : value r < value x := by
    rw [hr]
    exact Nat.mod_lt _ hpos
  have hset : ∀ b : Bool, value ((q.set k b).drop k) =
      b.toNat + 2 * (value a / 2 ^ (k + 1) / value x) := by
    intro b
    have hget : (q.set k b).getD k false = b := by
      rw [List.getD_eq_getElem _ _ (by rw [List.length_set]; omega), List.getElem_set_self]
    rw [value_drop, hget, List.drop_set_of_lt (Nat.lt_succ_self k), hq]
  rw [onBits_divStep hlenRow]
  have hlenSet : ∀ b : Bool, (q.set k b).length = n := fun b => by rw [List.length_set, hlenQ]
  have hlenDiff := (subBorrow_spec false hlenRow).1.trans hrow.1
  have hbit := (a.getD k false).toNat_lt
  rcases subBorrow_cases hlenRow with ⟨hborrow, hle, hdiff⟩ | ⟨hborrow, hless⟩
  · rw [hrow.2] at hle hdiff
    have hdm := div_mod_of_split (a.getD k false).toNat 1
      ((a.getD k false).toNat + 2 * value r - value x) hsplit (by omega) (by omega)
    rw [← div_two_pow_succ] at hdm
    rw [hborrow]
    refine ⟨hlenDiff, hlenSet _, ?_, ?_⟩
    · exact hdiff.trans hdm.1.symm
    · exact (hset true).trans hdm.2.symm
  · rw [hrow.2] at hless
    have hdm := div_mod_of_split (a.getD k false).toNat 0
      ((a.getD k false).toNat + 2 * value r) hsplit (by omega) hless
    rw [← div_two_pow_succ] at hdm
    rw [hborrow]
    refine ⟨hrow.1, hlenSet _, ?_, ?_⟩
    · exact hrow.2.trans hdm.1.symm
    · exact (hset false).trans hdm.2.symm

theorem Divided.loop (ha : a.length = n) (hx : x.length = n) (hpos : 0 < value x) (k : ℕ)
    (hk : k ≤ n) {rq : List Bool × List Bool} (h : Divided n a x k rq) :
    Divided n a x 0 ((List.range k).reverse.foldl (fun rq i => onBits (divStep a x rq i)) rq) := by
  induction k generalizing rq with
  | zero => exact h
  | succ k ih =>
      rw [List.range_succ, List.reverse_append, List.reverse_singleton, List.singleton_append,
        List.foldl_cons]
      exact ih (by omega) (h.step ha hx hpos (by omega))

theorem onBits_udivrem (ha : a.length = n) (hx : x.length = n) (hpos : 0 < value x) :
    onBits (bcUdivrem a x) =
      (ofWord ((word n a).udiv (word n x)), ofWord ((word n a).umod (word n x))) := by
  have hinit : Divided n a x n (List.replicate n false, List.replicate n false) := by
    have hzero : value a / 2 ^ n = 0 := Nat.div_eq_of_lt (ha ▸ value_lt a)
    constructor
    · simp
    · simp
    · simp [hzero]
    · simp [hzero]
  have hloop := hinit.loop ha hx hpos n le_rfl
  simp only [bcUdivrem, onBits_bind, onBits_consts, onBits_foldlM, onBits_pure, ha]
  generalize (List.range n).reverse.foldl (fun rq i => onBits (divStep a x rq i))
    (List.replicate n false, List.replicate n false) = rq at hloop ⊢
  have hr := hloop.remainder
  have hq := hloop.quotient
  rw [pow_zero, Nat.div_one] at hr hq
  rw [List.drop_zero] at hq
  have hquot : rq.2 = ofWord ((word n a).udiv (word n x)) := by
    apply eq_ofWord hloop.lengthQ
    rw [hq, BitVec.udiv_eq, BitVec.toNat_udiv, toNat_word ha, toNat_word hx]
  have hrem : rq.1 = ofWord ((word n a).umod (word n x)) := by
    apply eq_ofWord hloop.lengthR
    rw [hr, BitVec.umod_eq, BitVec.toNat_umod, toNat_word ha, toNat_word hx]
  rw [hquot, hrem]

theorem onBits_udiv (ha : a.length = n) (hx : x.length = n) (hpos : 0 < value x) :
    onBits (bcUdiv a x) = ofWord ((word n a).udiv (word n x)) := by
  rw [bcUdiv, onBits_bind, onBits_udivrem ha hx hpos]
  rfl

theorem abs_pos (hx : x.length = n) (hpos : 0 < value x) :
    0 < (if (word n x).msb then -word n x else word n x).toNat := by
  have hword := toNat_word hx
  have hlt := value_lt x
  rw [hx] at hlt
  split
  · rw [BitVec.toNat_neg, hword, Nat.mod_eq_of_lt (by omega)]
    omega
  · omega

theorem onBits_negIf {b : Bool} (v : BitVec n) :
    onBits (bcSelectVec b (onBits (bcNeg (ofWord v))) (ofWord v)) =
      ofWord (if b then -v else v) := by
  have hneg : onBits (bcNeg (ofWord v)) = ofWord (-v) := by
    rw [onBits_neg (length_ofWord v), word_ofWord]
  rw [hneg, onBits_selectVec _ (by rw [length_ofWord, length_ofWord])]
  cases b <;> rfl

theorem onBits_sdivrem (ha : a.length = n) (hx : x.length = n) (hpos : 0 < value x) :
    onBits (bcSdivrem a x) =
      (ofWord ((word n a).sdiv (word n x)), ofWord ((word n a).srem (word n x))) := by
  have hsa : signOf a = (word n a).msb := (msb_word ha).symm
  have hsx : signOf x = (word n x).msb := (msb_word hx).symm
  have hdiv := onBits_udivrem (length_ofWord (if (word n a).msb then -word n a else word n a))
    (length_ofWord (if (word n x).msb then -word n x else word n x))
    (by rw [value_ofWord]; exact abs_pos hx hpos)
  rw [word_ofWord, word_ofWord] at hdiv
  simp only [bcSdivrem, onBits_bind, onBits_pure, onBits_xor, onBits_abs ha,
    onBits_abs hx, hdiv, onBits_negIf, hsa, hsx]
  rw [BitVec.sdiv_eq, BitVec.srem_eq]
  cases (word n a).msb <;> cases (word n x).msb <;> simp

theorem onBits_sdiv (ha : a.length = n) (hx : x.length = n) (hpos : 0 < value x) :
    onBits (bcSdiv a x) = ofWord ((word n a).sdiv (word n x)) := by
  rw [bcSdiv, onBits_bind, onBits_sdivrem ha hx hpos]
  rfl

end
end VolarIR.Lir
