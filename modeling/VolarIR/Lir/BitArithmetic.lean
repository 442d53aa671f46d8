import VolarIR.Lir.Circuits
import VolarIR.Library.Bits
import Mathlib.Data.Nat.ModEq

/-!
# The algorithms on bits themselves

A builder whose wires are the bits. What an algorithm computes there is the two's-complement
operation it is named after.
-/
namespace VolarIR.Lir
open Bits

instance : BitCircuitBuilder Unit Bool where
  bcConst val := pure val
  bcXor a b := pure (a ^^ b)
  bcAnd a b := pure (a && b)
  bcNot a := pure (!a)
  bcCarry3 a b c := pure ((a && b) ^^ ((a && c) ^^ (b && c)))

def onBits {α : Type} (p : StateM Unit α) : α := (p ()).1

section
variable {α β ι : Type}

@[simp] theorem onBits_pure (a : α) : onBits (pure a) = a := rfl

@[simp] theorem onBits_bind (p : StateM Unit α) (f : α → StateM Unit β) :
    onBits (p >>= f) = onBits (f (onBits p)) := rfl

@[simp] theorem onBits_mapM (f : ι → StateM Unit α) (xs : List ι) :
    onBits (xs.mapM f) = xs.map fun x => onBits (f x) := by
  induction xs with
  | nil => rfl
  | cons x xs ih => rw [List.mapM_cons, onBits_bind, onBits_bind, onBits_pure, ih, List.map_cons]

@[simp] theorem onBits_foldlM (f : α → ι → StateM Unit α) (xs : List ι) (a : α) :
    onBits (xs.foldlM f a) = xs.foldl (fun a x => onBits (f a x)) a := by
  induction xs generalizing a with
  | nil => rfl
  | cons x xs ih => rw [List.foldlM_cons, onBits_bind, ih, List.foldl_cons]

end

@[simp] theorem onBits_const (val : Bool) : onBits (bcConst val) = val := rfl
@[simp] theorem onBits_xor (a b : Bool) : onBits (bcXor a b) = (a ^^ b) := rfl
@[simp] theorem onBits_and (a b : Bool) : onBits (bcAnd a b) = (a && b) := rfl
@[simp] theorem onBits_not (a : Bool) : onBits (bcNot a) = !a := rfl
@[simp] theorem onBits_carry3 (a b c : Bool) :
    onBits (bcCarry3 a b c) = ((a && b) ^^ ((a && c) ^^ (b && c))) := rfl

@[simp] theorem onBits_or (a b : Bool) : onBits (bcOr a b) = (a || b) := by
  cases a <;> cases b <;> rfl

@[simp] theorem onBits_select (c a b : Bool) : onBits (bcSelect c a b) = if c then a else b := by
  cases a <;> cases b <;> cases c <;> rfl

@[simp] theorem onBits_consts (n : ℕ) (val : Bool) :
    onBits (bcConsts n val) = List.replicate n val := by
  simp [bcConsts, List.map_const']

@[simp] theorem onBits_notVec (a : List Bool) : onBits (bcNotVec a) = a.map not := by
  simp [bcNotVec]

theorem onBits_selectVec {a x : List Bool} (c : Bool) (h : a.length = x.length) :
    onBits (bcSelectVec c a x) = if c then a else x := by
  simp only [bcSelectVec, onBits_mapM, onBits_select]
  cases c with
  | true => exact List.map_fst_zip h.le
  | false => exact List.map_snd_zip h.ge

section
variable {n : ℕ} {a x : List Bool}

theorem addFrom_spec (c : Bool) (h : a.length = x.length) :
    (onBits (bcAddFrom c a x)).length = a.length ∧
      value (onBits (bcAddFrom c a x)) = (value a + value x + c.toNat) % 2 ^ a.length := by
  induction a generalizing c x with
  | nil => simp [bcAddFrom, Nat.mod_one]
  | cons b bs ih =>
      cases x with
      | nil => cases h
      | cons y ys =>
          have hrest := ih ((b && y) ^^ ((b && c) ^^ (y && c))) (Nat.succ.inj h)
          simp only [bcAddFrom, onBits_bind, onBits_xor, onBits_carry3, onBits_pure,
            List.length_cons, value_cons]
          refine ⟨congrArg Nat.succ hrest.1, ?_⟩
          rw [hrest.2, pow_succ, Nat.mul_comm (2 ^ bs.length) 2]
          have hadd : b.toNat + y.toNat + c.toNat =
              ((b ^^ y) ^^ c).toNat + 2 * ((b && y) ^^ ((b && c) ^^ (y && c))).toNat := by
            cases b <;> cases y <;> cases c <;> rfl
          have hsum : b.toNat + 2 * value bs + (y.toNat + 2 * value ys) + c.toNat =
              ((b ^^ y) ^^ c).toNat +
                2 * (value bs + value ys + ((b && y) ^^ ((b && c) ^^ (y && c))).toNat) := by
            omega
          have hbit := ((b ^^ y) ^^ c).toNat_lt
          rw [hsum, Nat.mod_mul]
          congr 1
          · omega
          · congr 2
            omega

theorem length_add (c : Bool) (h : a.length = x.length) :
    (onBits (bcAdd a x c)).length = a.length := (addFrom_spec c h).1

theorem value_add (c : Bool) (h : a.length = x.length) :
    value (onBits (bcAdd a x c)) = (value a + value x + c.toNat) % 2 ^ a.length :=
  (addFrom_spec c h).2

theorem onBits_add (ha : a.length = n) (hx : x.length = n) :
    onBits (bcAdd a x false) = ofWord (word n a + word n x) := by
  have hlen := ha.trans hx.symm
  apply eq_ofWord ((length_add false hlen).trans ha)
  rw [value_add false hlen, BitVec.toNat_add, toNat_word ha, toNat_word hx, ha]
  rfl

theorem onBits_sub (ha : a.length = n) (hx : x.length = n) :
    onBits (bcSub a x) = ofWord (word n a - word n x) := by
  have hlen : a.length = (x.map not).length := by rw [List.length_map, ha, hx]
  have hnot := value_map_not x
  have hlt := value_lt x
  rw [hx] at hnot hlt
  rw [bcSub, onBits_bind, onBits_notVec]
  apply eq_ofWord ((length_add true hlen).trans ha)
  rw [value_add true hlen, BitVec.toNat_sub, toNat_word ha, toNat_word hx, ha]
  apply congrArg (· % 2 ^ n)
  have hone : true.toNat = 1 := rfl
  omega

theorem onBits_neg (ha : a.length = n) : onBits (bcNeg a) = ofWord (-word n a) := by
  have hlen : (a.map not).length = (List.replicate a.length false).length := by simp
  have hnot := value_map_not a
  have hlt := value_lt a
  rw [ha] at hnot hlt
  rw [bcNeg, onBits_bind, onBits_consts, onBits_bind, onBits_notVec]
  apply eq_ofWord
  · rw [length_add true hlen, List.length_map, ha]
  · rw [value_add true hlen, value_replicate_false, BitVec.toNat_neg, toNat_word ha,
      List.length_map, ha]
    apply congrArg (· % 2 ^ n)
    have hone : true.toNat = 1 := rfl
    omega

theorem onBits_abs (ha : a.length = n) :
    onBits (bcAbs a) = ofWord (if (word n a).msb then -word n a else word n a) := by
  rw [bcAbs, onBits_bind, onBits_neg ha, onBits_selectVec _ (by simp [ha]), msb_word ha]
  change (if a.getLastD false then _ else _) = _
  split
  · rfl
  · exact (ofWord_word ha).symm

@[simp] theorem length_resize {α : Type} (v : List α) (w : ℕ) (z : α) :
    (resize v w z).length = w := by
  rw [resize, List.length_append, List.length_take, List.length_replicate]
  omega

@[simp] theorem length_overlay {α : Type} (base : List α) (start : ℕ) (bits : List α) :
    (overlay base start bits).length = base.length := by simp [overlay]

theorem value_resize (v : List Bool) (w : ℕ) : value (resize v w false) = value v % 2 ^ w := by
  rw [resize, value_append, value_replicate_false, Nat.mul_zero, Nat.add_zero, value_take]

theorem onBits_extBits (v : List Bool) (w : ℕ) : onBits (extBits v w) = resize v w false := rfl

/-- The bits moved up by `start` positions, cut at `want`. -/
def shifted (start want : ℕ) (bits : List Bool) : List Bool :=
  (List.range want).map fun k => (List.replicate start false ++ bits).getD k false

theorem getD_shifted (start : ℕ) (bits : List Bool) (k : ℕ) :
    (List.replicate start false ++ bits).getD k false =
      if start ≤ k then bits.getD (k - start) false else false := by
  split
  case isTrue hle =>
    rw [List.getD_append_right _ _ _ _ (by simpa using hle), List.length_replicate]
  case isFalse hlt =>
    rw [List.getD_append _ _ _ _ (by simpa using hlt), List.getD_eq_getElem?_getD,
      List.getElem?_replicate]
    split <;> rfl

theorem value_shifted (start want : ℕ) (bits : List Bool) :
    value (shifted start want bits) = 2 ^ start * value bits % 2 ^ want := by
  rw [shifted, value_map_getD, value_append, value_replicate_false, List.length_replicate,
    zero_add]

theorem overlay_eq_shifted (start want : ℕ) (bits : List Bool) :
    overlay (List.replicate want false) start bits = shifted start want bits := by
  apply List.ext_getElem
  · simp [shifted]
  · intro k hk hk'
    simp only [overlay, shifted, List.getElem_mapIdx, List.getElem_replicate, List.getElem_map,
      List.getElem_range, getD_shifted]

theorem value_map_and (b : Bool) (bits : List Bool) :
    value (bits.map (b && ·)) = b.toNat * value bits := by
  cases b with
  | true => simp
  | false => simp [List.map_const']

theorem onBits_partialProduct (cols i : ℕ) :
    onBits (partialProduct a x cols i) = shifted i cols (x.map (a.getD i false && ·)) := by
  simp only [partialProduct, onBits_mapM, shifted, getD_shifted]
  apply List.map_congr_left
  intro k hk
  by_cases hi : k < i
  · simp [hi]
  · by_cases hx : x.length ≤ k - i
    · simp [hx]
    · have hx' : k - i < x.length := Nat.lt_of_not_le hx
      simp [hi, hx, hx', Nat.le_of_not_lt hi]

theorem value_take_succ (bs : List Bool) (k : ℕ) :
    value (bs.take (k + 1)) = value (bs.take k) + 2 ^ k * (bs.getD k false).toNat := by
  by_cases hk : k < bs.length
  · rw [List.take_succ_eq_append_getElem hk, value_append, List.length_take,
      Nat.min_eq_left hk.le, List.getD_eq_getElem _ _ hk]
    simp
  · have hle := Nat.le_of_not_lt hk
    rw [List.take_of_length_le hle, List.take_of_length_le (by omega),
      List.getD_eq_default _ _ hle]
    simp

/-- The rows added so far are a multiple of the second factor. -/
theorem mulRows_loop (cols k : ℕ) :
    ((List.range k).foldl (fun acc i =>
      onBits (bcAdd acc (onBits (partialProduct a x cols i)) false))
        (List.replicate cols false)).length = cols ∧
    value ((List.range k).foldl (fun acc i =>
      onBits (bcAdd acc (onBits (partialProduct a x cols i)) false))
        (List.replicate cols false)) = value (a.take k) * value x % 2 ^ cols := by
  induction k with
  | zero => simp
  | succ k ih =>
      have hrow : (onBits (partialProduct a x cols k)).length = cols := by
        simp [onBits_partialProduct, shifted]
      have hlen := ih.1.trans hrow.symm
      rw [List.range_succ, List.foldl_append, List.foldl_cons, List.foldl_nil]
      refine ⟨(length_add false hlen).trans ih.1, ?_⟩
      rw [value_add false hlen, ih.1, ih.2, onBits_partialProduct, value_shifted, value_map_and,
        value_take_succ, Bool.toNat_false, Nat.add_zero, ← Nat.add_mod]
      congr 1
      ring

theorem mulRows_spec (want : ℕ) :
    (onBits (bcMulRows a x want)).length = min want (2 * a.length) ∧
      value (onBits (bcMulRows a x want)) =
        value a * value x % 2 ^ min want (2 * a.length) := by
  have hloop := mulRows_loop (a := a) (x := x) (min want (2 * a.length))
    (min a.length (min want (2 * a.length)))
  simp only [bcMulRows, onBits_bind, onBits_consts, onBits_foldlM]
  refine ⟨hloop.1, hloop.2.trans ?_⟩
  generalize min want (2 * a.length) = cols
  rcases Nat.le_total a.length cols with hle | hle
  · rw [Nat.min_eq_left hle, List.take_length]
  · rw [Nat.min_eq_right hle, value_take, Nat.mod_mul_mod]

theorem mod_min_mod {p c w : ℕ} (hp : p < 2 ^ c) : p % 2 ^ min w c % 2 ^ w = p % 2 ^ w := by
  rcases Nat.le_total w c with hle | hle
  · rw [Nat.min_eq_left hle, Nat.mod_mod]
  · rw [Nat.min_eq_right hle, Nat.mod_eq_of_lt hp]

theorem shift_mod_min {p c m want : ℕ} (hp : p < 2 ^ c) (hm : m ≤ want) :
    2 ^ m * (p % 2 ^ min (want - m) c) ≡ 2 ^ m * p [MOD 2 ^ want] := by
  rcases Nat.le_total (want - m) c with hle | hle
  · have hpow : 2 ^ want = 2 ^ m * 2 ^ (want - m) := by rw [← pow_add, Nat.add_sub_cancel' hm]
    rw [Nat.min_eq_left hle, hpow]
    exact (Nat.mod_modEq p _).mul_left' _
  · rw [Nat.min_eq_right hle, Nat.mod_eq_of_lt hp]

/-- The middle product: `a0 * x1 + a1 * x0` as the difference of three products. -/
theorem middle_product {a0 a1 x0 x1 mid z0 z1 z2 d w : ℕ} (hmid : mid < 2 ^ w)
    (hz1 : z1 ≡ (a0 + a1) * (x0 + x1) [MOD 2 ^ w]) (hz0 : z0 ≡ a0 * x0 [MOD 2 ^ w])
    (hz2 : z2 ≡ a1 * x1 [MOD 2 ^ w]) (hd : d + z0 ≡ z1 [MOD 2 ^ w])
    (hsub : mid + z2 ≡ d [MOD 2 ^ w]) : mid = (a0 * x1 + a1 * x0) % 2 ^ w := by
  have hsum : mid + (a1 * x1 + a0 * x0) ≡ a0 * x1 + a1 * x0 + (a1 * x1 + a0 * x0) [MOD 2 ^ w] := by
    calc mid + (a1 * x1 + a0 * x0) ≡ mid + (z2 + z0) [MOD 2 ^ w] :=
          ((hz2.add hz0).add_left mid).symm
      _ = mid + z2 + z0 := (Nat.add_assoc _ _ _).symm
      _ ≡ d + z0 [MOD 2 ^ w] := hsub.add_right z0
      _ ≡ z1 [MOD 2 ^ w] := hd
      _ ≡ (a0 + a1) * (x0 + x1) [MOD 2 ^ w] := hz1
      _ = a0 * x1 + a1 * x0 + (a1 * x1 + a0 * x0) := by ring
  rw [← Nat.mod_eq_of_lt hmid]
  exact Nat.ModEq.add_right_cancel' _ hsum

theorem value_sub_modEq {u v : List Bool} (h : u.length = v.length) :
    value (onBits (bcSub u v)) + value v ≡ value u [MOD 2 ^ u.length] := by
  have hlt := value_lt v
  rw [← h] at hlt
  rw [onBits_sub rfl h.symm, value_ofWord, BitVec.toNat_sub, toNat_word rfl, toNat_word h.symm]
  calc (2 ^ u.length - value v + value u) % 2 ^ u.length + value v
      ≡ 2 ^ u.length - value v + value u + value v [MOD 2 ^ u.length] :=
        (Nat.mod_modEq _ _).add_right _
    _ = value u + 2 ^ u.length := by omega
    _ ≡ value u [MOD 2 ^ u.length] := by simp [Nat.ModEq]

theorem length_sub {u v : List Bool} (h : u.length = v.length) :
    (onBits (bcSub u v)).length = u.length := by
  rw [onBits_sub rfl h.symm, length_ofWord]

theorem half_sum {u v : List Bool} {h : ℕ} (hu : u.length ≤ h) (hv : v.length ≤ h) :
    (onBits (bcAdd (resize u (h + 1) false) (resize v (h + 1) false) false)).length = h + 1 ∧
      value (onBits (bcAdd (resize u (h + 1) false) (resize v (h + 1) false) false)) =
        value u + value v := by
  have hlen : (resize u (h + 1) false).length = (resize v (h + 1) false).length := by simp
  have hpow : ∀ {b : List Bool}, b.length ≤ h → value b < 2 ^ h := fun {b} hb =>
    (value_lt b).trans_le (Nat.pow_le_pow_right (by decide) hb)
  have hult := hpow hu
  have hvlt := hpow hv
  have htwo : 2 ^ (h + 1) = 2 * 2 ^ h := by rw [pow_succ, Nat.mul_comm]
  refine ⟨(length_add false hlen).trans (length_resize u (h + 1) false), ?_⟩
  rw [value_add false hlen, length_resize, value_resize, value_resize,
    Nat.mod_eq_of_lt (by omega : value u < 2 ^ (h + 1)),
    Nat.mod_eq_of_lt (by omega : value v < 2 ^ (h + 1)), Bool.toNat_false, Nat.add_zero,
    Nat.mod_eq_of_lt (by omega)]

theorem split_product (a0 a1 x0 x1 m : ℕ) :
    (a0 + 2 ^ m * a1) * (x0 + 2 ^ m * x1) =
      a0 * x0 + 2 ^ m * (a0 * x1 + a1 * x0) + 2 ^ (2 * m) * (a1 * x1) := by
  rw [two_mul, pow_add]
  ring

theorem value_split (bs : List Bool) {m : ℕ} (h : m ≤ bs.length) :
    value bs = value (bs.take m) + 2 ^ m * value (bs.drop m) := by
  conv_lhs => rw [← List.take_append_drop m bs]
  rw [value_append, List.length_take, Nat.min_eq_left h]

structure LowProduct (a x : List Bool) (want : ℕ) (out : List Bool) : Prop where
  length : out.length = want
  val : value out = value a * value x % 2 ^ want

theorem LowProduct.resize {out : List Bool} {c w : ℕ} (h : LowProduct a x (min w c) out)
    (hfits : value a * value x < 2 ^ c) :
    value (Lir.resize out w false) = value a * value x % 2 ^ w := by
  rw [value_resize, h.val, mod_min_mod hfits]

theorem product_lt {j k : ℕ} (ha : a.length ≤ j) (hx : x.length ≤ k) :
    value a * value x < 2 ^ (j + k) := by
  rw [pow_add]
  have hpow : ∀ {b : List Bool} {i : ℕ}, b.length ≤ i → value b < 2 ^ i := fun {b _} hb =>
    (value_lt b).trans_le (Nat.pow_le_pow_right (by decide) hb)
  exact Nat.mul_lt_mul'' (hpow ha) (hpow hx)

/-- The middle product out of the product of the sums. -/
theorem middle_spec {a0 a1 x0 x1 sa sx z0 z1 z2 : List Bool} {w : ℕ} (hz1 : LowProduct sa sx w z1)
    (hsa : value sa = value a0 + value a1) (hsx : value sx = value x0 + value x1)
    (hz0 : value (resize z0 w false) = value a0 * value x0 % 2 ^ w)
    (hz2 : value (resize z2 w false) = value a1 * value x1 % 2 ^ w) :
    (onBits (bcSub (onBits (bcSub z1 (resize z0 w false))) (resize z2 w false))).length = w ∧
      value (onBits (bcSub (onBits (bcSub z1 (resize z0 w false))) (resize z2 w false))) =
        (value a0 * value x1 + value a1 * value x0) % 2 ^ w := by
  have hlen0 : z1.length = (resize z0 w false).length := by rw [hz1.length, length_resize]
  have hdiff := value_sub_modEq hlen0
  have hlend := (length_sub hlen0).trans hz1.length
  generalize onBits (bcSub z1 (resize z0 w false)) = d at hdiff hlend ⊢
  have hlen2 : d.length = (resize z2 w false).length := by rw [hlend, length_resize]
  have hdiff' := value_sub_modEq hlen2
  have hlenMid := (length_sub hlen2).trans hlend
  generalize onBits (bcSub d (resize z2 w false)) = mid at hdiff' hlenMid ⊢
  rw [hz1.length] at hdiff
  rw [hlend] at hdiff'
  refine ⟨hlenMid, middle_product (hlenMid ▸ value_lt mid) ?_ ?_ ?_ hdiff hdiff'⟩
  · rw [hz1.val, hsa, hsx]
    exact Nat.mod_modEq _ _
  · rw [hz0]
    exact Nat.mod_modEq _ _
  · rw [hz2]
    exact Nat.mod_modEq _ _

/-- A word moved up by `m` places and added. -/
theorem add_overlay {low high : List Bool} {m want p q c : ℕ} (hlow : low.length = want)
    (hlowVal : value low ≡ p [MOD 2 ^ want]) (hm : m ≤ want)
    (hhigh : value high = q % 2 ^ min (want - m) c) (hq : q < 2 ^ c) :
    (onBits (bcAdd low (overlay (List.replicate want false) m high) false)).length = want ∧
      value (onBits (bcAdd low (overlay (List.replicate want false) m high) false)) ≡
        p + 2 ^ m * q [MOD 2 ^ want] := by
  have hlen : low.length = (overlay (List.replicate want false) m high).length := by simp [hlow]
  refine ⟨(length_add false hlen).trans hlow, ?_⟩
  rw [value_add false hlen, hlow, overlay_eq_shifted, value_shifted, hhigh, Bool.toNat_false,
    Nat.add_zero]
  apply (Nat.mod_modEq _ _).trans
  exact hlowVal.add ((Nat.mod_modEq _ _).trans (shift_mod_min hq hm))

theorem mulLowFrom_spec (n : ℕ) (ha : a.length = n) (hx : x.length = n) {want : ℕ}
    (hwant : want ≤ 2 * n) : LowProduct a x want (onBits (bcMulLowFrom n a x want)) := by
  induction n using Nat.strongRecOn generalizing a x want with
  | ind n ih =>
      rw [bcMulLowFrom]
      split
      case isTrue =>
        have hspec := mulRows_spec (a := a) (x := x) want
        rw [ha, Nat.min_eq_left hwant] at hspec
        exact ⟨hspec.1, hspec.2⟩
      case isFalse hn =>
        have hm : n / 2 < n := by omega
        have hh : n - n / 2 < n := by omega
        have hh' : n - n / 2 + 1 < n := by omega
        have hmh : n / 2 ≤ n - n / 2 := by omega
        generalize hmid : n / 2 = m at hm hh hh' hmh ⊢
        generalize hhigh : n - m = h at hh hh' hmh ⊢
        have hlow : ∀ {b : List Bool}, b.length = n → (b.take m).length = m := by
          intro b hb
          rw [List.length_take, hb]
          omega
        have hhi : ∀ {b : List Bool}, b.length = n → (b.drop m).length = h := by
          intro b hb
          rw [List.length_drop, hb, hhigh]
        have hz0 : LowProduct (a.take m) (x.take m) (min want (2 * m))
            (onBits (bcMulLowFrom m (a.take m) (x.take m) (min want (2 * m)))) :=
          ih m hm (hlow ha) (hlow hx) (Nat.min_le_right _ _)
        have hfits0 : value (a.take m) * value (x.take m) < 2 ^ (2 * m) := by
          rw [two_mul]
          exact product_lt (hlow ha).le (hlow hx).le
        have hfits2 : value (a.drop m) * value (x.drop m) < 2 ^ (2 * h) := by
          rw [two_mul]
          exact product_lt (hhi ha).le (hhi hx).le
        have hsplit : value a * value x =
            value (a.take m) * value (x.take m) + 2 ^ m * (value (a.take m) * value (x.drop m) +
              value (a.drop m) * value (x.take m)) +
              2 ^ (2 * m) * (value (a.drop m) * value (x.drop m)) := by
          rw [value_split a (by omega : m ≤ a.length), value_split x (by omega : m ≤ x.length),
            split_product]
        have hvanish : ∀ (c t : ℕ), want ≤ c → 2 ^ c * t ≡ 0 [MOD 2 ^ want] := fun c t hc =>
          Nat.modEq_zero_iff_dvd.mpr ((pow_dvd_pow 2 hc).mul_right t)
        rw [onBits_bind]
        split
        case isFalse hsmall =>
          have hle : want ≤ m := Nat.le_of_not_lt hsmall
          have hmin : min want (2 * m) = want := by omega
          rw [hmin] at hz0
          refine ⟨by rw [onBits_pure, hmin, hz0.length], ?_⟩
          rw [onBits_pure, hmin, hz0.val, hsplit]
          exact (((hvanish m _ hle).add_left _).add (hvanish (2 * m) _ (by omega))).symm
        case isTrue hlarge =>
          simp only [onBits_bind, onBits_extBits, onBits_consts, hhigh]
          generalize onBits (bcMulLowFrom m (a.take m) (x.take m) (min want (2 * m))) = z0
            at hz0 ⊢
          have hsa := half_sum (h := h) ((hlow ha).le.trans hmh) (hhi ha).le
          have hsx := half_sum (h := h) ((hlow hx).le.trans hmh) (hhi hx).le
          generalize onBits (bcAdd (resize (a.take m) (h + 1) false)
            (resize (a.drop m) (h + 1) false) false) = sa at hsa ⊢
          generalize onBits (bcAdd (resize (x.take m) (h + 1) false)
            (resize (x.drop m) (h + 1) false) false) = sx at hsx ⊢
          have hz1 := ih (h + 1) hh' hsa.1 hsx.1 (Nat.min_le_right (want - m) (2 * (h + 1)))
          generalize onBits (bcMulLowFrom (h + 1) sa sx (min (want - m) (2 * (h + 1)))) = z1
            at hz1 ⊢
          rw [hz1.length]
          have hz0Full := ih m hm (hlow ha) (hlow hx)
            (Nat.min_le_right (min (want - m) (2 * (h + 1))) (2 * m))
          have hz2Full := ih h hh (hhi ha) (hhi hx)
            (Nat.min_le_right (min (want - m) (2 * (h + 1))) (2 * h))
          have hmiddle := middle_spec hz1 hsa.2 hsx.2 (hz0Full.resize hfits0)
            (hz2Full.resize hfits2)
          have hcross : value (a.take m) * value (x.drop m) +
              value (a.drop m) * value (x.take m) < 2 ^ (2 * (h + 1)) := by
            have h1 := product_lt ((hlow ha).le.trans hmh) (hhi hx).le
            have h2 := product_lt (hhi ha).le ((hlow hx).le.trans hmh)
            have hpow : 2 ^ (2 * (h + 1)) = 4 * 2 ^ (h + h) := by
              rw [← two_mul, mul_add, pow_add]
              ring
            omega
          have hz0Val : value (resize z0 want false) ≡
              value (a.take m) * value (x.take m) [MOD 2 ^ want] := by
            rw [hz0.resize hfits0]
            exact Nat.mod_modEq _ _
          obtain ⟨hlen, hacc⟩ := add_overlay (length_resize z0 want false) hz0Val hlarge.le
            hmiddle.2 hcross
          generalize onBits (bcAdd (resize z0 want false) (overlay _ m _) false) = acc
            at hlen hacc ⊢
          split
          case isTrue htop =>
            have hz2Low := ih h hh (hhi ha) (hhi hx) (by omega : want - 2 * m ≤ 2 * h)
            have hmin : min (want - 2 * m) (2 * h) = want - 2 * m := by omega
            obtain ⟨hlenOut, hout⟩ := add_overlay hlen hacc htop.le
              (hz2Low.val.trans (by rw [hmin])) hfits2
            simp only [onBits_bind, onBits_consts]
            refine ⟨hlenOut, ?_⟩
            have hlt := value_lt (onBits (bcAdd acc (overlay (List.replicate want false) (2 * m)
              (onBits (bcMulLowFrom h (a.drop m) (x.drop m) (want - 2 * m)))) false))
            rw [hlenOut] at hlt
            rw [hsplit, ← Nat.mod_eq_of_lt hlt]
            exact hout
          case isFalse htop =>
            have hlt : value acc < 2 ^ want := hlen ▸ value_lt acc
            refine ⟨hlen, ?_⟩
            rw [onBits_pure, ← Nat.mod_eq_of_lt hlt, hsplit]
            exact hacc.trans ((hvanish _ _ (Nat.le_of_not_lt htop)).add_left _).symm

theorem onBits_mul (ha : a.length = n) (hx : x.length = n) :
    onBits (bcMul a x) = ofWord (word n a * word n x) := by
  have hwant : n ≤ 2 * n := by omega
  have hspec := mulLowFrom_spec n ha hx hwant
  rw [bcMul, bcMulLow, ha]
  apply eq_ofWord hspec.length
  rw [hspec.val, BitVec.toNat_mul, toNat_word ha, toNat_word hx]

end
end VolarIR.Lir
