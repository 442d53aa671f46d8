import VolarIR.Library.BitField

/-!
# Commutative rings of characteristic two as bit strings

A `BitAlgebra` reads the bit strings of one length as the elements of a ring, exclusive or
being addition. A field is one, and so are the vectors over one, read lane by lane.
-/

/-- A ring read off bit strings of length `width`. -/
structure BitAlgebra where
  R : Type
  [ring : CommRing R]
  width : ℕ
  decode : List Bool → R
  one : List Bool
  length_one : one.length = width
  decode_one : decode one = 1
  add_self : ∀ x : R, x + x = 0
  decode_xor : ∀ a b : List Bool, a.length = width → b.length = width →
    decode (List.zipWith xor a b) = decode a + decode b
  decode_inj : ∀ a b : List Bool, a.length = width → b.length = width →
    decode a = decode b → a = b
  decode_surj : ∀ x : R, ∃ a : List Bool, a.length = width ∧ decode a = x

attribute [instance] BitAlgebra.ring

namespace BitAlgebra

def ofField (F : BitField) : BitAlgebra where
  R := F.K
  width := F.width
  decode := F.decode
  one := F.oneBits
  length_one := F.length_oneBits
  decode_one := F.decode_oneBits
  add_self := F.add_self
  decode_xor := F.decode_xor
  decode_inj := F.decode_inj
  decode_surj := F.decode_surj

def lane (width k : ℕ) (bits : List Bool) : List Bool := (bits.drop (k * width)).take width

section
variable {width n k : ℕ}

theorem length_lane (hk : k < n) {bits : List Bool} (h : bits.length = n * width) :
    (lane width k bits).length = width := by
  have hle : (k + 1) * width ≤ n * width := Nat.mul_le_mul_right _ hk
  rw [Nat.succ_mul] at hle
  rw [lane, List.length_take, List.length_drop, h]
  omega

theorem lane_flatten {lanes : List (List Bool)} (h : ∀ bits ∈ lanes, bits.length = width)
    (hk : k < lanes.length) : lane width k lanes.flatten = lanes[k] := by
  induction lanes generalizing k with
  | nil => exact absurd hk (Nat.not_lt_zero k)
  | cons bits lanes ih =>
      have hbits : bits.length = width := h bits (List.mem_cons_self ..)
      cases k with
      | zero => simp [lane, ← hbits]
      | succ k =>
          have hrest := ih (fun b hb => h b (List.mem_cons_of_mem _ hb))
            (Nat.lt_of_succ_lt_succ hk)
          have hdrop : (k + 1) * width = bits.length + k * width := by
            rw [hbits, Nat.succ_mul, Nat.add_comm]
          rw [lane, List.flatten_cons, hdrop, List.drop_length_add_append, List.getElem_cons_succ]
          exact hrest

theorem flatten_lanes {bits : List Bool} (h : bits.length = n * width) :
    ((List.range n).map fun k => lane width k bits).flatten = bits := by
  induction n generalizing bits with
  | zero =>
      rw [Nat.zero_mul] at h
      rw [List.length_eq_zero_iff.mp h]
      rfl
  | succ n ih =>
      rw [Nat.succ_mul] at h
      have hlen : (bits.drop width).length = n * width := by rw [List.length_drop]; omega
      have hrest := ih hlen
      have hlane : ∀ k, lane width (k + 1) bits = lane width k (bits.drop width) := by
        intro k
        rw [lane, lane, List.drop_drop, Nat.succ_mul, Nat.add_comm]
      rw [List.range_succ_eq_map, List.map_cons, List.map_map, List.flatten_cons]
      simp only [Function.comp_def, hlane]
      rw [hrest, lane, Nat.zero_mul, List.drop_zero, List.take_append_drop]

theorem eq_of_lanes {a b : List Bool} (ha : a.length = n * width) (hb : b.length = n * width)
    (h : ∀ k, k < n → lane width k a = lane width k b) : a = b := by
  rw [← flatten_lanes ha, ← flatten_lanes hb]
  congr 1
  exact List.map_congr_left fun k hk => h k (List.mem_range.mp hk)

end

/-- The vectors of `n` elements, lane by lane. -/
def vec (n : ℕ) (A : BitAlgebra) : BitAlgebra where
  R := Fin n → A.R
  width := n * A.width
  decode bits k := A.decode (lane A.width k bits)
  one := (List.replicate n A.one).flatten
  length_one := by simp [A.length_one]
  decode_one := by
    funext k
    rw [lane_flatten (fun b hb => (List.eq_of_mem_replicate hb).symm ▸ A.length_one) (by simp),
      List.getElem_replicate, A.decode_one]
    rfl
  add_self x := funext fun k => A.add_self (x k)
  decode_xor a b ha hb := by
    funext k
    have hlane : lane A.width k (List.zipWith xor a b) =
        List.zipWith xor (lane A.width k a) (lane A.width k b) := by
      simp [lane, List.drop_zipWith, List.take_zipWith]
    rw [hlane, A.decode_xor _ _ (length_lane k.2 ha) (length_lane k.2 hb)]
    rfl
  decode_inj a b ha hb h := by
    apply eq_of_lanes ha hb
    intro k hk
    exact A.decode_inj _ _ (length_lane hk ha) (length_lane hk hb) (congrFun h ⟨k, hk⟩)
  decode_surj x := by
    choose bits hlen hbits using fun k => A.decode_surj (x k)
    have hall : ∀ b ∈ List.ofFn bits, b.length = A.width := by
      intro b hb
      obtain ⟨k, rfl⟩ := List.mem_ofFn.mp hb
      exact hlen k
    refine ⟨(List.ofFn bits).flatten, ?_, ?_⟩
    · rw [BitField.length_flatten hall, List.length_ofFn]
    · funext k
      rw [lane_flatten hall (by simp), List.getElem_ofFn, hbits]

section
variable (A : BitAlgebra)

def zero : List Bool := List.replicate A.width false

@[simp] theorem length_zero : A.zero.length = A.width := List.length_replicate

@[simp] theorem decode_zero : A.decode A.zero = 0 := by
  have h := A.decode_xor A.zero A.zero A.length_zero A.length_zero
  rw [BitField.zipWith_xor_self, length_zero, A.add_self] at h
  exact h

end

end BitAlgebra
