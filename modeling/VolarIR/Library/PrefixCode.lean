import Mathlib.Tactic.Common
import Mathlib.Data.List.Basic
import Mathlib.Algebra.Order.Ring.Nat

/-!
# Encodings that can be read back from the front of a stream

An encoder turns a value into symbols or refuses it. It reveals a view of the value when
the front of any stream that begins with an encoding determines that view and where the
encoding ends. Views compose field by field, along length-prefixed lists and over the
cases of a tagged union, so a nested format reveals its whole value.
-/
namespace PrefixCode

universe u

variable {ε α γ δ : Type*} {β : Type u}

abbrev Encoder (ε α : Type*) (β : Type u) := α → Except ε (List β)

def append (x y : Except ε (List β)) : Except ε (List β) := do
  let front ← x
  let back ← y
  return front ++ back

def chain (parts : List (Except ε (List β))) : Except ε (List β) :=
  parts.foldr append (.ok [])

@[simp] theorem chain_nil : chain ([] : List (Except ε (List β))) = .ok [] := rfl

@[simp] theorem chain_cons (x : Except ε (List β)) (xs : List (Except ε (List β))) :
    chain (x :: xs) = append x (chain xs) := rfl

theorem append_eq_ok {x y : Except ε (List β)} {z : List β} :
    append x y = .ok z ↔ ∃ front back, x = .ok front ∧ y = .ok back ∧ z = front ++ back := by
  cases x <;> cases y <;> simp [append, bind, Except.bind, pure, Except.pure, eq_comm]

@[simp] theorem append_ok (x y : List β) :
    append (.ok x : Except ε (List β)) (.ok y) = .ok (x ++ y) := rfl

def list (len : ℕ → Except ε (List β)) (enc : Encoder ε α β) (xs : List α) :
    Except ε (List β) :=
  append (len xs.length) (chain (xs.map enc))

/-- The front of a stream that begins with an encoding tells `view` of the value and where
the encoding ends. -/
def Reveals (enc : Encoder ε α β) (view : α → γ) : Prop :=
  ∀ ⦃a b x y r s⦄, enc a = .ok x → enc b = .ok y → x ++ r = y ++ s → view a = view b ∧ r = s

section Rules
variable {enc : Encoder ε α β} {view : α → γ}

theorem Reveals.fixed {f : α → List β} (n : ℕ) (hlen : ∀ a, (f a).length = n)
    (hinj : ∀ a b, f a = f b → view a = view b) :
    Reveals (fun a => (.ok (f a) : Except ε (List β))) view := by
  intro a b x y r s hx hy h
  cases hx
  cases hy
  have hsplit := List.append_inj h ((hlen a).trans (hlen b).symm)
  exact ⟨hinj a b hsplit.1, hsplit.2⟩

theorem Reveals.field (h : Reveals enc view) (f : δ → α) :
    Reveals (fun d => enc (f d)) (fun d => view (f d)) :=
  fun _ _ _ _ _ _ hx hy => h hx hy

theorem Reveals.of_view {view' : α → δ} (h : Reveals enc view)
    (hv : ∀ a b, view a = view b → view' a = view' b) : Reveals enc view' :=
  fun a b _ _ _ _ hx hy hr => (h hx hy hr).imp (hv a b) id

theorem Reveals.nil : Reveals (fun _ : α => chain ([] : List (Except ε (List β))))
    (fun _ => ()) := by
  intro a b x y r s hx hy h
  cases hx
  cases hy
  exact ⟨rfl, h⟩

theorem Reveals.append {enc' : Encoder ε α β} {view' : α → δ} (h : Reveals enc view)
    (h' : Reveals enc' view') :
    Reveals (fun a => append (enc a) (enc' a)) (fun a => (view a, view' a)) := by
  intro a b x y r s hx hy hr
  obtain ⟨x₁, x₂, hx₁, hx₂, rfl⟩ := append_eq_ok.mp hx
  obtain ⟨y₁, y₂, hy₁, hy₂, rfl⟩ := append_eq_ok.mp hy
  rw [List.append_assoc, List.append_assoc] at hr
  have hfront := h hx₁ hy₁ hr
  have hback := h' hx₂ hy₂ hfront.2
  exact ⟨Prod.ext hfront.1 hback.1, hback.2⟩

theorem Reveals.cons {parts : α → List (Except ε (List β))} {view' : α → δ}
    (h : Reveals enc view) (h' : Reveals (fun a => chain (parts a)) view') :
    Reveals (fun a => chain (enc a :: parts a)) (fun a => (view a, view' a)) :=
  h.append h'

theorem chain_map_inj (h : Reveals enc view) :
    ∀ {as bs : List α} {x y r s : List β}, as.length = bs.length →
      chain (as.map enc) = .ok x → chain (bs.map enc) = .ok y → x ++ r = y ++ s →
      as.map view = bs.map view ∧ r = s
  | [], [], _, _, _, _, _, hx, hy, hr => by
      cases hx
      cases hy
      exact ⟨rfl, hr⟩
  | a :: as, b :: bs, _, _, _, _, hlen, hx, hy, hr => by
      obtain ⟨x₁, x₂, hx₁, hx₂, rfl⟩ := append_eq_ok.mp hx
      obtain ⟨y₁, y₂, hy₁, hy₂, rfl⟩ := append_eq_ok.mp hy
      rw [List.append_assoc, List.append_assoc] at hr
      have hhead := h hx₁ hy₁ hr
      have htail := chain_map_inj h (Nat.succ.inj hlen) hx₂ hy₂ hhead.2
      rw [List.map_cons, List.map_cons, hhead.1, htail.1]
      exact ⟨rfl, htail.2⟩

theorem Reveals.list {len : ℕ → Except ε (List β)} (hlen : Reveals len id)
    (h : Reveals enc view) : Reveals (list len enc) (List.map view) := by
  intro as bs x y r s hx hy hr
  obtain ⟨x₁, x₂, hx₁, hx₂, rfl⟩ := append_eq_ok.mp hx
  obtain ⟨y₁, y₂, hy₁, hy₂, rfl⟩ := append_eq_ok.mp hy
  rw [List.append_assoc, List.append_assoc] at hr
  have hcount := hlen hx₁ hy₁ hr
  exact chain_map_inj h hcount.1 hx₂ hy₂ hcount.2

theorem Reveals.injective (h : Reveals enc id) {a b : α} {x : List β} (ha : enc a = .ok x)
    (hb : enc b = .ok x) : a = b :=
  (h (r := []) (s := []) ha hb rfl).1

theorem Reveals.eq_of_prefix (h : Reveals enc view) {a b : α} {x y : List β}
    (ha : enc a = .ok x) (hb : enc b = .ok y) (hp : x <+: y) : x = y := by
  obtain ⟨rest, rfl⟩ := hp
  have hrest : rest = [] := (h ha hb (List.append_nil (x ++ rest)).symm).2
  rw [hrest, List.append_nil]

end Rules

section LittleEndian

/-- The `k` low bytes of `n`, lowest first. -/
def leBytes : ℕ → ℕ → List (BitVec 8)
  | 0, _ => []
  | k + 1, n => BitVec.ofNat 8 n :: leBytes k (n / 256)

@[simp] theorem length_leBytes (k n : ℕ) : (leBytes k n).length = k := by
  induction k generalizing n with
  | zero => rfl
  | succ k ih => rw [leBytes, List.length_cons, ih]

/-- Numbers below `256 ^ k` are told apart by their `k` low bytes. -/
theorem leBytes_inj {k n m : ℕ} (hn : n < 256 ^ k) (hm : m < 256 ^ k)
    (h : leBytes k n = leBytes k m) : n = m := by
  induction k generalizing n m with
  | zero => omega
  | succ k ih =>
      have hhead := congrArg BitVec.toNat (List.cons.inj h).1
      have htail : n / 256 = m / 256 := by
        apply ih _ _ (List.cons.inj h).2
        · exact Nat.div_lt_of_lt_mul (by rwa [Nat.pow_succ'] at hn)
        · exact Nat.div_lt_of_lt_mul (by rwa [Nat.pow_succ'] at hm)
      simp only [BitVec.toNat_ofNat] at hhead
      omega

theorem reveals_leBytes {view : α → ℕ} {k : ℕ} (hk : ∀ a, view a < 256 ^ k) :
    Reveals (fun a => (.ok (leBytes k (view a)) : Except ε (List (BitVec 8)))) view :=
  Reveals.fixed k (fun a => length_leBytes k (view a))
    (fun a b => leBytes_inj (hk a) (hk b))

end LittleEndian
end PrefixCode
