import VolarIR.Field.SolinasSound
import VolarIR.Ir.FactorType

/-!
# Polynomials at valuations

A `Poly` is a sum of products. What it computes is fixed by the values of that sum in a few
commutative rings: one for each bit of a bitwise polynomial, the ring of an extension field,
and one ring of residues for each prime field in its type.
-/
namespace VolarIR.Ir

def sumAt {V R : Type} [CommRing R] (x : V → R) (terms : List (List V × U8)) : R :=
  (terms.map fun t => (t.2.toNat : R) * (t.1.map x).prod).sum

section
variable {V R : Type} [CommRing R] (x : V → R)

@[simp] theorem sumAt_nil : sumAt x [] = 0 := rfl

@[simp] theorem sumAt_cons (t : List V × U8) (terms : List (List V × U8)) :
    sumAt x (t :: terms) = t.2.toNat * (t.1.map x).prod + sumAt x terms := by
  simp [sumAt]

theorem sumAt_perm {terms terms' : List (List V × U8)} (h : terms.Perm terms') :
    sumAt x terms = sumAt x terms' := (h.map _).sum_eq

theorem sumAt_append (terms terms' : List (List V × U8)) :
    sumAt x (terms ++ terms') = sumAt x terms + sumAt x terms' := by
  simp [sumAt]

theorem sumAt_map {U : Type} (f : U → V) (terms : List (List U × U8)) :
    sumAt x (terms.map fun t => (t.1.map f, t.2)) = sumAt (x ∘ f) terms := by
  simp [sumAt, Function.comp_def]

theorem sumAt_congr {y : V → R} {terms : List (List V × U8)}
    (h : ∀ t ∈ terms, ∀ v ∈ t.1, x v = y v) : sumAt x terms = sumAt y terms := by
  unfold sumAt
  apply congrArg
  apply List.map_congr_left
  intro t ht
  rw [List.map_congr_left (h t ht)]

end

theorem cast_toNat_of_two {R : Type} [CommRing R] (h : (2 : R) = 0) (c : U8) :
    (c.toNat : R) = if odd c then 1 else 0 := by
  have hodd : odd c = decide (c.toNat % 2 = 1) := by
    unfold odd
    rw [BitVec.getLsbD, Nat.testBit_zero]
  rw [hodd]
  have hsplit : (c.toNat : R) = ((c.toNat % 2 + 2 * (c.toNat / 2) : ℕ) : R) := by
    rw [Nat.mod_add_div]
  rw [hsplit, Nat.cast_add, Nat.cast_mul, Nat.cast_ofNat, h, zero_mul, add_zero]
  rcases Nat.mod_two_eq_zero_or_one c.toNat with hmod | hmod <;> simp [hmod]

section
variable (table : TypeTable)

/-- What may stand as a factor of a product of type `ty`: an element, a gate, a coefficient of
the extension, an element for every lane or part, and for bitwise products anything with a bit
for every result bit. -/
inductive FactorTyped (ty fty : TypeId) : Prop
  | own (same : table.sameType fty ty = true)
  | gate (bit : table.isBit fty = true)
  | constant {wrapped : TypeId} {degree : ℕ} {irreducible : List U64}
      (get : table.get ty = some (.extField wrapped degree irreducible))
      (same : table.sameType fty wrapped = true)
  | broadcast {n : ℕ} {elem : TypeId} (ring : table.mulIsIdempotent ty = false)
      (get : table.get ty = some (.vec n elem)) (same : table.sameType fty elem = true)
  | parts {parts : List TypeId} (ring : table.mulIsIdempotent ty = false)
      (get : table.get ty = some (.tuple parts))
      (same : ∀ part ∈ parts, table.sameType fty part = true)
  | wide (idem : table.mulIsIdempotent ty = true)
      (le : table.bitWidth ty ≤ table.bitWidth fty)

/-- A factor of a product of type `ty`, with the bits its type has. -/
structure FactorFits (ty : TypeId) (f : Factor Bool) : Prop where
  typed : FactorTyped table ty f.1
  length : f.2.length = table.bitWidth f.1

def moduliFrom : (fuel : ℕ) → TypeId → List ℕ
  | 0, _ => []
  | fuel + 1, ty =>
      match table.get ty with
      | some (.vec _ elem) => moduliFrom fuel elem
      | some (.tuple parts) => parts.flatMap (moduliFrom fuel)
      | some (.primeField k n) => [PrimeSpec.modulus ⟨k, n⟩]
      | _ => []

def moduli (ty : TypeId) : List ℕ := moduliFrom table table.types.length ty

/-- The characteristic a sum of type `ty` has at a valuation into `R`. -/
def CharOf (ty : TypeId) (R : Type) [CommRing R] : Prop :=
  if table.containsPrimeField ty = true then ∃ p ∈ moduli table ty, (p : R) = 0 else (2 : R) = 0

/-- Values of the factors of type `ty` in a ring, as a product of that type has them. -/
structure Reading {R : Type} [CommRing R] (ty : TypeId) (x : Factor Bool → R) : Prop where
  zero : ∀ fty, FactorTyped table ty fty → x (fty, List.replicate (table.bitWidth fty) false) = 0
  one : ∀ fty bits, FactorTyped table ty fty →
    (table.mulIsIdempotent ty = true → table.mulIsIdempotent fty = true) →
    mulIdentity table fty = some bits → x (fty, bits) = 1
  idem : ∀ f, FactorFits table ty f → table.mulIsIdempotent f.1 = true → x f * x f = x f
  congr : ∀ f g, FactorFits table ty f → FactorFits table ty g → f.2 = g.2 →
    table.mulIsIdempotent ty = true ∨ table.sameType f.1 g.1 = true → x f = x g

structure Valuation {R : Type} [CommRing R] (ty : TypeId) (x : Factor Bool → R) : Prop
    extends Reading table ty x where
  char : CharOf table ty R

end

def SameSums (table : TypeTable) (ty : TypeId) (terms terms' : List (Term Bool)) : Prop :=
  ∀ (R : Type) [CommRing R] (x : Factor Bool → R), Valuation table ty x →
    sumAt x terms = sumAt x terms'

def bitVal (b : Bool) : ZMod 2 := if b then 1 else 0

theorem bitVal_injective : Function.Injective bitVal := by decide

theorem bitVal_xor (a b : Bool) : bitVal (a ^^ b) = bitVal a + bitVal b := by
  revert a b
  decide

theorem bitVal_all {V : Type} (p : V → Bool) (vs : List V) :
    bitVal (vs.all p) = (vs.map fun v => bitVal (p v)).prod := by
  induction vs with
  | nil => rfl
  | cons v vs ih =>
      rw [List.all_cons, List.map_cons, List.prod_cons, ← ih]
      cases p v <;> simp [bitVal]

/-- What the interpreter knows of a var as a factor. -/
def Value.asFactor (v : Value) : Factor Bool := (v.ty.getD ⟨0⟩, v.bits)

structure ValueFits (table : TypeTable) (ty : TypeId) (v : Value) : Prop where
  typed : v.ty.isSome = true
  fits : FactorFits table ty v.asFactor

theorem ValueFits.factor_eq {table : TypeTable} {ty : TypeId} {v : Value}
    (h : ValueFits table ty v) : v.factor = some v.asFactor := by
  obtain ⟨fty, hfty⟩ := Option.isSome_iff_exists.mp h.typed
  rw [Value.factor, Value.asFactor, hfty]
  rfl

theorem xorInto_eq {acc product : List Bool} (h : acc.length = product.length) :
    xorInto acc product = List.zipWith xor acc product := by
  apply List.ext_getElem
  · simp [xorInto, h]
  · intro i hi hi'
    have hlt : i < product.length := by
      simp [xorInto] at hi
      omega
    simp [xorInto, hlt]

def factorTerms (terms : List ValueTerm) : List (Term Bool) :=
  terms.map fun t => (t.1.map Value.asFactor, t.2)

@[simp] theorem factorTerms_cons (t : ValueTerm) (terms : List ValueTerm) :
    factorTerms (t :: terms) = (t.1.map Value.asFactor, t.2) :: factorTerms terms := rfl

/-- The factor's bit at position `k`, the single bit of a scalar at every position. -/
def laneAt (k : ℕ) (f : Factor Bool) : ZMod 2 :=
  bitVal (if f.2.length = 1 then f.2.headD false else f.2.getD k false)

theorem foldl_parity (k : ℕ) (terms : List ValueTerm) (b : Bool) :
    bitVal (terms.foldl (fun acc term =>
      if odd term.2 then acc ^^ term.1.all (·.lane k) else acc) b) =
      bitVal b + sumAt (laneAt k) (factorTerms terms) := by
  induction terms generalizing b with
  | nil => simp [factorTerms]
  | cons t rest ih =>
      have hprod : bitVal (t.1.all (·.lane k)) =
          ((t.1.map Value.asFactor).map (laneAt k)).prod := by
        rw [bitVal_all, List.map_map]
        rfl
      rw [List.foldl_cons, ih, factorTerms_cons, sumAt_cons, cast_toNat_of_two (by decide)]
      cases odd t.2 with
      | false => simp
      | true => simp [bitVal_xor, hprod, add_assoc]

theorem evalBitPoly_congr {c : Constant} {width : ℕ} {terms terms' : List ValueTerm}
    (h : ∀ k < width, sumAt (laneAt k) (factorTerms terms) =
      sumAt (laneAt k) (factorTerms terms')) :
    evalBitPoly c width terms = evalBitPoly c width terms' := by
  unfold evalBitPoly
  apply List.map_congr_left
  intro k hk
  apply bitVal_injective
  rw [foldl_parity, foldl_parity, h k (List.mem_range.mp hk)]

section
variable {table : TypeTable} {ty : TypeId}

theorem FactorTyped.lane_lt (hidem : table.mulIsIdempotent ty = true) {fty : TypeId}
    (h : FactorTyped table ty fty) :
    table.bitWidth fty = 1 ∨ table.bitWidth ty ≤ table.bitWidth fty := by
  cases h with
  | own same => exact .inr (bitWidth_congr (TypeTable.get_of_sameType same)).ge
  | gate bit => exact .inl (bitWidth_of_isBit bit)
  | constant get =>
      unfold TypeTable.mulIsIdempotent at hidem
      obtain ⟨fuel, hfuel⟩ := TypeTable.exists_length get
      rw [hfuel, mulIsIdempotentFrom, get] at hidem
      cases hidem
  | broadcast ring => exact absurd hidem (by rw [ring]; decide)
  | parts ring => exact absurd hidem (by rw [ring]; decide)
  | wide _ le => exact .inr le

theorem valuation_laneAt (hprime : table.containsPrimeField ty = false)
    (hidem : table.mulIsIdempotent ty = true) {k : ℕ} (hk : k < table.bitWidth ty) :
    Valuation table ty (laneAt k) := by
  have hchar : CharOf table ty (ZMod 2) := by
    unfold CharOf
    rw [if_neg (by rw [hprime]; decide)]
    decide
  refine ⟨⟨?zero, ?one, ?idem, ?congr⟩, hchar⟩
  case zero =>
    intro fty _
    have hbit : (if (List.replicate (table.bitWidth fty) false).length = 1 then
        (List.replicate (table.bitWidth fty) false).headD false
        else (List.replicate (table.bitWidth fty) false).getD k false) = false := by
      rw [List.getD_eq_getElem?_getD, List.getElem?_replicate, List.headD_eq_head?_getD,
        List.head?_replicate]
      split_ifs <;> rfl
    exact congrArg bitVal hbit
  case one =>
    intro fty bits htyped hfactor hbits
    rw [mulIdentity_of_idempotent (hfactor hidem) hbits]
    unfold laneAt
    rw [List.length_replicate]
    dsimp only
    split_ifs with hlen
    · rw [hlen]
      rfl
    · have hlt : k < table.bitWidth fty := by
        have := htyped.lane_lt hidem
        omega
      rw [List.getD_replicate _ hlt]
      rfl
  case idem =>
    intro f _ _
    unfold laneAt
    generalize (if f.2.length = 1 then f.2.headD false else f.2.getD k false) = b
    revert b
    decide
  case congr =>
    intro f g _ _ hbits _
    unfold laneAt
    rw [hbits]

end

end VolarIR.Ir
