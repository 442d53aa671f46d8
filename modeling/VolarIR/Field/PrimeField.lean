import VolarIR.Field.U256
import Mathlib.Data.List.DropRight

/-!
# Interning a prime field

`TypeTable::prime_field` of `prime.rs`: the modulus `2^k - n` must be canonical and must
pass Miller-Rabin with a fixed list of bases.
-/
namespace VolarIR

inductive PrimeFieldError where
  | bitLength
  | notCanonical
  | composite
  deriving DecidableEq, Repr

def lessThanPow2 (limbs : List U64) (exp : ℕ) : Bool :=
  let limbLimit := exp / 64
  if limbs.length > limbLimit + 1 then false
  else if limbs.length ≤ limbLimit then true
  else
    let shift := exp % 64
    let limit : U64 := if shift = 0 then 0 else 1#64 <<< shift
    decide (limbs.getD limbLimit 0 < limit)

/-- The limbs of `n` without leading zeros, when `0 < n < 2^(k-1)`. -/
def canonicalN (k : ℕ) (n : List U64) : Outcome PrimeFieldError (List U64) :=
  if ¬ (2 ≤ k ∧ k ≤ 256) then .error (.error .bitLength)
  else
    let limbs := n.rdropWhile (· == 0)
    if limbs.isEmpty || !lessThanPow2 limbs (k - 1) then .error (.error .notCanonical)
    else .ok limbs

/-- The first four limbs, zeros where `n` has none. -/
def U256.ofLimbs (n : List U64) : U256 :=
  ⟨(List.range 4).map fun i => n.getD i 0, by simp⟩

/-- `2^k - n`. For `k = 256` the power does not fit and `n` is negated instead. -/
def modulus (k : ℕ) (n : List U64) : Outcome PrimeFieldError U256 :=
  if k = 256 then .ok (U256.zero.sub (.ofLimbs n))
  else if h : k / 64 < 4 ∧ n.length ≤ 4 then
    let pow : U256 := ⟨U256.zero.limbs.set (k / 64) (1#64 <<< (k % 64)), by
      rw [List.length_set, U256.length_eq]⟩
    .ok (pow.sub (.ofLimbs n))
  else .error .panic

/-- `while !d.bit(0) { d = shr1(d); s += 1 }`. -/
def oddPart : (fuel : ℕ) → (d : U256) → (s : ℕ) → U256 × ℕ
  | 0, d, s => (d, s)
  | fuel + 1, d, s => if !d.bit 0 then oddPart fuel d.shr1 (s + 1) else (d, s)

/-- Square up to `n` times, looking for `p - 1`. -/
def witnessed (p : U256) : ℕ → U256 → Bool
  | 0, _ => false
  | n + 1, x =>
      let x := x.mulmod x p
      if x = p.sub (.fromU64 1) then true else witnessed p n x

/-- One base of the test, with `p - 1 = 2^s * d`. -/
def passesBase (p d : U256) (s : ℕ) (base : U64) : Bool :=
  let a := U256.fromU64 base
  if a.cmp p ≠ .lt then true
  else
    let x := a.powmod d p
    if x = .fromU64 1 ∨ x = p.sub (.fromU64 1) then true
    else witnessed p (s - 1) x

def smallBases : List U64 := [2, 3, 5, 7, 11, 13, 23]

def largeBases : List U64 := [2, 3, 5, 7, 11, 13, 17, 19, 23, 29, 31, 37]

def isPrime (p : U256) : Bool :=
  if p.cmp (.fromU64 2) = .lt then false
  else if p = .fromU64 2 ∨ p = .fromU64 3 then true
  else if !p.bit 0 then false
  else
    let (d, s) := oddPart 256 (p.sub (.fromU64 1)) 0
    let bases := if p.cmp (.fromU64 (BitVec.allOnes 64)) ≠ .gt then smallBases else largeBases
    bases.all (passesBase p d s)

/-- Intern `PrimeField { k, n }` when `2^k - n` is a canonical prime. -/
def TypeTable.primeField (table : TypeTable) (k : ℕ) (n : List U64) :
    Outcome PrimeFieldError (TypeId × TypeTable) := do
  let n ← canonicalN k n
  let p ← modulus k n
  if !isPrime p then .error (.error .composite)
  else .ok (table.intern (.primeField k n))

end VolarIR
