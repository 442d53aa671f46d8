import VolarIR.Field.TypeTable
import VolarIR.Library.Limbs
import Mathlib.Algebra.Field.Defs

/-!
# Prime-field arithmetic on boolean digits

The circuits of `prime.rs`: a residue modulo `2^k - n` is a string of `k` wires holding `0`
or `1` of a native field, and sums and products are reduced with `2^k ≡ n`.
-/
namespace VolarIR

abbrev U8 := BitVec 8

/-- Little-endian modulus parameters of `2^k - n`. -/
structure PrimeSpec where
  k : ℕ
  n : List U64
  deriving DecidableEq, Repr

/-- The number `n` of a modulus `2^k - n`. -/
def PrimeSpec.offset (spec : PrimeSpec) : ℕ := Limbs.value spec.n

def PrimeSpec.modulus (spec : PrimeSpec) : ℕ := 2 ^ spec.k - spec.offset

/-- Operations of one native field element. The sinks of the source also record what they
emit; no circuit reads that record. -/
structure FieldSink (W : Type) where
  zero : W
  one : W
  add : W → W → W
  sub : W → W → W
  mul : W → W → W
  charTwo : Bool

/-- The field `Bit`. -/
def boolRing : FieldSink Bool := ⟨false, true, xor, xor, and, true⟩

/-- The wires of a sink stand for elements of a field. -/
structure FieldSink.IsField {W F : Type} [Field F] (sink : FieldSink W) (den : W → F) : Prop where
  zero : den sink.zero = 0
  one : den sink.one = 1
  add : ∀ x y, den (sink.add x y) = den x + den y
  sub : ∀ x y, den (sink.sub x y) = den x - den y
  mul : ∀ x y, den (sink.mul x y) = den x * den y
  charTwo : sink.charTwo = true ↔ (1 : F) + 1 = 0

section
variable {W : Type} (sink : FieldSink W)

/-- Exclusive or on `{0, 1}`: `a + b - 2ab` unless `2 = 0`. -/
def embedXor (lhs rhs : W) : W :=
  if sink.charTwo then sink.add lhs rhs
  else
    let both := sink.mul lhs rhs
    let twice := sink.add both both
    let sum := sink.add lhs rhs
    sink.sub sum twice

def embedAnd (lhs rhs : W) : W := sink.mul lhs rhs

def digit (bits : List W) (index : ℕ) : W := bits.getD index sink.zero

/-- The first `len` wires, zeros past the end. -/
def resize (bits : List W) (len : ℕ) : List W :=
  bits.take len ++ List.replicate (len - bits.length) sink.zero

def nDigits (spec : PrimeSpec) : List W :=
  (List.range spec.k).map fun bit =>
    if (spec.n.getD (bit / 64) 0).getLsbD (bit % 64) then sink.one else sink.zero

def orGate (lhs rhs : W) : W :=
  let either := embedXor sink lhs rhs
  let both := embedAnd sink lhs rhs
  embedXor sink either both

def notGate (bit : W) : W := embedXor sink bit sink.one

def mux (sel yes no : W) : W :=
  let taken := embedAnd sink sel yes
  let inv := notGate sink sel
  let other := embedAnd sink inv no
  orGate sink taken other

/-- The positions from `index` on of the sum, `left` of them, and the last carry. -/
def addDigitsFrom (lhs rhs : List W) : (left index : ℕ) → (carry : W) → List W
  | 0, _, carry => [carry]
  | left + 1, index, carry =>
      let a := digit sink lhs index
      let b := digit sink rhs index
      let axb := embedXor sink a b
      let both := embedAnd sink a b
      let carryIn := embedAnd sink carry axb
      embedXor sink axb carry ::
        addDigitsFrom lhs rhs left (index + 1) (orGate sink both carryIn)

def addDigits (lhs rhs : List W) : List W :=
  addDigitsFrom sink lhs rhs (max lhs.length rhs.length) 0 sink.zero

/-- Add `lhs` shifted by `i` for each digit of `rhs`, the first of which stands at `i`. -/
def schoolbookFrom (lhs : List W) (len : ℕ) : (i : ℕ) → (rhs acc : List W) → List W
  | _, [], acc => acc
  | i, bit :: rest, acc =>
      let shifted := List.replicate i sink.zero ++ lhs.map fun src => embedAnd sink src bit
      schoolbookFrom lhs len (i + 1) rest ((addDigits sink acc shifted).take len)

def schoolbookMul (lhs rhs : List W) : List W :=
  schoolbookFrom sink lhs (lhs.length + rhs.length) 0 rhs
    (List.replicate (lhs.length + rhs.length) sink.zero)

/-- Subtract one with the borrow rippled up: `n - 1` within the digits of `n`. -/
def decrementFrom : (bits : List W) → (borrow : W) → List W
  | [], _ => []
  | bit :: bits, borrow =>
      embedXor sink bit borrow :: decrementFrom bits (embedAnd sink (notGate sink bit) borrow)

/-- Within `k` bits, `2^k - n = !(n - 1)`. -/
def modulusDigits (spec : PrimeSpec) : List W :=
  (decrementFrom sink (nDigits sink spec) sink.one).map (notGate sink)

/-- The positions from `index` on of the difference, `left` of them, and the final borrow. -/
def subDigitsFrom (value modulus : List W) : (left index : ℕ) → (borrow : W) → List W × W
  | 0, _, borrow => ([], borrow)
  | left + 1, index, borrow =>
      let v := digit sink value index
      let p := digit sink modulus index
      let vxp := embedXor sink v p
      let need := embedAnd sink (notGate sink v) p
      let chain := embedAnd sink borrow (notGate sink vxp)
      let rest := subDigitsFrom value modulus left (index + 1) (orGate sink need chain)
      (embedXor sink vxp borrow :: rest.1, rest.2)

/-- One conditional subtraction of the modulus. -/
def subPIfGe (value : List W) (spec : PrimeSpec) : List W :=
  let (diff, borrow) := subDigitsFrom sink value (modulusDigits sink spec) spec.k 0 sink.zero
  let extra := digit sink value spec.k
  -- a final borrow means the k-bit value is strictly less than p
  let ge := notGate sink borrow
  let tooBig := orGate sink extra ge
  (List.range spec.k).map fun index =>
    mux sink tooBig (digit sink diff index) (digit sink value index)

def reduceSum (sum : List W) (spec : PrimeSpec) : List W :=
  let lo := (List.range spec.k).map fun i => digit sink sum i
  let hi := digit sink sum spec.k
  let correction := (nDigits sink spec).map fun bit => embedAnd sink bit hi
  subPIfGe sink (addDigits sink lo correction) spec

/-- One fold of the high half of `2k` digits: `hi * 2^k ≡ hi * n`. -/
def foldProduct (spec : PrimeSpec) (cur : List W) : List W :=
  let lo := cur.take spec.k
  let hi := (cur.drop spec.k).take spec.k
  let hiN := resize sink (schoolbookMul sink hi (nDigits sink spec)) (spec.k * 2)
  let loExt := resize sink lo (spec.k * 2)
  (addDigits sink loExt hiN).take (spec.k * 2)

def reduceProduct (prod : List W) (spec : PrimeSpec) : List W :=
  subPIfGe sink ((foldProduct sink spec)^[spec.k] (resize sink prod (spec.k * 2))) spec

/-- `(lhs + rhs) mod p`, each input a `k`-digit residue. -/
def solinasAdd (lhs rhs : List W) (spec : PrimeSpec) : List W :=
  reduceSum sink (addDigits sink lhs rhs) spec

/-- `(lhs * rhs) mod p`. -/
def solinasMul (lhs rhs : List W) (spec : PrimeSpec) : List W :=
  let a := resize sink lhs spec.k
  let b := resize sink rhs spec.k
  reduceProduct sink (schoolbookMul sink a b) spec

end

/-- A repetition count modulo `p`; a prime of more than eight bits exceeds every count. -/
def repetitionResidue (coeff : U8) (spec : PrimeSpec) : ℕ :=
  if spec.k > 8 then coeff.toNat
  else
    let n := ((spec.n.head?.getD 0).setWidth 16).toNat
    let prime := 2 ^ spec.k - n
    coeff.toNat % prime

/-- Add `times` copies of `elem` onto `acc`. -/
def solinasRepeat {W : Type} (sink : FieldSink W) (acc elem : List W) (times : U8)
    (spec : PrimeSpec) : List W :=
  (fun out => solinasAdd sink out elem spec)^[repetitionResidue times spec] acc

end VolarIR
