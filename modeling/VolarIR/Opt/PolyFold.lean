import VolarIR.Common.PolyCoeffs
import VolarIR.Ir.PolyEval
import Mathlib.Data.List.Sort

/-!
# Folding a polynomial in place

`fold_poly_in_place` of `volar-ir-opt/src/common.rs`, for bits, extension fields and prime
fields, with the 256-bit constants it computes on. A panic is `none`.
-/
namespace VolarIR.Opt
open Ir

def constantIsZero (c : Constant) : Bool := decide (c.hi = 0 ∧ c.lo = 0)

def fullConstant : Constant := ⟨BitVec.allOnes 128, BitVec.allOnes 128⟩

/-- Zero out the bits from `width` on. -/
def maskConstant (c : Constant) (width : ℕ) : Constant :=
  if width = 0 then .zero
  else if width ≥ 256 then c
  else if width ≥ 128 then
    let hiBits := width - 128
    let hiMask := if hiBits ≥ 128 then BitVec.allOnes 128 else 1#128 <<< hiBits - 1
    ⟨c.hi &&& hiMask, c.lo⟩
  else ⟨0, c.lo &&& (1#128 <<< width - 1)⟩

/-- The low `width` bits are set and no other; beyond 256 bits it is all that there are. -/
def constantIsAllOnes (c : Constant) (width : ℕ) : Bool :=
  decide (c = maskConstant fullConstant width)

def constantXor (a b : Constant) : Constant := ⟨a.hi ^^^ b.hi, a.lo ^^^ b.lo⟩

/-- The first 256 bits as a constant. `constant_to_bits` is `constBits`. -/
def bitsToConstant (bits : List Bool) : Constant :=
  bits.zipIdx.foldl (fun c (set, bit) =>
    if !set then c
    else if bit < 128 then { c with lo := c.lo ||| 1#128 <<< bit }
    else if bit < 256 then { c with hi := c.hi ||| 1#128 <<< (bit - 128) }
    else c) .zero

section
variable (table : TypeTable)

def containsExtFieldFrom : (fuel : ℕ) → TypeId → Bool
  | 0, _ => false
  | fuel + 1, ty =>
      match table.get ty with
      | some (.extField ..) => true
      | some (.vec _ elem) => containsExtFieldFrom fuel elem
      | some (.tuple parts) => parts.any (containsExtFieldFrom fuel)
      | _ => false

def isFieldType (ty : TypeId) : Bool := containsExtFieldFrom table table.types.length ty

/-- The one prime field all lanes and parts of a type share. -/
def uniformPrimeSpecFrom : (fuel : ℕ) → TypeId → Option PrimeSpec
  | 0, _ => none
  | fuel + 1, ty =>
      match table.get ty with
      | some (.primeField k n) => some ⟨k, n⟩
      | some (.vec _ elem) => uniformPrimeSpecFrom fuel elem
      | some (.tuple parts) => do
          let found ← parts.foldlM (fun found part => do
            let spec ← uniformPrimeSpecFrom fuel part
            match found with
            | some prev => if prev ≠ spec then none else some found
            | none => some (some spec)) none
          found
      | _ => none

def uniformPrimeSpec (ty : TypeId) : Option PrimeSpec :=
  uniformPrimeSpecFrom table table.types.length ty

/-- Two repetition counts of one monomial together; `none` when the sum fits no coefficient. -/
def mergeRepetition (prev add : U8) (spec : Option PrimeSpec) : Option U8 :=
  let checked := if prev.toNat + add.toNat > 255 then none else some (prev + add)
  match spec with
  | some spec =>
      if spec.k ≤ 8 then
        let n := ((spec.n.head?.getD 0).setWidth 16).toNat
        let prime := 2 ^ spec.k - n
        some (.ofNat 8 ((prev.toNat + add.toNat) % prime))
      else checked
  | none => checked

def storedCount (spec : Option PrimeSpec) (coeff : U8) : U8 :=
  match spec with
  | some spec => .ofNat 8 (repetitionResidue coeff spec)
  | none => coeff

def constantIsMulIdentity (c : Constant) (ty : TypeId) : Bool :=
  match mulIdentity table ty with
  | some identity => decide (constBits c identity.length = identity)
  | none => false

variable {V : Type} [LinearOrder V] (constMap : V → Option Constant) (typeMap : V → Option TypeId)

def hasField (key : List V) : Bool :=
  key.any fun v => (typeMap v).any fun tid => !table.mulIsIdempotent tid

def andFactor (v : V) (c : Constant) : ℕ × Constant :=
  let w := ((typeMap v).bind table.valueBitWidth).getD 1
  (w, maskConstant c w)

/-- The factors of an AND that remain; `none` when one is zero. -/
def simplifyKey : List V → Option (List V)
  | [] => some []
  | v :: rest =>
      match constMap v with
      | some c =>
          let (w, masked) := andFactor table typeMap v c
          if constantIsZero masked then none
          else if constantIsAllOnes masked w then simplifyKey rest
          else (simplifyKey rest).map (v :: ·)
      | none => (simplifyKey rest).map (v :: ·)

structure Simplified (V : Type) where
  newKey : List V
  constFactors : List (Factor Bool)
  allConstant : Bool

/-- The factors of a product that remain; `none` when one is zero. -/
def simplifyFactors : List V → Option (Simplified V)
  | [] => some ⟨[], [], true⟩
  | v :: rest =>
      match typeMap v, constMap v with
      | some factorTy, some c =>
          let factorWidth := (table.valueBitWidth factorTy).getD 1
          let masked := maskConstant c factorWidth
          if constantIsZero masked then none
          else if constantIsMulIdentity table masked factorTy then simplifyFactors rest
          else (simplifyFactors rest).map fun s => { s with
            newKey := v :: s.newKey
            constFactors := (factorTy, constBits masked factorWidth) :: s.constFactors }
      | _, _ => (simplifyFactors rest).map fun s => { s with
          newKey := v :: s.newKey
          allConstant := false }

/-- Sorted, and of equal neighbours that `idempotent` accepts only one. -/
def collapse (idempotent : V → Bool) (newKey : List V) : List V :=
  (newKey.insertionSort (· ≤ ·)).foldl (fun deduped v =>
    if idempotent v && decide (deduped.getLast? = some v) then deduped else deduped ++ [v]) []

def idempotentVar (v : V) : Bool := (typeMap v).any table.mulIsIdempotent

/-- A collapsed key is shorter than the key it comes from when a factor was dropped, or two
were merged. -/
def shortened (key newKey deduped : List V) : Bool :=
  decide (deduped.length ≠ newKey.length) || decide (deduped.length ≠ key.length)

structure PolyFold (V : Type) where
  newCoeffs : Common.PolyCoeffs V
  constant : Constant
  changed : Bool
  deriving DecidableEq

def PolyFold.finish (st : PolyFold V) (coeffs : Common.PolyCoeffs V) (keep : U8 → Bool) :
    PolyFold V :=
  let newCoeffs := st.newCoeffs.retain fun _ _ c => (c, keep c)
  ⟨newCoeffs, st.constant, st.changed || decide (newCoeffs ≠ coeffs)⟩

def PolyFold.masked (st : PolyFold V) (width : Option ℕ) : PolyFold V :=
  match width with
  | some w =>
      let masked := maskConstant st.constant w
      if masked ≠ st.constant then { st with constant := masked, changed := true } else st
  | none => st

/-- One monomial of an AND-XOR polynomial. -/
def foldBitTerm (ty : TypeId) (st : PolyFold V) (term : List V × U8) : PolyFold V :=
  let (key, coeff) := term
  if !odd coeff then { st with changed := true }
  else if hasField table typeMap key then
    { st with newCoeffs := st.newCoeffs.entryOrInsert key 0 (· ^^^ coeff) }
  else
    match simplifyKey table constMap typeMap key with
    | none => { st with changed := true }
    | some newKey =>
        let deduped := collapse (fun _ => true) newKey
        if deduped.isEmpty then
          let w := (table.valueBitWidth ty).getD 1
          { st with
            constant := constantXor st.constant (maskConstant fullConstant w)
            changed := true }
        else { st with
          newCoeffs := st.newCoeffs.entryOrInsert deduped 0 (· ^^^ coeff)
          changed := st.changed || shortened key newKey deduped }

def foldBitPoly (ty : TypeId) (coeffs : Common.PolyCoeffs V) (constant : Constant) : PolyFold V :=
  let st := coeffs.iter.foldl (foldBitTerm table constMap typeMap ty) ⟨.new, constant, false⟩
  (st.finish coeffs odd).masked (table.valueBitWidth ty)

/-- One monomial of a polynomial over an extension field. -/
def foldExtensionTerm (ty : TypeId) (width : ℕ) (st : PolyFold V) (term : List V × U8) :
    Option (PolyFold V) :=
  let (key, coeff) := term
  if !odd coeff then some { st with changed := true }
  else
    match simplifyFactors table constMap typeMap key with
    | none => some { st with changed := true }
    | some s =>
        if s.allConstant && decide (width ≤ 256) then do
          let product ← monomialProduct boolBits table ty s.constFactors
          some { st with
            constant := constantXor st.constant (bitsToConstant product)
            changed := true }
        else
          let deduped := collapse (idempotentVar table typeMap) s.newKey
          if deduped.isEmpty then
            match mulIdentity table ty with
            | some identity => some { st with
                constant := constantXor st.constant (bitsToConstant identity)
                changed := true }
            | none => some { st with changed := true }
          else some { st with
            newCoeffs := st.newCoeffs.entryOrInsert deduped 0 (· ^^^ coeff)
            changed := st.changed || shortened key s.newKey deduped }

def foldExtensionPoly (ty : TypeId) (coeffs : Common.PolyCoeffs V) (constant : Constant) :
    Option (PolyFold V) :=
  match table.valueBitWidth ty with
  | none => some ⟨coeffs, constant, false⟩
  | some width => do
      let st ← coeffs.iter.foldlM (foldExtensionTerm table constMap typeMap ty width)
        ⟨.new, constant, false⟩
      some ((st.finish coeffs odd).masked (some width))

/-- One monomial of a polynomial over prime fields; the flag is `overflow`. -/
def foldPrimeTerm (ty : TypeId) (width : ℕ) (spec : Option PrimeSpec) (st : PolyFold V × Bool)
    (term : List V × U8) : Option (PolyFold V × Bool) :=
  let (st, overflow) := st
  let (key, coeff) := term
  let stored := storedCount spec coeff
  if stored = 0 then some ({ st with changed := true }, overflow)
  else
    match simplifyFactors table constMap typeMap key with
    | none => some ({ st with changed := true }, overflow)
    | some s =>
        if s.allConstant && decide (width ≤ 256) then do
          let reduced ← evalPrimePoly boolRing table ty (constBits st.constant width)
            [(s.constFactors, stored)]
          some ({ st with constant := bitsToConstant reduced, changed := true }, overflow)
        else
          let deduped := collapse (idempotentVar table typeMap) s.newKey
          let changed := st.changed || shortened key s.newKey deduped
          if deduped.isEmpty && decide (width ≤ 256) then do
            let reduced ← evalPrimePoly boolRing table ty (constBits st.constant width)
              [([], stored)]
            some ({ st with constant := bitsToConstant reduced, changed := true }, overflow)
          else
            match st.newCoeffs.get deduped with
            | some prev =>
                match mergeRepetition prev stored spec with
                | some sum =>
                    let newCoeffs :=
                      if sum = 0 then (st.newCoeffs.remove deduped).2
                      else (st.newCoeffs.insert deduped sum).2
                    some (⟨newCoeffs, st.constant, true⟩, overflow)
                | none => some ({ st with changed }, true)
            | none =>
                some (⟨(st.newCoeffs.insert deduped stored).2, st.constant, changed⟩, overflow)

def foldPrimePoly (ty : TypeId) (coeffs : Common.PolyCoeffs V) (constant : Constant) :
    Option (PolyFold V) :=
  match table.valueBitWidth ty with
  | none => some ⟨coeffs, constant, false⟩
  | some width => do
      let spec := uniformPrimeSpec table ty
      let (st, overflow) ← coeffs.iter.foldlM
        (foldPrimeTerm table constMap typeMap ty width spec) (⟨.new, constant, false⟩, false)
      if overflow then some ⟨coeffs, constant, false⟩
      else
        let st := st.finish coeffs (· ≠ 0)
        if width ≤ 256 then
          let reduced ← evalPrimePoly boolRing table ty (constBits st.constant width) []
          let masked := bitsToConstant reduced
          some (if masked ≠ st.constant then { st with constant := masked, changed := true }
            else st)
        else some st

/-- `fold_poly_in_place`: the folded coefficients and constant, and whether anything changed. -/
def foldPolyInPlace (ty : TypeId) (coeffs : Common.PolyCoeffs V) (constant : Constant) :
    Option (PolyFold V) :=
  if table.containsPrimeField ty then foldPrimePoly table constMap typeMap ty coeffs constant
  else if isFieldType table ty then foldExtensionPoly table constMap typeMap ty coeffs constant
  else some (foldBitPoly table constMap typeMap ty coeffs constant)

end

end VolarIR.Opt
