import VolarIR.Field.U256
import VolarIR.Library.Hexadecimal
import VolarIR.Library.Numerals

/-!
# Field import names

The name `volar.field.<op>.d<degree>.<wrapped>.p<hex>` of an imported field operation: how it
is formatted from a field and parsed back. Names are lists of characters.
-/
namespace VolarIR

inductive FieldOp where
  | add
  | mul
  | pack
  | unpack
  deriving DecidableEq, Repr

mutual
/-- A field encoded in an import name; `irreducible` includes the leading 1. -/
structure FieldSpec where
  degree : ℕ
  wrapped : WrappedSpec
  irreducible : List U64

inductive WrappedSpec where
  | bit
  | field (inner : FieldSpec)
end

/-- An imported `volar.field.<op>.…` symbol. -/
structure FieldSymbol where
  op : FieldOp
  field : FieldSpec

mutual
def fieldSpecWidth : FieldSpec → ℕ
  | ⟨degree, wrapped, _⟩ => degree * coeffWidth wrapped

def coeffWidth : WrappedSpec → ℕ
  | .bit => 1
  | .field inner => fieldSpecWidth inner
end

def opName : FieldOp → List Char
  | .add => ['a', 'd', 'd']
  | .mul => ['m', 'u', 'l']
  | .pack => ['p', 'a', 'c', 'k']
  | .unpack => ['u', 'n', 'p', 'a', 'c', 'k']

def fieldSymbolHead : List Char := ['v', 'o', 'l', 'a', 'r', '.', 'f', 'i', 'e', 'l', 'd', '.']

def irreducibleBits (irreducible : List U64) (degree width : ℕ) : List Bool :=
  (irreducible.take degree).flatMap fun coeff => (List.range width).map coeff.getLsbD

mutual
/-- What `push_field_body` pushes. -/
def fieldBody : FieldSpec → List Char
  | ⟨degree, wrapped, irreducible⟩ =>
      'd' :: Nat.toDigits 10 degree ++ '.' :: wrappedBody wrapped ++ ['.', 'p'] ++
        Hexadecimal.print (irreducibleBits irreducible degree (coeffWidth wrapped))

def wrappedBody : WrappedSpec → List Char
  | .bit => ['b', 'i', 't']
  | .field inner => 'e' :: fieldBody inner
end

def formatFieldSymbol (op : FieldOp) (spec : FieldSpec) : List Char :=
  fieldSymbolHead ++ opName op ++ '.' :: fieldBody spec

def splitDot (input : List Char) : Option (List Char × List Char) :=
  match input.dropWhile (· != '.') with
  | [] => none
  | _ :: tail =>
      if input.takeWhile (· != '.') = [] then none
      else some (input.takeWhile (· != '.'), tail)

def takeHex (input : List Char) : List Char × List Char :=
  (input.takeWhile Hexadecimal.isHexDigit, input.dropWhile Hexadecimal.isHexDigit)

/-- `degree` coefficients of `coeffWidth` bits each from a hexadecimal numeral, and the leading
one. -/
def irreducibleFromHex (hex : List Char) (degree coeffWidth : ℕ) : Option (List U64) := do
  let bits := Hexadecimal.trim (← Hexadecimal.read hex)
  let needed := degree * coeffWidth
  if bits.length > needed then none
  else
    let bits := bits ++ List.replicate (needed - bits.length) false
    let coeff (index : ℕ) : U64 :=
      Hexadecimal.gather 64 coeffWidth fun bit => bits.getD (index * coeffWidth + bit) false
    some ((List.range degree).map coeff ++ [1])

/-- The part of a field body after its wrapped field. -/
def parseIrreducible (degree : ℕ) (wrapped : WrappedSpec) (input : List Char) :
    Option (FieldSpec × List Char) := do
  let rest ← ['.', 'p'].isPrefixOf? input
  let (hex, rest) := takeHex rest
  if hex = [] then none
  else if coeffWidth wrapped = 0 ∨ coeffWidth wrapped > 64 then none
  else
    let irreducible ← irreducibleFromHex hex degree (coeffWidth wrapped)
    some (⟨degree, wrapped, irreducible⟩, rest)

/-- `d<degree>.`, the degree being a `u32` of at least two. -/
def parseDegree (input : List Char) : Option (ℕ × List Char) := do
  let rest ← ['d'].isPrefixOf? input
  let (degreeText, rest) ← splitDot rest
  let degree ← Numerals.parse (2 ^ 32 - 1) degreeText
  if degree < 2 then none else some (degree, rest)

theorem length_of_isPrefixOf? {start input rest : List Char}
    (h : start.isPrefixOf? input = some rest) : input.length = start.length + rest.length := by
  rw [← List.isPrefixOf?_eq_some_iff_append_eq.mp h, List.length_append]

theorem length_of_splitDot {input head tail : List Char}
    (h : splitDot input = some (head, tail)) : tail.length < input.length := by
  unfold splitDot at h
  split at h
  case h_1 => cases h
  case h_2 c rest heq =>
    split at h
    case isTrue => cases h
    case isFalse =>
      cases h
      have hle := (List.dropWhile_suffix (p := fun c : Char => c != '.') (l := input)).length_le
      rw [heq, List.length_cons] at hle
      exact hle

theorem length_of_parseDegree {input rest : List Char} {degree : ℕ}
    (h : parseDegree input = some (degree, rest)) : rest.length < input.length := by
  rw [parseDegree, Option.bind_eq_bind, Option.bind_eq_some_iff] at h
  obtain ⟨body, hbody, h⟩ := h
  rw [Option.bind_eq_bind, Option.bind_eq_some_iff] at h
  obtain ⟨⟨text, tail⟩, hsplit, h⟩ := h
  rw [Option.bind_eq_bind, Option.bind_eq_some_iff] at h
  obtain ⟨value, hvalue, h⟩ := h
  split at h
  case isTrue => cases h
  case isFalse =>
    cases h
    have hlt := length_of_splitDot hsplit
    rw [length_of_isPrefixOf? hbody]
    exact hlt.trans_le (Nat.le_add_left _ _)

/-- `d<degree>.<wrapped>.p<hex>` at the start of the input, and what follows it. -/
def parseFieldBody (input : List Char) : Option (FieldSpec × List Char) :=
  match _hdegree : parseDegree input with
  | none => none
  | some (degree, rest) =>
      match ['b', 'i', 't'].isPrefixOf? rest with
      | some rest => parseIrreducible degree .bit rest
      | none =>
          match _hinner : ['e'].isPrefixOf? rest with
          | none => none
          | some rest =>
              match parseFieldBody rest with
              | none => none
              | some (inner, rest) => parseIrreducible degree (.field inner) rest
termination_by input.length
decreasing_by
  have hlt := length_of_parseDegree _hdegree
  rw [length_of_isPrefixOf? _hinner] at hlt
  exact lt_of_le_of_lt (Nat.le_add_left _ _) hlt

/-- The operation at the start of the input, the alternatives tried in the order of the source. -/
def parseFieldOp (input : List Char) : Option (FieldOp × List Char) :=
  [FieldOp.add, .mul, .pack, .unpack].findSome? fun op =>
    ((opName op ++ ['.']).isPrefixOf? input).map fun rest => (op, rest)

def parseFieldSymbol (name : List Char) : Option FieldSymbol := do
  let rest ← fieldSymbolHead.isPrefixOf? name
  let (op, rest) ← parseFieldOp rest
  let (field, rest) ← parseFieldBody rest
  if rest ≠ [] then none else some ⟨op, field⟩

end VolarIR
