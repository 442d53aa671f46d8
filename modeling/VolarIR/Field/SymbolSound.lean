import VolarIR.Field.Symbol
import VolarIR.Library.BitAlgebra

/-!
# A field name is parsed back

Each part of a name is read off the front of the text that begins with it, whatever follows:
the degree ends at its dot, the numeral at the first character that is no digit. An inner field
is followed by the dot of its outer one.
-/
namespace VolarIR
open Hexadecimal

mutual
/-- The fields that have a name: a degree of at least two in every level, coefficients of at
most 64 bits, and a monic list of coefficients of that width. -/
def FieldSpec.WellFormed : FieldSpec → Prop
  | ⟨degree, wrapped, irreducible⟩ =>
      wrapped.WellFormed ∧ 2 ≤ degree ∧ degree < 2 ^ 32 ∧ coeffWidth wrapped ≤ 64 ∧
        irreducible.length = degree + 1 ∧ irreducible.getLast? = some 1 ∧
        ∀ coeff ∈ irreducible, coeff.toNat < 2 ^ coeffWidth wrapped

def WrappedSpec.WellFormed : WrappedSpec → Prop
  | .bit => True
  | .field inner => inner.WellFormed
end

theorem WrappedSpec.WellFormed.coeffWidth_pos :
    ∀ {wrapped : WrappedSpec}, wrapped.WellFormed → 0 < coeffWidth wrapped
  | .bit, _ => Nat.one_pos
  | .field ⟨degree, wrapped, irreducible⟩, h => by
      have hinner : 0 < coeffWidth wrapped := WrappedSpec.WellFormed.coeffWidth_pos h.1
      have hdegree : 2 ≤ degree := h.2.1
      exact Nat.mul_pos (by omega) hinner

def EndsNumeral (rest : List Char) : Prop := ∀ c ∈ rest.head?, isHexDigit c = false

theorem isPrefixOf?_append (start rest : List Char) :
    start.isPrefixOf? (start ++ rest) = some rest :=
  List.isPrefixOf?_eq_some_iff_append_eq.mpr rfl

theorem takeHex_append {text rest : List Char} (htext : ∀ c ∈ text, isHexDigit c = true)
    (hrest : EndsNumeral rest) : takeHex (text ++ rest) = (text, rest) := by
  rw [takeHex, List.takeWhile_append_of_pos htext, List.dropWhile_append_of_pos htext]
  cases rest with
  | nil => simp
  | cons c rest =>
      have hc : ¬ isHexDigit c = true := Bool.eq_false_iff.mp (hrest c rfl)
      rw [List.takeWhile_cons_of_neg hc, List.dropWhile_cons_of_neg hc, List.append_nil]

theorem splitDot_append {head : List Char} (rest : List Char) (hne : head ≠ [])
    (hhead : ∀ c ∈ head, (c != '.') = true) :
    splitDot (head ++ '.' :: rest) = some (head, rest) := by
  have htake : (head ++ '.' :: rest).takeWhile (· != '.') = head := by
    rw [List.takeWhile_append_of_pos hhead, List.takeWhile_cons_of_neg (by decide),
      List.append_nil]
  have hdrop : (head ++ '.' :: rest).dropWhile (· != '.') = '.' :: rest := by
    rw [List.dropWhile_append_of_pos hhead, List.dropWhile_cons_of_neg (by decide)]
  rw [splitDot, hdrop, htake]
  exact if_neg hne

theorem parseDegree_append {degree : ℕ} (rest : List Char) (htwo : 2 ≤ degree)
    (hlt : degree < 2 ^ 32) :
    parseDegree ('d' :: Nat.toDigits 10 degree ++ '.' :: rest) = some (degree, rest) := by
  have hhead : ∀ c ∈ Nat.toDigits 10 degree, (c != '.') = true := by
    intro c hc
    have hdigit := Numerals.isDigit_of_mem_toDigits hc
    cases hdot : c != '.' with
    | true => rfl
    | false =>
        rw [bne_eq_false_iff_eq.mp hdot] at hdigit
        exact absurd hdigit (by decide)
  have hstart : ['d'].isPrefixOf? ('d' :: Nat.toDigits 10 degree ++ '.' :: rest) =
      some (Nat.toDigits 10 degree ++ '.' :: rest) := isPrefixOf?_append ['d'] _
  have hparse : Numerals.parse (2 ^ 32 - 1) (Nat.toDigits 10 degree) = some degree :=
    Numerals.parse_toDigits (by omega)
  rw [parseDegree, hstart, Option.bind_eq_bind, Option.bind_some,
    splitDot_append rest Nat.toDigits_ne_nil hhead, Option.bind_eq_bind, Option.bind_some]
  simp only
  rw [hparse, Option.bind_eq_bind, Option.bind_some]
  exact if_neg (by omega)

section
variable {irreducible : List U64} {degree width : ℕ}

theorem length_irreducibleBits (hlength : irreducible.length = degree + 1) :
    (irreducibleBits irreducible degree width).length = degree * width := by
  rw [irreducibleBits, List.flatMap, BitField.length_flatten (w := width), List.length_map,
    List.length_take, hlength, Nat.min_eq_left (Nat.le_succ degree)]
  intro chunk hchunk
  obtain ⟨coeff, _, rfl⟩ := List.mem_map.mp hchunk
  rw [List.length_map, List.length_range]

/-- Bit `bit` of coefficient `index` is found where the numeral holds it. -/
theorem getD_irreducibleBits (hlength : irreducible.length = degree + 1) {index bit : ℕ}
    (hindex : index < degree) (hbit : bit < width) :
    (irreducibleBits irreducible degree width).getD (index * width + bit) false =
      (irreducible.getD index 0).getLsbD bit := by
  have hlt : index < irreducible.length := by omega
  have hchunks : ∀ chunk ∈ (irreducible.take degree).map
      (fun coeff => (List.range width).map coeff.getLsbD), chunk.length = width := by
    intro chunk hchunk
    obtain ⟨coeff, _, rfl⟩ := List.mem_map.mp hchunk
    rw [List.length_map, List.length_range]
  have hplace : index < ((irreducible.take degree).map
      (fun coeff => (List.range width).map coeff.getLsbD)).length := by
    rw [List.length_map, List.length_take]
    omega
  have hlane := BitAlgebra.lane_flatten hchunks hplace
  have hget : (BitAlgebra.lane width index (irreducibleBits irreducible degree width)).getD bit
      false = (irreducibleBits irreducible degree width).getD (index * width + bit) false := by
    rw [BitAlgebra.lane, List.getD_eq_getElem?_getD, List.getElem?_take_of_lt hbit,
      List.getElem?_drop, ← List.getD_eq_getElem?_getD]
  rw [← hget, irreducibleBits, List.flatMap, hlane, List.getElem_map, List.getElem_take,
    List.getD_eq_getElem _ _ hlt, List.getD_eq_getElem _ _ (by simpa using hbit),
    List.getElem_map, List.getElem_range]

theorem irreducibleFromHex_print (hlength : irreducible.length = degree + 1)
    (hmonic : irreducible.getLast? = some 1)
    (hcoeff : ∀ coeff ∈ irreducible, coeff.toNat < 2 ^ width) :
    irreducibleFromHex (print (irreducibleBits irreducible degree width)) degree width =
      some irreducible := by
  obtain ⟨bits, hread, htrim⟩ := Option.map_eq_some_iff.mp
    (read_print (irreducibleBits irreducible degree width))
  have htotal : (irreducibleBits irreducible degree width).length = degree * width :=
    length_irreducibleBits hlength
  have hle : ¬ (trim bits).length > degree * width := by
    rw [htrim, ← htotal]
    exact Nat.not_lt.mpr (length_trim_le _)
  have hresize : trim bits ++ List.replicate (degree * width - (trim bits).length) false =
      irreducibleBits irreducible degree width := by
    rw [htrim, ← htotal]
    exact trim_append _
  rw [irreducibleFromHex, hread, Option.bind_eq_bind, Option.bind_some]
  simp only
  rw [if_neg hle, hresize]
  congr 1
  apply List.ext_getElem
  · rw [List.length_append, List.length_map, List.length_range, hlength]
    rfl
  · intro index hleft hright
    rw [hlength] at hright
    by_cases hindex : index < degree
    · rw [List.getElem_append_left (by simpa using hindex), List.getElem_map,
        List.getElem_range]
      apply BitVec.eq_of_getLsbD_eq
      intro bit hbit
      have hmem := hcoeff _ (List.getElem_mem (l := irreducible) (n := index) (by omega))
      rw [getLsbD_gather]
      by_cases hin : bit < width
      · rw [getD_irreducibleBits hlength hindex hin, List.getD_eq_getElem _ _ (by omega)]
        simp [hbit, hin]
      · have hzero : (irreducible[index]).getLsbD bit = false :=
          Nat.testBit_lt_two_pow (hmem.trans_le (Nat.pow_le_pow_right (by decide) (by omega)))
        simp [hin, hzero]
    · have heq : index = degree := by omega
      have hlast : irreducible[degree]? = some 1 := by
        rw [← hmonic, List.getLast?_eq_getElem?, hlength, Nat.add_sub_cancel]
      subst heq
      rw [List.getElem_append_right (by simp)]
      rw [List.getElem?_eq_getElem (by omega)] at hlast
      simpa using (Option.some.inj hlast).symm

theorem parseIrreducible_append {wrapped : WrappedSpec} {rest : List Char}
    (h : FieldSpec.WellFormed ⟨degree, wrapped, irreducible⟩) (hrest : EndsNumeral rest) :
    parseIrreducible degree wrapped (['.', 'p'] ++
        print (irreducibleBits irreducible degree (coeffWidth wrapped)) ++ rest) =
      some (⟨degree, wrapped, irreducible⟩, rest) := by
  have hwrapped := h.1.coeffWidth_pos
  have hwidth := h.2.2.2.1
  have hdigits : ∀ c ∈ print (irreducibleBits irreducible degree (coeffWidth wrapped)),
      isHexDigit c = true := fun c hc => isHexDigit_of_mem_print hc
  have htake := takeHex_append hdigits hrest
  rw [parseIrreducible, List.append_assoc, isPrefixOf?_append, Option.bind_eq_bind,
    Option.bind_some, htake]
  simp only
  rw [if_neg (print_ne_nil _), if_neg (by omega),
    irreducibleFromHex_print h.2.2.2.2.1 h.2.2.2.2.2.1 h.2.2.2.2.2.2]
  rfl

end

section
variable {input rest body : List Char} {degree : ℕ}

theorem parseFieldBody_bit (hdegree : parseDegree input = some (degree, rest))
    (hbit : ['b', 'i', 't'].isPrefixOf? rest = some body) :
    parseFieldBody input = parseIrreducible degree .bit body := by
  rw [parseFieldBody]
  split
  case h_1 hnone => cases hdegree.symm.trans hnone
  case h_2 degree' rest' hsome =>
    cases hdegree.symm.trans hsome
    rw [hbit]

theorem parseFieldBody_field {inner : FieldSpec} {tail : List Char}
    (hdegree : parseDegree input = some (degree, 'e' :: body))
    (hinner : parseFieldBody body = some (inner, tail)) :
    parseFieldBody input = parseIrreducible degree (.field inner) tail := by
  rw [parseFieldBody]
  split
  case h_1 hnone => cases hdegree.symm.trans hnone
  case h_2 degree' rest' hsome =>
    cases hdegree.symm.trans hsome
    have hbit : ['b', 'i', 't'].isPrefixOf? ('e' :: body) = none := rfl
    have hfield : ['e'].isPrefixOf? ('e' :: body) = some body := isPrefixOf?_append ['e'] body
    rw [hbit]
    simp only
    split
    case h_1 hnone => cases hfield.symm.trans hnone
    case h_2 body' hbody =>
      cases hfield.symm.trans hbody
      rw [hinner]

end

theorem parseFieldBody_append : ∀ {spec : FieldSpec}, spec.WellFormed → ∀ (rest : List Char),
    EndsNumeral rest → parseFieldBody (fieldBody spec ++ rest) = some (spec, rest)
  | ⟨degree, .bit, irreducible⟩, h, rest, hrest => by
      have hsplit : fieldBody ⟨degree, .bit, irreducible⟩ ++ rest =
          'd' :: Nat.toDigits 10 degree ++ '.' :: (['b', 'i', 't'] ++ (['.', 'p'] ++
            print (irreducibleBits irreducible degree (coeffWidth .bit)) ++ rest)) := by
        simp [fieldBody, wrappedBody]
      rw [hsplit, parseFieldBody_bit (parseDegree_append _ h.2.1 h.2.2.1)
        (isPrefixOf?_append ['b', 'i', 't'] _)]
      exact parseIrreducible_append h hrest
  | ⟨degree, .field inner, irreducible⟩, h, rest, hrest => by
      have hsplit : fieldBody ⟨degree, .field inner, irreducible⟩ ++ rest =
          'd' :: Nat.toDigits 10 degree ++ '.' :: ('e' :: (fieldBody inner ++ (['.', 'p'] ++
            print (irreducibleBits irreducible degree (coeffWidth (.field inner))) ++ rest))) := by
        simp [fieldBody, wrappedBody]
      -- The inner numeral ends at the dot before the outer one.
      have hinner := parseFieldBody_append h.1 (['.', 'p'] ++
        print (irreducibleBits irreducible degree (coeffWidth (.field inner))) ++ rest) (by
          intro c hc
          cases hc
          rfl)
      rw [hsplit, parseFieldBody_field (parseDegree_append _ h.2.1 h.2.2.1) hinner]
      exact parseIrreducible_append h hrest

theorem parseFieldOp_append (op : FieldOp) (rest : List Char) :
    parseFieldOp (opName op ++ '.' :: rest) = some (op, rest) := by
  cases op <;> rfl

theorem parse_format (op : FieldOp) {spec : FieldSpec} (h : spec.WellFormed) :
    parseFieldSymbol (formatFieldSymbol op spec) = some ⟨op, spec⟩ := by
  have hbody := parseFieldBody_append h [] (by exact nofun)
  rw [List.append_nil] at hbody
  rw [parseFieldSymbol, formatFieldSymbol, List.append_assoc, isPrefixOf?_append,
    Option.bind_eq_bind, Option.bind_some, parseFieldOp_append, Option.bind_eq_bind,
    Option.bind_some]
  simp only
  rw [hbody]
  rfl

/-- A field name is parsed to the operation and the field it was formatted from, and so names
one of each only. -/
theorem parseFieldSymbol_formatFieldSymbol (op : FieldOp) (spec : FieldSpec)
    (h : spec.WellFormed) :
    parseFieldSymbol (formatFieldSymbol op spec) = some ⟨op, spec⟩ ∧
      ∀ (op' : FieldOp) (spec' : FieldSpec), spec'.WellFormed →
        formatFieldSymbol op' spec' = formatFieldSymbol op spec → op' = op ∧ spec' = spec := by
  constructor
  · exact parse_format op h
  · intro op' spec' h' hname
    have hparse := parse_format op' h'
    rw [hname, parse_format op h, Option.some.injEq, FieldSymbol.mk.injEq] at hparse
    exact ⟨hparse.1.symm, hparse.2.symm⟩

/-- The field of 256 elements modulo `x⁸ + x⁴ + x³ + x + 1`. -/
def aesSpec : FieldSpec := ⟨8, .bit, [1, 1, 0, 1, 1, 0, 0, 0, 1]⟩

def towerSpec : FieldSpec := ⟨2, .field aesSpec, [0x20, 1, 1]⟩

theorem towerSpec_wellFormed : towerSpec.WellFormed := by
  simp [towerSpec, aesSpec, FieldSpec.WellFormed, WrappedSpec.WellFormed, coeffWidth,
    fieldSpecWidth]

theorem parse_format_tower :
    parseFieldSymbol (formatFieldSymbol .mul towerSpec) = some ⟨.mul, towerSpec⟩ :=
  (parseFieldSymbol_formatFieldSymbol .mul towerSpec towerSpec_wellFormed).1

example : formatFieldSymbol .mul aesSpec = "volar.field.mul.d8.bit.p1b".toList := by
  decide +kernel

end VolarIR
