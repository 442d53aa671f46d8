import Mathlib.Data.List.Induction
import Mathlib.Tactic.Common
import Mathlib.Algebra.Order.Ring.Nat
import VolarIR.Library.Bits
import Mathlib.Data.List.DropRight

/-!
# Hexadecimal bit strings

A bit string is printed without its high zeros, four bits to a digit and the high digit first.
It is read back from the low digit on, up to zeros at its high end.
-/
namespace Hexadecimal

/-- The word whose bits below `count` are given, each set by an `or` with its place. -/
def gather (width count : ℕ) (bit : ℕ → Bool) : BitVec width :=
  (List.range count).foldl
    (fun value i => if bit i then value ||| BitVec.ofNat width 1 <<< i else value)
    (BitVec.ofNat width 0)

theorem gather_succ (width count : ℕ) (bit : ℕ → Bool) :
    gather width (count + 1) bit =
      if bit count then gather width count bit ||| BitVec.ofNat width 1 <<< count
      else gather width count bit := by
  rw [gather, List.range_succ, List.foldl_append]
  rfl

theorem getLsbD_gather (width count : ℕ) (bit : ℕ → Bool) (i : ℕ) :
    (gather width count bit).getLsbD i = (decide (i < width) && decide (i < count) && bit i) := by
  induction count with
  | zero => simp [gather]
  | succ count ih =>
      rw [gather_succ]
      have hplace : (BitVec.ofNat width 1 <<< count).getLsbD i =
          (decide (i < width) && decide (i = count)) := by
        grind
      split
      case isTrue hset =>
        rw [BitVec.getLsbD_or, ih, hplace]
        grind
      case isFalse hclear =>
        rw [ih]
        grind

/-- `is_ascii_hexdigit`. -/
def isHexDigit (c : Char) : Bool :=
  c.isDigit || (decide ('a' ≤ c) && decide (c ≤ 'f')) || (decide ('A' ≤ c) && decide (c ≤ 'F'))

/-- `to_digit(16)`. -/
def toDigit (c : Char) : Option ℕ :=
  if c.isDigit then some (c.toNat - '0'.toNat)
  else if 'a' ≤ c ∧ c ≤ 'f' then some (c.toNat - 'a'.toNat + 10)
  else if 'A' ≤ c ∧ c ≤ 'F' then some (c.toNat - 'A'.toNat + 10)
  else none

def trim (bits : List Bool) : List Bool := bits.rdropWhile (!·)

theorem trim_append_replicate (bits : List Bool) (k : ℕ) :
    trim (bits ++ List.replicate k false) = trim bits := by
  induction k with
  | zero => rw [List.replicate_zero, List.append_nil]
  | succ k ih =>
      rw [List.replicate_succ', ← List.append_assoc, trim, List.rdropWhile_concat_pos _ _ _ rfl]
      exact ih

@[simp] theorem trim_trim (bits : List Bool) : trim (trim bits) = trim bits :=
  List.rdropWhile_idempotent _ _

theorem length_trim_le (bits : List Bool) : (trim bits).length ≤ bits.length :=
  (List.rdropWhile_prefix _ _).length_le

theorem trim_append (bits : List Bool) :
    trim bits ++ List.replicate (bits.length - (trim bits).length) false = bits := by
  induction bits using List.reverseRecOn with
  | nil => rfl
  | append_singleton rest b ih =>
      have hle := length_trim_le rest
      cases b with
      | true =>
          have htrim : trim (rest ++ [true]) = rest ++ [true] :=
            List.rdropWhile_concat_neg _ _ _ (by decide)
          rw [htrim, Nat.sub_self, List.replicate_zero, List.append_nil]
      | false =>
          have htrim : trim (rest ++ [false]) = trim rest := trim_append_replicate rest 1
          rw [htrim, List.length_append, List.length_singleton, Nat.succ_sub hle,
            List.replicate_succ', ← List.append_assoc, ih]

/-- `chunks(4)`. -/
def chunks : List Bool → List (List Bool)
  | b₀ :: b₁ :: b₂ :: b₃ :: rest => [b₀, b₁, b₂, b₃] :: chunks rest
  | [] => []
  | short => [short]

def pad (bits : List Bool) : List Bool :=
  bits ++ List.replicate ((4 - bits.length % 4) % 4) false

theorem length_pad (bits : List Bool) : (pad bits).length % 4 = 0 := by
  rw [pad, List.length_append, List.length_replicate]
  omega

def digit (chunk : List Bool) : Char :=
  Nat.digitChar (gather 8 chunk.length fun shift => chunk.getD shift false).toNat

def print (bits : List Bool) : List Char :=
  if trim bits = [] then ['0'] else (chunks (pad (trim bits))).reverse.map digit

def nibbleBits (nibble : ℕ) : List Bool := (List.range 4).map nibble.testBit

def read (text : List Char) : Option (List Bool) :=
  (text.reverse.mapM fun c => (toDigit c).map nibbleBits).map List.flatten

theorem digit_spec (b₀ b₁ b₂ b₃ : Bool) :
    isHexDigit (digit [b₀, b₁, b₂, b₃]) ∧
      (toDigit (digit [b₀, b₁, b₂, b₃])).map nibbleBits = some [b₀, b₁, b₂, b₃] := by
  cases b₀ <;> cases b₁ <;> cases b₂ <;> cases b₃ <;> decide

theorem chunks_spec (bits : List Bool) (h : bits.length % 4 = 0) :
    ((chunks bits).map digit).mapM (fun c => (toDigit c).map nibbleBits) = some (chunks bits) ∧
      (chunks bits).flatten = bits ∧ ∀ c ∈ (chunks bits).map digit, isHexDigit c = true := by
  induction bits using chunks.induct with
  | case1 b₀ b₁ b₂ b₃ rest ih =>
      have hrest : rest.length % 4 = 0 := by
        simp only [List.length_cons] at h
        omega
      have hdigit := digit_spec b₀ b₁ b₂ b₃
      have hind := ih hrest
      refine ⟨?_, ?_, ?_⟩
      · rw [chunks, List.map_cons, List.mapM_cons, hdigit.2, hind.1]
        rfl
      · rw [chunks, List.flatten_cons, hind.2.1]
        rfl
      · intro c hc
        rw [chunks, List.map_cons, List.mem_cons] at hc
        cases hc with
        | inl heq => exact heq ▸ hdigit.1
        | inr hmem => exact hind.2.2 c hmem
  | case2 => exact ⟨rfl, rfl, by simp [chunks]⟩
  | case3 short hshort hnil =>
      exfalso
      match short, h, hshort, hnil with
      | [], _, _, hnil => exact hnil rfl
      | _ :: _ :: _ :: _ :: _, _, hshort, _ => exact hshort _ _ _ _ _ rfl

theorem read_print (bits : List Bool) : (read (print bits)).map trim = some (trim bits) := by
  unfold print
  split
  case isTrue hnil => rw [hnil]; decide
  case isFalse =>
    have hspec := chunks_spec (pad (trim bits)) (length_pad _)
    rw [read, ← List.map_reverse, List.reverse_reverse, hspec.1, Option.map_some, Option.map_some,
      hspec.2.1, pad, trim_append_replicate, trim_trim]

theorem isHexDigit_of_mem_print {bits : List Bool} {c : Char} (h : c ∈ print bits) :
    isHexDigit c = true := by
  unfold print at h
  split at h
  case isTrue =>
    rw [List.mem_singleton.mp h]
    decide
  case isFalse =>
    rw [List.map_reverse, List.mem_reverse] at h
    exact (chunks_spec (pad (trim bits)) (length_pad _)).2.2 c h

theorem print_ne_nil (bits : List Bool) : print bits ≠ [] := by
  unfold print
  split
  case isTrue => exact List.cons_ne_nil _ _
  case isFalse hne =>
    intro hnil
    rw [List.map_eq_nil_iff, List.reverse_eq_nil_iff] at hnil
    have hflat := (chunks_spec (pad (trim bits)) (length_pad _)).2.1
    rw [hnil, List.flatten_nil, pad] at hflat
    exact hne (List.append_eq_nil_iff.mp hflat.symm).1

end Hexadecimal
