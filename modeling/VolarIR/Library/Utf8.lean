import Mathlib.Data.List.Basic
import Mathlib.Tactic.Common

/-!
# Places in a UTF-8 text

A text is a list of characters, and a place in it a number of bytes. A slice that starts or
ends inside a character does not exist. A byte below 128 is a character of its own, so a
cursor that only ever steps over such bytes and over whole characters stays between
characters.
-/
namespace Utf8

def bytes (text : List Char) : List UInt8 := text.flatMap String.utf8EncodeChar

/-- The characters from byte `pos` on; `none` inside a character and beyond the end. -/
def dropBytes : List Char → ℕ → Option (List Char)
  | text, 0 => some text
  | [], _ + 1 => none
  | c :: rest, pos + 1 =>
      if c.utf8Size ≤ pos + 1 then dropBytes rest (pos + 1 - c.utf8Size) else none

/-- The characters up to byte `pos`; `none` inside a character and beyond the end. -/
def takeBytes : List Char → ℕ → Option (List Char)
  | _, 0 => some []
  | [], _ + 1 => none
  | c :: rest, pos + 1 =>
      if c.utf8Size ≤ pos + 1 then (takeBytes rest (pos + 1 - c.utf8Size)).map (c :: ·) else none

/-- `&text[start..stop]`. -/
def slice (text : List Char) (start stop : ℕ) : Option (List Char) :=
  if start ≤ stop then (dropBytes text start).bind fun rest => takeBytes rest (stop - start)
  else none

variable {text rest : List Char} {c : Char} {pos : ℕ} {b : UInt8}

@[simp] theorem bytes_nil : bytes [] = [] := rfl

@[simp] theorem bytes_cons (c : Char) (text : List Char) :
    bytes (c :: text) = String.utf8EncodeChar c ++ bytes text := rfl

@[simp] theorem dropBytes_zero (text : List Char) : dropBytes text 0 = some text := by
  cases text <;> rfl

theorem dropBytes_cons (hpos : c.utf8Size ≤ pos) :
    dropBytes (c :: text) pos = dropBytes text (pos - c.utf8Size) := by
  have hc := c.utf8Size_pos
  cases pos with
  | zero => omega
  | succ pos => exact if_pos hpos

theorem takeBytes_cons (hpos : c.utf8Size ≤ pos) :
    takeBytes (c :: text) pos = (takeBytes text (pos - c.utf8Size)).map (c :: ·) := by
  have hc := c.utf8Size_pos
  cases pos with
  | zero => omega
  | succ pos => exact if_pos hpos

theorem dropBytes_inside (hpos : 0 < pos) (hlt : pos < c.utf8Size) :
    dropBytes (c :: text) pos = none := by
  cases pos with
  | zero => omega
  | succ pos => exact if_neg (Nat.not_le.mpr hlt)

theorem dropBytes_add (h : dropBytes text pos = some rest) (k : ℕ) :
    dropBytes text (pos + k) = dropBytes rest k := by
  induction text generalizing pos with
  | nil =>
      cases pos with
      | zero =>
          cases h
          rw [Nat.zero_add]
      | succ pos => cases h
  | cons c text ih =>
      cases pos with
      | zero =>
          cases h
          rw [Nat.zero_add]
      | succ pos =>
          by_cases hc : c.utf8Size ≤ pos + 1
          · rw [dropBytes_cons hc] at h
            rw [dropBytes_cons (by omega), ← ih h]
            congr 1
            omega
          · rw [dropBytes_inside (Nat.succ_pos pos) (Nat.not_le.mp hc)] at h
            cases h

theorem dropBytes_next (h : dropBytes text pos = some (c :: rest)) :
    dropBytes text (pos + c.utf8Size) = some rest := by
  rw [dropBytes_add h, dropBytes_cons (Nat.le_refl _), Nat.sub_self, dropBytes_zero]

theorem bytes_drop (h : dropBytes text pos = some rest) :
    (bytes text).drop pos = bytes rest := by
  induction text generalizing pos with
  | nil =>
      cases pos with
      | zero =>
          cases h
          rfl
      | succ pos => cases h
  | cons c text ih =>
      cases pos with
      | zero =>
          cases h
          rfl
      | succ pos =>
          by_cases hc : c.utf8Size ≤ pos + 1
          · rw [dropBytes_cons hc] at h
            rw [bytes_cons, List.drop_append, String.length_utf8EncodeChar, ih h,
              List.drop_eq_nil_of_le (by rwa [String.length_utf8EncodeChar]), List.nil_append]
          · rw [dropBytes_inside (Nat.succ_pos pos) (Nat.not_le.mp hc)] at h
            cases h

theorem pos_le_of_dropBytes (h : dropBytes text pos = some rest) :
    pos + (bytes rest).length = (bytes text).length := by
  have hlen := congrArg List.length (bytes_drop h)
  rw [List.length_drop] at hlen
  suffices pos ≤ (bytes text).length by omega
  induction text generalizing pos with
  | nil =>
      cases pos with
      | zero => exact Nat.zero_le _
      | succ pos => cases h
  | cons c text ih =>
      by_cases hc : c.utf8Size ≤ pos
      · rw [dropBytes_cons hc] at h
        have hrest := ih h (by rw [← List.length_drop, bytes_drop h])
        rw [bytes_cons, List.length_append, String.length_utf8EncodeChar]
        omega
      · rw [bytes_cons, List.length_append, String.length_utf8EncodeChar]
        omega

theorem dropBytes_length (text : List Char) : dropBytes text (bytes text).length = some [] := by
  induction text with
  | nil => rfl
  | cons c text ih =>
      rw [bytes_cons, List.length_append, String.length_utf8EncodeChar,
        dropBytes_cons (Nat.le_add_right _ _), Nat.add_sub_cancel_left]
      exact ih

theorem dropBytes_append (front more : List Char) :
    dropBytes (front ++ more) (bytes front).length = some more := by
  induction front with
  | nil => exact dropBytes_zero more
  | cons c front ih =>
      rw [List.cons_append, bytes_cons, List.length_append, String.length_utf8EncodeChar,
        dropBytes_cons (Nat.le_add_right _ _), Nat.add_sub_cancel_left]
      exact ih

theorem append_of_dropBytes (h : dropBytes text pos = some rest) :
    ∃ front, text = front ++ rest := by
  induction text generalizing pos with
  | nil =>
      cases pos with
      | zero =>
          cases h
          exact ⟨[], rfl⟩
      | succ pos => cases h
  | cons c text ih =>
      by_cases hc : c.utf8Size ≤ pos
      · rw [dropBytes_cons hc] at h
        obtain ⟨front, hfront⟩ := ih h
        exact ⟨c :: front, congrArg (List.cons c) hfront⟩
      · cases pos with
        | zero =>
            cases h
            exact ⟨[], rfl⟩
        | succ pos =>
            rw [dropBytes_inside (Nat.succ_pos pos) (Nat.not_le.mp hc)] at h
            cases h

theorem utf8EncodeChar_ascii (h : c.utf8Size = 1) :
    String.utf8EncodeChar c = [c.val.toUInt8] ∧ c.val.toUInt8 < 128 := by
  have hle : c.val.toNat ≤ 127 := UInt32.le_iff_toNat_le.mp (Char.utf8Size_eq_one_iff.mp h)
  refine ⟨String.utf8EncodeChar_eq_singleton h, ?_⟩
  rw [UInt8.lt_iff_toNat_lt, UInt32.toNat_toUInt8]
  exact Nat.lt_of_le_of_lt (Nat.mod_le _ _) (Nat.lt_succ_of_le hle)

theorem le_or {a m : UInt8} (h : 128 ≤ m) : 128 ≤ a ||| m := by
  rw [UInt8.le_iff_toNat_le] at h ⊢
  rw [UInt8.toNat_or]
  exact Nat.le_trans h Nat.right_le_or

theorem le_of_mem_utf8EncodeChar (h : c.utf8Size ≠ 1) (hb : b ∈ String.utf8EncodeChar c) :
    128 ≤ b := by
  rcases Char.utf8Size_eq c with h1 | h2 | h3 | h4
  · exact absurd h1 h
  · rw [String.utf8EncodeChar_eq_cons_cons h2] at hb
    simp only [List.mem_cons, List.not_mem_nil, or_false] at hb
    rcases hb with rfl | rfl <;> exact le_or (by decide)
  · rw [String.utf8EncodeChar_eq_cons_cons_cons h3] at hb
    simp only [List.mem_cons, List.not_mem_nil, or_false] at hb
    rcases hb with rfl | rfl | rfl <;> exact le_or (by decide)
  · rw [String.utf8EncodeChar_eq_cons_cons_cons_cons h4] at hb
    simp only [List.mem_cons, List.not_mem_nil, or_false] at hb
    rcases hb with rfl | rfl | rfl | rfl <;> exact le_or (by decide)

theorem getElem?_bytes (h : dropBytes text pos = some rest) :
    (bytes text)[pos]? = (bytes rest).head? := by
  rw [← bytes_drop h, List.head?_drop]

theorem getElem?_bytes_cons (h : dropBytes text pos = some (c :: rest)) {k : ℕ}
    (hk : k < c.utf8Size) : (bytes text)[pos + k]? = (String.utf8EncodeChar c)[k]? := by
  rw [← List.getElem?_drop, bytes_drop h, bytes_cons,
    List.getElem?_append_left (by rwa [String.length_utf8EncodeChar])]

theorem char_of_ascii (hb : (bytes text)[pos]? = some b) (hlt : b < 128) :
    ∃ c rest, dropBytes text pos = some (c :: rest) ∧ c.utf8Size = 1 ∧ c.val.toUInt8 = b := by
  induction text generalizing pos with
  | nil => cases hb
  | cons c text ih =>
      by_cases hpos : pos < c.utf8Size
      · rw [bytes_cons, List.getElem?_append_left (by rwa [String.length_utf8EncodeChar])] at hb
        by_cases hc : c.utf8Size = 1
        · obtain rfl : pos = 0 := by omega
          refine ⟨c, text, dropBytes_zero _, hc, ?_⟩
          rw [(utf8EncodeChar_ascii hc).1] at hb
          exact Option.some.inj hb
        · have hle := le_of_mem_utf8EncodeChar hc (List.mem_of_getElem? hb)
          exact absurd hlt (UInt8.not_lt.mpr hle)
      · have hge : c.utf8Size ≤ pos := Nat.le_of_not_lt hpos
        rw [bytes_cons, List.getElem?_append_right (by rwa [String.length_utf8EncodeChar]),
          String.length_utf8EncodeChar] at hb
        rw [dropBytes_cons hge]
        exact ih hb

theorem step_ascii (hb : (bytes text)[pos]? = some b) (hlt : b < 128) :
    ∃ rest, dropBytes text (pos + 1) = some rest := by
  obtain ⟨c, rest, hdrop, hsize, -⟩ := char_of_ascii hb hlt
  have hnext := dropBytes_next hdrop
  rw [hsize] at hnext
  exact ⟨rest, hnext⟩

theorem inside_of_long (h : dropBytes text pos = some (c :: rest)) (hc : c.utf8Size ≠ 1) :
    dropBytes text (pos + 1) = none ∧ ∃ b, (bytes text)[pos + 1]? = some b ∧ 128 ≤ b := by
  have hpos := c.utf8Size_pos
  have hlt : 1 < (String.utf8EncodeChar c).length := by
    rw [String.length_utf8EncodeChar]
    omega
  constructor
  · rw [dropBytes_add h, dropBytes_inside Nat.one_pos (by omega)]
  · refine ⟨(String.utf8EncodeChar c)[1], ?_, ?_⟩
    · rw [getElem?_bytes_cons h (by omega), List.getElem?_eq_getElem hlt]
    · exact le_of_mem_utf8EncodeChar hc (List.getElem_mem hlt)

theorem takeBytes_of_dropBytes (h : dropBytes text pos = some rest) :
    ∃ front, takeBytes text pos = some front := by
  induction text generalizing pos with
  | nil =>
      cases pos with
      | zero => exact ⟨[], rfl⟩
      | succ pos => cases h
  | cons c text ih =>
      cases pos with
      | zero => exact ⟨[], rfl⟩
      | succ pos =>
          by_cases hc : c.utf8Size ≤ pos + 1
          · rw [dropBytes_cons hc] at h
            obtain ⟨front, hfront⟩ := ih h
            exact ⟨c :: front, by rw [takeBytes_cons hc, hfront]; rfl⟩
          · rw [dropBytes_inside (Nat.succ_pos pos) (Nat.not_le.mp hc)] at h
            cases h

theorem slice_of_dropBytes {start stop : ℕ} {more : List Char}
    (hstart : dropBytes text start = some rest) (hstop : dropBytes text stop = some more)
    (hle : start ≤ stop) : ∃ front, slice text start stop = some front := by
  have hrest := dropBytes_add hstart (stop - start)
  rw [Nat.add_sub_cancel' hle, hstop] at hrest
  rw [slice, if_pos hle, hstart]
  exact takeBytes_of_dropBytes hrest.symm

end Utf8
