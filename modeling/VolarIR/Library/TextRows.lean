import Mathlib.Algebra.BigOperators.Group.List.Basic
import Mathlib.Data.List.DropRight
import Mathlib.Tactic.Common
import Mathlib.Algebra.Order.Ring.Nat

/-!
# Lines and words

A text is cut into lines at one character, which is dropped together with a carriage return
before it, and a line into words at every separator. A text that is written word by word
and line by line is cut into the same words and lines.
-/
namespace TextRows
variable {α : Type}

section Words
variable (sep : α → Bool)

def wordsFrom (word : List α) : List α → List (List α)
  | [] => if word = [] then [] else [word]
  | c :: rest =>
      if sep c then (if word = [] then [] else [word]) ++ wordsFrom [] rest
      else wordsFrom (word ++ [c]) rest

/-- `split_whitespace`. -/
def words (text : List α) : List (List α) := wordsFrom sep [] text

/-- `trim`. -/
def trim (text : List α) : List α := (text.dropWhile sep).rdropWhile sep

def unwords (space : α) : List (List α) → List α
  | [] => []
  | [word] => word
  | word :: next :: rest => word ++ space :: unwords space (next :: rest)

def IsWord (word : List α) : Prop := word ≠ [] ∧ ∀ c ∈ word, sep c = false

instance (word : List α) : Decidable (IsWord sep word) := inferInstanceAs (Decidable (_ ∧ _))

variable {sep}

theorem wordsFrom_append {word more rest : List α} (h : ∀ c ∈ more, sep c = false) :
    wordsFrom sep word (more ++ rest) = wordsFrom sep (word ++ more) rest := by
  induction more generalizing word with
  | nil => rw [List.nil_append, List.append_nil]
  | cons c more ih =>
      rw [List.cons_append, wordsFrom, if_neg (by simp [h c List.mem_cons_self]),
        ih fun c' hc => h c' (List.mem_cons_of_mem c hc), List.append_assoc]
      rfl

theorem words_cons_sep {c : α} (h : sep c = true) (rest : List α) :
    words sep (c :: rest) = words sep rest := by
  rw [words, wordsFrom, if_pos h]
  rfl

theorem words_word {word : List α} (h : IsWord sep word) : words sep word = [word] := by
  have happ : wordsFrom sep [] (word ++ []) = wordsFrom sep ([] ++ word) [] :=
    wordsFrom_append h.2
  rw [List.append_nil, List.nil_append] at happ
  rw [words, happ, wordsFrom, if_neg h.1]

theorem words_append_sep {word rest : List α} {c : α} (h : IsWord sep word) (hc : sep c = true) :
    words sep (word ++ c :: rest) = word :: words sep rest := by
  rw [words, wordsFrom_append h.2, List.nil_append, wordsFrom, if_pos hc, if_neg h.1]
  rfl

theorem words_unwords {space : α} (hspace : sep space = true) {ws : List (List α)}
    (h : ∀ w ∈ ws, IsWord sep w) : words sep (unwords space ws) = ws := by
  induction ws with
  | nil => rfl
  | cons w rest ih =>
      cases rest with
      | nil => exact words_word (h w List.mem_cons_self)
      | cons w' rest =>
          rw [unwords, words_append_sep (h w List.mem_cons_self) hspace,
            ih fun w hw => h w (List.mem_cons_of_mem _ hw)]

theorem sum_length_wordsFrom (word text : List α) :
    ((wordsFrom sep word text).map List.length).sum ≤ word.length + text.length := by
  induction text generalizing word with
  | nil =>
      rw [wordsFrom]
      split <;> simp
  | cons c rest ih =>
      rw [wordsFrom]
      have hrest := ih []
      have hmore := ih (word ++ [c])
      rw [List.length_append, List.length_singleton] at hmore
      split
      case isTrue =>
        rw [List.map_append, List.sum_append]
        split
        case isTrue => simp at hrest ⊢; omega
        case isFalse => simp at hrest ⊢; omega
      case isFalse => simp at hmore ⊢; omega

theorem sum_length_words (text : List α) :
    ((words sep text).map List.length).sum ≤ text.length := by
  have h : ((words sep text).map List.length).sum ≤ ([] : List α).length + text.length :=
    sum_length_wordsFrom [] text
  rwa [List.length_nil, Nat.zero_add] at h

theorem words_dropWhile (text : List α) : words sep (text.dropWhile sep) = words sep text := by
  induction text with
  | nil => rfl
  | cons c rest ih =>
      by_cases hc : sep c = true
      · rw [List.dropWhile_cons_of_pos hc, ih, words_cons_sep hc]
      · rw [List.dropWhile_cons_of_neg hc]

theorem wordsFrom_append_sep {c : α} (hc : sep c = true) (word text : List α) :
    wordsFrom sep word (text ++ [c]) = wordsFrom sep word text := by
  induction text generalizing word with
  | nil => simp [wordsFrom, hc]
  | cons c' rest ih =>
      rw [List.cons_append, wordsFrom, ih, ih]
      rfl

theorem words_rdropWhile (text : List α) : words sep (text.rdropWhile sep) = words sep text := by
  induction text using List.reverseRecOn with
  | nil => rfl
  | append_singleton rest c ih =>
      by_cases hc : sep c = true
      · rw [List.rdropWhile_concat_pos sep rest c hc, ih]
        exact (wordsFrom_append_sep hc [] rest).symm
      · rw [List.rdropWhile_concat_neg sep rest c hc]

theorem words_trim (text : List α) : words sep (trim sep text) = words sep text := by
  rw [trim, words_rdropWhile, words_dropWhile]

theorem words_eq_nil_of_all {text : List α} (h : ∀ c ∈ text, sep c = true) :
    words sep text = [] := by
  induction text with
  | nil => rfl
  | cons c rest ih =>
      rw [words_cons_sep (h c List.mem_cons_self)]
      exact ih fun c' hc => h c' (List.mem_cons_of_mem c hc)

theorem wordsFrom_ne_nil {word : List α} (h : word ≠ []) (text : List α) :
    wordsFrom sep word text ≠ [] := by
  induction text generalizing word with
  | nil => rw [wordsFrom, if_neg h]; simp
  | cons c rest ih =>
      rw [wordsFrom]
      split
      case isTrue => exact List.cons_ne_nil _ _
      case isFalse => exact ih (by simp)

theorem words_eq_nil_iff {text : List α} : words sep text = [] ↔ ∀ c ∈ text, sep c = true := by
  constructor
  · intro h
    induction text with
    | nil => simp
    | cons c rest ih =>
        by_cases hc : sep c = true
        · rw [words_cons_sep hc] at h
          exact List.forall_mem_cons.mpr ⟨hc, ih h⟩
        · rw [words, wordsFrom, if_neg hc, List.nil_append] at h
          exact absurd h (wordsFrom_ne_nil (by simp) rest)
  · exact words_eq_nil_of_all

theorem trim_eq_nil_iff {text : List α} : trim sep text = [] ↔ words sep text = [] := by
  rw [trim, List.rdropWhile_eq_nil_iff, words_eq_nil_iff]
  constructor
  · intro h c hc
    by_contra hsep
    have hmem : ∃ c ∈ text.dropWhile sep, sep c ≠ true := by
      have hne : text.dropWhile sep ≠ [] := by
        intro hnil
        exact hsep (List.dropWhile_eq_nil_iff.mp hnil c hc)
      exact ⟨_, List.head_mem hne, by simpa using List.head_dropWhile_not sep hne⟩
    exact hmem.choose_spec.2 (h _ hmem.choose_spec.1)
  · intro h c hc
    exact h c (List.dropWhile_subset sep hc)

end Words

section Lines
variable [DecidableEq α] (newline ret : α)

def stripReturn (line : List α) : List α :=
  if line.getLast? = some ret then line.dropLast else line

def linesFrom (line : List α) : List α → List (List α)
  | [] => if line = [] then [] else [line]
  | c :: rest =>
      if c = newline then stripReturn ret line :: linesFrom [] rest
      else linesFrom (line ++ [c]) rest

/-- `lines`. -/
def lines (text : List α) : List (List α) := linesFrom newline ret [] text

def unlines (ls : List (List α)) : List α := ls.flatMap fun l => l ++ [newline]

variable {newline ret}

theorem linesFrom_append {line more rest : List α} (h : newline ∉ more) :
    linesFrom newline ret line (more ++ rest) = linesFrom newline ret (line ++ more) rest := by
  induction more generalizing line with
  | nil => rw [List.nil_append, List.append_nil]
  | cons c more ih =>
      rw [List.mem_cons, not_or] at h
      rw [List.cons_append, linesFrom, if_neg (Ne.symm h.1), ih h.2, List.append_assoc]
      rfl

theorem stripReturn_of_not_mem {line : List α} (h : ret ∉ line) : stripReturn ret line = line := by
  rw [stripReturn, if_neg]
  intro hlast
  exact h (List.mem_of_getLast? hlast)

theorem lines_unlines {ls : List (List α)} (h : ∀ l ∈ ls, newline ∉ l ∧ ret ∉ l) :
    lines newline ret (unlines newline ls) = ls := by
  induction ls with
  | nil => rfl
  | cons l rest ih =>
      have hl := h l List.mem_cons_self
      have hsplit : unlines newline (l :: rest) = l ++ newline :: unlines newline rest := by
        simp [unlines]
      rw [hsplit, lines, linesFrom_append hl.1, List.nil_append, linesFrom, if_pos rfl,
        stripReturn_of_not_mem hl.2]
      exact congrArg _ (ih fun l hl => h l (List.mem_cons_of_mem _ hl))

theorem length_stripReturn_le (line : List α) : (stripReturn ret line).length ≤ line.length := by
  rw [stripReturn]
  split
  case isTrue => rw [List.length_dropLast]; omega
  case isFalse => exact le_refl _

theorem sum_length_linesFrom (line text : List α) :
    ((linesFrom newline ret line text).map List.length).sum ≤ line.length + text.length := by
  induction text generalizing line with
  | nil =>
      rw [linesFrom]
      split <;> simp
  | cons c rest ih =>
      rw [linesFrom]
      have hrest := ih []
      have hmore := ih (line ++ [c])
      have hstrip : (stripReturn ret line).length ≤ line.length := length_stripReturn_le line
      rw [List.length_append, List.length_singleton] at hmore
      split
      case isTrue => simp at hrest ⊢; omega
      case isFalse => simp at hmore ⊢; omega

theorem sum_length_lines (text : List α) :
    ((lines newline ret text).map List.length).sum ≤ text.length := by
  have h : ((lines newline ret text).map List.length).sum ≤ ([] : List α).length + text.length :=
    sum_length_linesFrom [] text
  rwa [List.length_nil, Nat.zero_add] at h

end Lines

end TextRows
