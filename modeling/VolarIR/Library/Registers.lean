import Mathlib.Data.List.Basic
import Mathlib.Tactic.Common

/-!
# Registers that may hold nothing

An array of cells that are written over and over. A cell that was never written cannot be
read, and no cell outside the array can be written.
-/
namespace Registers
variable {α : Type}

def read (cells : List (Option α)) (i : ℕ) : Option α := cells[i]?.join

def write (cells : List (Option α)) (i : ℕ) (a : α) : Option (List (Option α)) :=
  if i < cells.length then some (cells.set i (some a)) else none

def init (inputs : List α) (size : ℕ) : List (Option α) :=
  inputs.map some ++ List.replicate (size - inputs.length) none

def readAll (cells : List (Option α)) (is : List ℕ) : Option (List α) := is.mapM (read cells)

def writeAll (cells : List (Option α)) (writes : List (ℕ × α)) : Option (List (Option α)) :=
  writes.foldlM (fun cells w => write cells w.1 w.2) cells

variable {cells cells' : List (Option α)} {i j : ℕ} {a : α}

theorem length_init {inputs : List α} {size : ℕ} (h : inputs.length ≤ size) :
    (init inputs size).length = size := by
  rw [init, List.length_append, List.length_map, List.length_replicate]
  omega

theorem read_init (inputs : List α) (size i : ℕ) : read (init inputs size) i = inputs[i]? := by
  rw [read, init]
  by_cases hi : i < inputs.length
  · rw [List.getElem?_append_left (by rwa [List.length_map]), List.getElem?_map,
      List.getElem?_eq_getElem hi]
    rfl
  · rw [List.getElem?_append_right (by rw [List.length_map]; omega), List.getElem?_replicate,
      List.getElem?_eq_none (by omega)]
    split <;> rfl

theorem length_write (h : write cells i a = some cells') : cells'.length = cells.length := by
  rw [write] at h
  split at h
  case isTrue => rw [← Option.some.inj h, List.length_set]
  case isFalse => cases h

theorem exists_write (h : i < cells.length) (a : α) : ∃ cells', write cells i a = some cells' :=
  ⟨_, if_pos h⟩

theorem read_write (h : write cells i a = some cells') (j : ℕ) :
    read cells' j = if j = i then some a else read cells j := by
  rw [write] at h
  split at h
  case isTrue hi =>
    rw [← Option.some.inj h, read, List.getElem?_set]
    by_cases hj : j = i
    · rw [if_pos hj, if_pos hj.symm, if_pos hi]
      rfl
    · rw [if_neg hj, if_neg (Ne.symm hj)]
      rfl
  case isFalse => cases h

theorem readAll_cons (cells : List (Option α)) (i : ℕ) (is : List ℕ) :
    readAll cells (i :: is) = (read cells i).bind fun a => (readAll cells is).map (a :: ·) := by
  rw [readAll, List.mapM_cons]
  cases read cells i with
  | none => rfl
  | some a => cases h : readAll cells is <;> simp [readAll] at h <;> simp [h]

theorem readAll_cons_eq_some {is : List ℕ} {as : List α} (h : readAll cells (i :: is) = some as) :
    ∃ a rest, as = a :: rest ∧ read cells i = some a ∧ readAll cells is = some rest := by
  rw [readAll_cons] at h
  cases hi : read cells i with
  | none =>
      rw [hi] at h
      cases h
  | some a =>
      rw [hi] at h
      cases his : readAll cells is with
      | none =>
          rw [his] at h
          cases h
      | some rest =>
          rw [his] at h
          exact ⟨a, rest, (Option.some.inj h).symm, rfl, rfl⟩

theorem exists_readAll {is : List ℕ} (h : ∀ i ∈ is, (read cells i).isSome) :
    ∃ as, readAll cells is = some as ∧ as.length = is.length := by
  induction is with
  | nil => exact ⟨[], rfl, rfl⟩
  | cons i is ih =>
      have hi := Option.isSome_iff_exists.mp (h i List.mem_cons_self)
      have his := ih fun j hj => h j (List.mem_cons_of_mem i hj)
      cases hi with
      | intro a ha =>
          cases his with
          | intro as has =>
              exact ⟨a :: as, by rw [readAll_cons, ha, has.1]; rfl, by simp [has.2]⟩

theorem writeAll_cons (cells : List (Option α)) (w : ℕ × α) (writes : List (ℕ × α)) :
    writeAll cells (w :: writes) = (write cells w.1 w.2).bind fun cells => writeAll cells writes :=
  List.foldlM_cons

theorem exists_writeAll {writes : List (ℕ × α)} (h : ∀ w ∈ writes, w.1 < cells.length) :
    ∃ cells', writeAll cells writes = some cells' ∧ cells'.length = cells.length ∧
      ∀ i, (read cells i).isSome ∨ i ∈ writes.map Prod.fst → (read cells' i).isSome := by
  induction writes generalizing cells with
  | nil =>
      refine ⟨cells, rfl, rfl, ?_⟩
      intro i hi
      exact hi.resolve_right List.not_mem_nil
  | cons w writes ih =>
      obtain ⟨next, hnext⟩ := exists_write (h w List.mem_cons_self) w.2
      have hlen := length_write hnext
      have hinside : ∀ w' ∈ writes, w'.1 < next.length := fun w' hw' =>
        hlen ▸ h w' (List.mem_cons_of_mem w hw')
      obtain ⟨cells', hall, hlen', hread⟩ := ih hinside
      refine ⟨cells', by rw [writeAll_cons, hnext]; exact hall, hlen'.trans hlen, ?_⟩
      intro i hi
      apply hread
      rw [read_write hnext]
      by_cases hw : i = w.1
      · exact .inl (by rw [if_pos hw]; rfl)
      · rw [if_neg hw]
        cases hi with
        | inl hi => exact .inl hi
        | inr hi => exact .inr ((List.mem_cons.mp hi).resolve_left hw)

end Registers
