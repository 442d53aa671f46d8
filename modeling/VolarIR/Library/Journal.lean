import Mathlib.Tactic.Common
import Mathlib.Logic.Function.Basic

/-!
# Journals of accesses to a store

A journal lists what one client read and wrote. Running alone from a store it writes as it
goes; it is faithful to a store when every value it read is the one it would read there.
Stores that agree on the touched cells are interchangeable. A history of journals is serial
when each is faithful to the store its predecessors leave.
-/
namespace Journal

inductive Access (K W : Type*) where
  | read (cell : K) (value : W)
  | write (cell : K) (value : W)

variable {K W : Type*}

def Access.cell : Access K W → K
  | .read cell _ => cell
  | .write cell _ => cell

def Access.Writes (cell : K) : Access K W → Prop
  | .read _ _ => False
  | .write other _ => other = cell

section Definitions
variable [DecidableEq K]

def apply (store : K → W) : Access K W → K → W
  | .read _ _ => store
  | .write cell value => Function.update store cell value

def replay (store : K → W) (journal : List (Access K W)) : K → W := journal.foldl apply store

def Faithful (store : K → W) : List (Access K W) → Prop
  | [] => True
  | .read cell value :: rest => value = store cell ∧ Faithful store rest
  | .write cell value :: rest => Faithful (Function.update store cell value) rest

def Serial (first : K → W) : List (List (Access K W)) → (K → W) → Prop
  | [], last => last = first
  | journal :: rest, last => Faithful first journal ∧ Serial (replay first journal) rest last

end Definitions

variable [DecidableEq K] {store other : K → W} {journal : List (Access K W)}

@[simp] theorem replay_nil : replay store ([] : List (Access K W)) = store := rfl

@[simp] theorem replay_cons (access : Access K W) :
    replay store (access :: journal) = replay (apply store access) journal := rfl

@[simp] theorem replay_append (more : List (Access K W)) :
    replay store (journal ++ more) = replay (replay store journal) more :=
  List.foldl_append

theorem faithful_append {more : List (Access K W)} :
    Faithful store (journal ++ more) ↔
      Faithful store journal ∧ Faithful (replay store journal) more := by
  induction journal generalizing store with
  | nil => simp [Faithful]
  | cons access journal ih =>
      cases access with
      | read cell value =>
          rw [List.cons_append, Faithful, Faithful, ih, and_assoc]
          rfl
      | write cell value =>
          rw [List.cons_append, Faithful, Faithful, ih]
          rfl

theorem replay_of_not_writes {cell : K} (h : ∀ access ∈ journal, ¬ access.Writes cell) :
    replay store journal cell = store cell := by
  induction journal generalizing store with
  | nil => rfl
  | cons access journal ih =>
      rw [replay_cons, ih fun other hmem => h other (List.mem_cons_of_mem access hmem)]
      cases access with
      | read _ _ => rfl
      | write written value =>
          have hne : cell ≠ written := fun heq =>
            h _ List.mem_cons_self heq.symm
          exact Function.update_of_ne hne value store

theorem Faithful.congr (h : Faithful store journal)
    (hagree : ∀ access ∈ journal, other access.cell = store access.cell) :
    Faithful other journal := by
  induction journal generalizing store other with
  | nil => trivial
  | cons access journal ih =>
      have hrest : ∀ later ∈ journal, other later.cell = store later.cell :=
        fun later hmem => hagree later (List.mem_cons_of_mem access hmem)
      cases access with
      | read cell value =>
          constructor
          · exact h.1.trans (hagree _ List.mem_cons_self).symm
          · exact ih h.2 hrest
      | write cell value =>
          apply ih h
          intro later hmem
          by_cases heq : later.cell = cell
          · rw [heq, Function.update_self, Function.update_self]
          · rw [Function.update_of_ne heq, Function.update_of_ne heq, hrest later hmem]

theorem Serial.snoc {first last : K → W} {history : List (List (Access K W))}
    (h : Serial first history last) (hjournal : Faithful last journal) :
    Serial first (history ++ [journal]) (replay last journal) := by
  induction history generalizing first with
  | nil =>
      cases h
      exact ⟨hjournal, rfl⟩
  | cons earlier history ih => exact ⟨h.1, ih h.2⟩

end Journal
