import Mathlib.Tactic.Common
import Mathlib.Data.Fin.Basic
import Mathlib.Data.List.Lex
import Mathlib.Order.Basic
import Mathlib.Algebra.Order.Ring.Nat
import VolarIR.Basic

/-!
# Storage claims

The conservative lock unit of a schedule: a typed namespace, whole or restricted to a
public address range, claimed for reading or exclusively. Two claims conflict when they can
touch a common cell and one of them is exclusive; the test works on the symbolic ranges and
gives up, in favour of a conflict, when a range runs past the end of `u64`.
-/
namespace VolarIR.Schedule

abbrev U32 := Fin (2 ^ 32)
abbrev U64 := Fin (2 ^ 64)

scoped instance neZero_u16 : NeZero (2 ^ 16) := ⟨by decide⟩
scoped instance neZero_u32 : NeZero (2 ^ 32) := ⟨by decide⟩
scoped instance neZero_u64 : NeZero (2 ^ 64) := ⟨by decide⟩

/-- `u64::checked_add`. -/
def checkedAdd (a b : U64) : Option U64 :=
  (VolarIR.checkedAdd a.val b.val).map (Fin.ofNat (2 ^ 64))

theorem checkedAdd_eq_some {a b c : U64} : checkedAdd a b = some c ↔ c.val = a.val + b.val := by
  rw [checkedAdd, Option.map_eq_some_iff]
  constructor
  · rintro ⟨sum, hsum, rfl⟩
    obtain ⟨rfl, hle⟩ := VolarIR.checkedAdd_eq_some.mp hsum
    have hlt : a.val + b.val < 2 ^ 64 := Nat.lt_succ_of_le hle
    rw [Fin.val_ofNat, Nat.mod_eq_of_lt hlt]
  · intro hc
    have hlt := c.isLt
    refine ⟨c.val, VolarIR.checkedAdd_eq_some.mpr ⟨hc.symm, Nat.le_of_lt_succ hlt⟩, Fin.ext ?_⟩
    rw [Fin.val_ofNat, Nat.mod_eq_of_lt hlt]

structure StorageKey where
  storage : U32
  typeId : U32
  deriving DecidableEq, Repr

inductive AddressScope where
  | whole
  | publicRange (start len : U64)
  deriving DecidableEq, Repr

namespace AddressScope

/-- Whether two public scopes can touch a common cell. -/
def overlaps : AddressScope → AddressScope → Bool
  | .whole, _ => true
  | .publicRange _ _, .whole => true
  | .publicRange leftStart leftLen, .publicRange rightStart rightLen =>
      match checkedAdd leftStart leftLen with
      | none => true
      | some leftEnd =>
          match checkedAdd rightStart rightLen with
          | none => true
          | some rightEnd => decide (leftStart < rightEnd) && decide (rightStart < leftEnd)

def Contains (scope : AddressScope) (address : U64) : Prop :=
  match scope with
  | .whole => True
  | .publicRange start len => start.val ≤ address.val ∧ address.val < start.val + len.val

instance (scope : AddressScope) (address : U64) : Decidable (scope.Contains address) :=
  match scope with
  | .whole => isTrue trivial
  | .publicRange _ _ => instDecidableAnd

theorem overlaps_comm (left right : AddressScope) : left.overlaps right = right.overlaps left := by
  cases left with
  | whole => cases right <;> rfl
  | publicRange ls ll =>
      cases right with
      | whole => rfl
      | publicRange rs rl =>
          simp only [overlaps]
          cases checkedAdd ls ll <;> cases checkedAdd rs rl <;>
            first | rfl | exact Bool.and_comm _ _

theorem overlaps_of_contains {left right : AddressScope} {address : U64}
    (hl : left.Contains address) (hr : right.Contains address) :
    left.overlaps right = true := by
  cases left with
  | whole => rfl
  | publicRange ls ll =>
      cases right with
      | whole => rfl
      | publicRange rs rl =>
          simp only [overlaps]
          cases hle : checkedAdd ls ll with
          | none => rfl
          | some leftEnd =>
              cases hre : checkedAdd rs rl with
              | none => rfl
              | some rightEnd =>
                  have hL := checkedAdd_eq_some.mp hle
                  have hR := checkedAdd_eq_some.mp hre
                  simp only [Contains] at hl hr
                  simp only [Bool.and_eq_true, decide_eq_true_eq, Fin.lt_def]
                  omega

end AddressScope

inductive StorageClaimMode where
  | read
  | write
  | unknown
  deriving DecidableEq, Repr

namespace StorageClaimMode

def effective : StorageClaimMode → StorageClaimMode
  | .unknown => .write
  | mode => mode

def join : StorageClaimMode → StorageClaimMode → StorageClaimMode
  | .read, .read => .read
  | .unknown, _ => .unknown
  | _, .unknown => .unknown
  | _, _ => .write

/-- `matches!(mode.effective(), Read)`. -/
def isRead (mode : StorageClaimMode) : Bool := mode.effective = .read

def rank : StorageClaimMode → ℕ
  | .read => 0
  | .write => 1
  | .unknown => 2

theorem rank_injective : Function.Injective rank := by
  intro a b h
  cases a <;> cases b <;> first | rfl | cases h

@[simp] theorem isRead_join (a b : StorageClaimMode) :
    (a.join b).isRead = (a.isRead && b.isRead) := by
  cases a <;> cases b <;> rfl

end StorageClaimMode

structure StorageClaim where
  key : StorageKey
  scope : AddressScope
  mode : StorageClaimMode
  deriving DecidableEq, Repr

structure StorageCellKey where
  key : StorageKey
  address : U64
  deriving DecidableEq, Repr

namespace StorageClaim

def whole (key : StorageKey) (mode : StorageClaimMode) : StorageClaim := ⟨key, .whole, mode⟩

def conflictsWith (self other : StorageClaim) : Bool :=
  decide (self.key.storage = other.key.storage) && decide (self.key.typeId = other.key.typeId) &&
    self.scope.overlaps other.scope && !(self.mode.isRead && other.mode.isRead)

def Covers (claim : StorageClaim) (cell : StorageCellKey) : Prop :=
  claim.key = cell.key ∧ claim.scope.Contains cell.address

/-- `Write` and `Unknown` claims exclude every other access. -/
def Exclusive (claim : StorageClaim) : Prop := claim.mode ≠ .read

instance (claim : StorageClaim) : Decidable claim.Exclusive := instDecidableNot

theorem isRead_eq_false {claim : StorageClaim} (h : claim.Exclusive) :
    claim.mode.isRead = false := by
  unfold Exclusive at h
  cases hm : claim.mode with
  | read => exact absurd hm h
  | write => rfl
  | unknown => rfl

theorem exclusive_iff {claim : StorageClaim} : claim.Exclusive ↔ claim.mode.isRead = false := by
  constructor
  · exact isRead_eq_false
  · intro h hm
    rw [hm] at h
    cases h

theorem conflictsWith_comm (left right : StorageClaim) :
    left.conflictsWith right = right.conflictsWith left := by
  unfold conflictsWith
  rw [AddressScope.overlaps_comm, Bool.and_comm left.mode.isRead]
  simp only [eq_comm]

theorem conflictsWith_of_covers {left right : StorageClaim} {cell : StorageCellKey}
    (hl : left.Covers cell) (hr : right.Covers cell) (hx : left.Exclusive ∨ right.Exclusive) :
    left.conflictsWith right = true := by
  have hscope := AddressScope.overlaps_of_contains hl.2 hr.2
  have hmode : (left.mode.isRead && right.mode.isRead) = false := by
    rcases hx with h | h
    · rw [isRead_eq_false h, Bool.false_and]
    · rw [isRead_eq_false h, Bool.and_false]
  unfold conflictsWith
  rw [hl.1, hr.1, hscope, hmode]
  simp only [decide_true, Bool.and_self, Bool.not_false]

/-- The derived order compares key, scope and mode, `Whole` before every range. -/
def rank (claim : StorageClaim) : List ℕ :=
  match claim.scope with
  | .whole => [claim.key.storage.val, claim.key.typeId.val, 0, claim.mode.rank]
  | .publicRange start len =>
      [claim.key.storage.val, claim.key.typeId.val, 1, start.val, len.val, claim.mode.rank]

theorem rank_injective : Function.Injective rank := by
  intro a b h
  obtain ⟨⟨as, at'⟩, ascope, am⟩ := a
  obtain ⟨⟨bs, bt⟩, bscope, bm⟩ := b
  cases ascope with
  | whole =>
      cases bscope with
      | whole =>
          simp only [rank, List.cons.injEq, and_true, true_and] at h
          rw [Fin.ext h.1, Fin.ext h.2.1, StorageClaimMode.rank_injective h.2.2]
      | publicRange bstart blen => simp [rank] at h
  | publicRange astart alen =>
      cases bscope with
      | whole => simp [rank] at h
      | publicRange bstart blen =>
          simp only [rank, List.cons.injEq, and_true, true_and] at h
          rw [Fin.ext h.1, Fin.ext h.2.1, Fin.ext h.2.2.1, Fin.ext h.2.2.2.1,
            StorageClaimMode.rank_injective h.2.2.2.2]

instance : LinearOrder StorageClaim := LinearOrder.lift' rank rank_injective

end StorageClaim
end VolarIR.Schedule
