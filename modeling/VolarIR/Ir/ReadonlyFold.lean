import VolarIR.Ir.PolyValue
import VolarIR.Ir.Eval
import VolarIR.Library.Loop

/-!
# Volar IR reads of read-only storage

`fold_readonly_storage_ir_blocks` of `volar-ir-opt/src/ir.rs`: a read of a storage that is
declared read-only, at an address that is a constant of the block, becomes the constant that
the pre-initialised image holds there. The interpreter masks a literal to the width of its
type and the pass does not, so the two agree where the address literals fit their types.
-/
namespace VolarIR.Ir

structure ReadonlyState where
  constants : List (ℕ × Constant)
  changed : Bool

/-- `readonly_image_value`: the last element written at the address, zero if there is none.
An address that does not fit a `usize` is not looked up. -/
def readonlyImageValue (preInit : List PreInitSegment) (storage : StorageId) (ty : TypeId)
    (address : Constant) : Option Constant :=
  if address.hi ≠ 0 ∨ 2 ^ 64 ≤ address.lo.toNat then none
  else some (preInit.foldl (fun value segment =>
    if segment.storage ≠ storage ∨ segment.ty ≠ ty then value
    else if segment.offset ≤ address.lo.toNat then
      segment.data[address.lo.toNat - segment.offset]?.getD value
    else value) .zero)

def readonlyReplacement (preInit : List PreInitSegment) (access : StorageTable)
    (constants : List (ℕ × Constant)) : IRStmt → Option (Constant × TypeId)
  | .storageRead storage ty addr =>
      if access.accessOf storage = .readOnly then do
        let address ← constants.lookup addr
        let value ← readonlyImageValue preInit storage ty address
        return (value, ty)
      else none
  | _ => none

section
variable {P : Type}

/-- One statement of the sweep; its result is `output`. -/
def foldReadonlyStmt (preInit : List PreInitSegment) (access : StorageTable)
    (st : ReadonlyState) (output : ℕ) (node : Node IRStmt P) : Node IRStmt P × ReadonlyState :=
  match readonlyReplacement preInit access st.constants node.kind with
  | some (value, ty) =>
      ({ node with kind := .const value ty }, ⟨(output, value) :: st.constants, true⟩)
  | none =>
      match node.kind with
      | .const value _ => (node, { st with constants := (output, value) :: st.constants })
      | _ => (node, st)

def foldReadonlyBlock (preInit : List PreInitSegment) (access : StorageTable)
    (block : IRBlock P) : IRBlock P × Bool :=
  let (stmts, st) := Sweep.rewriteFrom (foldReadonlyStmt preInit access) ⟨[], false⟩
    block.params.length block.stmts
  ({ block with stmts := stmts }, st.changed)

def foldReadonlyBlocks (blocks : IRProgram P) (access : StorageTable) : IRProgram P × Bool :=
  let folded := blocks.blocks.map (foldReadonlyBlock blocks.preInit access)
  ({ blocks with blocks := folded.map Prod.fst }, folded.any Prod.snd)

/-- `fold_readonly_storage_ir_blocks`; `none` when an id `base + index` overflows. -/
def foldReadonlyStorage (blocks : IRProgram P) (access : StorageTable) :
    Option (IRProgram P × Bool) :=
  if ∀ b ∈ blocks.blocks, b.IdsFit then some (foldReadonlyBlocks blocks access) else none

end

theorem Constant.bit_eq_testBit (c : Constant) (k : ℕ) : c.bit k = c.toNat.testBit k := by
  have hlo := c.lo.isLt
  rw [Constant.bit, Constant.toNat, Nat.mul_comm, Nat.testBit_two_pow_mul_add _ hlo]
  split
  · rfl
  · rfl

theorem bitsToU64_constBits {c : Constant} {width : ℕ} (h : c.toNat < 2 ^ width) :
    bitsToU64 (constBits c width) = c.toNat % 2 ^ 64 := by
  have hbits : constBits c width = (List.range width).map c.toNat.testBit := by
    rw [constBits, funext (Constant.bit_eq_testBit c)]
  rw [bitsToU64, Bits.value_take, hbits, Bits.value_map_testBit h]

section
variable (table : TypeTable)

/-- What the read-only cells hold. -/
def HoldsImage (preInit : List PreInitSegment) (access : StorageTable) (m : StorageMap) : Prop :=
  ∀ storage ty address value, access.accessOf storage = .readOnly →
    readonlyImageValue preInit storage ty address = some value →
    (m (storage, ty, address.lo.toNat)).getD (List.replicate (table.bitWidth ty) false) =
      constBits value (table.bitWidth ty)

/-- The cell of a segment's own storage and type after its elements from the `i`-th on. -/
theorem PreInitSegment.apply_cell (seg : PreInitSegment) (data : List Constant) (i : ℕ)
    (hrange : ∀ j < data.length, seg.offset + (i + j) ≤ usizeMax)
    (m : StorageMap) (a : ℕ) (rest : List Bool) (value : Constant)
    (hvalue : (m (seg.storage, seg.ty, a)).getD rest = constBits value (table.bitWidth seg.ty)) :
    (seg.apply table i data m (seg.storage, seg.ty, a)).getD rest =
      constBits (if seg.offset + i ≤ a then data[a - (seg.offset + i)]?.getD value else value)
        (table.bitWidth seg.ty) := by
  induction data generalizing i m value with
  | nil =>
      rw [PreInitSegment.apply, hvalue]
      split
      · rfl
      · rfl
  | cons c data ih =>
      rw [List.length_cons] at hrange
      have hhere := hrange 0 (Nat.zero_lt_succ _)
      have hrest : ∀ j < data.length, seg.offset + (i + 1 + j) ≤ usizeMax := by
        intro j hj
        have hnext := hrange (j + 1) (by omega)
        omega
      rw [PreInitSegment.apply, Nat.mod_eq_of_lt (by omega)]
      by_cases hplace : a = seg.offset + i
      · have hcell : (Function.update m (seg.storage, seg.ty, seg.offset + i)
            (some (constBits c (table.bitWidth seg.ty))) (seg.storage, seg.ty, a)).getD rest =
              constBits c (table.bitWidth seg.ty) := by
          rw [hplace, Function.update_self, Option.getD_some]
        rw [ih (i + 1) hrest _ c hcell, if_neg (by omega), if_pos (by omega),
          hplace, Nat.sub_self]
        rfl
      · have hne : (seg.storage, seg.ty, a) ≠ (seg.storage, seg.ty, seg.offset + i) :=
          fun heq => hplace (Prod.mk.inj (Prod.mk.inj heq).2).2
        have hcell : (Function.update m (seg.storage, seg.ty, seg.offset + i)
            (some (constBits c (table.bitWidth seg.ty))) (seg.storage, seg.ty, a)).getD rest =
              constBits value (table.bitWidth seg.ty) := by
          rw [Function.update_of_ne hne, hvalue]
        rw [ih (i + 1) hrest _ value hcell]
        by_cases hlt : seg.offset + i < a
        · have hindex : a - (seg.offset + i) = a - (seg.offset + (i + 1)) + 1 := by omega
          rw [if_pos (by omega), if_pos (by omega), hindex, List.getElem?_cons_succ]
        · rw [if_neg (by omega), if_neg (by omega)]

theorem PreInitSegment.apply_other (seg : PreInitSegment) {storage : StorageId} {ty : TypeId}
    (hne : seg.storage ≠ storage ∨ seg.ty ≠ ty) (data : List Constant) (i : ℕ)
    (m : StorageMap) (a : ℕ) : seg.apply table i data m (storage, ty, a) = m (storage, ty, a) := by
  induction data generalizing i m with
  | nil => rfl
  | cons c data ih =>
      have hcell : (storage, ty, a) ≠
          (seg.storage, seg.ty, (seg.offset + i) % (usizeMax + 1)) := by
        intro heq
        cases heq
        cases hne with
        | inl h => exact h rfl
        | inr h => exact h rfl
      rw [PreInitSegment.apply, ih, Function.update_of_ne hcell]

/-- A cell after the segments: their last element at its address, or what it held. -/
theorem applyPreInit_cell (segments : List PreInitSegment)
    (hrange : ∀ seg ∈ segments, seg.InRange table) (storage : StorageId) (ty : TypeId) (a : ℕ)
    (m : StorageMap) (value : Constant)
    (h : (m (storage, ty, a)).getD (List.replicate (table.bitWidth ty) false) =
      constBits value (table.bitWidth ty)) :
    (applyPreInit table segments m (storage, ty, a)).getD
        (List.replicate (table.bitWidth ty) false) =
      constBits (segments.foldl (fun value segment =>
        if segment.storage ≠ storage ∨ segment.ty ≠ ty then value
        else if segment.offset ≤ a then segment.data[a - segment.offset]?.getD value
        else value) value) (table.bitWidth ty) := by
  induction segments generalizing m value with
  | nil => exact h
  | cons segment segments ih =>
      rw [List.forall_mem_cons] at hrange
      rw [applyPreInit, List.foldl_cons, List.foldl_cons]
      apply ih hrange.2
      by_cases hother : segment.storage ≠ storage ∨ segment.ty ≠ ty
      · rw [if_pos hother, segment.apply_other table hother]
        exact h
      · rw [if_neg hother]
        rw [not_or, not_not, not_not] at hother
        obtain ⟨rfl, rfl⟩ := hother
        have hall : ∀ j < segment.data.length, segment.offset + (0 + j) ≤ usizeMax := by
          intro j hj
          rw [Nat.zero_add]
          exact (hrange.1 j hj).1
        have hcell := segment.apply_cell table segment.data 0 hall m a _ value h
        rw [Nat.add_zero] at hcell
        exact hcell

theorem holdsImage_applyPreInit (preInit : List PreInitSegment)
    (hrange : ∀ seg ∈ preInit, seg.InRange table) (access : StorageTable) :
    HoldsImage table preInit access (applyPreInit table preInit EvalState.start.storage) := by
  intro storage ty address value _ hvalue
  unfold readonlyImageValue at hvalue
  split at hvalue
  case isTrue => cases hvalue
  case isFalse =>
    rw [← Option.some.inj hvalue]
    apply applyPreInit_cell table preInit hrange
    rw [constBits_zero]
    rfl

end
end VolarIR.Ir
