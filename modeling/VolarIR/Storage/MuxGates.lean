import VolarIR.Circuit.Emission
import VolarIR.Storage.MuxBoolar

/-!
# What the selectors compute

Everything pushed for an access is a gate, so the state and the earlier vars stay as they
are. For an address of at most 64 bits the comparison is true at one index only, the selection
finds the register an address denotes, and the demultiplexer replaces that register.
-/
namespace VolarIR.Storage

open Boolar Circuit

variable {P : Type}

section
variable (world : Externals) (x : List Bool) (σ : EvalState)

def HoldsBit (ks : List Stmt) (v : ℕ) (b : Bool) : Prop :=
  v < x.length + ks.length ∧ look (runStmts world x σ ks).vals v = ⟨b, .none⟩

end

structure Gates (block block' : BIrBlock P) : Prop where
  params : block'.params = block.params
  pushed : ∃ gates, block'.kinds = block.kinds ++ gates ∧ ∀ s ∈ gates, s.isGate

namespace Gates
variable {block block' block'' : BIrBlock P} {world : Externals} {x : List Bool} {σ : EvalState}

theorem refl (block : BIrBlock P) : Gates block block :=
  ⟨rfl, [], (List.append_nil _).symm, by simp⟩

theorem trans (h : Gates block block') (h' : Gates block' block'') : Gates block block'' := by
  obtain ⟨gates, hkinds, hgates⟩ := h.pushed
  obtain ⟨gates', hkinds', hgates'⟩ := h'.pushed
  constructor
  · exact h'.params.trans h.params
  · apply Exists.intro (gates ++ gates')
    constructor
    · rw [hkinds', hkinds, List.append_assoc]
    · exact List.forall_mem_append.mpr ⟨hgates, hgates'⟩

theorem grows (h : Gates block block') : block.kinds <+: block'.kinds := by
  obtain ⟨gates, hkinds, _⟩ := h.pushed
  rw [hkinds]
  exact List.prefix_append _ _

theorem st (h : Gates block block') :
    (runStmts world x σ block'.kinds).st = (runStmts world x σ block.kinds).st := by
  obtain ⟨gates, hkinds, hgates⟩ := h.pushed
  have hrun : ∀ (gates : List Stmt) (f : Frame), (∀ s ∈ gates, s.isGate) →
      (evalStmts world f gates).st = f.st := by
    intro gates
    induction gates with
    | nil => exact fun f _ => rfl
    | cons s rest ih =>
        intro f hgates
        rw [evalStmts_cons, ih _ fun t ht => hgates t (List.mem_cons_of_mem s ht), stepStmt,
          evalStmt_gate (σ := f.st) (hgates s List.mem_cons_self)]
  rw [hkinds, runStmts, evalStmts_append]
  exact hrun gates _ hgates

end Gates

section
variable {world : Externals} {x : List Bool} {σ : EvalState} {block : BIrBlock P}
  {ks ks' : List Stmt}

theorem HoldsBit.hasBit {v : ℕ} {b : Bool} (h : HoldsBit world x σ ks v b) :
    HasBit world x σ ks v b :=
  ⟨h.1, by rw [h.2]⟩

@[simp] theorem kinds_push (block : BIrBlock P) (s : Stmt) (p : P) :
    (push block s p).2.kinds = block.kinds ++ [s] := by
  simp [push, BIrBlock.kinds, Node.new]

theorem gates_push (block : BIrBlock P) {s : Stmt} (hs : s.isGate) (p : P) :
    Gates block (push block s p).2 := by
  constructor
  · rfl
  · exact ⟨[s], kinds_push block s p, by simpa using hs⟩

theorem push_id (hx : x.length = block.params) (s : Stmt) (p : P) :
    (push block s p).1 = x.length + block.kinds.length := by
  rw [hx]
  simp [push, BIrBlock.kinds]

theorem holdsBit_push (hx : x.length = block.params) {s : Stmt} (p : P) {b : Bool}
    (hvalue : (evalStmt world (runStmts world x σ block.kinds).st
      (s.mapVars (look (runStmts world x σ block.kinds).vals))).1 = ⟨b, .none⟩) :
    HoldsBit world x σ (push block s p).2.kinds (push block s p).1 b := by
  have hlength : (runStmts world x σ block.kinds).vals.length = x.length + block.kinds.length :=
    runStmts_length
  rw [push_id hx, kinds_push]
  constructor
  · simp
  · rw [runStmts_concat, stepStmt, hvalue, ← hlength, look_append_length]

section Gate
variable {a b c : ℕ} {y z w : Bool}

theorem push_not (hx : x.length = block.params) (ha : HasBit world x σ block.kinds a y) (p : P) :
    HoldsBit world x σ (push block (.not a) p).2.kinds (push block (.not a) p).1 (!y) :=
  holdsBit_push hx p (by simp [BIrStmt.mapVars, evalStmt, ha.2])

theorem push_and (hx : x.length = block.params) (ha : HasBit world x σ block.kinds a y)
    (hb : HasBit world x σ block.kinds b z) (p : P) :
    HoldsBit world x σ (push block (.and a b) p).2.kinds (push block (.and a b) p).1 (y && z) :=
  holdsBit_push hx p (by simp [BIrStmt.mapVars, evalStmt, ha.2, hb.2])

theorem push_xor (hx : x.length = block.params) (ha : HasBit world x σ block.kinds a y)
    (hb : HasBit world x σ block.kinds b z) (p : P) :
    HoldsBit world x σ (push block (.xor a b) p).2.kinds (push block (.xor a b) p).1 (y ^^ z) :=
  holdsBit_push hx p (by simp [BIrStmt.mapVars, evalStmt, ha.2, hb.2])

theorem mux_spec (hx : x.length = block.params) (hc : HasBit world x σ block.kinds c w)
    (ha : HasBit world x σ block.kinds a y) (hb : HasBit world x σ block.kinds b z) (p : P) :
    Gates block (mux block c a b p).2 ∧
      HoldsBit world x σ (mux block c a b p).2.kinds (mux block c a b p).1
          (if w then y else z) := by
  have h₁ := gates_push block (s := .xor a b) rfl p
  have v₁ := push_xor hx ha hb p
  have hx₁ : x.length = (push block (.xor a b) p).2.params := hx
  have h₂ := gates_push (push block (.xor a b) p).2
    (s := .and c (push block (.xor a b) p).1) rfl p
  have hx₂ : x.length = (push (push block (.xor a b) p).2
    (.and c (push block (.xor a b) p).1) p).2.params := hx
  have v₂ := push_and hx₁ (hc.mono h₁.grows) v₁.hasBit p
  have hselect : ((w && (y ^^ z)) ^^ z) = if w then y else z := by
    cases w <;> cases y <;> cases z <;> rfl
  constructor
  · exact (h₁.trans h₂).trans (gates_push _ rfl p)
  · rw [← hselect]
    exact push_xor hx₂ v₂.hasBit (hb.mono (h₁.trans h₂).grows) p

end Gate

/-- Whether the bits are those of a number from position `j` on. -/
def matchesFrom (index : ℕ) : ℕ → List Bool → Bool
  | _, [] => true
  | j, bit :: bits => (bit == index.testBit j) && matchesFrom index (j + 1) bits

theorem matchesFrom_iff (index j : ℕ) (bits : List Bool) :
    matchesFrom index j bits = true ↔ Bits.value bits = index / 2 ^ j % 2 ^ bits.length := by
  induction bits generalizing j with
  | nil => simp [matchesFrom, Nat.mod_one]
  | cons bit bits ih =>
      have hsplit : index / 2 ^ j % 2 ^ (bits.length + 1) =
          (index.testBit j).toNat + 2 * (index / 2 ^ (j + 1) % 2 ^ bits.length) := by
        rw [pow_succ', Nat.mod_mul, pow_succ, ← Nat.div_div_eq_div_mul, Nat.toNat_testBit]
      rw [matchesFrom, Bool.and_eq_true, ih, beq_iff_eq, Bits.value_cons, List.length_cons, hsplit]
      cases bit <;> cases index.testBit j <;> simp <;> omega

def AccHolds (world : Externals) (x : List Bool) (σ : EvalState) (ks : List Stmt)
    (acc : Option ℕ) (y : Bool) : Prop :=
  match acc with
  | none => y = true
  | some a => HasBit world x σ ks a y

theorem eqTerm_spec {bitVar : ℕ} {bit : Bool} (hx : x.length = block.params)
    (hbit : HasBit world x σ block.kinds bitVar bit) (bitSet : Bool) (p : P) :
    Gates block (eqTerm block bitVar bitSet p).2 ∧
      HasBit world x σ (eqTerm block bitVar bitSet p).2.kinds (eqTerm block bitVar bitSet p).1
        (bit == bitSet) := by
  cases bitSet with
  | true =>
      constructor
      · exact Gates.refl block
      · rw [show (bit == true) = bit by cases bit <;> rfl]
        exact hbit
  | false =>
      constructor
      · exact gates_push block rfl p
      · rw [show (bit == false) = !bit by cases bit <;> rfl]
        exact (push_not hx hbit p).hasBit

theorem conjoin_spec {acc : Option ℕ} {y z : Bool} {term : ℕ} (hx : x.length = block.params)
    (hacc : AccHolds world x σ block.kinds acc y) (hterm : HasBit world x σ block.kinds term z)
    (p : P) :
    Gates block (conjoin acc (term, block) p).2 ∧
      HasBit world x σ (conjoin acc (term, block) p).2.kinds (conjoin acc (term, block) p).1
        (y && z) := by
  cases acc with
  | none =>
      constructor
      · exact Gates.refl block
      · rw [show y = true from hacc, Bool.true_and]
        exact hterm
  | some a =>
      constructor
      · exact gates_push block rfl p
      · exact (push_and hx hacc hterm p).hasBit

theorem AccHolds.mono {acc : Option ℕ} {y : Bool} (h : AccHolds world x σ ks acc y)
    (hp : ks <+: ks') : AccHolds world x σ ks' acc y := by
  cases acc with
  | none => exact h
  | some a => exact HasBit.mono h hp

theorem eqConstFrom_spec {addr : List ℕ} {bits : List Bool} {acc : Option ℕ} {y : Bool}
    (hx : x.length = block.params) (haddr : Carries world x σ block.kinds addr bits)
    (hacc : AccHolds world x σ block.kinds acc y) (index j : ℕ) (hshort : j + bits.length ≤ 64)
    (p : P) :
    Gates block (eqConstFrom index p j addr (acc, block)).2 ∧
      AccHolds world x σ (eqConstFrom index p j addr (acc, block)).2.kinds
        (eqConstFrom index p j addr (acc, block)).1 (y && matchesFrom index j bits) := by
  induction addr generalizing block bits acc y j with
  | nil =>
      cases haddr
      constructor
      · exact Gates.refl block
      · rw [matchesFrom, Bool.and_true]
        exact hacc
  | cons bitVar addr ih =>
      cases haddr with
      | cons hbit haddr =>
          rw [List.length_cons] at hshort
          have hj : j % 64 = j := Nat.mod_eq_of_lt (by omega)
          have hterm := eqTerm_spec hx hbit (index.testBit j) p
          have hxt := hx.trans hterm.1.params.symm
          have hnext := conjoin_spec hxt (hacc.mono hterm.1.grows) hterm.2 p
          have hboth := hterm.1.trans hnext.1
          have hacc' : AccHolds world x σ _ (some _) _ := hnext.2
          have hrest := ih (hx.trans hboth.params.symm) (Carries.mono haddr hboth.grows) hacc'
            (j + 1) (by omega)
          simp only [eqConstFrom, hj]
          constructor
          · exact hboth.trans hrest.1
          · rw [matchesFrom, ← Bool.and_assoc]
            exact hrest.2

variable {overflowChecks : Bool}

/-- The comparison is true exactly at the number the address denotes, for an index that fits
the address. -/
theorem eqConst_spec {addr : List ℕ} {bits : List Bool} {index v : ℕ} {p : P}
    {block block' : BIrBlock P} (hx : x.length = block.params)
    (haddr : Carries world x σ block.kinds addr bits) (hindex : index < 2 ^ bits.length)
    (hshort : overflowChecks = true ∨ bits.length ≤ 64)
    (h : eqConst overflowChecks block addr index p = .ok (v, block')) :
    Gates block block' ∧
      HasBit world x σ block'.kinds v (decide (Bits.value bits = index)) := by
  have hmatches : matchesFrom index 0 bits = decide (Bits.value bits = index) := by
    rw [Bool.eq_iff_iff, matchesFrom_iff, decide_eq_true_iff, pow_zero, Nat.div_one,
      Nat.mod_eq_of_lt hindex]
  have hnone : AccHolds world x σ block.kinds none true := rfl
  unfold eqConst at h
  split_ifs at h with hlong
  have hfits : 0 + bits.length ≤ 64 := by
    rw [haddr.length_eq] at hlong
    rcases hshort with hchecks | hshort
    · exact Nat.zero_add _ ▸ Nat.le_of_not_lt fun hlt => hlong ⟨hchecks, hlt⟩
    · exact Nat.zero_add _ ▸ hshort
  have hspec := eqConstFrom_spec hx haddr hnone index 0 hfits p
  rw [Bool.true_and, hmatches] at hspec
  rcases hfold : eqConstFrom index p 0 addr (none, block) with ⟨_ | acc, folded⟩
  · rw [hfold] at h hspec
    cases h
    constructor
    · exact hspec.1.trans (gates_push folded rfl p)
    · have hone : HoldsBit world x σ (push folded .one p).2.kinds (push folded .one p).1 true :=
        holdsBit_push (hx.trans hspec.1.params.symm) p rfl
      rw [show decide (Bits.value bits = index) = true from hspec.2]
      exact hone.hasBit
  · rw [hfold] at h hspec
    cases h
    exact hspec

/-- The register the number selects, from index `i` on. -/
def selectFrom (number : ℕ) : ℕ → List Bool → Bool → Bool
  | _, [], y => y
  | i, r :: registers, y => selectFrom number (i + 1) registers (if number = i then r else y)

theorem selectFrom_eq (number i : ℕ) (registers : List Bool) (y : Bool) :
    selectFrom number i registers y =
      if i ≤ number then registers.getD (number - i) y else y := by
  induction registers generalizing i y with
  | nil => simp [selectFrom]
  | cons r registers ih =>
      rw [selectFrom, ih]
      rcases Nat.lt_trichotomy number i with hlt | rfl | hgt
      · rw [if_neg (by omega), if_neg (by omega), if_neg (by omega)]
      · simp
      · rw [if_pos (Nat.succ_le_of_lt hgt), if_neg hgt.ne', if_pos hgt.le,
          show number - i = number - (i + 1) + 1 by omega, List.getD_cons_succ]

theorem muxReadFrom_spec {addr cells : List ℕ} {bits registers : List Bool} {i acc v : ℕ}
    {y : Bool} {p : P} {block block' : BIrBlock P} (hx : x.length = block.params)
    (haddr : Carries world x σ block.kinds addr bits)
    (hcells : Carries world x σ block.kinds cells registers)
    (hacc : HoldsBit world x σ block.kinds acc y)
    (hfit : i + registers.length ≤ 2 ^ bits.length)
    (hshort : overflowChecks = true ∨ bits.length ≤ 64)
    (h : muxReadFrom overflowChecks addr p i cells (acc, block) = .ok (v, block')) :
    Gates block block' ∧
      HoldsBit world x σ block'.kinds v (selectFrom (Bits.value bits) i registers y) := by
  induction cells generalizing block registers i acc y with
  | nil =>
      cases hcells
      cases h
      exact ⟨Gates.refl _, hacc⟩
  | cons cell cells ih =>
      cases hcells with
      | cons hcell hcells =>
          simp only [muxReadFrom, Except.bind_eq_ok] at h
          obtain ⟨⟨eqI, compared⟩, heq, hrest⟩ := h
          rw [List.length_cons] at hfit
          have hcompare := eqConst_spec hx haddr (by omega) hshort heq
          have hx₁ := hx.trans hcompare.1.params.symm
          have hmux := mux_spec hx₁ hcompare.2 (hcell.mono hcompare.1.grows)
            (hacc.hasBit.mono hcompare.1.grows) p
          have hboth := hcompare.1.trans hmux.1
          have hselect := ih (hx.trans hboth.params.symm) (Carries.mono haddr hboth.grows)
            (Carries.mono hcells hboth.grows) hmux.2 (by omega) hrest
          constructor
          · exact hboth.trans hselect.1
          · rw [selectFrom]
            simpa using hselect.2

/-- A read finds the register the address denotes. -/
theorem muxRead_spec {addr cells : List ℕ} {bits registers : List Bool} {v : ℕ} {p : P}
    {block block' : BIrBlock P} (hx : x.length = block.params)
    (haddr : Carries world x σ block.kinds addr bits)
    (hcells : Carries world x σ block.kinds cells registers)
    (hfit : registers.length ≤ 2 ^ bits.length)
    (hshort : overflowChecks = true ∨ bits.length ≤ 64)
    (h : muxRead overflowChecks block cells addr p = .ok (v, block')) :
    Gates block block' ∧
      HoldsBit world x σ block'.kinds v (registers.getD (Bits.value bits) false) := by
  have hzero := gates_push block (s := .zero) rfl p
  have hacc : HoldsBit world x σ (push block .zero p).2.kinds (push block .zero p).1 false :=
    holdsBit_push hx p rfl
  have hread := muxReadFrom_spec (hx.trans hzero.params.symm) (Carries.mono haddr hzero.grows)
    (Carries.mono hcells hzero.grows) hacc (by omega) hshort h
  rw [selectFrom_eq, if_pos (Nat.zero_le _), Nat.sub_zero] at hread
  exact ⟨hzero.trans hread.1, hread.2⟩

/-- The registers with the one the number selects replaced, from index `i` on. -/
def replaceFrom (number : ℕ) (b : Bool) : ℕ → List Bool → List Bool
  | _, [] => []
  | i, r :: registers => (if number = i then b else r) :: replaceFrom number b (i + 1) registers

theorem replaceFrom_eq (number : ℕ) (b : Bool) (i : ℕ) (registers : List Bool) :
    replaceFrom number b i registers =
      if i ≤ number then registers.set (number - i) b else registers := by
  induction registers generalizing i with
  | nil => simp [replaceFrom]
  | cons r registers ih =>
      rw [replaceFrom, ih]
      rcases Nat.lt_trichotomy number i with hlt | rfl | hgt
      · rw [if_neg (by omega), if_neg (by omega), if_neg (by omega)]
      · simp
      · rw [if_neg hgt.ne', if_pos (Nat.succ_le_of_lt hgt), if_pos hgt.le,
          show number - i = number - (i + 1) + 1 by omega, List.set_cons_succ]

theorem muxWriteFrom_spec {addr cells cells' : List ℕ} {bits registers : List Bool} {i src : ℕ}
    {b : Bool} {p : P} {block block' : BIrBlock P} (hx : x.length = block.params)
    (haddr : Carries world x σ block.kinds addr bits)
    (hcells : Carries world x σ block.kinds cells registers)
    (hsrc : HasBit world x σ block.kinds src b) (hfit : i + registers.length ≤ 2 ^ bits.length)
    (hshort : overflowChecks = true ∨ bits.length ≤ 64)
    (h : muxWriteFrom overflowChecks addr src p i cells block = .ok (cells', block')) :
    Gates block block' ∧ Carries world x σ block'.kinds cells'
      (replaceFrom (Bits.value bits) b i registers) := by
  induction cells generalizing block registers i cells' with
  | nil =>
      cases hcells
      cases h
      exact ⟨Gates.refl _, .nil⟩
  | cons cell cells ih =>
      cases hcells with
      | cons hcell hcells =>
          simp only [muxWriteFrom, Except.bind_eq_ok] at h
          obtain ⟨⟨eqI, compared⟩, heq, ⟨rest, last⟩, hrest, hret⟩ := h
          cases hret
          rw [List.length_cons] at hfit
          have hcompare := eqConst_spec hx haddr (by omega) hshort heq
          have hx₁ := hx.trans hcompare.1.params.symm
          have hmux := mux_spec hx₁ hcompare.2 (hsrc.mono hcompare.1.grows)
            (hcell.mono hcompare.1.grows) p
          have hboth := hcompare.1.trans hmux.1
          have hwrite := ih (hx.trans hboth.params.symm) (Carries.mono haddr hboth.grows)
            (Carries.mono hcells hboth.grows) (hsrc.mono hboth.grows) (by omega) hrest
          constructor
          · exact hboth.trans hwrite.1
          · rw [replaceFrom]
            apply List.Forall₂.cons
            · simpa using hmux.2.hasBit.mono hwrite.1.grows
            · exact hwrite.2

/-- A write replaces the register the address denotes. -/
theorem muxWrite_spec {addr cells cells' : List ℕ} {bits registers : List Bool} {src : ℕ}
    {b : Bool} {p : P} {block block' : BIrBlock P} (hx : x.length = block.params)
    (haddr : Carries world x σ block.kinds addr bits)
    (hcells : Carries world x σ block.kinds cells registers)
    (hsrc : HasBit world x σ block.kinds src b) (hfit : registers.length ≤ 2 ^ bits.length)
    (hshort : overflowChecks = true ∨ bits.length ≤ 64)
    (h : muxWrite overflowChecks block cells addr src p = .ok (cells', block')) :
    Gates block block' ∧
      Carries world x σ block'.kinds cells' (registers.set (Bits.value bits) b) := by
  have hwrite := muxWriteFrom_spec hx haddr hcells hsrc (by omega) hshort h
  rw [replaceFrom_eq, if_pos (Nat.zero_le _), Nat.sub_zero] at hwrite
  exact hwrite

theorem pushCells_spec (hx : x.length = block.params) (p : P) (values : List Bool) :
    Gates block (pushCells block p values).2 ∧
      Carries world x σ (pushCells block p values).2.kinds (pushCells block p values).1
        values := by
  induction values generalizing block with
  | nil => exact ⟨Gates.refl block, .nil⟩
  | cons bit values ih =>
      have hgate : (if bit then .one else .zero : Stmt).isGate := by cases bit <;> rfl
      have hpush := gates_push block hgate p
      have hbit : HoldsBit world x σ (push block (if bit then .one else .zero) p).2.kinds
          (push block (if bit then .one else .zero) p).1 bit := by
        apply holdsBit_push hx p
        cases bit <;> rfl
      have hrest := ih (hx.trans hpush.params.symm)
      constructor
      · exact hpush.trans hrest.1
      · exact List.Forall₂.cons (hbit.hasBit.mono hrest.1.grows) hrest.2

end
end VolarIR.Storage
