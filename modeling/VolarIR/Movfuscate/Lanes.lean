import VolarIR.Ir.PolyValue
import VolarIR.Movfuscate.Step

/-!
# Block references in lanes of their own

What a step circuit makes of a typed program: block references live in cells that are
shared by all their signatures, and a block whose flag is off computes its vars but changes
nothing. A program that has no block references behaves as it always does.
-/
namespace VolarIR.Movfuscate
open Ir

/-- A reference to block `k`, as the interpreter holds it. -/
def refBits (k : ℕ) : List Bool := (List.range 32).map k.testBit

@[simp] theorem length_refBits (k : ℕ) : (refBits k).length = 32 := by simp [refBits]

theorem bitsToU64_refBits {k : ℕ} (h : k < 2 ^ 32) : bitsToU64 (refBits k) = k := by
  rw [bitsToU64, List.take_of_length_le (by simp), refBits, Bits.value_map_testBit h]

def pcBitsOf (pcWidth k : ℕ) : List Bool := (List.range pcWidth).map k.testBit

@[simp] theorem length_pcBitsOf (pcWidth k : ℕ) : (pcBitsOf pcWidth k).length = pcWidth := by
  simp [pcBitsOf]

theorem value_pcBitsOf {pcWidth k : ℕ} (h : k < 2 ^ pcWidth) :
    Bits.value (pcBitsOf pcWidth k) = k := Bits.value_map_testBit h

theorem pcBitsOf_value {pcWidth : ℕ} {bits : List Bool} (h : bits.length = pcWidth) :
    pcBitsOf pcWidth (Bits.value bits) = bits := by
  rw [pcBitsOf, funext (Bits.testBit_value bits)]
  exact (eq_map_getD h).symm

structure LaneState where
  st : EvalState
  refs : StorageId → ℕ → ℕ

def LaneState.refer (σ : LaneState) (storage : StorageId) (addr k : ℕ) : LaneState :=
  { σ with refs := Function.update σ.refs storage (Function.update (σ.refs storage) addr k) }

section
variable (types : TypeTable) (world : Externals)

/-- Block references are stored and read in their own cells. -/
def evalLane (σ : LaneState) (look : ℕ → Value) (s : IRStmt) : Value × LaneState :=
  match s with
  | .storageRead storage ty addr =>
      if isBlockType types ty then
        (⟨refBits (σ.refs storage (bitsToU64 (look addr).bits)), some ty, []⟩, σ)
      else ((evalStmt types world σ.st look s).1, σ)
  | .storageWrite storage src ty addr =>
      if isBlockType types ty then
        (⟨[], none, []⟩,
          σ.refer storage (bitsToU64 (look addr).bits) (bitsToU64 (look src).bits))
      else
        ((evalStmt types world σ.st look s).1,
            { σ with st := (evalStmt types world σ.st look s).2 })
  | s => ((evalStmt types world σ.st look s).1,
      { σ with st := (evalStmt types world σ.st look s).2 })

theorem evalLane_congr (s : IRStmt) (σ : LaneState) {f g : ℕ → Value}
    (h : ∀ v ∈ s.operands, f v = g v) :
    evalLane types world σ f s = evalLane types world σ g s := by
  have hstmt : evalStmt types world σ.st f s = evalStmt types world σ.st g s :=
    (language types world).eval_congr s σ.st h
  cases s with
  | storageRead storage ty addr =>
      have haddr : f addr = g addr := h addr List.mem_cons_self
      simp only [evalLane, haddr, hstmt]
  | storageWrite storage src ty addr =>
      simp only [IRStmt.operands, List.forall_mem_cons] at h
      simp only [evalLane, h.1, h.2.1, hstmt]
  | _ => simp only [evalLane, hstmt]

/-- The language of a block whose flag is `active`. -/
def laneLanguage (active : Bool) : Ssa.Language IRStmt Value LaneState where
  operands := IRStmt.operands
  eval σ look s :=
    ((evalLane types world σ look s).1, if active then (evalLane types world σ look s).2 else σ)
  eval_congr s σ f g h := by simp only [evalLane_congr types world s σ h]

end

def refParams (types : TypeTable) : VarKind → Option (List TypeId)
  | .data ty => types.blockParams ty
  | _ => none

def PlainVar (types : TypeTable) (kinds : List VarKind) (v : ℕ) : Prop :=
  ∃ ty, kindAt kinds v = .data ty ∧ BinaryType types ty

def plainOperands : IRStmt → List ℕ
  | .storageWrite _ _ _ addr => [addr]
  | .oracleOutput .. | .actionOutput .. => []
  | s => s.operands

def valueTypes : IRStmt → List TypeId
  | .storageWrite _ _ ty _ => [ty]
  | .oracleCall _ _ outputTys _ | .actionCall _ _ _ _ outputTys _
  | .actionStore _ _ _ _ outputTys _ => outputTys
  | s => s.outputType.toList

def mayRefer : IRStmt → Bool
  | .storageRead .. | .storageWrite .. | .const .. => true
  | _ => false

/-- A statement of a well-typed program with block ids below `bound`. -/
structure StmtFits (types : TypeTable) (bound : ℕ) (kinds : List VarKind) (s : IRStmt) : Prop where
  typed : StmtTyped types kinds s
  operands : ∀ v ∈ plainOperands s, PlainVar types kinds v
  values : ∀ ty ∈ valueTypes s, BinaryType types ty ∨ mayRefer s ∧ isBlockType types ty
  stored : ∀ storage src ty addr, s = .storageWrite storage src ty addr →
    kindAt kinds src = .data ty
  named : ∀ c ty, s = .const c ty → isBlockType types ty → c.hi = 0 ∧ c.lo.toNat < bound
  sorted : ∀ ty coeffs c, s = .poly ty coeffs c → ∀ e ∈ coeffs.entries, e.1.Pairwise (· ≤ ·)

def StmtsFit (types : TypeTable) (bound : ℕ) (kinds : List VarKind) : List IRStmt → Prop
  | [] => True
  | s :: rest => StmtFits types bound kinds s ∧ StmtsFit types bound (kinds ++ [s.varKind]) rest

/-- Every var holds a value of its kind, and every reference names a block below `bound`. -/
structure LaneFits (types : TypeTable) (bound : ℕ) (kinds : List VarKind)
    (f : Ssa.Frame Value LaneState) : Prop where
  frame : FrameFits types kinds ⟨f.vals, f.st.st⟩
  refs : ∀ v < kinds.length, ∀ ty, kindAt kinds v = .data ty → isBlockType types ty →
    ∃ k < bound, Ssa.look f.vals v = ⟨refBits k, some ty, []⟩
  cells : ∀ storage addr, f.st.refs storage addr < bound

/-- A value of a parameter: a reference names a block below `bound`. -/
def IsArg (types : TypeTable) (bound : ℕ) (ty : TypeId) (bits : List Bool) : Prop :=
  bits.length = types.bitWidth ty ∧ (isBlockType types ty → ∃ k < bound, bits = refBits k)

section
variable {types : TypeTable} {ty : TypeId}

theorem get_of_isBlockType (h : isBlockType types ty) :
    ∃ params, types.get ty = some (.block params) := by
  rw [isBlockType, TypeTable.blockParams] at h
  split at h
  · next params hget => exact ⟨params, hget⟩
  · cases h

theorem bitWidth_of_isBlockType (h : isBlockType types ty) : types.bitWidth ty = 32 := by
  obtain ⟨params, get⟩ := get_of_isBlockType h
  obtain ⟨fuel, hfuel⟩ := TypeTable.exists_length get
  rw [TypeTable.bitWidth, hfuel, bitWidthFrom, get]

theorem isBlockType_of_binary (h : BinaryType types ty) : isBlockType types ty = false := by
  rw [Bool.eq_false_iff]
  intro hblock
  obtain ⟨params, get⟩ := get_of_isBlockType hblock
  obtain ⟨fuel, hfuel⟩ := TypeTable.exists_length get
  cases h with
  | bits prime idem => simp [TypeTable.mulIsIdempotent, hfuel, mulIsIdempotentFrom, get] at idem
  | ring prime ring means fits =>
      obtain ⟨d, hd⟩ := means.rank
      cases hd with
      | bit get' => simp [get] at get'
      | vec get' => simp [get] at get'
      | ext get' => simp [get] at get'

theorem blockParams_eq_none (h : isBlockType types ty = false) : types.blockParams ty = none := by
  rw [isBlockType, Option.isSome_eq_false_iff] at h
  exact Option.isNone_iff_eq_none.mp h

theorem PlainVar.refParams {kinds : List VarKind} {v : ℕ} (h : PlainVar types kinds v) :
    refParams types (kindAt kinds v) = none := by
  obtain ⟨ty, hkind, hty⟩ := h
  rw [hkind]
  exact blockParams_eq_none (isBlockType_of_binary hty)

end

section
variable {types : TypeTable} {world : Externals} {bound : ℕ} {kinds : List VarKind}
  {f : Ssa.Frame Value LaneState} {s : IRStmt}

theorem evalLane_eq (h : ∀ ty ∈ valueTypes s, BinaryType types ty) (σ : LaneState)
    (look : ℕ → Value) : evalLane types world σ look s =
      ((evalStmt types world σ.st look s).1,
          { σ with st := (evalStmt types world σ.st look s).2 }) := by
  cases s with
  | storageRead storage ty addr =>
      have hty := isBlockType_of_binary (h ty (by simp [valueTypes, IRStmt.outputType]))
      rw [evalLane, if_neg (by rw [hty]; decide)]
      rfl
  | storageWrite storage src ty addr =>
      have hty := isBlockType_of_binary (h ty (by simp [valueTypes]))
      rw [evalLane, if_neg (by rw [hty]; decide)]
  | _ => rfl

theorem constBits_ref {c : Constant} : constBits c 32 = refBits c.lo.toNat := by
  apply List.map_congr_left
  intro k hk
  have hlt := List.mem_range.mp hk
  rw [Constant.bit, if_pos (by omega)]
  rfl

variable (world) in
theorem LaneFits.eval (h : LaneFits types bound kinds f) (hbound : bound ≤ 2 ^ 32)
    (hs : StmtFits types bound kinds s) :
    let r := evalLane types world f.st (Ssa.look f.vals) s
    HasKind types r.1 s.varKind ∧ StorageFits types r.2.st ∧
      (∀ ty, s.varKind = .data ty → isBlockType types ty →
        ∃ k < bound, r.1 = ⟨refBits k, some ty, []⟩) ∧
      ∀ storage addr, r.2.refs storage addr < bound := by
  by_cases hplain : ∀ ty ∈ valueTypes s, BinaryType types ty
  · rw [evalLane_eq hplain]
    obtain ⟨hkind, hstorage⟩ := h.frame.eval world hs.typed
    refine ⟨hkind, hstorage, ?_, h.cells⟩
    intro ty hty hblock
    have hval : ty ∈ valueTypes s := by
      cases s <;> simp_all [IRStmt.varKind, valueTypes, IRStmt.outputType]
    rw [isBlockType_of_binary (hplain ty hval)] at hblock
    cases hblock
  · rw [not_forall₂] at hplain
    obtain ⟨ty, hty, hnot⟩ := hplain
    obtain ⟨hrefer, hblock⟩ := (hs.values ty hty).resolve_left hnot
    cases s with
    | storageRead storage rty addr =>
        obtain rfl : ty = rty := by simpa [valueTypes, IRStmt.outputType] using hty
        dsimp only
        rw [evalLane, if_pos hblock]
        refine ⟨⟨rfl, ?_⟩, h.frame.storage, ?_, h.cells⟩
        · rw [length_refBits, bitWidth_of_isBlockType hblock]
        · intro ty' hty' _
          obtain rfl : ty = ty' := by simpa [IRStmt.varKind] using hty'
          exact ⟨_, h.cells _ _, rfl⟩
    | storageWrite storage src wty addr =>
        obtain rfl : ty = wty := by simpa [valueTypes] using hty
        dsimp only
        rw [evalLane, if_pos hblock]
        have hkind := hs.stored storage src ty addr rfl
        obtain ⟨k, hk, hlook⟩ := h.refs src (lt_of_kindAt_data hkind) ty hkind hblock
        refine ⟨trivial, h.frame.storage, ?_, ?_⟩
        · intro ty' hty' _
          simp [IRStmt.varKind] at hty'
        · intro s a
          rw [hlook, bitsToU64_refBits (hk.trans_le hbound), LaneState.refer]
          dsimp only
          rw [Function.update_apply]
          split_ifs with hsame
          · subst hsame
            rw [Function.update_apply]
            split_ifs
            · exact hk
            · exact h.cells _ _
          · exact h.cells _ _
    | const c cty =>
        obtain rfl : ty = cty := by simpa [valueTypes, IRStmt.outputType] using hty
        obtain ⟨hkind, hstorage⟩ := h.frame.eval world hs.typed
        refine ⟨hkind, hstorage, ?_, h.cells⟩
        intro ty' hty' _
        obtain rfl : ty = ty' := by simpa [IRStmt.varKind] using hty'
        refine ⟨c.lo.toNat, (hs.named c ty rfl hblock).2, ?_⟩
        simp [evalLane, evalStmt, evalKind, IRStmt.outputType, bitWidth_of_isBlockType hblock,
          constBits_ref]
    | _ => cases hrefer

variable (world) in
theorem LaneFits.step (h : LaneFits types bound kinds f) (hbound : bound ≤ 2 ^ 32)
    (hs : StmtFits types bound kinds s) (active : Bool) :
    LaneFits types bound (kinds ++ [s.varKind]) ((laneLanguage types world active).step f s) := by
  obtain ⟨hkind, hstorage, hrefs, hcells⟩ := h.eval world hbound hs
  have hlen : f.vals.length = kinds.length := h.frame.length
  have hlast : ∀ {k : ℕ}, k < (kinds ++ [s.varKind]).length →
      k < kinds.length ∨ k = kinds.length := by
    intro k hk
    rw [List.length_append, List.length_singleton] at hk
    omega
  refine ⟨⟨?_, ?_, ?_⟩, ?_, ?_⟩
  · simp [Ssa.Language.step, hlen]
  · intro v hv
    rcases hlast hv with hlt | rfl
    · rw [kindAt_append_left hlt]
      dsimp only
      rw [Ssa.Language.step_look _ (hlen ▸ hlt)]
      exact h.frame.var v hlt
    · rw [kindAt_append_length, ← hlen]
      simp only [Ssa.Language.step, Ssa.look_append_length]
      exact hkind
  · cases active with
    | true => exact hstorage
    | false => exact h.frame.storage
  · intro v hv ty hty hblock
    rcases hlast hv with hlt | rfl
    · rw [kindAt_append_left hlt] at hty
      rw [Ssa.Language.step_look _ (hlen ▸ hlt)]
      exact h.refs v hlt ty hty hblock
    · rw [kindAt_append_length] at hty
      rw [← hlen]
      simp only [Ssa.Language.step, Ssa.look_append_length]
      exact hrefs ty hty hblock
  · cases active with
    | true => exact hcells
    | false => exact h.cells

variable (world) in
theorem LaneFits.run (h : LaneFits types bound kinds f) (hbound : bound ≤ 2 ^ 32)
    {stmts : List IRStmt} (hs : StmtsFit types bound kinds stmts) (active : Bool) :
    LaneFits types bound (kinds ++ stmts.map IRStmt.varKind)
      ((laneLanguage types world active).run f stmts) := by
  induction stmts generalizing kinds f with
  | nil => simpa using h
  | cons s rest ih =>
      rw [List.map_cons, Ssa.Language.run_cons, List.append_cons]
      exact ih (h.step world hbound hs.1 active) hs.2

theorem argsFit_iff {tys : List TypeId} {args : List (List Bool)} :
    ArgsFit types tys args ↔
      ∀ i : ℕ, args[i]?.map List.length = tys[i]?.map types.bitWidth := by
  rw [ArgsFit, List.ext_getElem?_iff]
  simp only [List.getElem?_map]

theorem argsFit_of_isArg {tys : List TypeId} {args : List (List Bool)}
    (h : List.Forall₂ (IsArg types bound) tys args) : ArgsFit types tys args := by
  unfold ArgsFit
  induction h with
  | nil => rfl
  | cons hbits _ ih => rw [List.map_cons, List.map_cons, hbits.1, ih]

theorem look_paramValues {tys : List TypeId} {args : List (List Bool)} {v : ℕ} {ty : TypeId}
    {bits : List Bool} (hty : tys[v]? = some ty) (hbits : args[v]? = some bits) :
    Ssa.look (paramValues tys args) v = ⟨bits, some ty, []⟩ := by
  simp [Ssa.look, paramValues, List.getElem?_zipWith, hty, hbits]

theorem laneFits_params {tys : List TypeId} {args : List (List Bool)} {ρ : LaneState}
    (hargs : List.Forall₂ (IsArg types bound) tys args) (hρ : StorageFits types ρ.st)
    (hcells : ∀ storage addr, ρ.refs storage addr < bound) :
    LaneFits types bound (tys.map .data) ⟨paramValues tys args, ρ⟩ where
  frame := frameFits_params (b := (⟨tys, [], .jmp ⟨.ret, []⟩⟩ : IRBlock Unit))
    (argsFit_of_isArg hargs) hρ
  refs v hv ty hty hblock := by
    rw [List.length_map] at hv
    have htys : tys[v]? = some tys[v] := List.getElem?_eq_getElem hv
    have hlen := hargs.length_eq
    have hbits : args[v]? = some (args.get ⟨v, hlen ▸ hv⟩) := List.getElem?_eq_getElem _
    obtain rfl : tys[v] = ty := by
      have hkind : kindAt (tys.map .data) v = .data tys[v] := by simp [kindAt, hv]
      exact VarKind.data.inj (hkind.symm.trans hty)
    obtain ⟨k, hk, hval⟩ := (List.forall₂_iff_get.mp hargs).2 v hv (hlen ▸ hv) |>.2 hblock
    refine ⟨k, hk, ?_⟩
    dsimp only
    rw [look_paramValues htys hbits, ← hval]
  cells := hcells

def laneFrame {P : Type} (types : TypeTable) (world : Externals) (active : Bool) (b : IRBlock P)
    (args : List (List Bool)) (ρ : LaneState) : Ssa.Frame Value LaneState :=
  (laneLanguage types world active).run ⟨paramValues b.params args, ρ⟩ b.kinds

variable (world) in
theorem laneFits_frame {P : Type} {b : IRBlock P} {args : List (List Bool)} {ρ : LaneState}
    (hbound : bound ≤ 2 ^ 32) (hs : StmtsFit types bound (b.params.map .data) b.kinds)
    (hargs : List.Forall₂ (IsArg types bound) b.params args) (hρ : StorageFits types ρ.st)
    (hcells : ∀ storage addr, ρ.refs storage addr < bound) (active : Bool) :
    LaneFits types bound b.varKinds (laneFrame types world active b args ρ) :=
  (laneFits_params hargs hρ hcells).run world hbound hs active

end
end VolarIR.Movfuscate
