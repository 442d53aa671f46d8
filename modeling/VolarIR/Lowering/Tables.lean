import VolarIR.Boolar.Eval
import VolarIR.Ir.Eval
import VolarIR.Ir.PolyEval
import VolarIR.Ir.Typing

/-!
# Lowering to bits: lanes, vars and addresses

The tables that `lower_ir_to_boolar` builds while it lowers a program: the lane of every stored
type, how many bits each var has, and the width of the element addresses of each storage
space. The gates themselves are left out; a polynomial has the bits of its type. A panic is
`none`.
-/
namespace VolarIR.Lowering
open Ir

def irTypeBitsFrom (types : TypeTable) : (fuel : ℕ) → TypeId → ℕ
  | 0, _ => 0
  | fuel + 1, ty =>
      match types.get ty with
      | some (.primitive .bit) => 1
      | some (.primeField k _) => k
      | some (.vec n elem) => n * irTypeBitsFrom types fuel elem
      | some (.tuple parts) => (parts.map (irTypeBitsFrom types fuel)).sum
      | some (.extField wrapped degree _) => degree * irTypeBitsFrom types fuel wrapped
      | some (.block _) | some (.func ..) | none => 0

/-- `ir_type_bits`. Block and function references have no bits. -/
def irTypeBits (types : TypeTable) (ty : TypeId) : ℕ :=
  irTypeBitsFrom types types.types.length ty

def bitLength (n : ℕ) : ℕ := if n = 0 then 0 else n.log2 + 1

def indexBits (k : ℕ) : ℕ := if k ≤ 1 then 0 else bitLength (k - 1)

theorem lt_two_pow_bitLength (n : ℕ) : n < 2 ^ bitLength n := by
  unfold bitLength
  split_ifs with h
  · simp [h]
  · exact Nat.lt_log2_self

theorem bitLength_le_iff {n w : ℕ} : bitLength n ≤ w ↔ n < 2 ^ w := by
  unfold bitLength
  split_ifs with h
  · simp [h]
  · rw [Nat.add_one_le_iff, Nat.log2_lt h]

theorem lt_two_pow_indexBits {i k : ℕ} (h : i < k) : i < 2 ^ indexBits k := by
  unfold indexBits
  split_ifs with hk
  · simp; omega
  · have hlt := lt_two_pow_bitLength (k - 1)
    omega

def storageTypes : IRStmt → List TypeId
  | .storageRead _ ty _ | .storageWrite _ _ ty _ => [ty]
  | .actionStore _ _ _ _ outputTys _ => outputTys
  | _ => []

def allocLane (lanes : List TypeId) (ty : TypeId) : List TypeId :=
  if ty ∈ lanes then lanes else lanes ++ [ty]

section
variable {P : Type} (p : IRProgram P)

def laneRequests : List TypeId :=
  (p.blocks.flatMap fun b => b.kinds.flatMap storageTypes) ++ p.preInit.map PreInitSegment.ty

/-- Lane `l` is that of the `l`-th type. -/
def laneTypes : List TypeId := (laneRequests p).foldl allocLane []

end

def laneOf (lanes : List TypeId) (ty : TypeId) : Option LaneId :=
  if ty ∈ lanes then some ⟨lanes.idxOf ty⟩ else none

structure VarBits where
  bits : ℕ
  outputs : Option (List ℕ)
  deriving DecidableEq, Repr

def VarBits.ofBits (bits : ℕ) : VarBits := ⟨bits, none⟩

abbrev AddrWidths := StorageId × LaneId → Option ℕ

def recordAddrWidth (storage : StorageId) (lane : LaneId) (width : ℕ) (widths : AddrWidths) :
    Option AddrWidths :=
  match widths (storage, lane) with
  | some w => if w = width then some widths else none
  | none => some (Function.update widths (storage, lane) (some width))

section
variable (types : TypeTable) (lanes : List TypeId)

/-- What `lower_stmt` makes of a statement, given the bits of the vars before it. -/
def lowerVar (vars : List VarBits) : IRStmt → Option VarBits
  | .const _ ty | .rng _ ty => some (.ofBits (irTypeBits types ty))
  | .poly ty coeffs _ => do
      let _ ← (coeffs.entries.flatMap Prod.fst).mapM fun v => vars[v]?
      some (.ofBits (irTypeBits types ty))
  | .transmute src _ _ | .rol src _ _ | .ror src _ _ => do some (.ofBits (← vars[src]?).bits)
  | .merge parts _ => do some (.ofBits ((← parts.mapM fun v => vars[v]?).map VarBits.bits).sum)
  | .splat src ty => do
      if 0 < (← vars[src]?).bits then some (.ofBits (irTypeBits types ty)) else none
  | .shuffle resultBits _ => do
      let _ ← resultBits.mapM fun e => do
        if e.1.toNat < (← vars[e.2]?).bits then some () else none
      some (.ofBits resultBits.length)
  | .storageRead _ ty addr => do
      let _ ← vars[addr]?
      some (.ofBits (irTypeBits types ty))
  | .storageWrite _ src ty addr => do
      let _ ← vars[addr]?
      if (← vars[src]?).bits = irTypeBits types ty then some (.ofBits (irTypeBits types ty))
      else none
  | .oracleCall _ args outputTys _ => do
      let _ ← args.mapM fun v => vars[v]?
      some ⟨0, some (outputTys.map (irTypeBits types))⟩
  | .actionCall _ guard args fallbacks outputTys _ => do
      let _ ← (args ++ fallbacks).mapM fun v => vars[v]?
      if 0 < (← vars[guard]?).bits then some ⟨1, some (outputTys.map (irTypeBits types))⟩ else none
  | .oracleOutput call idx _ | .actionOutput call idx _ => do
      some (.ofBits (← (← (← vars[call]?).outputs)[idx]?))
  | .actionStore _ guard args fallbacks outputTys targets => do
      let _ ← args.mapM fun v => vars[v]?
      let _ ← (fallbacks.zip (outputTys.zip targets)).mapM fun e => do
        if (← vars[e.1]?).bits = irTypeBits types e.2.1 then some () else none
      if 0 < (← vars[guard]?).bits then some (.ofBits 0) else none

/-- The storage spaces a statement uses, with the vars of the element addresses. -/
def accesses : IRStmt → List ((StorageId × TypeId) × ℕ)
  | .storageRead storage ty addr | .storageWrite storage _ ty addr => [((storage, ty), addr)]
  | .actionStore _ _ _ fallbacks outputTys targets =>
      (fallbacks.zip (outputTys.zip targets)).map fun e => ((e.2.2.1, e.2.1), e.2.2.2)
  | _ => []

def recordAccess (vars : List VarBits) (widths : AddrWidths)
    (access : (StorageId × TypeId) × ℕ) : Option AddrWidths := do
  let lane ← laneOf lanes access.1.2
  recordAddrWidth access.1.1 lane (← vars[access.2]?).bits widths

def lowerStmt (state : List VarBits × AddrWidths) (stmt : IRStmt) :
    Option (List VarBits × AddrWidths) := do
  let var ← lowerVar types state.1 stmt
  let widths ← (accesses stmt).foldlM (recordAccess lanes state.1) state.2
  some (state.1 ++ [var], widths)

variable {P : Type}

def paramBits (b : IRBlock P) : List VarBits := b.params.map fun ty => .ofBits (irTypeBits types ty)

/-- `lower_block_with_var_bits`, as far as the tables go. -/
def lowerBlock (b : IRBlock P) (widths : AddrWidths) : Option (List VarBits × AddrWidths) :=
  b.kinds.foldlM (lowerStmt types lanes) (paramBits types b, widths)

def lowerBlocks : List (IRBlock P) → AddrWidths → Option (List (List VarBits) × AddrWidths)
  | [], widths => some ([], widths)
  | b :: rest, widths => do
      let (vars, widths) ← lowerBlock types lanes b widths
      let (more, widths) ← lowerBlocks rest widths
      some (vars :: more, widths)

/-- `expand_pre_init_segment`: one segment for each bit of the elements. -/
def expandPreInitSegment (widths : AddrWidths) (seg : PreInitSegment) :
    Option (List Boolar.BIrPreInitSegment) := do
  let k := irTypeBits types seg.ty
  let lane ← laneOf lanes seg.ty
  let recordedAddrBits := (widths (seg.storage, lane)).getD 0
  let last := min (seg.offset + (seg.data.length - 1)) usizeMax
  let nAddr := max recordedAddrBits (bitLength last)
  some ((List.range k).map fun i =>
    { storage := seg.storage
      lane
      addr := (List.range nAddr).map (fun bit => bit < 64 && seg.offset.testBit bit) ++
        (List.range (indexBits k)).map i.testBit
      data := seg.data.map fun c => c.bit i })

end

structure Lowered where
  lanes : List TypeId
  varBits : List (List VarBits)
  addrWidths : AddrWidths
  preInit : List Boolar.BIrPreInitSegment

/-- `lower_ir_to_boolar_with_tables`. -/
def lowerIrToBoolar {P : Type} (types : TypeTable) (p : IRProgram P) : Option Lowered := do
  let lanes := laneTypes p
  let (varBits, addrWidths) ← lowerBlocks types lanes p.blocks fun _ => none
  let preInit ← p.preInit.mapM (expandPreInitSegment types lanes addrWidths)
  some ⟨lanes, varBits, addrWidths, preInit.flatten⟩

theorem laneOf_inj {lanes : List TypeId} {ty ty' : TypeId} {lane : LaneId}
    (h : laneOf lanes ty = some lane) (h' : laneOf lanes ty' = some lane) : ty = ty' := by
  unfold laneOf at h h'
  split_ifs at h h' with hmem hmem'
  have hidx : lanes.idxOf ty = lanes.idxOf ty' :=
    congrArg LaneId.id (Option.some.inj (h.trans h'.symm))
  exact (List.idxOf_inj hmem).mp hidx

def Extends (widths widths' : AddrWidths) : Prop :=
  ∀ space w, widths space = some w → widths' space = some w

theorem Extends.refl (widths : AddrWidths) : Extends widths widths := fun _ _ h => h

theorem Extends.trans {a b c : AddrWidths} (h : Extends a b) (h' : Extends b c) : Extends a c :=
  fun space w hw => h' space w (h space w hw)

theorem recordAddrWidth_eq_some {storage : StorageId} {lane : LaneId} {width : ℕ}
    {widths widths' : AddrWidths} (h : recordAddrWidth storage lane width widths = some widths') :
    Extends widths widths' ∧ widths' (storage, lane) = some width := by
  unfold recordAddrWidth at h
  split at h
  · rename_i w hw
    split_ifs at h with hsame
    cases h
    exact ⟨.refl widths, hsame ▸ hw⟩
  · rename_i hnone
    cases h
    refine ⟨?_, Function.update_self _ _ _⟩
    intro space w hw
    rw [Function.update_of_ne]
    · exact hw
    · rintro rfl
      rw [hnone] at hw
      cases hw

section
variable {types : TypeTable} {lanes : List TypeId} {vars vars' : List VarBits}
  {widths widths' : AddrWidths}

def Recorded (lanes : List TypeId) (widths : AddrWidths) (vars : List VarBits)
    (access : (StorageId × TypeId) × ℕ) : Prop :=
  ∃ lane var, laneOf lanes access.1.2 = some lane ∧ vars[access.2]? = some var ∧
    widths (access.1.1, lane) = some var.bits

theorem Recorded.mono {access : (StorageId × TypeId) × ℕ} (h : Recorded lanes widths vars access)
    (hwidths : Extends widths widths') (hvars : vars <+: vars') :
    Recorded lanes widths' vars' access := by
  obtain ⟨lane, var, hlane, hvar, hwidth⟩ := h
  obtain ⟨more, rfl⟩ := hvars
  refine ⟨lane, var, hlane, ?_, hwidths _ _ hwidth⟩
  rw [List.getElem?_append_left (List.getElem?_eq_some_iff.mp hvar).1]
  exact hvar

theorem recordAccess_eq_some {access : (StorageId × TypeId) × ℕ}
    (h : recordAccess lanes vars widths access = some widths') :
    Extends widths widths' ∧ Recorded lanes widths' vars access := by
  obtain ⟨lane, hlane, h⟩ := Option.bind_eq_some_iff.mp h
  obtain ⟨var, hvar, h⟩ := Option.bind_eq_some_iff.mp h
  have hrecord := recordAddrWidth_eq_some h
  exact ⟨hrecord.1, lane, var, hlane, hvar, hrecord.2⟩

theorem recordAccesses_eq_some {accs : List ((StorageId × TypeId) × ℕ)}
    (h : accs.foldlM (recordAccess lanes vars) widths = some widths') :
    Extends widths widths' ∧ ∀ access ∈ accs, Recorded lanes widths' vars access := by
  induction accs generalizing widths with
  | nil =>
      cases h
      exact ⟨.refl _, by simp⟩
  | cons access accs ih =>
      rw [List.foldlM_cons] at h
      obtain ⟨mid, hmid, h⟩ := Option.bind_eq_some_iff.mp h
      obtain ⟨hextends, hhere⟩ := recordAccess_eq_some hmid
      obtain ⟨hrest, hall⟩ := ih h
      refine ⟨hextends.trans hrest, List.forall_mem_cons.mpr ⟨?_, hall⟩⟩
      exact hhere.mono hrest (List.prefix_refl vars)

theorem lowerStmt_eq_some {stmt : IRStmt} {state : List VarBits × AddrWidths}
    (h : lowerStmt types lanes (vars, widths) stmt = some state) :
    vars <+: state.1 ∧ Extends widths state.2 ∧
      ∀ access ∈ accesses stmt, Recorded lanes state.2 state.1 access := by
  obtain ⟨var, -, h⟩ := Option.bind_eq_some_iff.mp h
  obtain ⟨mid, hmid, h⟩ := Option.bind_eq_some_iff.mp h
  cases h
  obtain ⟨hextends, hall⟩ := recordAccesses_eq_some hmid
  have hgrown : vars <+: vars ++ [var] := List.prefix_append vars [var]
  exact ⟨hgrown, hextends, fun access ha => (hall access ha).mono (.refl mid) hgrown⟩

theorem lowerStmts_eq_some {stmts : List IRStmt} {state : List VarBits × AddrWidths}
    (h : stmts.foldlM (lowerStmt types lanes) (vars, widths) = some state) :
    vars <+: state.1 ∧ Extends widths state.2 ∧
      ∀ stmt ∈ stmts, ∀ access ∈ accesses stmt, Recorded lanes state.2 state.1 access := by
  induction stmts generalizing vars widths with
  | nil =>
      cases h
      exact ⟨List.prefix_refl vars, .refl widths, by simp⟩
  | cons stmt stmts ih =>
      rw [List.foldlM_cons] at h
      obtain ⟨⟨vars₁, widths₁⟩, hhere, h⟩ := Option.bind_eq_some_iff.mp h
      obtain ⟨hgrown, hextends, hstmt⟩ := lowerStmt_eq_some hhere
      obtain ⟨hgrown', hextends', hrest⟩ := ih h
      refine ⟨hgrown.trans hgrown', hextends.trans hextends', ?_⟩
      refine List.forall_mem_cons.mpr ⟨?_, hrest⟩
      exact fun access ha => (hstmt access ha).mono hextends' hgrown'

variable {P : Type}

theorem lowerBlocks_eq_some {blocks : List (IRBlock P)} {all : List (List VarBits)}
    (h : lowerBlocks types lanes blocks widths = some (all, widths')) :
    Extends widths widths' ∧ List.Forall₂ (fun b vars => paramBits types b <+: vars ∧
      ∀ stmt ∈ b.kinds, ∀ access ∈ accesses stmt, Recorded lanes widths' vars access)
      blocks all := by
  induction blocks generalizing widths all with
  | nil =>
      cases h
      exact ⟨.refl _, .nil⟩
  | cons b blocks ih =>
      obtain ⟨⟨vars, mid⟩, hhere, h⟩ := Option.bind_eq_some_iff.mp h
      obtain ⟨⟨more, widths₂⟩, hrest, h⟩ := Option.bind_eq_some_iff.mp h
      cases h
      obtain ⟨hgrown, hextends, hstmts⟩ := lowerStmts_eq_some hhere
      obtain ⟨hextends', hall⟩ := ih hrest
      refine ⟨hextends.trans hextends', .cons ⟨hgrown, ?_⟩ hall⟩
      exact fun stmt hs access ha =>
        (hstmts stmt hs access ha).mono hextends' (List.prefix_refl vars)

/-- The widths of a run are those of the addresses it lowered. -/
theorem lowerIrToBoolar_eq_some {p : IRProgram P} {L : Lowered}
    (h : lowerIrToBoolar types p = some L) :
    L.lanes = laneTypes p ∧ List.Forall₂ (fun b vars => paramBits types b <+: vars ∧
      ∀ stmt ∈ b.kinds, ∀ access ∈ accesses stmt, Recorded L.lanes L.addrWidths vars access)
      p.blocks L.varBits ∧
    ∃ expanded, p.preInit.mapM (expandPreInitSegment types L.lanes L.addrWidths) = some expanded ∧
      L.preInit = expanded.flatten := by
  obtain ⟨⟨vars, widths⟩, hblocks, h⟩ := Option.bind_eq_some_iff.mp h
  obtain ⟨expanded, hexpanded, h⟩ := Option.bind_eq_some_iff.mp h
  cases h
  exact ⟨rfl, (lowerBlocks_eq_some hblocks).2, expanded, hexpanded, rfl⟩

end

end VolarIR.Lowering
