import VolarIR.Lowering.Reads
import VolarIR.Ir.ReadonlyFold

/-!
# Lowering to bits: pre-initialised storage

A segment of the program becomes one segment for each bit of its elements, at addresses as wide
as the recorded ones or as the segment needs. What a read finds there is compared with what the
program's own read finds.
-/
namespace VolarIR.Lowering
open Ir Boolar

def elementAt (segs : List PreInitSegment) (storage : StorageId) (ty : TypeId) (n : ℕ) :
    Constant :=
  segs.foldl (fun value seg =>
    if seg.storage ≠ storage ∨ seg.ty ≠ ty then value
    else if seg.offset ≤ n then seg.data[n - seg.offset]?.getD value
    else value) .zero

/-- The last element is within reach of addresses with `width` bits. -/
def Reaches (width : ℕ) (seg : PreInitSegment) : Prop :=
  seg.offset + (seg.data.length - 1) < 2 ^ width

instance (width : ℕ) : DecidablePred (Reaches width) := fun _ => Nat.decLt _ _

theorem length_increment {bits : List Bool} (h : Bits.value bits + 1 < 2 ^ bits.length) :
    (increment bits).length = bits.length := by
  induction bits with
  | nil => simp at h
  | cons bit bits ih =>
      cases bit with
      | false => rfl
      | true =>
          rw [Bits.value_cons, List.length_cons, pow_succ, Bool.toNat_true] at h
          rw [increment, List.length_cons, List.length_cons, ih (by omega)]

theorem length_addToAddress {addr : List Bool} {addend : ℕ}
    (h : Bits.value addr + addend < 2 ^ addr.length) :
    (addToAddress addr addend).length = addr.length := by
  induction addend using Nat.strong_induction_on generalizing addr with
  | _ addend ih =>
    by_cases hzero : addend = 0
    · rw [addToAddress, if_pos hzero]
    · have hne : addr ≠ [] := by
        rintro rfl
        simp at h
        omega
      have hreached : Bits.value (if addend % 2 = 1 then increment addr else addr) =
          Bits.value addr + addend % 2 ∧
          (if addend % 2 = 1 then increment addr else addr).length = addr.length := by
        rcases Nat.mod_two_eq_zero_or_one addend with heven | hodd
        · rw [if_neg (by omega), heven]
          exact ⟨rfl, rfl⟩
        · rw [if_pos hodd, value_increment, hodd]
          exact ⟨rfl, length_increment (by omega)⟩
      rw [addToAddress, if_neg hzero, if_neg hne]
      dsimp only
      generalize (if addend % 2 = 1 then increment addr else addr) = reached at hreached
      obtain ⟨hvalue, hlen⟩ := hreached
      cases reached with
      | nil => exact hlen
      | cons bit rest =>
          rw [List.length_cons] at hlen
          rw [Bits.value_cons] at hvalue
          rw [← hlen, pow_succ] at h
          change (bit :: addToAddress rest (addend / 2)).length = _
          rw [List.length_cons, ih (addend / 2) (by omega) (by omega), hlen]

theorem value_offsetBits {offset width : ℕ} (h : offset < 2 ^ width) (h64 : offset < 2 ^ 64) :
    Bits.value ((List.range width).map fun bit => decide (bit < 64) && offset.testBit bit) =
      offset := by
  have hdigits : ((List.range width).map fun bit => decide (bit < 64) && offset.testBit bit) =
      (List.range width).map offset.testBit := by
    apply List.map_congr_left
    intro bit _
    by_cases hbit : bit < 64
    · simp [hbit]
    · have hzero : offset.testBit bit = false := by
        apply Nat.testBit_lt_two_pow
        exact h64.trans_le (Nat.pow_le_pow_right (by decide) (by omega))
      simp [hzero]
  rw [hdigits, Bits.value_map_testBit h]

theorem addToAddress_eq_iff {addr index a digits : List Bool} {e : ℕ}
    (hlen : index.length = digits.length) (hfit : Bits.value addr + e < 2 ^ addr.length) :
    addToAddress (addr ++ index) e = a ++ digits ↔
      addr.length = a.length ∧ Bits.value addr + e = Bits.value a ∧ index = digits := by
  have hvalue := value_addToAddress (addr ++ index) e
  have hlt := Bits.value_lt index
  have hwhole : Bits.value (addr ++ index) + e < 2 ^ (addr ++ index).length := by
    rw [Bits.value_append, List.length_append, pow_add]
    nlinarith
  have hlength := length_addToAddress hwhole
  have hlta := Bits.value_lt a
  constructor
  · intro heq
    rw [heq, List.length_append, List.length_append] at hlength
    have hwidth : addr.length = a.length := by omega
    rw [heq, Bits.value_append, Bits.value_append, ← hwidth] at hvalue
    rw [← hwidth] at hlta
    have hsplit : Bits.value a + 2 ^ addr.length * Bits.value digits =
        (Bits.value addr + e) + 2 ^ addr.length * Bits.value index := by omega
    have hlow := congrArg (· % 2 ^ addr.length) hsplit
    have hhigh := congrArg (· / 2 ^ addr.length) hsplit
    simp only [Nat.add_mul_mod_self_left, Nat.mod_eq_of_lt hlta, Nat.mod_eq_of_lt hfit] at hlow
    simp only [Nat.add_mul_div_left _ _ (Nat.two_pow_pos addr.length), Nat.div_eq_of_lt hlta,
      Nat.div_eq_of_lt hfit, Nat.zero_add] at hhigh
    exact ⟨hwidth, hlow.symm, Bits.eq_of_value_eq hlen hhigh.symm⟩
  · rintro ⟨hwidth, hsum, rfl⟩
    apply Bits.eq_of_value_eq
    · rw [hlength, List.length_append, List.length_append, hwidth]
    · rw [hvalue, Bits.value_append, Bits.value_append, ← hwidth]
      omega

def allCells (seg : BIrPreInitSegment) : List (Boolar.Cell × Bool) :=
  seg.cells.map fun e => (((seg.storage, seg.lane), e.1), e.2)

def insertAll (m : Boolar.StorageMap) (cells : List (Boolar.Cell × Bool)) : Boolar.StorageMap :=
  cells.foldl (fun m e => m.insert e.1 e.2) m

theorem applyPreInit_eq (m : Boolar.StorageMap) (segs : List BIrPreInitSegment) :
    Boolar.applyPreInit m segs = insertAll m (segs.flatMap allCells) := by
  induction segs generalizing m with
  | nil => rfl
  | cons seg segs ih =>
      rw [Boolar.applyPreInit, List.foldl_cons, List.flatMap_cons, insertAll, List.foldl_append]
      refine (ih _).trans ?_
      rw [allCells, List.foldl_map]
      rfl

theorem read_insertAll {cells : List (Boolar.Cell × Bool)} {c : Boolar.Cell}
    (m : Boolar.StorageMap) (bit : Bool) (h : ∀ e ∈ cells, e.1 = c → e.2 = bit) :
    (insertAll m cells).read c = if ∃ e ∈ cells, e.1 = c then bit else m.read c := by
  induction cells generalizing m with
  | nil => simp [insertAll]
  | cons e cells ih =>
      have hrest := ih (m.insert e.1 e.2) fun e' he' => h e' (List.mem_cons_of_mem e he')
      rw [insertAll, List.foldl_cons]
      refine hrest.trans ?_
      rw [StorageMap.read_insert]
      by_cases hsame : e.1 = c
      · have hbit := h e List.mem_cons_self hsame
        have hexists : ∃ e' ∈ e :: cells, e'.1 = c := ⟨e, List.mem_cons_self, hsame⟩
        rw [if_pos hexists, ← hsame, Function.update_self, hbit, ite_self]
      · rw [Function.update_of_ne (Ne.symm hsame)]
        simp [hsame]

section
variable {types : TypeTable} {lanes : List TypeId} {widths : AddrWidths} {seg : PreInitSegment}
  {planes : List BIrPreInitSegment}

def segmentWidth (lane : LaneId) (widths : AddrWidths) (seg : PreInitSegment) : ℕ :=
  max ((widths (seg.storage, lane)).getD 0)
    (bitLength (min (seg.offset + (seg.data.length - 1)) usizeMax))

/-- The segment of bit `i`. -/
def planeSegment (types : TypeTable) (lane : LaneId) (widths : AddrWidths) (seg : PreInitSegment)
    (i : ℕ) : BIrPreInitSegment where
  storage := seg.storage
  lane := lane
  addr := ((List.range (segmentWidth lane widths seg)).map fun bit =>
    decide (bit < 64) && seg.offset.testBit bit) ++
      (List.range (indexBits (irTypeBits types seg.ty))).map i.testBit
  data := seg.data.map fun c => c.bit i

theorem expandPreInitSegment_eq_some
    (h : expandPreInitSegment types lanes widths seg = some planes) :
    ∃ lane, laneOf lanes seg.ty = some lane ∧
      planes = (List.range (irTypeBits types seg.ty)).map (planeSegment types lane widths seg) := by
  obtain ⟨lane, hlane, h⟩ := Option.bind_eq_some_iff.mp h
  cases h
  exact ⟨lane, hlane, rfl⟩

theorem mem_cells {planeSeg : BIrPreInitSegment} {e : Boolar.Cell × Bool} :
    e ∈ allCells planeSeg ↔ ∃ idx, planeSeg.data[idx]? = some e.2 ∧
      e.1 = ((planeSeg.storage, planeSeg.lane), addToAddress planeSeg.addr idx) := by
  obtain ⟨cell, bit⟩ := e
  simp only [allCells, BIrPreInitSegment.cells, List.map_map, List.mem_map, Function.comp]
  constructor
  · rintro ⟨⟨b, idx⟩, hmem, heq⟩
    cases heq
    exact ⟨idx, List.mem_zipIdx_iff_getElem?.mp hmem, rfl⟩
  · rintro ⟨idx, hdata, rfl⟩
    exact ⟨(bit, idx), List.mem_zipIdx_iff_getElem?.mpr hdata, rfl⟩

theorem read_expand_other (h : expandPreInitSegment types lanes widths seg = some planes)
    {storage : StorageId} {ty : TypeId} {lane : LaneId} (hlane : laneOf lanes ty = some lane)
    (hne : seg.storage ≠ storage ∨ seg.ty ≠ ty) (m : Boolar.StorageMap) (addr : List Bool) :
    (Boolar.applyPreInit m planes).read ((storage, lane), addr) =
      m.read ((storage, lane), addr) := by
  obtain ⟨lane', hlane', rfl⟩ := expandPreInitSegment_eq_some h
  have hnone : ∀ e ∈ ((List.range (irTypeBits types seg.ty)).map
      (planeSegment types lane' widths seg)).flatMap allCells, e.1 ≠ ((storage, lane), addr) := by
    intro e he heq
    obtain ⟨plane, hplane, he⟩ := List.mem_flatMap.mp he
    obtain ⟨i, -, rfl⟩ := List.mem_map.mp hplane
    obtain ⟨idx, -, hcell⟩ := mem_cells.mp he
    rw [heq] at hcell
    cases hcell
    rcases hne with hstorage | hty
    · exact hstorage rfl
    · exact hty (laneOf_inj hlane' hlane)
  rw [applyPreInit_eq, read_insertAll m false fun e he heq => absurd heq (hnone e he),
    if_neg]
  rintro ⟨e, he, heq⟩
  exact hnone e he heq

theorem lt_two_pow_segmentWidth (hrange : seg.InRange types) {idx : ℕ}
    (hidx : idx < seg.data.length)
    (lane : LaneId) (widths : AddrWidths) :
    seg.offset + idx < 2 ^ segmentWidth lane widths seg ∧ seg.offset + idx < 2 ^ 64 := by
  have hmost := (hrange (seg.data.length - 1) (by omega)).1
  have hlast : min (seg.offset + (seg.data.length - 1)) usizeMax =
      seg.offset + (seg.data.length - 1) := Nat.min_eq_left hmost
  have hlt := lt_two_pow_bitLength (seg.offset + (seg.data.length - 1))
  have hle : 2 ^ bitLength (seg.offset + (seg.data.length - 1)) ≤
      2 ^ segmentWidth lane widths seg := by
    apply Nat.pow_le_pow_right (by decide)
    rw [segmentWidth, hlast]
    exact Nat.le_max_right _ _
  have hmax : usizeMax + 1 = 2 ^ 64 := by decide
  omega

theorem segmentWidth_eq_iff (hrange : seg.InRange types) (hne : seg.data ≠ [])
    {lane : LaneId} {N : ℕ}
    (hwidth : widths (seg.storage, lane) = some N) :
    segmentWidth lane widths seg = N ↔ Reaches N seg := by
  have hpos := List.length_pos_iff.mpr hne
  have hlast : min (seg.offset + (seg.data.length - 1)) usizeMax =
      seg.offset + (seg.data.length - 1) :=
    Nat.min_eq_left (hrange (seg.data.length - 1) (by omega)).1
  rw [segmentWidth, hwidth, hlast, Option.getD_some, Reaches, ← bitLength_le_iff]
  exact max_eq_left_iff

/-- The entries of a segment at the cell of bit `i` of an element. -/
theorem mem_planes {lane : LaneId} {N : ℕ} (hrange : seg.InRange types)
    (hwidth : widths (seg.storage, lane) = some N) {a : List Bool} (ha : a.length = N) {i : ℕ}
    {e : Boolar.Cell × Bool} (he : e.1 = ((seg.storage, lane),
      a ++ (List.range (indexBits (irTypeBits types seg.ty))).map i.testBit))
    (hi : i < irTypeBits types seg.ty) :
    e ∈ ((List.range (irTypeBits types seg.ty)).map
      (planeSegment types lane widths seg)).flatMap allCells ↔
        Reaches N seg ∧ seg.offset ≤ Bits.value a ∧
          ∃ c, seg.data[Bits.value a - seg.offset]? = some c ∧ e.2 = c.bit i := by
  have hsame : ∀ (j idx : ℕ), idx < seg.data.length →
      (addToAddress (planeSegment types lane widths seg j).addr idx =
        a ++ (List.range (indexBits (irTypeBits types seg.ty))).map i.testBit ↔
      segmentWidth lane widths seg = N ∧ seg.offset + idx = Bits.value a ∧
        (List.range (indexBits (irTypeBits types seg.ty))).map j.testBit =
          (List.range (indexBits (irTypeBits types seg.ty))).map i.testBit) := by
    intro j idx hidx
    obtain ⟨hfit, h64⟩ := lt_two_pow_segmentWidth hrange hidx lane widths
    have hoffset := value_offsetBits (Nat.lt_of_le_of_lt (Nat.le_add_right _ _) hfit)
      (Nat.lt_of_le_of_lt (Nat.le_add_right _ _) h64)
    refine (addToAddress_eq_iff (by simp) ?_).trans ?_
    · rw [hoffset]
      simpa using hfit
    · rw [hoffset, List.length_map, List.length_range, ha]
  constructor
  · intro hmem
    obtain ⟨plane, hplane, hcell⟩ := List.mem_flatMap.mp hmem
    obtain ⟨j, hj, rfl⟩ := List.mem_map.mp hplane
    rw [List.mem_range] at hj
    obtain ⟨idx, hdata, haddr⟩ := mem_cells.mp hcell
    obtain ⟨c, hc, hbit⟩ := Option.map_eq_some_iff.mp ((List.getElem?_map ..).symm.trans hdata)
    have hidx : idx < seg.data.length := (List.getElem?_eq_some_iff.mp hc).1
    rw [he] at haddr
    obtain ⟨hN, hsum, hdigits⟩ := (hsame j idx hidx).mp (Prod.mk.inj haddr).2.symm
    have hji : j = i := by
      rw [← Bits.value_map_testBit (lt_two_pow_indexBits hj), hdigits,
        Bits.value_map_testBit (lt_two_pow_indexBits hi)]
    subst hji
    refine ⟨(segmentWidth_eq_iff hrange (List.ne_nil_of_length_pos (by omega)) hwidth).mp hN,
      by omega, c, ?_, hbit.symm⟩
    rw [← hsum, Nat.add_sub_cancel_left]
    exact hc
  · rintro ⟨hreach, hoffset, c, hc, hbit⟩
    have hidx := (List.getElem?_eq_some_iff.mp hc).1
    have hN := (segmentWidth_eq_iff hrange (List.ne_nil_of_length_pos (by omega)) hwidth).mpr hreach
    have haddr := (hsame i _ hidx).mpr ⟨hN, by omega, rfl⟩
    apply List.mem_flatMap.mpr
    refine ⟨_, List.mem_map_of_mem (List.mem_range.mpr hi),
      mem_cells.mpr ⟨Bits.value a - seg.offset, ?_, ?_⟩⟩
    · rw [planeSegment, List.getElem?_map, hc, hbit]
      rfl
    · rw [he, haddr]
      rfl

/-- A segment of the storage and type gives the cell the bit of its element, if addresses of
the recorded width reach it. -/
theorem read_expand (h : expandPreInitSegment types lanes widths seg = some planes)
    (hrange : seg.InRange types) {lane : LaneId} (hlane : laneOf lanes seg.ty = some lane) {N : ℕ}
    (hwidth : widths (seg.storage, lane) = some N) {a : List Bool} (ha : a.length = N) {i : ℕ}
    (hi : i < irTypeBits types seg.ty) (m : Boolar.StorageMap) (value : Constant)
    (hvalue : m.read ((seg.storage, lane),
      a ++ (List.range (indexBits (irTypeBits types seg.ty))).map i.testBit) = value.bit i) :
    (Boolar.applyPreInit m planes).read ((seg.storage, lane),
        a ++ (List.range (indexBits (irTypeBits types seg.ty))).map i.testBit) =
      (if Reaches N seg then
        if seg.offset ≤ Bits.value a then seg.data[Bits.value a - seg.offset]?.getD value
        else value
      else value).bit i := by
  obtain ⟨lane', hlane', rfl⟩ := expandPreInitSegment_eq_some h
  cases hlane.symm.trans hlane'
  have hmem {e : Boolar.Cell × Bool} (he : e.1 = ((seg.storage, lane),
      a ++ (List.range (indexBits (irTypeBits types seg.ty))).map i.testBit)) :=
    mem_planes hrange hwidth ha he hi
  obtain ⟨found, hfound⟩ : ∃ c, c = (if Reaches N seg then
    if seg.offset ≤ Bits.value a then seg.data[Bits.value a - seg.offset]?.getD value
    else value else value) := ⟨_, rfl⟩
  rw [applyPreInit_eq, read_insertAll m (found.bit i), ← hfound]
  · split_ifs with hexists
    · rfl
    · rw [hvalue]
      congr 1
      rw [hfound]
      split_ifs with hreach hoffset
      · cases hc : seg.data[Bits.value a - seg.offset]? with
        | none => rfl
        | some c =>
            exact absurd ⟨(_, c.bit i), (hmem rfl).mpr ⟨hreach, hoffset, c, hc, rfl⟩, rfl⟩ hexists
      · rfl
      · rfl
  · intro e he heq
    obtain ⟨hreach, hoffset, c, hc, hbit⟩ := (hmem heq).mp he
    rw [hfound, if_pos hreach, if_pos hoffset, hc, hbit]
    rfl

/-- What the lowered program holds at the cell of bit `i` of an element. -/
theorem read_applyPreInit {segs : List PreInitSegment} {expanded : List (List BIrPreInitSegment)}
    (h : segs.mapM (expandPreInitSegment types lanes widths) = some expanded)
    (hrange : ∀ seg ∈ segs, seg.InRange types) {storage : StorageId} {ty : TypeId} {lane : LaneId}
    (hlane : laneOf lanes ty = some lane) {N : ℕ} (hwidth : widths (storage, lane) = some N)
    {a : List Bool} (ha : a.length = N) {i : ℕ} (hi : i < irTypeBits types ty) :
    (Boolar.applyPreInit .empty expanded.flatten).read ((storage, lane),
        a ++ (List.range (indexBits (irTypeBits types ty))).map i.testBit) =
      (elementAt (segs.filter (Reaches N)) storage ty (Bits.value a)).bit i := by
  have hstep : ∀ (m : Boolar.StorageMap) (value : Constant), m.read ((storage, lane),
      a ++ (List.range (indexBits (irTypeBits types ty))).map i.testBit) = value.bit i →
      (Boolar.applyPreInit m expanded.flatten).read ((storage, lane),
        a ++ (List.range (indexBits (irTypeBits types ty))).map i.testBit) =
      ((segs.filter (Reaches N)).foldl (fun value seg =>
        if seg.storage ≠ storage ∨ seg.ty ≠ ty then value
        else if seg.offset ≤ Bits.value a then seg.data[Bits.value a - seg.offset]?.getD value
        else value) value).bit i := by
    induction segs generalizing expanded with
    | nil =>
        cases h
        exact fun _ _ hvalue => hvalue
    | cons seg segs ih =>
        intro m value hvalue
        rw [List.mapM_cons] at h
        obtain ⟨planes, hplanes, h⟩ := Option.bind_eq_some_iff.mp h
        obtain ⟨rest, hrest, h⟩ := Option.bind_eq_some_iff.mp h
        cases h
        have hmore := ih hrest fun seg' hseg' => hrange seg' (List.mem_cons_of_mem seg hseg')
        rw [List.flatten_cons, Boolar.applyPreInit, List.foldl_append]
        refine (hmore (Boolar.applyPreInit m planes) (if Reaches N seg then
          if seg.storage ≠ storage ∨ seg.ty ≠ ty then value
          else if seg.offset ≤ Bits.value a then seg.data[Bits.value a - seg.offset]?.getD value
          else value else value) ?_).trans ?_
        · by_cases hother : seg.storage ≠ storage ∨ seg.ty ≠ ty
          · rw [read_expand_other hplanes hlane hother, if_pos hother, ite_self]
            exact hvalue
          · rw [if_neg hother]
            rw [not_or, not_not, not_not] at hother
            obtain ⟨rfl, rfl⟩ := hother
            exact read_expand hplanes (hrange seg List.mem_cons_self) hlane hwidth ha hi m value
              hvalue
        · by_cases hreach : Reaches N seg
          · rw [if_pos hreach, List.filter_cons_of_pos (by simpa using hreach), List.foldl_cons]
          · rw [if_neg hreach, List.filter_cons_of_neg (by simpa using hreach)]
  have hzero : Constant.zero.bit i = false := by simp [Constant.bit, Constant.zero]
  exact hstep .empty .zero (by rw [hzero]; rfl)

end

section
variable (types : TypeTable) (segs : List PreInitSegment) (storage : StorageId) (ty : TypeId)

def elementBits (n : ℕ) : List Bool :=
  constBits (elementAt segs storage ty n) (types.bitWidth ty)

/-- The type has no references in it; segments out of reach make no difference; and so does
reading at the low 64 bits of the address. -/
structure ReadsAlike (width n : ℕ) : Prop where
  bits : types.bitWidth ty = irTypeBits types ty
  reach : elementBits types (segs.filter (Reaches width)) storage ty n =
    elementBits types segs storage ty n
  fits : 2 ^ 64 ≤ n → elementBits types segs storage ty (n % 2 ^ 64) =
    List.replicate (types.bitWidth ty) false

end

section
variable {types : TypeTable} {segs : List PreInitSegment} {storage : StorageId} {ty : TypeId}

theorem ReadsAlike.of_reaches {width n : ℕ} (hbits : types.bitWidth ty = irTypeBits types ty)
    (h : ∀ seg ∈ segs, Reaches width seg) (hn : n < 2 ^ 64) :
    ReadsAlike types segs storage ty width n := by
  refine ⟨hbits, ?_, fun hge => absurd hge (by omega)⟩
  rw [List.filter_eq_self.mpr fun seg hseg => decide_eq_true (h seg hseg)]

theorem evalKind_read {world : Ir.Externals} {σ : Ir.EvalState} {look : ℕ → Ir.Value} {addr : ℕ}
    (hrange : ∀ seg ∈ segs, seg.InRange types)
    (hσ : σ.storage = Ir.applyPreInit types segs Ir.EvalState.start.storage) :
    (Ir.evalKind types world σ look (.storageRead storage ty addr)).1 =
      elementBits types segs storage ty (Bits.value (look addr).bits % 2 ^ 64) := by
  have haddr : bitsToU64 (look addr).bits = Bits.value (look addr).bits % 2 ^ 64 :=
    Bits.value_take 64 _
  rw [Ir.evalKind, hσ, haddr]
  apply applyPreInit_cell types segs hrange
  rw [constBits_zero]
  rfl

theorem elementBits_zero {n : ℕ} (h : ∀ seg ∈ segs, seg.InRange types) (hn : 2 ^ 64 ≤ n) :
    elementBits types segs storage ty n = List.replicate (types.bitWidth ty) false := by
  have hzero : elementAt segs storage ty n = .zero := by
    unfold elementAt
    induction segs with
    | nil => rfl
    | cons seg segs ih =>
        have hmax : usizeMax + 1 = 2 ^ 64 := by decide
        have hpast : seg.offset ≤ n → seg.data.length ≤ n - seg.offset := by
          intro hoffset
          by_contra hlt
          have hlast := (h seg List.mem_cons_self (n - seg.offset) (by omega)).1
          omega
        have hnone : (if seg.offset ≤ n then seg.data[n - seg.offset]?.getD .zero else .zero) =
            Constant.zero := by
          split_ifs with hoffset
          · rw [List.getElem?_eq_none (hpast hoffset), Option.getD_none]
          · rfl
        rw [List.foldl_cons, hnone, ite_self]
        exact ih fun seg' hseg' => h seg' (List.mem_cons_of_mem seg hseg')
  rw [elementBits, hzero, constBits_zero]

theorem readsAlike_iff (h : ∀ seg ∈ segs, seg.InRange types) (width n : ℕ) :
    (elementBits types segs storage ty (n % 2 ^ 64) = elementBits types segs storage ty n ∧
      constBits (elementAt (segs.filter (Reaches width)) storage ty n) (irTypeBits types ty) =
        elementBits types segs storage ty n) ↔ ReadsAlike types segs storage ty width n := by
  constructor
  · rintro ⟨hlow, hlowered⟩
    have hbits : types.bitWidth ty = irTypeBits types ty := by
      have hlen := congrArg List.length hlowered
      simpa [elementBits] using hlen.symm
    refine ⟨hbits, ?_, fun hn => hlow.trans (elementBits_zero h hn)⟩
    rw [← hlowered, elementBits, hbits]
  · rintro ⟨hbits, hreach, hfits⟩
    constructor
    · rcases Nat.lt_or_ge n (2 ^ 64) with hlt | hge
      · rw [Nat.mod_eq_of_lt hlt]
      · rw [hfits hge, elementBits_zero h hge]
    · rw [← hreach, elementBits, hbits]

end

section
variable {P : Type} {p : IRProgram P} {types : TypeTable} {L : Lowered}

/-- A read of the program, lowered over a storage that nothing was written to. -/
theorem lowerRead_eq (hL : lowerIrToBoolar types p = some L) {j : ℕ} {b : IRBlock P}
    {vars : List VarBits} (hb : p.blocks[j]? = some b) (hvars : L.varBits[j]? = some vars)
    {storage : StorageId} {ty : TypeId} {addr : ℕ}
    (hread : .storageRead storage ty addr ∈ b.kinds) {var : VarBits}
    (hvar : vars[addr]? = some var) {a : List Bool} (ha : a.length = var.bits)
    {world : Boolar.Externals} {inputs : List Bool} {σ : Boolar.EvalState} {e : Emitter P}
    (hlen : inputs.length = e.params)
    (hst : (Emitter.frame world inputs σ e).st.storage = Boolar.applyPreInit .empty L.preInit)
    {base : List ℕ} (hbase : List.Forall₂ (Emitter.Holds world inputs σ e) base a) (prov : P) :
    ∃ bits e', Emitter.lowerRead types L.lanes storage ty base prov e = some (bits, e') ∧
      ((∀ seg ∈ p.preInit, seg.InRange types) →
        Boolar.Value.bits (bits.map (look (Emitter.frame world inputs σ e').vals)) =
          constBits (elementAt (p.preInit.filter (Reaches a.length)) storage ty (Bits.value a))
            (irTypeBits types ty)) := by
  obtain ⟨-, hblocks, expanded, hexpanded, hpreInit⟩ := lowerIrToBoolar_eq_some hL
  have hrecorded := (List.forall₂_iff_get.mp hblocks).2
  obtain ⟨hj, rfl⟩ := List.getElem?_eq_some_iff.mp hb
  obtain ⟨hj', rfl⟩ := List.getElem?_eq_some_iff.mp hvars
  obtain ⟨lane, var', hlane, hvar', hwidth⟩ :=
    (hrecorded j hj hj').2 _ hread ((storage, ty), addr) (List.mem_singleton.mpr rfl)
  have hsame : var' = var := Option.some.inj (hvar'.symm.trans hvar)
  subst hsame
  have hyields := (Emitter.lowerStorageRead_yields hlen storage lane hbase
    (irTypeBits types ty) prov).2
  refine ⟨(Emitter.lowerStorageRead storage lane base (irTypeBits types ty) prov e).1,
    (Emitter.lowerStorageRead storage lane base (irTypeBits types ty) prov e).2,
    by rw [Emitter.lowerRead, hlane, Option.map_some, Prod.mk.eta], fun hrange => ?_⟩
  rw [Emitter.bits_of_holds hyields, hst, hpreInit, constBits]
  apply List.map_congr_left
  intro i hi
  exact (read_applyPreInit hexpanded hrange hlane hwidth ha (List.mem_range.mp hi)).trans
    (by rw [ha])

end

def bitAndPair : TypeTable := ⟨[.primitive .bit, .vec 2 ⟨0⟩]⟩

def readBlock : IRBlock Unit where
  params := [⟨1⟩]
  stmts := [⟨.storageRead ⟨0⟩ ⟨0⟩ 0, (), none⟩]
  terminator := .jmp ⟨.ret, [1]⟩

theorem mem_readBlock : .storageRead ⟨0⟩ ⟨0⟩ 0 ∈ readBlock.kinds := List.mem_singleton.mpr rfl

def filledRead (count : ℕ) : IRProgram Unit where
  blocks := [readBlock]
  preInit := [⟨⟨0⟩, ⟨0⟩, 0, List.replicate count ⟨0, 1⟩⟩]

def addressOne : Ir.Value := ⟨[true, false], some ⟨1⟩, []⟩

def startOf (p : IRProgram Unit) : Ir.EvalState :=
  { Ir.EvalState.start with
    storage := Ir.applyPreInit bitAndPair p.preInit Ir.EvalState.start.storage }

def noOracles : Ir.Externals := ⟨fun _ _ _ _ => [], fun _ _ _ => [], fun _ _ _ => []⟩

def noCalls : Boolar.Externals := ⟨fun _ _ _ => false, fun _ _ _ _ => false, fun _ _ _ => false⟩

theorem holds_addressOne (σ : Boolar.EvalState) :
    List.Forall₂ (Emitter.Holds noCalls [true, false] σ (Emitter.new (P := Unit) 2)) [0, 1]
      addressOne.bits :=
  .cons ⟨by decide, rfl⟩ (.cons ⟨by decide, rfl⟩ .nil)

theorem lowered_filledRead {count : ℕ}
    (h : ((lowerIrToBoolar bitAndPair (filledRead count)).any fun L =>
      L.varBits[0]? = some [.ofBits 2, .ofBits 1]) = true) :
    ∃ L, lowerIrToBoolar bitAndPair (filledRead count) = some L ∧
      L.varBits[0]? = some [.ofBits 2, .ofBits 1] := by
  cases hL : lowerIrToBoolar bitAndPair (filledRead count) with
  | none => simp [hL] at h
  | some L => exact ⟨L, rfl, by simpa [hL] using h⟩

end VolarIR.Lowering
