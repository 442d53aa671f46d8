import VolarIR.Ir.PrimeValuation
import VolarIR.Lowering.RegionTables
import VolarIR.Library.Bits
import VolarIR.Library.SideBySide

/-!
# Lowering to bits: where region anchors land

Every bit that a typed anchor selects has one place on the boundary of the lowered program. A
lowered table is exact when its entries are sorted and apart and tag these places only.
-/
namespace VolarIR.Lowering
open Ir SideBySide

structure TypedRegionTable.Valid (entries : List TypedRegionEntry) : Prop where
  len_pos : ∀ e ∈ entries, 0 < e.anchor.len
  apart : entries.Pairwise fun a b => a.anchor.spaceKey = b.anchor.spaceKey →
    a.anchor.start + a.anchor.len ≤ b.anchor.start

theorem validateEntry_eq_ok {state state' : Validated} {entry : TypedRegionEntry}
    (h : validateEntry state entry = .ok state') :
    0 < entry.anchor.len ∧
      (∀ v, state.2 entry.anchor.spaceKey = some v → v.1 ≤ entry.anchor.start) ∧
      state'.2 = Function.update state.2 entry.anchor.spaceKey
        (some (entry.anchor.start + entry.anchor.len, entry.anchor)) := by
  by_cases hregions : entry.regions = ∅
  · rw [validateEntry, if_pos hregions] at h
    cases h
  rw [validateEntry, if_neg hregions] at h
  cases horder : checkOrder state.1 entry.anchor with
  | error e => simp [horder, bind, Except.bind] at h
  | ok u =>
      rw [horder, Fallible.ok_bind] at h
      split_ifs at h with hlen
      cases hlast : checkedAdd entry.anchor.start entry.anchor.len with
      | none => simp [hlast] at h
      | some last =>
          cases hdisjoint : checkDisjoint state.2 entry.anchor with
          | error e => simp [hlast, hdisjoint, bind, Except.bind] at h
          | ok u' =>
              simp only [hlast, hdisjoint, Fallible.ok_bind] at h
              rw [checkedAdd, Option.ite_none_right_eq_some, Option.some.injEq] at hlast
              cases h
              refine ⟨Nat.pos_of_ne_zero hlen, ?_, by rw [hlast.2]⟩
              intro v hv
              rw [checkDisjoint, hv] at hdisjoint
              dsimp only at hdisjoint
              split_ifs at hdisjoint with hbefore
              exact Nat.le_of_not_lt hbefore

theorem TypedRegionTable.valid {table : TypedRegionTable} (h : table.validateStructure = .ok ()) :
    Valid table.entries := by
  obtain ⟨state, hstate⟩ : ∃ state, table.entries.foldlM validateEntry (none, fun _ => none) =
      .ok state := by
    unfold validateStructure at h
    cases hrun : table.entries.foldlM validateEntry (none, fun _ => none) with
    | error e => simp [hrun, Except.map] at h
    | ok state => exact ⟨state, rfl⟩
  refine (Fallible.foldlM_invariant (fun done state => Valid done ∧ ∀ a ∈ done,
    ∃ v, state.2 a.anchor.spaceKey = some v ∧ a.anchor.start + a.anchor.len ≤ v.1) hstate
    ⟨⟨by simp, .nil⟩, by simp⟩ ?_).1
  rintro done entry u v ⟨hvalid, hends⟩ hstep
  obtain ⟨hlen, hafter, hupdate⟩ := validateEntry_eq_ok hstep
  refine ⟨⟨?_, ?_⟩, ?_⟩
  · intro e he
    rcases List.mem_append.mp he with he | he
    · exact hvalid.len_pos e he
    · rw [List.mem_singleton.mp he]
      exact hlen
  · rw [List.pairwise_append]
    refine ⟨hvalid.apart, List.pairwise_singleton _ _, ?_⟩
    intro a ha b hb hkey
    rw [List.mem_singleton.mp hb] at hkey ⊢
    obtain ⟨last, hlast, hle⟩ := hends a ha
    exact hle.trans (hafter last (hkey ▸ hlast))
  · intro a ha
    rw [hupdate]
    by_cases hkey : a.anchor.spaceKey = entry.anchor.spaceKey
    · rw [hkey, Function.update_self]
      refine ⟨_, rfl, ?_⟩
      rcases List.mem_append.mp ha with ha | ha
      · obtain ⟨last, hlast, hle⟩ := hends a ha
        have hstart := hafter last (hkey ▸ hlast)
        dsimp only
        omega
      · rw [List.mem_singleton.mp ha]
    · rw [Function.update_of_ne hkey]
      rcases List.mem_append.mp ha with ha | ha
      · exact hends a ha
      · exact absurd (congrArg (fun e => e.anchor.spaceKey) (List.mem_singleton.mp ha)) hkey

namespace TypedBoundaryWire

def spaceKey : TypedBoundaryWire → ℕ × ℕ × ℕ
  | .input param _ => (0, param, 0)
  | .blockInput block param _ => (1, block, param)
  | .funcInput func param _ => (2, func, param)
  | .output out _ => (3, out, 0)
  | .funcOutput func result _ => (4, func, result)
  | .cell storage ty _ _ => (5, storage.id, ty.id)

def position : TypedBoundaryWire → ℕ
  | .input _ bit | .blockInput _ _ bit | .funcInput _ _ bit | .output _ bit
  | .funcOutput _ _ bit => bit
  | .cell _ _ addr _ => addr

end TypedBoundaryWire

theorem TypedAnchor.Selects.range {anchor : TypedAnchor} {b : TypedBoundaryWire}
    (h : anchor.Selects b) : anchor.spaceKey = b.spaceKey ∧ anchor.start ≤ b.position ∧
      b.position < anchor.start + anchor.len := by
  cases anchor <;> cases b <;> try exact h.elim
  · obtain ⟨rfl, hrange⟩ := h
    exact ⟨rfl, hrange⟩
  · obtain ⟨rfl, rfl, hrange⟩ := h
    exact ⟨rfl, hrange⟩
  · obtain ⟨rfl, rfl, hrange⟩ := h
    exact ⟨rfl, hrange⟩
  · obtain ⟨rfl, hrange⟩ := h
    exact ⟨rfl, hrange⟩
  · obtain ⟨rfl, rfl, hrange⟩ := h
    exact ⟨rfl, hrange⟩
  · obtain ⟨rfl, rfl, hrange⟩ := h
    exact ⟨rfl, hrange⟩

theorem TypedRegionTable.Valid.selects {entries : List TypedRegionEntry} (h : Valid entries) :
    entries.Pairwise fun x y => ∀ b, x.anchor.Selects b → ¬ y.anchor.Selects b := by
  refine h.apart.imp ?_
  intro x y hxy b hx hy
  have hle := hxy (hx.range.1.trans hy.range.1.symm)
  have hlt := hx.range.2.2
  have hge := hy.range.2.1
  omega

def flatAddr (n k addr plane : ℕ) : ℕ :=
  Bits.value ((List.range n).map addr.testBit ++ (List.range (indexBits k)).map plane.testBit)

theorem flatAddr_eq {n k addr plane : ℕ} (haddr : addr < 2 ^ n) (hplane : plane < k) :
    flatAddr n k addr plane = addr + 2 ^ n * plane := by
  rw [flatAddr, Bits.value_append, Bits.value_map_testBit haddr,
    Bits.value_map_testBit (lt_two_pow_indexBits hplane), List.length_map, List.length_range]

section
variable (types : TypeTable) (tables : LoweredTables) (ins outs : List ℕ)

/-- Where the lowered program keeps a bit, given how wide its params and outputs are. -/
def place : TypedBoundaryWire → Option BoundaryWire
  | .input param bit =>
      if bit < ins.getD param 0 then some (.input ((ins.take param).sum + bit)) else none
  | .output out bit =>
      if bit < outs.getD out 0 then some (.output ((outs.take out).sum + bit)) else none
  | .cell storage ty addr plane => do
      let lane ← laneOf tables.lanes ty
      let n ← tables.addrWidths (storage, lane)
      if addr < 2 ^ n ∧ plane < irTypeBits types ty then
        some (.cell storage lane (flatAddr n (irTypeBits types ty) addr plane))
      else none
  | _ => none

end

theorem position_inj {ws : List ℕ} {i j a b : ℕ} (ha : a < ws.getD i 0) (hb : b < ws.getD j 0)
    (h : (ws.take i).sum + a = (ws.take j).sum + b) : i = j ∧ a = b := by
  induction ws generalizing i j with
  | nil => simp at ha
  | cons w ws ih =>
      cases i with
      | zero =>
          cases j with
          | zero => simpa using h
          | succ j =>
              simp at ha h
              omega
      | succ i =>
          cases j with
          | zero =>
              simp at hb h
              omega
          | succ j =>
              rw [List.getD_cons_succ] at ha hb
              rw [List.take_succ_cons, List.take_succ_cons, List.sum_cons, List.sum_cons] at h
              obtain ⟨rfl, rfl⟩ := ih ha hb (by omega)
              exact ⟨rfl, rfl⟩

section
variable {types : TypeTable} {tables : LoweredTables} {ins outs : List ℕ}

theorem place_input {param bit : ℕ} {w : BoundaryWire} :
    place types tables ins outs (.input param bit) = some w ↔
      bit < ins.getD param 0 ∧ w = .input ((ins.take param).sum + bit) := by
  rw [place, Option.ite_none_right_eq_some, Option.some.injEq, eq_comm (a := w)]

theorem place_output {out bit : ℕ} {w : BoundaryWire} :
    place types tables ins outs (.output out bit) = some w ↔
      bit < outs.getD out 0 ∧ w = .output ((outs.take out).sum + bit) := by
  rw [place, Option.ite_none_right_eq_some, Option.some.injEq, eq_comm (a := w)]

theorem place_cell {storage : StorageId} {ty : TypeId} {addr plane : ℕ} {w : BoundaryWire} :
    place types tables ins outs (.cell storage ty addr plane) = some w ↔
      ∃ lane n, laneOf tables.lanes ty = some lane ∧ tables.addrWidths (storage, lane) = some n ∧
        addr < 2 ^ n ∧ plane < irTypeBits types ty ∧
        w = .cell storage lane (addr + 2 ^ n * plane) := by
  constructor
  · intro h
    obtain ⟨lane, hlane, h⟩ := Option.bind_eq_some_iff.mp h
    obtain ⟨n, hn, h⟩ := Option.bind_eq_some_iff.mp h
    rw [Option.ite_none_right_eq_some] at h
    obtain ⟨⟨haddr, hplane⟩, hw⟩ := h
    rw [flatAddr_eq haddr hplane] at hw
    exact ⟨lane, n, hlane, hn, haddr, hplane, (Option.some.inj hw).symm⟩
  · rintro ⟨lane, n, hlane, hn, haddr, hplane, rfl⟩
    rw [place, hlane]
    show (tables.addrWidths (storage, lane)).bind _ = _
    rw [hn]
    show (if _ then _ else _) = _
    rw [if_pos ⟨haddr, hplane⟩, flatAddr_eq haddr hplane]

theorem place_inj {b b' : TypedBoundaryWire} {w : BoundaryWire}
    (h : place types tables ins outs b = some w) (h' : place types tables ins outs b' = some w) :
    b = b' := by
  cases b with
  | input param bit =>
      obtain ⟨hbit, rfl⟩ := place_input.mp h
      cases b' with
      | input param' bit' =>
          obtain ⟨hbit', heq⟩ := place_input.mp h'
          rw [BoundaryWire.input.injEq] at heq
          obtain ⟨rfl, rfl⟩ := position_inj hbit hbit' heq
          rfl
      | output => cases (place_output.mp h').2
      | cell =>
          obtain ⟨_, _, _, _, _, _, heq⟩ := place_cell.mp h'
          cases heq
      | blockInput | funcInput | funcOutput => cases h'
  | output out bit =>
      obtain ⟨hbit, rfl⟩ := place_output.mp h
      cases b' with
      | output out' bit' =>
          obtain ⟨hbit', heq⟩ := place_output.mp h'
          rw [BoundaryWire.output.injEq] at heq
          obtain ⟨rfl, rfl⟩ := position_inj hbit hbit' heq
          rfl
      | input => cases (place_input.mp h').2
      | cell =>
          obtain ⟨_, _, _, _, _, _, heq⟩ := place_cell.mp h'
          cases heq
      | blockInput | funcInput | funcOutput => cases h'
  | cell storage ty addr plane =>
      obtain ⟨lane, n, hlane, hn, haddr, hplane, rfl⟩ := place_cell.mp h
      cases b' with
      | cell storage' ty' addr' plane' =>
          obtain ⟨lane', n', hlane', hn', haddr', hplane', heq⟩ := place_cell.mp h'
          rw [BoundaryWire.cell.injEq] at heq
          obtain ⟨rfl, rfl, hflat⟩ := heq
          have hty := laneOf_inj hlane hlane'
          subst hty
          cases hn.symm.trans hn'
          have hlow := congrArg (· % 2 ^ n) hflat
          have hhigh := congrArg (· / 2 ^ n) hflat
          simp only [Nat.add_mul_mod_self_left, Nat.mod_eq_of_lt haddr,
            Nat.mod_eq_of_lt haddr'] at hlow
          simp only [Nat.add_mul_div_left _ _ (Nat.two_pow_pos n), Nat.div_eq_of_lt haddr,
            Nat.div_eq_of_lt haddr', Nat.zero_add] at hhigh
          rw [hlow, hhigh]
      | input => cases (place_input.mp h').2
      | output => cases (place_output.mp h').2
      | blockInput | funcInput | funcOutput => cases h'
  | blockInput | funcInput | funcOutput => cases h

end

section
variable {types : TypeTable}

theorem foldlM_width {f : TypeId → Option ℕ} {g : TypeId → ℕ} {add : ℕ → ℕ → Option ℕ}
    (hadd : ∀ a b s, add a b = some s → s = a + b) {parts : List TypeId}
    (hpart : ∀ part ∈ parts, ∀ w, f part = some w → w = g part) {start total : ℕ}
    (h : parts.foldlM (fun acc part => (f part).bind (add acc)) start = some total) :
    total = start + (parts.map g).sum := by
  induction parts generalizing start with
  | nil =>
      cases h
      rfl
  | cons part parts ih =>
      rw [List.foldlM_cons] at h
      obtain ⟨mid, hmid, h⟩ := Option.bind_eq_some_iff.mp h
      obtain ⟨w, hw, hsum⟩ := Option.bind_eq_some_iff.mp hmid
      have hrest := ih (fun p hp => hpart p (List.mem_cons_of_mem part hp)) h
      rw [hrest, hadd _ _ _ hsum, hpart part List.mem_cons_self w hw, List.map_cons, List.sum_cons,
        Nat.add_assoc]

theorem eq_of_valueBitWidthFrom {fuel w : ℕ} {ty : TypeId}
    (h : valueBitWidthFrom types fuel ty = some w) : w = irTypeBitsFrom types fuel ty := by
  induction fuel generalizing ty w with
  | zero => cases h
  | succ fuel ih =>
      rw [valueBitWidthFrom] at h
      rw [irTypeBitsFrom]
      split at h
      · next heq =>
          rw [heq]
          exact (Option.some.inj h).symm
      · next n elem heq =>
          obtain ⟨lane, hlane, hmul⟩ := Option.bind_eq_some_iff.mp h
          rw [checkedMul, Option.ite_none_right_eq_some, Option.some.injEq] at hmul
          rw [heq, ← hmul.2, ih hlane]
      · next parts heq =>
          rw [heq]
          have hadd : ∀ a b s, checkedAdd a b = some s → s = a + b := by
            intro a b s hs
            rw [checkedAdd, Option.ite_none_right_eq_some, Option.some.injEq] at hs
            exact hs.2.symm
          rw [foldlM_width hadd (fun part _ w hw => ih hw) h, Nat.zero_add]
      · next wrapped degree irreducible heq =>
          obtain ⟨lane, hlane, hmul⟩ := Option.bind_eq_some_iff.mp h
          rw [checkedMul, Option.ite_none_right_eq_some, Option.some.injEq] at hmul
          rw [heq, ← hmul.2, ih hlane]
      · next k n heq =>
          rw [heq]
          exact (Option.some.inj h).symm
      · cases h

/-- The planes of a type are the bits that are read and written, unless they are too many. -/
theorem eq_of_typedBitWidthFrom {fuel w : ℕ} {ty : TypeId}
    (h : typedBitWidthFrom types fuel ty = some w) (hle : irTypeBitsFrom types fuel ty ≤ usizeMax) :
    w = irTypeBitsFrom types fuel ty := by
  induction fuel generalizing ty w with
  | zero => cases h
  | succ fuel ih =>
      rw [typedBitWidthFrom] at h
      split at h
      · next heq =>
          rw [irTypeBitsFrom, heq]
          exact (Option.some.inj h).symm
      · next n elem heq =>
          rw [irTypeBitsFrom, heq] at hle ⊢
          obtain ⟨lane, hlane, rfl⟩ := Option.map_eq_some_iff.mp h
          dsimp only at hle ⊢
          rcases Nat.eq_zero_or_pos n with rfl | hn
          · simp
          · rw [ih hlane ((Nat.le_mul_of_pos_left _ hn).trans hle)]
            exact Nat.min_eq_left hle
      · next parts heq =>
          rw [irTypeBitsFrom, heq] at hle ⊢
          have hpart : ∀ part ∈ parts, ∀ w, typedBitWidthFrom types fuel part = some w →
              w = irTypeBitsFrom types fuel part := by
            intro part hpart w hw
            apply ih hw
            exact (List.single_le_sum (by simp) _ (List.mem_map_of_mem hpart)).trans hle
          simp only [Option.map_eq_bind] at h
          have hadd : ∀ a b s : ℕ, (some ∘ (a + ·)) b = some s → s = a + b :=
            fun a b s hs => (Option.some.inj hs).symm
          rw [foldlM_width hadd hpart h, Nat.zero_add]
      · next heq =>
          rw [irTypeBitsFrom, heq]
          exact (Option.some.inj h).symm
      · next heq =>
          rw [irTypeBitsFrom, heq]
          exact (Option.some.inj h).symm
      · exact eq_of_valueBitWidthFrom h
      · exact eq_of_valueBitWidthFrom h
      · cases h

theorem eq_of_typedBitWidth {w : ℕ} {ty : TypeId} (h : typedBitWidth types ty = some w)
    (hle : irTypeBits types ty ≤ usizeMax) : w = irTypeBits types ty :=
  eq_of_typedBitWidthFrom h hle

end

def Apart (a b : RegionEntry) : Prop := ∀ w, a.anchor.Covers w → ¬ b.anchor.Covers w

theorem Apart.symm {a b : RegionEntry} (h : Apart a b) : Apart b a := fun w hb ha => h w ha hb

theorem orReject_eq_ok {α : Type} {e : LowerTypedError} {o : Option α} {a : α} :
    orReject e o = .ok a ↔ o = some a := by
  cases o <;> simp [orReject]

theorem orPanic_eq_ok {α : Type} {o : Option α} {a : α} : orPanic o = .ok a ↔ o = some a := by
  cases o <;> simp [orPanic]

theorem checkRange_eq_ok {anchor : TypedAnchor} {start len width : ℕ} {u : Unit} :
    checkRange anchor start len width = .ok u ↔ start + len ≤ width := by
  unfold checkRange
  split_ifs with h
  · simp [Nat.not_le_of_lt h]
  · simp [Nat.le_of_not_lt h]

section
variable {checks : Bool}

theorem wrapping_mod {n m : ℕ} (h : wrapping checks n = some m) : m % 2 ^ 32 = n % 2 ^ 32 := by
  unfold wrapping at h
  split_ifs at h
  · rw [Option.some.inj h]
  · rw [← Option.some.inj h]
    exact Nat.mod_mod_of_dvd n (pow_dvd_pow 2 (by decide))

theorem shl_eq {a n s : ℕ} (h : shl checks a n = some s) (hlt : 2 ^ n * a < 2 ^ 64) :
    s = 2 ^ n * a := by
  unfold shl at h
  split_ifs at h with hn
  · rw [← Option.some.inj h, Nat.shiftLeft_eq, Nat.mul_comm, Nat.mod_eq_of_lt hlt]
  · have hzero : a = 0 := by
      by_contra hne
      have hpow : 2 ^ 64 ≤ 2 ^ n := Nat.pow_le_pow_right (by decide) (Nat.le_of_not_lt hn)
      have hle := Nat.le_mul_of_pos_right (2 ^ n) (Nat.pos_of_ne_zero hne)
      omega
    rw [← Option.some.inj h, hzero]
    simp

theorem outputStart_eq_ok {widths : List ℕ} {anchor : TypedAnchor} {out start len position : ℕ}
    (h : outputStart checks widths anchor out start len = .ok position) :
    start + len ≤ widths.getD out 0 ∧ position = ((widths.take out).sum + start) % 2 ^ 32 := by
  simp only [outputStart, Except.bind_eq_ok, orReject_eq_ok, orPanic_eq_ok, checkRange_eq_ok] at h
  obtain ⟨before, hbefore, base, hbase, width, hwidth, u, hrange, sum, hsum, hposition⟩ := h
  rw [Option.ite_none_right_eq_some, Option.some.injEq] at hbefore
  rw [List.getD_eq_getElem?_getD, hwidth]
  refine ⟨hrange, ?_⟩
  rw [← Except.ok.inj hposition, wrapping_mod hsum, hbefore.2, Nat.add_mod, wrapping_mod hbase,
    ← Nat.add_mod]

theorem planeEntry_eq_ok {entry : TypedRegionEntry} {storage : StorageId} {lane : LaneId}
    {n addrStart addrLen plane : ℕ} {e : RegionEntry}
    (h : planeEntry checks entry storage lane n addrStart addrLen plane = .ok e) :
    ∃ shifted, shl checks plane n = some shifted ∧ addrStart + shifted + addrLen ≤ usizeMax ∧
      e = ⟨.storage storage lane (addrStart + shifted) addrLen, entry.regions⟩ := by
  simp only [planeEntry, Except.bind_eq_ok, orReject_eq_ok, orPanic_eq_ok] at h
  obtain ⟨shifted, hshl, start, hstart, last, hlast, he⟩ := h
  rw [checkedAdd, Option.ite_none_right_eq_some, Option.some.injEq] at hstart hlast
  rw [← hstart.2] at hlast he
  exact ⟨shifted, hshl, hlast.1, (Except.ok.inj he).symm⟩

end

def TypedAnchor.AtEntry : TypedAnchor → Prop
  | .input .. | .output .. | .storage .. => True
  | .blockInput .. | .funcInput .. | .funcOutput .. => False

section
variable (types : TypeTable) (tables : LoweredTables) (ins outs : List ℕ)

/-- The range lies within the element addresses, and the cells of its last plane below `2 ^ 64`;
an output starts below `2 ^ 32`, and an input is a param. -/
def TypedAnchor.Fits : TypedAnchor → Prop
  | .input param _ _ => param < ins.length
  | .output out start _ => (outs.take out).sum + start < 2 ^ 32
  | .storage space ty addrStart addrLen => ∀ lane n, laneOf tables.lanes ty = some lane →
      tables.addrWidths (space, lane) = some n → addrStart + addrLen ≤ 2 ^ n ∧
        (0 < irTypeBits types ty →
          addrStart + addrLen + 2 ^ n * (irTypeBits types ty - 1) < 2 ^ 64)
  | _ => True

structure Lands (entry : TypedRegionEntry) (part : List RegionEntry) : Prop where
  regions : ∀ e ∈ part, e.regions = entry.regions
  apart : part.Pairwise Apart
  covers : ∀ w, (∃ e ∈ part, e.anchor.Covers w) ↔
    ∃ b, entry.anchor.Selects b ∧ place types tables ins outs b = some w

end

section
variable {types : TypeTable} {tables : LoweredTables} {ins outs : List ℕ} {checks : Bool}
  {entry : TypedRegionEntry} {part : List RegionEntry} {outputWidths : Option (List ℕ)}

theorem lands_input {param start len bitStart : ℕ} {regions : Finset RegionId}
    (hparam : tables.varBits 0 param =
      some (List.range' (ins.take param).sum (ins.getD param 0)))
    (h : paramBitStart tables 0 param (.input param start len) start len = .ok bitStart)
    (hlen : 0 < len) : Lands types tables ins outs ⟨.input param start len, regions⟩
      [⟨.input bitStart len, regions⟩] := by
  simp only [paramBitStart, hparam, Except.bind_eq_ok, orReject_eq_ok, orPanic_eq_ok,
    checkRange_eq_ok] at h
  obtain ⟨bits, hbits, u, hrange, hstart⟩ := h
  cases hbits
  rw [List.length_range'] at hrange
  rw [List.getElem?_range' (by omega), Option.some.injEq, Nat.one_mul] at hstart
  refine ⟨by simp, List.pairwise_singleton _ _, ?_⟩
  intro w
  constructor
  · rintro ⟨e, he, hcovers⟩
    rw [List.mem_singleton.mp he] at hcovers
    cases w with
    | output | cell => exact hcovers.elim
    | input n =>
        obtain ⟨hge, hlt⟩ := hcovers
        refine ⟨.input param (n - (ins.take param).sum), ⟨rfl, by omega, by omega⟩, ?_⟩
        rw [place_input, BoundaryWire.input.injEq]
        omega
  · rintro ⟨b, hb, hplace⟩
    cases b with
    | input param' bit =>
        obtain ⟨rfl, hge, hlt⟩ := hb
        obtain ⟨-, rfl⟩ := place_input.mp hplace
        exact ⟨_, List.mem_singleton_self _, by constructor <;> omega⟩
    | _ => exact hb.elim

theorem lands_output {out start len : ℕ} {regions : Finset RegionId}
    (hrange : start + len ≤ outs.getD out 0) :
    Lands types tables ins outs ⟨.output out start len, regions⟩
      [⟨.output ((outs.take out).sum + start) len, regions⟩] := by
  refine ⟨by simp, List.pairwise_singleton _ _, ?_⟩
  intro w
  constructor
  · rintro ⟨e, he, hcovers⟩
    rw [List.mem_singleton.mp he] at hcovers
    cases w with
    | input | cell => exact hcovers.elim
    | output n =>
        obtain ⟨hge, hlt⟩ := hcovers
        refine ⟨.output out (n - (outs.take out).sum), ⟨rfl, by omega, by omega⟩, ?_⟩
        rw [place_output, BoundaryWire.output.injEq]
        omega
  · rintro ⟨b, hb, hplace⟩
    cases b with
    | output out' bit =>
        obtain ⟨rfl, hge, hlt⟩ := hb
        obtain ⟨-, rfl⟩ := place_output.mp hplace
        exact ⟨_, List.mem_singleton_self _, by constructor <;> omega⟩
    | _ => exact hb.elim

/-- The cells of plane `i` within reach of the addresses. -/
theorem lands_storage {storage : StorageId} {ty : TypeId} {addrStart addrLen n : ℕ}
    {regions : Finset RegionId} {lane : LaneId} (hlane : laneOf tables.lanes ty = some lane)
    (hn : tables.addrWidths (storage, lane) = some n) (hfits : addrStart + addrLen ≤ 2 ^ n) :
    Lands types tables ins outs ⟨.storage storage ty addrStart addrLen, regions⟩
      ((List.range (irTypeBits types ty)).map fun plane =>
        ⟨.storage storage lane (addrStart + 2 ^ n * plane) addrLen, regions⟩) := by
  refine ⟨by simp, ?_, ?_⟩
  · rw [List.pairwise_map]
    refine List.pairwise_lt_range.imp ?_
    intro i j hij w hi hj
    cases w with
    | input | output => exact hi.elim
    | cell storage' lane' addr =>
        have hnext : 2 ^ n * (i + 1) ≤ 2 ^ n * j := Nat.mul_le_mul_left _ hij
        have hlt := hi.2.2.2
        have hge := hj.2.2.1
        rw [Nat.mul_add_one] at hnext
        omega
  · intro w
    constructor
    · rintro ⟨e, he, hcovers⟩
      obtain ⟨plane, hplane, rfl⟩ := List.mem_map.mp he
      cases w with
      | input | output => exact hcovers.elim
      | cell storage' lane' addr =>
          obtain ⟨rfl, rfl, hge, hlt⟩ := hcovers
          refine ⟨.cell storage ty (addr - 2 ^ n * plane) plane, ⟨rfl, rfl, by omega, by omega⟩, ?_⟩
          refine place_cell.mpr ⟨lane, n, hlane, hn, by omega, List.mem_range.mp hplane, ?_⟩
          rw [BoundaryWire.cell.injEq]
          exact ⟨rfl, rfl, by omega⟩
    · rintro ⟨b, hb, hplace⟩
      cases b with
      | cell storage' ty' addr plane =>
          obtain ⟨rfl, rfl, hge, hlt⟩ := hb
          obtain ⟨lane', n', hlane', hn', -, hplane, rfl⟩ := place_cell.mp hplace
          cases hlane.symm.trans hlane'
          cases hn.symm.trans hn'
          refine ⟨_, List.mem_map.mpr ⟨plane, List.mem_range.mpr hplane, rfl⟩, rfl, rfl, ?_, ?_⟩
          · omega
          · omega
      | _ => exact hb.elim

def ParamsAt (tables : LoweredTables) (ins : List ℕ) : Prop :=
  ∀ param < ins.length, tables.varBits 0 param =
    some (List.range' (ins.take param).sum (ins.getD param 0))

theorem lowerEntry_storage {storage : StorageId} {ty : TypeId} {addrStart addrLen : ℕ}
    {regions : Finset RegionId}
    (h : lowerEntry checks tables types outputWidths
      ⟨.storage storage ty addrStart addrLen, regions⟩ = .ok part) :
    ∃ lane n planes, laneOf tables.lanes ty = some lane ∧
      tables.addrWidths (storage, lane) = some n ∧ typedBitWidth types ty = some planes ∧
      (List.range planes).mapM (planeEntry checks ⟨.storage storage ty addrStart addrLen, regions⟩
        storage lane n addrStart addrLen) = .ok part := by
  simp only [lowerEntry, Except.bind_eq_ok, orReject_eq_ok] at h
  obtain ⟨lane, hlane, n, hn, planes, hplanes, hmap⟩ := h
  exact ⟨lane, n, planes, hlane, hn, hplanes, hmap⟩

theorem lowerEntry_input {param start len : ℕ} {regions : Finset RegionId}
    (h : lowerEntry checks tables types outputWidths ⟨.input param start len, regions⟩ =
      .ok part) : ∃ bitStart, paramBitStart tables 0 param (.input param start len) start len =
        .ok bitStart ∧ part = [⟨.input bitStart len, regions⟩] := by
  simp only [lowerEntry, Except.bind_eq_ok] at h
  obtain ⟨bitStart, hstart, hpart⟩ := h
  exact ⟨bitStart, hstart, (Except.ok.inj hpart).symm⟩

theorem lowerEntry_output {out start len : ℕ} {regions : Finset RegionId}
    (h : lowerEntry checks tables types outputWidths ⟨.output out start len, regions⟩ = .ok part) :
    start + len ≤ (outputWidths.getD []).getD out 0 ∧
      part = [⟨.output ((((outputWidths.getD []).take out).sum + start) % 2 ^ 32) len,
        regions⟩] := by
  simp only [lowerEntry, Except.bind_eq_ok, orReject_eq_ok] at h
  obtain ⟨widths, rfl, position, hposition, hpart⟩ := h
  obtain ⟨hrange, rfl⟩ := outputStart_eq_ok hposition
  exact ⟨hrange, (Except.ok.inj hpart).symm⟩

theorem lowerEntry_lands (hparams : ParamsAt tables ins) (hentry : entry.anchor.AtEntry)
    (hfits : entry.anchor.Fits types tables ins (outputWidths.getD []))
    (hlen : 0 < entry.anchor.len)
    (h : lowerEntry checks tables types outputWidths entry = .ok part) :
    Lands types tables ins (outputWidths.getD []) entry part := by
  obtain ⟨anchor, regions⟩ := entry
  cases anchor with
  | blockInput | funcInput | funcOutput => exact hentry.elim
  | input param start len =>
      obtain ⟨bitStart, hstart, rfl⟩ := lowerEntry_input h
      exact lands_input (hparams param hfits) hstart hlen
  | output out start len =>
      obtain ⟨hrange, rfl⟩ := lowerEntry_output h
      rw [Nat.mod_eq_of_lt hfits]
      exact lands_output hrange
  | storage storage ty addrStart addrLen =>
      obtain ⟨lane, n, planes, hlane, hn, hplanes, hmap⟩ := lowerEntry_storage h
      obtain ⟨hwithin, hends⟩ := hfits lane n hlane hn
      have hpos : 0 < addrLen := hlen
      have hbits : irTypeBits types ty ≤ usizeMax := by
        rcases Nat.eq_zero_or_pos (irTypeBits types ty) with hzero | hbits
        · rw [hzero]
          exact Nat.zero_le _
        · have hlast := hends hbits
          have hle := Nat.le_mul_of_pos_left (irTypeBits types ty - 1) (Nat.two_pow_pos n)
          unfold usizeMax
          omega
      have hk := eq_of_typedBitWidth hplanes hbits
      subst hk
      have hplane : ∀ plane ∈ List.range (irTypeBits types ty), planeEntry checks
          ⟨.storage storage ty addrStart addrLen, regions⟩ storage lane n addrStart addrLen plane =
          .ok ⟨.storage storage lane (addrStart + 2 ^ n * plane) addrLen, regions⟩ := by
        intro plane hmem
        obtain ⟨e, he⟩ := Fallible.of_mapM_eq_ok hmap plane hmem
        obtain ⟨shifted, hshl, -, rfl⟩ := planeEntry_eq_ok he
        have hplane := List.mem_range.mp hmem
        have hlast := hends (Nat.zero_lt_of_lt hplane)
        have hle := Nat.mul_le_mul_left (2 ^ n) (Nat.le_sub_one_of_lt hplane)
        rw [he, shl_eq hshl (by omega)]
      cases (Fallible.mapM_eq_ok hplane).symm.trans hmap
      exact lands_storage hlane hn hwithin

/-- No cell of a lowered entry is at `2 ^ 64 - 1` or above. -/
theorem lowerEntry_bounded (hentry : entry.anchor.AtEntry)
    (h : lowerEntry checks tables types outputWidths entry = .ok part) {e : RegionEntry}
    (he : e ∈ part) {storage : StorageId} {lane : LaneId} {addr : ℕ}
    (hcovers : e.anchor.Covers (.cell storage lane addr)) : addr + 1 < 2 ^ 64 := by
  obtain ⟨anchor, regions⟩ := entry
  cases anchor with
  | blockInput | funcInput | funcOutput => exact hentry.elim
  | input param start len =>
      obtain ⟨bitStart, -, rfl⟩ := lowerEntry_input h
      rw [List.mem_singleton.mp he] at hcovers
      exact hcovers.elim
  | output out start len =>
      obtain ⟨-, rfl⟩ := lowerEntry_output h
      rw [List.mem_singleton.mp he] at hcovers
      exact hcovers.elim
  | storage storage' ty addrStart addrLen =>
      obtain ⟨lane', n, planes, -, -, -, hmap⟩ := lowerEntry_storage h
      have hall : List.Forall₂ (fun _ e => ∀ addr, e.anchor.Covers (.cell storage lane addr) →
          addr + 1 < 2 ^ 64) (List.range planes) part := by
        refine (Fallible.Ends.mapM (E := fun _ => True) ?_).of_ok hmap
        intro plane _
        cases hplane : planeEntry checks ⟨.storage storage' ty addrStart addrLen, regions⟩ storage'
            lane' n addrStart addrLen plane with
        | error => trivial
        | ok e =>
            obtain ⟨shifted, -, hle, rfl⟩ := planeEntry_eq_ok hplane
            intro addr hcovers
            have hlt := hcovers.2.2.2
            unfold usizeMax at hle
            omega
      obtain ⟨plane, -, hbound⟩ := exists_left hall he
      exact hbound addr hcovers

end

theorem pairwise_sortEntries (entries : List RegionEntry) :
    (sortEntries entries).Pairwise fun a b => a.anchor.rank ≤ b.anchor.rank := by
  have hsorted : (sortEntries entries).Pairwise fun a b =>
      decide (a.anchor.rank ≤ b.anchor.rank) = true := by
    apply List.pairwise_mergeSort
    · intro a b c hab hbc
      rw [decide_eq_true_eq] at hab hbc ⊢
      exact hab.trans hbc
    · intro a b
      simpa using le_total a.anchor.rank b.anchor.rank
  exact hsorted.imp fun h => of_decide_eq_true h

theorem ascending_of_checkRepeats {entries : List RegionEntry} {u : Unit}
    (hsorted : entries.Pairwise fun a b => a.anchor.rank ≤ b.anchor.rank)
    (h : checkRepeats entries = .ok u) :
    entries.Pairwise fun a b => a.anchor.rank < b.anchor.rank := by
  induction entries with
  | nil => exact .nil
  | cons a rest ih =>
      cases rest with
      | nil => exact List.pairwise_singleton _ _
      | cons b rest =>
          rw [List.pairwise_cons] at hsorted
          rw [checkRepeats] at h
          split_ifs at h with hsame
          have hlt : a.anchor.rank < b.anchor.rank :=
            lt_of_le_of_ne (hsorted.1 b List.mem_cons_self) (WireAnchor.rank_injective.ne hsame)
          refine .cons ?_ (ih hsorted.2 h)
          intro c hc
          rcases List.mem_cons.mp hc with rfl | hc
          · exact hlt
          · exact hlt.trans_le ((List.pairwise_cons.mp hsorted.2).1 c hc)

/-- The table is that of the entries, one after another. -/
theorem lowerTypedRegionTable_eq_ok {checks : Bool} {table : TypedRegionTable}
    {tables : LoweredTables} {types : TypeTable} {outputWidths : Option (List ℕ)}
    {lowered : RegionTable}
    (h : lowerTypedRegionTable checks table tables types outputWidths = .ok lowered) :
    TypedRegionTable.Valid table.entries ∧ ∃ parts,
      List.Forall₂ (fun entry part => entry ∈ table.entries ∧
        lowerEntry checks tables types outputWidths entry = .ok part) table.entries parts ∧
      lowered.entries.Perm parts.flatten ∧
      lowered.entries.Pairwise fun a b => a.anchor.rank < b.anchor.rank := by
  simp only [lowerTypedRegionTable, Except.bind_eq_ok] at h
  obtain ⟨u, hvalid, parts, hparts, u', hrepeats, hlowered⟩ := h
  cases hlowered
  have hok : table.validateStructure = .ok () := by
    cases hrun : table.validateStructure with
    | ok => rfl
    | error => simp [hrun, Except.mapError] at hvalid
  refine ⟨TypedRegionTable.valid hok, parts, ?_, List.mergeSort_perm _ _,
    ascending_of_checkRepeats (pairwise_sortEntries _) hrepeats⟩
  refine (Fallible.Ends.mapM (E := fun _ => True) ?_).of_ok hparts
  intro entry hentry
  cases hlower : lowerEntry checks tables types outputWidths entry with
  | error => trivial
  | ok part => exact ⟨hentry, rfl⟩

def TypedAnchor.Within (tables : LoweredTables) : TypedAnchor → Prop
  | .storage space ty addrStart addrLen => ∀ lane n, laneOf tables.lanes ty = some lane →
      tables.addrWidths (space, lane) = some n → addrStart + addrLen ≤ 2 ^ n
  | _ => True

/-- The entries are sorted and apart, and tag the places of the selected bits with their regions.
No range goes beyond its element addresses. -/
structure Exact (types : TypeTable) (tables : LoweredTables) (ins outs : List ℕ)
    (table : TypedRegionTable) (lowered : RegionTable) : Prop where
  sorted : lowered.entries.Pairwise fun a b => a.anchor.rank < b.anchor.rank
  apart : lowered.entries.Pairwise Apart
  tagged : ∀ w regions,
    (∃ e ∈ lowered.entries, e.regions = regions ∧ e.anchor.Covers w) ↔
      ∃ entry ∈ table.entries, entry.regions = regions ∧
        ∃ b, entry.anchor.Selects b ∧ place types tables ins outs b = some w
  within : ∀ entry ∈ table.entries, entry.anchor.Within tables

section
variable {types : TypeTable} {tables : LoweredTables} {ins : List ℕ} {checks : Bool}
  {outputWidths : Option (List ℕ)} {table : TypedRegionTable} {lowered : RegionTable}
  {entry : TypedRegionEntry}

theorem exact_of_fits (hparams : ParamsAt tables ins)
    (hentry : ∀ entry ∈ table.entries, entry.anchor.AtEntry)
    (h : lowerTypedRegionTable checks table tables types outputWidths = .ok lowered)
    (hfits : ∀ entry ∈ table.entries,
      entry.anchor.Fits types tables ins (outputWidths.getD [])) :
    Exact types tables ins (outputWidths.getD []) table lowered := by
  obtain ⟨hvalid, parts, hparts, hperm, hsorted⟩ := lowerTypedRegionTable_eq_ok h
  have hlands : List.Forall₂ (Lands types tables ins (outputWidths.getD [])) table.entries
      parts := by
    refine hparts.imp ?_
    rintro entry part ⟨hmem, hlower⟩
    exact lowerEntry_lands hparams (hentry entry hmem) (hfits entry hmem)
      (hvalid.len_pos entry hmem) hlower
  refine ⟨hsorted, ?_, ?_, ?_⟩
  · rw [hperm.pairwise_iff Apart.symm, List.pairwise_flatten]
    constructor
    · intro part hpart
      obtain ⟨entry, -, hland⟩ := exists_left hlands hpart
      exact hland.apart
    · refine pairwise_right ?_ hlands hvalid.selects
      intro x x' y y' hxx' hy hy' e he e' he' w hw hw'
      obtain ⟨b, hb, hplace⟩ := (hy.covers w).mp ⟨e, he, hw⟩
      obtain ⟨b', hb', hplace'⟩ := (hy'.covers w).mp ⟨e', he', hw'⟩
      rw [place_inj hplace' hplace] at hb'
      exact hxx' b hb hb'
  · intro w regions
    constructor
    · rintro ⟨e, he, rfl, hw⟩
      obtain ⟨part, hpart, he⟩ := List.mem_flatten.mp (hperm.mem_iff.mp he)
      obtain ⟨entry, hmem, hland⟩ := exists_left hlands hpart
      exact ⟨entry, hmem, (hland.regions e he).symm, (hland.covers w).mp ⟨e, he, hw⟩⟩
    · rintro ⟨entry, hmem, rfl, hb⟩
      obtain ⟨part, hpart, hland⟩ := exists_right hlands hmem
      obtain ⟨e, he, hw⟩ := (hland.covers w).mpr hb
      exact ⟨e, hperm.mem_iff.mpr (List.mem_flatten.mpr ⟨part, hpart, he⟩), hland.regions e he, hw⟩
  · intro entry hmem
    have hfit := hfits entry hmem
    cases hanchor : entry.anchor with
    | storage space ty addrStart addrLen =>
        rw [hanchor] at hfit
        exact fun lane n hlane hn => (hfit lane n hlane hn).1
    | _ => trivial

/-- A cell that is tagged is below `2 ^ 64 - 1`. -/
theorem tagged_bounded (hentry : ∀ entry ∈ table.entries, entry.anchor.AtEntry)
    (h : lowerTypedRegionTable checks table tables types outputWidths = .ok lowered)
    {e : RegionEntry} (he : e ∈ lowered.entries) {storage : StorageId} {lane : LaneId} {addr : ℕ}
    (hcovers : e.anchor.Covers (.cell storage lane addr)) : addr + 1 < 2 ^ 64 := by
  obtain ⟨-, parts, hparts, hperm, -⟩ := lowerTypedRegionTable_eq_ok h
  obtain ⟨part, hpart, he⟩ := List.mem_flatten.mp (hperm.mem_iff.mp he)
  obtain ⟨entry, -, hmem, hlower⟩ := exists_left hparts hpart
  exact lowerEntry_bounded (hentry entry hmem) hlower he hcovers

/-- The last bit of the last element is tagged. -/
theorem storage_fits_of_exact (hvalid : TypedRegionTable.Valid table.entries)
    (hentry : ∀ entry ∈ table.entries, entry.anchor.AtEntry)
    (h : lowerTypedRegionTable checks table tables types outputWidths = .ok lowered)
    (hexact : Exact types tables ins (outputWidths.getD []) table lowered) {storage : StorageId}
    {ty : TypeId} {addrStart addrLen : ℕ} {regions : Finset RegionId}
    (hmem : ⟨.storage storage ty addrStart addrLen, regions⟩ ∈ table.entries) :
    (TypedAnchor.storage storage ty addrStart addrLen).Fits types tables ins
      (outputWidths.getD []) := by
  intro lane n hlane hn
  have hwithin : addrStart + addrLen ≤ 2 ^ n := hexact.within _ hmem lane n hlane hn
  refine ⟨hwithin, ?_⟩
  intro hbits
  have hlen : 0 < addrLen := hvalid.len_pos _ hmem
  have hplace : place types tables ins (outputWidths.getD [])
      (.cell storage ty (addrStart + addrLen - 1) (irTypeBits types ty - 1)) =
        some (.cell storage lane
          (addrStart + addrLen - 1 + 2 ^ n * (irTypeBits types ty - 1))) :=
    place_cell.mpr ⟨lane, n, hlane, hn, by omega, by omega, rfl⟩
  have hselects : (TypedAnchor.storage storage ty addrStart addrLen).Selects
      (.cell storage ty (addrStart + addrLen - 1) (irTypeBits types ty - 1)) :=
    ⟨rfl, rfl, by omega, by omega⟩
  obtain ⟨e, he, -, hcovers⟩ := (hexact.tagged _ regions).mpr ⟨_, hmem, rfl, _, hselects, hplace⟩
  have hlt := tagged_bounded hentry h he hcovers
  omega

/-- A tagged wire is the place of a selected bit. If that bit is selected by another entry, then
nothing that the other entry is lowered to covers the wire. -/
theorem exists_selects_of_exact
    (h : lowerTypedRegionTable checks table tables types outputWidths = .ok lowered)
    (hexact : Exact types tables ins (outputWidths.getD []) table lowered)
    (hmem : entry ∈ table.entries) {wire : RegionEntry}
    (hlower : lowerEntry checks tables types outputWidths entry = .ok [wire]) {w : BoundaryWire}
    (hcovers : wire.anchor.Covers w) :
    ∃ entry' ∈ table.entries, ∃ b, entry'.anchor.Selects b ∧
      place types tables ins (outputWidths.getD []) b = some w ∧
      (entry ≠ entry' → ∃ part', lowerEntry checks tables types outputWidths entry' = .ok part' ∧
        ∀ e ∈ part', ¬ e.anchor.Covers w) := by
  obtain ⟨-, parts, hparts, hperm, -⟩ := lowerTypedRegionTable_eq_ok h
  obtain ⟨part, hpart, -, hpartEq⟩ := exists_right hparts hmem
  cases hlower.symm.trans hpartEq
  obtain ⟨entry', hmem', -, b, hb, hplace⟩ := (hexact.tagged w _).mp
    ⟨wire, hperm.mem_iff.mpr (List.mem_flatten.mpr ⟨_, hpart, List.mem_singleton_self _⟩), rfl,
      hcovers⟩
  refine ⟨entry', hmem', b, hb, hplace, ?_⟩
  intro hne
  have hapart := (hperm.pairwise_iff Apart.symm).mp hexact.apart
  rw [List.pairwise_flatten] at hapart
  have hsymm : ∀ y y' : List RegionEntry, (∀ e ∈ y, ∀ e' ∈ y', Apart e e') →
      ∀ e ∈ y', ∀ e' ∈ y, Apart e e' :=
    fun y y' hyy' e he e' he' => (hyy' e' he' e he).symm
  obtain ⟨y, hy, y', hy', ⟨-, hlow⟩, ⟨-, hlow'⟩, hyy'⟩ :=
    exists_pair hsymm hparts hapart.2 hmem hmem' hne
  cases hlower.symm.trans hlow
  exact ⟨y', hlow', fun e he => hyy' wire (List.mem_singleton_self _) e he w hcovers⟩

theorem input_fits_of_exact (hparams : ParamsAt tables ins)
    (h : lowerTypedRegionTable checks table tables types outputWidths = .ok lowered)
    (hexact : Exact types tables ins (outputWidths.getD []) table lowered)
    {param start len : ℕ} {regions : Finset RegionId}
    (hmem : ⟨.input param start len, regions⟩ ∈ table.entries) : param < ins.length := by
  obtain ⟨hvalid, parts, hparts, -, -⟩ := lowerTypedRegionTable_eq_ok h
  have hlen : 0 < len := hvalid.len_pos _ hmem
  obtain ⟨part, -, -, hlower⟩ := exists_right hparts hmem
  obtain ⟨bitStart, -, rfl⟩ := lowerEntry_input hlower
  have hcovers : (WireAnchor.input bitStart len).Covers (.input bitStart) := ⟨le_rfl, by omega⟩
  obtain ⟨⟨anchor, regions'⟩, hmem', b, hb, hplace, hother⟩ :=
    exists_selects_of_exact h hexact hmem hlower hcovers
  cases b with
  | blockInput | funcInput | funcOutput => cases hplace
  | output => cases (place_output.mp hplace).2
  | cell =>
      obtain ⟨_, _, _, _, _, _, heq⟩ := place_cell.mp hplace
      cases heq
  | input param' bit =>
      have hparam : param' < ins.length := by
        by_contra hge
        rw [place_input, List.getD_eq_default _ _ (Nat.le_of_not_lt hge)] at hplace
        exact absurd hplace.1 (Nat.not_lt_zero bit)
      cases anchor with
      | input param'' start' len' =>
          obtain ⟨rfl, hge, hlt⟩ := hb
          by_contra hbeyond
          obtain ⟨part', hlower', hno⟩ := hother (by
            intro heq
            cases heq
            exact hbeyond hparam)
          obtain ⟨bitStart', hstart', rfl⟩ := lowerEntry_input hlower'
          have hland : Lands types tables ins (outputWidths.getD [])
              ⟨.input param'' start' len', regions'⟩ [⟨.input bitStart' len', regions'⟩] :=
            lands_input (hparams _ hparam) hstart' (hvalid.len_pos _ hmem')
          obtain ⟨e, he, hw⟩ := (hland.covers _).mpr ⟨.input _ bit, ⟨rfl, hge, hlt⟩, hplace⟩
          exact hno e he hw
      | _ => exact hb.elim

theorem output_fits_of_exact
    (h : lowerTypedRegionTable checks table tables types outputWidths = .ok lowered)
    (hexact : Exact types tables ins (outputWidths.getD []) table lowered) {out start len : ℕ}
    {regions : Finset RegionId} (hmem : ⟨.output out start len, regions⟩ ∈ table.entries) :
    (TypedAnchor.output out start len).Fits types tables ins (outputWidths.getD []) := by
  obtain ⟨hvalid, parts, hparts, -, -⟩ := lowerTypedRegionTable_eq_ok h
  by_contra hlarge
  have hlen : 0 < len := hvalid.len_pos _ hmem
  obtain ⟨position, hposition⟩ : ∃ position,
      position = (((outputWidths.getD []).take out).sum + start) % 2 ^ 32 := ⟨_, rfl⟩
  have hcut : position < 2 ^ 32 := hposition ▸ Nat.mod_lt _ (by decide)
  obtain ⟨part, -, -, hlower⟩ := exists_right hparts hmem
  obtain ⟨-, rfl⟩ := lowerEntry_output hlower
  rw [← hposition] at hlower
  have hcovers : (WireAnchor.output position len).Covers (.output position) := ⟨le_rfl, by omega⟩
  obtain ⟨⟨anchor, regions'⟩, hmem', b, hb, hplace, hother⟩ :=
    exists_selects_of_exact h hexact hmem hlower hcovers
  cases b with
  | blockInput | funcInput | funcOutput => cases hplace
  | input => cases (place_input.mp hplace).2
  | cell =>
      obtain ⟨_, _, _, _, _, _, heq⟩ := place_cell.mp hplace
      cases heq
  | output out' bit =>
      obtain ⟨-, hwire⟩ := place_output.mp hplace
      rw [BoundaryWire.output.injEq] at hwire
      cases anchor with
      | output out'' start' len' =>
          obtain ⟨rfl, hge, hlt⟩ := hb
          obtain ⟨part', hlower', hno⟩ := hother (by
            intro heq
            cases heq
            exact hlarge (show _ < _ by omega))
          obtain ⟨-, rfl⟩ := lowerEntry_output hlower'
          refine hno _ (List.mem_singleton_self _) ?_
          rw [Nat.mod_eq_of_lt (by omega)]
          constructor <;> omega
      | _ => exact hb.elim

theorem exact_iff_fits (hparams : ParamsAt tables ins)
    (hentry : ∀ entry ∈ table.entries, entry.anchor.AtEntry)
    (h : lowerTypedRegionTable checks table tables types outputWidths = .ok lowered) :
    Exact types tables ins (outputWidths.getD []) table lowered ↔
      ∀ entry ∈ table.entries, entry.anchor.Fits types tables ins (outputWidths.getD []) := by
  refine ⟨?_, exact_of_fits hparams hentry h⟩
  rintro hexact ⟨anchor, regions⟩ hmem
  have hvalid := (lowerTypedRegionTable_eq_ok h).1
  cases anchor with
  | input => exact input_fits_of_exact hparams h hexact hmem
  | output => exact output_fits_of_exact h hexact hmem
  | storage => exact storage_fits_of_exact hvalid hentry h hexact hmem
  | _ => trivial

end

section
variable (types : TypeTable)

def paramWires : (nextParam : ℕ) → List TypeId → List (List ℕ)
  | _, [] => []
  | nextParam, ty :: params =>
      List.range' nextParam (irTypeBits types ty) ::
        paramWires (nextParam + irTypeBits types ty) params

/-- The tables that a run leaves behind; the wires of the statements' vars are `results`. -/
def loweredTables {P : Type} (p : IRProgram P) (results : (block var : ℕ) → Option (List ℕ)) :
    Option LoweredTables := do
  let run ← lowerIrToBoolar types p
  some {
    lanes := run.lanes
    varBits := fun block var => p.blocks[block]?.bind fun b =>
      ((paramWires types 0 b.params)[var]?).or (results block var)
    addrWidths := run.addrWidths }

end

section
variable {types : TypeTable} {P : Type} {p : IRProgram P} {entry : IRBlock P}
  {results : (block var : ℕ) → Option (List ℕ)} {tables : LoweredTables}

theorem getElem?_paramWires {nextParam param : ℕ} {params : List TypeId}
    (h : param < params.length) : (paramWires types nextParam params)[param]? =
      some (List.range' (nextParam + ((params.map (irTypeBits types)).take param).sum)
        ((params.map (irTypeBits types)).getD param 0)) := by
  induction params generalizing nextParam param with
  | nil => cases h
  | cons ty params ih =>
      cases param with
      | zero => simp [paramWires]
      | succ param =>
          rw [paramWires, List.getElem?_cons_succ, ih (Nat.lt_of_succ_lt_succ h), List.map_cons,
            List.take_succ_cons, List.sum_cons, List.getD_cons_succ, Nat.add_assoc]

theorem paramsAt_loweredTables (hblock : p.blocks[0]? = some entry)
    (h : loweredTables types p results = some tables) :
    ParamsAt tables (entry.params.map (irTypeBits types)) := by
  obtain ⟨run, -, h⟩ := Option.bind_eq_some_iff.mp h
  cases h
  intro param hparam
  rw [List.length_map] at hparam
  dsimp only
  rw [hblock, Option.bind_some, getElem?_paramWires hparam, Nat.zero_add, Option.some_or]

end

def pairTypes : TypeTable := ⟨[.primitive .bit, .vec 2 ⟨0⟩]⟩

def pairHost : IRProgram Unit where
  blocks := [⟨[⟨0⟩], [.new (.storageRead ⟨0⟩ ⟨1⟩ 0) ()], .jmp ⟨.ret, [1]⟩⟩]
  preInit := []

def pairAnchors (addrStart addrLen : ℕ) : TypedRegionTable where
  entries := [⟨.input 0 0 1, {⟨0⟩}⟩, ⟨.output 0 0 2, {⟨1⟩}⟩,
    ⟨.storage ⟨0⟩ ⟨1⟩ addrStart addrLen, {⟨2⟩}⟩]
  names := fun _ => none

def pairWires (addrStart addrLen : ℕ) : List (List RegionEntry) :=
  [[⟨.input 0 1, {⟨0⟩}⟩], [⟨.output 0 2, {⟨1⟩}⟩],
    [⟨.storage ⟨0⟩ ⟨0⟩ addrStart addrLen, {⟨2⟩}⟩,
      ⟨.storage ⟨0⟩ ⟨0⟩ (addrStart + 2) addrLen, {⟨2⟩}⟩]]

/-- Entries that are lowered in order need no sorting. -/
theorem lowerTypedRegionTable_of_sorted {checks : Bool} {table : TypedRegionTable}
    {tables : LoweredTables} {types : TypeTable} {outputWidths : Option (List ℕ)}
    {parts : List (List RegionEntry)} (hvalid : table.validateStructure = .ok ())
    (hparts : table.entries.mapM (lowerEntry checks tables types outputWidths) = .ok parts)
    (hsorted : parts.flatten.Pairwise fun a b => decide (a.anchor.rank ≤ b.anchor.rank) = true)
    (hrepeats : checkRepeats parts.flatten = .ok ()) :
    lowerTypedRegionTable checks table tables types outputWidths =
      .ok ⟨parts.flatten, table.names⟩ := by
  have hsort : sortEntries parts.flatten = parts.flatten := List.mergeSort_of_pairwise hsorted
  simp only [lowerTypedRegionTable, hvalid, hparts, Fallible.ok_bind, hsort, hrepeats,
    Except.mapError]

theorem exists_pairTables : ∃ tables, loweredTables pairTypes pairHost (fun _ _ => none) =
    some tables ∧ laneOf tables.lanes ⟨1⟩ = some ⟨0⟩ ∧ tables.addrWidths (⟨0⟩, ⟨0⟩) = some 1 ∧
      (pairAnchors 0 2).entries.mapM (lowerEntry false tables pairTypes (some [2])) =
        .ok (pairWires 0 2) ∧
      (pairAnchors 2 1).entries.mapM (lowerEntry false tables pairTypes (some [2])) =
        .ok (pairWires 2 1) :=
  ⟨_, rfl, by decide, by decide, rfl, rfl⟩

theorem atEntry_pairAnchors (addrStart addrLen : ℕ) :
    ∀ e ∈ (pairAnchors addrStart addrLen).entries, e.anchor.AtEntry := by
  simp [pairAnchors, TypedAnchor.AtEntry]

end VolarIR.Lowering
