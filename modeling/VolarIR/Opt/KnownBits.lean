import VolarIR.Ir.Stored
import VolarIR.Opt.ConstantBits

/-!
# Known bits of Volar IR vars

The address disambiguation of `volar-ir-opt/src/store_forward.rs`: which bits of a statement's
result are known, and when two addresses are taken to differ. A `BTreeMap` is the list of its
insertions, the newest first.
-/
namespace VolarIR.Opt
open Ir

/-- Bit `k` of `value` counts where bit `k` of `known` is set. -/
structure KnownBits where
  known : Constant
  value : Constant
  deriving DecidableEq, Repr

namespace KnownBits

def nothing : KnownBits := ⟨.zero, .zero⟩

def fromConst (c : Constant) (width : ℕ) : KnownBits :=
  let m := maskConstant fullConstant width
  ⟨m, constantAnd c m⟩

def xorHasOneBit (self other : KnownBits) : Bool :=
  let both := constantAnd self.known other.known
  !constantIsZero both &&
    !constantIsZero (constantAnd both (constantXor self.value other.value))

/-- What is known of bit `k`. -/
def get (kb : KnownBits) (k : ℕ) : Option Bool :=
  if kb.known.bit k then some (kb.value.bit k) else none

def set (kb : KnownBits) (bit : ℕ) : Option Bool → KnownBits
  | none => kb
  | some v => ⟨setBitInConstant kb.known bit,
      if v then setBitInConstant kb.value bit else kb.value⟩

def ofBits (bits : List (Option Bool)) : KnownBits :=
  bits.zipIdx.foldl (fun kb e => kb.set e.2 e.1) nothing

end KnownBits

section
variable (getKb : ℕ → KnownBits)

/-- The product of one monomial at bit `b`: a factor known to be 0 decides it, and otherwise
an unknown factor leaves it unknown. -/
def monomialKnownBit (b : ℕ) : (monoVal : Option Bool) → List ℕ → Option Bool
  | monoVal, [] => monoVal
  | monoVal, v :: rest =>
      match (getKb v).get b with
      | some false => some false
      | some true => monomialKnownBit b monoVal rest
      | none => monomialKnownBit b (if monoVal ≠ some false then none else monoVal) rest

/-- The sum at bit `b`. A coefficient is read at bit `b` of its own eight bits. -/
def monomialsKnownBit (b : ℕ) : (resultVal : Bool) → List (List ℕ × U8) → Option Bool
  | resultVal, [] => some resultVal
  | resultVal, (key, coeff) :: rest =>
      if coeff.getLsbD b = false then monomialsKnownBit b resultVal rest
      else
        match monomialKnownBit getKb b (some true) key with
        | some v => monomialsKnownBit b (resultVal ^^ v) rest
        | none => none

def polyKnownBit (coeffs : Common.PolyCoeffs ℕ) (constant : Constant) (b : ℕ) : Option Bool :=
  if b < 8 then monomialsKnownBit getKb b (constant.bit b) coeffs.iter
  else some (constant.bit b)

/-- `poly_known_bits`. -/
def polyKnownBits (w : ℕ) (coeffs : Common.PolyCoeffs ℕ) (constant : Constant) : KnownBits :=
  .ofBits ((List.range (min w 256)).map (polyKnownBit getKb coeffs constant))

/-- The parts of a `Merge`, from `offset` on. A part of no known width ends the loop. -/
def mergeKnownBits (getPw : ℕ → ℕ) (totalW : ℕ) :
    (offset : ℕ) → KnownBits → List ℕ → KnownBits
  | _, kb, [] => kb
  | offset, kb, part :: rest =>
      let partW := getPw part
      if partW = 0 then kb
      else
        let sk := constantShl (maskConstant (getKb part).known partW) offset
        let sv := constantShl (maskConstant (getKb part).value partW) offset
        let kb : KnownBits := ⟨constantOr kb.known sk, constantOr kb.value sv⟩
        if offset + partW ≥ totalW then kb
        else mergeKnownBits getPw totalW (offset + partW) kb rest

def splatKnownBits (kb : KnownBits) (w : ℕ) : KnownBits :=
  if kb.known.bit 0 then
    let fill := if kb.value.bit 0 then fullConstant else .zero
    ⟨maskConstant fullConstant w, maskConstant fill w⟩
  else .nothing

/-- `ir_stmt_known_bits`: the known bits of the result, and its width. -/
def irStmtKnownBits (table : TypeTable) (knownBitsMap : List (ℕ × KnownBits))
    (widthMap : List (ℕ × ℕ)) (s : StoredStmt) : KnownBits × Option ℕ :=
  let getW := fun ty => (table.valueBitWidth ty).getD 0
  let getKb := fun v => (knownBitsMap.lookup v).getD .nothing
  let getPw := fun v => (widthMap.lookup v).getD 0
  match s with
  | .poly ty coeffs constant => (polyKnownBits getKb (getW ty) coeffs constant, some (getW ty))
  | .plain s =>
      match s.1 with
      | .const c ty => (.fromConst c (getW ty), some (getW ty))
      | .transmute src _ dstTy =>
          let w := getW dstTy
          (⟨maskConstant (getKb src).known w, maskConstant (getKb src).value w⟩, some w)
      | .merge parts ty => (mergeKnownBits getKb getPw (getW ty) 0 .nothing parts, some (getW ty))
      | .rol src ty n =>
          let w := getW ty
          (⟨constantRol (getKb src).known w n, constantRol (getKb src).value w n⟩, some w)
      | .ror src ty n =>
          let w := getW ty
          (⟨constantRor (getKb src).known w n, constantRor (getKb src).value w n⟩, some w)
      | .splat src ty => (splatKnownBits (getKb src) (getW ty), some (getW ty))
      | .shuffle resultBits ty =>
          (.ofBits (resultBits.map fun e => (getKb e.2).get e.1.toNat), some (getW ty))
      | s =>
          let w := (s.outputType.bind table.valueBitWidth).getD 0
          (.nothing, if w > 0 then some w else none)

end

abbrev IrPolyRepr := Common.PolyCoeffs ℕ × Constant

def xorMonomials (ca : Common.PolyCoeffs ℕ) (monomials : List (List ℕ × U8)) :
    Common.PolyCoeffs ℕ :=
  monomials.foldl (fun ca e => ca.entryOrInsert e.1 0 (· ^^^ e.2)) ca

def retainOdd (coeffs : Common.PolyCoeffs ℕ) : Common.PolyCoeffs ℕ :=
  coeffs.retain fun _ _ c => (c, odd c)

section
variable (constMap : List (ℕ × Constant)) (polyMap : List (ℕ × IrPolyRepr))

/-- `ir_addr_poly`. -/
def irAddrPoly (v : ℕ) : IrPolyRepr :=
  match constMap.lookup v with
  | some c => (.new, c)
  | none =>
      match polyMap.lookup v with
      | some p => p
      | none => ((Common.PolyCoeffs.new.insert [v] 1).2, .zero)

/-- `ir_polys_xor_nonzero_const`. -/
def irPolysXorNonzeroConst (a b : ℕ) : Bool :=
  let (ca, ka) := irAddrPoly constMap polyMap a
  let (cb, kb) := irAddrPoly constMap polyMap b
  (retainOdd (xorMonomials ca cb.iter)).entries.isEmpty && !constantIsZero (constantXor ka kb)

/-- `ir_addrs_provably_different`. -/
def irAddrsProvablyDifferent (knownBitsMap : List (ℕ × KnownBits)) (a b : ℕ) : Bool :=
  if a = b then false
  else if irPolysXorNonzeroConst constMap polyMap a b then true
  else
    let kbA := (knownBitsMap.lookup a).getD .nothing
    let kbB := (knownBitsMap.lookup b).getD .nothing
    kbA.xorHasOneBit kbB

end
end VolarIR.Opt

/-!
## Known bits as readings of a value

What is known of a value is right when each bit of it stands in the value. Every statement
other than a polynomial turns right operands into a right result. The bits of a polynomial are
the sum that its coefficients are read as: bit `b` of a coefficient decides whether it counts at
lane `b`, where the value counts an odd coefficient at every lane.
-/
namespace VolarIR.Opt
open Ir

def KnownBits.Holds (kb : KnownBits) (bits : List Bool) : Prop :=
  ∀ k b, kb.get k = some b → bits[k]? = some b

namespace KnownBits
variable {kb : KnownBits} {bits : List Bool} {k : ℕ}

theorem get_eq_some {b : Bool} :
    kb.get k = some b ↔ kb.known.bit k = true ∧ kb.value.bit k = b := by
  unfold get
  split_ifs with h
  · simp [h]
  · simp [h]

theorem get_of_known (h : kb.known.bit k = true) : kb.get k = some (kb.value.bit k) :=
  get_eq_some.mpr ⟨h, rfl⟩

theorem holds_of_known
    (h : ∀ k, kb.known.bit k = true → bits[k]? = some (kb.value.bit k)) : kb.Holds bits := by
  intro k b hb
  have hbits := get_eq_some.mp hb
  rw [h k hbits.1, hbits.2]

theorem Holds.known (h : kb.Holds bits) (hk : kb.known.bit k = true) :
    bits[k]? = some (kb.value.bit k) := h k _ (get_of_known hk)

theorem Holds.lt (h : kb.Holds bits) (hk : kb.known.bit k = true) : k < bits.length :=
  (List.getElem?_eq_some_iff.mp (h.known hk)).1

@[simp] theorem get_nothing (k : ℕ) : nothing.get k = none := by
  simp [get, nothing]

theorem holds_nothing (bits : List Bool) : nothing.Holds bits := by
  intro k b hb
  rw [get_nothing] at hb
  cases hb

theorem Holds.append (h : kb.Holds bits) (more : List Bool) : kb.Holds (bits ++ more) := by
  intro k b hb
  have hbit := h k b hb
  rw [List.getElem?_append_left (List.getElem?_eq_some_iff.mp hbit).1]
  exact hbit

theorem xorHasOneBit_iff {kb kb' : KnownBits} :
    kb.xorHasOneBit kb' = true ↔ ∃ k b, kb.get k = some b ∧ kb'.get k = some (!b) := by
  unfold xorHasOneBit
  have hpos : ∀ c : Constant, (!constantIsZero c) = true ↔ ∃ k, c.bit k = true := by
    intro c
    rw [Bool.not_eq_true', ← Bool.not_eq_true, constantIsZero_iff]
    simp
  simp only [Bool.and_eq_true, hpos, bit_constantAnd, bit_constantXor]
  constructor
  · intro h
    obtain ⟨k, hknown, hdiff⟩ := h.2
    have hvalue : kb'.value.bit k = !kb.value.bit k := by
      cases hv : kb.value.bit k <;> simpa [hv] using hdiff
    exact ⟨k, _, get_of_known hknown.1, hvalue ▸ get_of_known hknown.2⟩
  · intro h
    obtain ⟨k, b, hleft, hright⟩ := h
    rw [get_eq_some] at hleft hright
    have hdiff : (kb.value.bit k ^^ kb'.value.bit k) = true := by
      rw [hleft.2, hright.2]
      simp
    exact ⟨⟨k, hleft.1, hright.1⟩, k, ⟨hleft.1, hright.1⟩, hdiff⟩

theorem Holds.ne {kb' : KnownBits} {bits' : List Bool} (h : kb.Holds bits)
    (h' : kb'.Holds bits') (hdiff : kb.xorHasOneBit kb' = true) : bits ≠ bits' := by
  intro heq
  obtain ⟨k, b, hleft, hright⟩ := xorHasOneBit_iff.mp hdiff
  have hsame := h' k _ hright
  rw [← heq, h k b hleft] at hsame
  simp at hsame

theorem known_set (kb : KnownBits) (i : ℕ) (o : Option Bool) (k : ℕ) :
    (kb.set i o).known.bit k =
      (kb.known.bit k || (decide (k = i ∧ i < 256) && o.isSome)) := by
  cases o with
  | none => simp [set]
  | some v => simp [set, bit_setBitInConstant]

theorem value_set (kb : KnownBits) (i : ℕ) (o : Option Bool) (k : ℕ) :
    (kb.set i o).value.bit k =
      (kb.value.bit k || (decide (k = i ∧ i < 256) && o == some true)) := by
  cases o with
  | none => simp [set]
  | some v => cases v <;> simp [set, bit_setBitInConstant]

theorem ofBits_snoc (bits : List (Option Bool)) (o : Option Bool) :
    ofBits (bits ++ [o]) = (ofBits bits).set bits.length o := by
  simp [ofBits, List.zipIdx_append]

theorem ofBits_bit (bits : List (Option Bool)) (k : ℕ) :
    (ofBits bits).known.bit k = (decide (k < 256) && (bits[k]?.join).isSome) ∧
      (ofBits bits).value.bit k = (decide (k < 256) && bits[k]?.join == some true) := by
  induction bits using List.reverseRecOn with
  | nil => simp [ofBits, nothing]
  | append_singleton bits o ih =>
      have hget : (bits ++ [o])[k]? = if k = bits.length then some o else bits[k]? := by
        rcases lt_trichotomy k bits.length with hk | hk | hk
        · rw [List.getElem?_append_left hk, if_neg (Nat.ne_of_lt hk)]
        · rw [hk, List.getElem?_concat_length, if_pos rfl]
        · rw [List.getElem?_eq_none (by simp; omega), if_neg (by omega),
            List.getElem?_eq_none (by omega)]
      rw [ofBits_snoc, known_set, value_set, ih.1, ih.2, hget]
      by_cases hk : k = bits.length
      · have hnone : bits[k]? = none := List.getElem?_eq_none (by omega)
        simp [hk]
      · simp [hk]

theorem get_ofBits (bits : List (Option Bool)) (k : ℕ) :
    (ofBits bits).get k = if k < 256 then bits[k]?.join else none := by
  have hbit := ofBits_bit bits k
  rw [get, hbit.1, hbit.2]
  by_cases hk : k < 256
  · cases hjoin : bits[k]?.join with
    | none => simp [hk]
    | some v => cases v <;> simp [hk]
  · simp [hk]

theorem getElem?_fit {bits : List Bool} {width k : ℕ} (hk : k < width) :
    (fit bits width)[k]? = some (bits.getD k false) := by
  simp [fit, hk]

theorem Holds.getD (h : kb.Holds bits) (hk : kb.known.bit k = true) :
    bits.getD k false = kb.value.bit k := by
  rw [List.getD_eq_getElem?_getD, h.known hk]
  rfl

theorem holds_fromConst (c : Constant) {w width : ℕ} (hw : w ≤ width) :
    (fromConst c w).Holds (constBits c width) := by
  apply holds_of_known
  intro k hk
  rw [fromConst, bit_maskConstant, Bool.and_eq_true, decide_eq_true_iff] at hk
  have hvalue : (fromConst c w).value.bit k = c.bit k := by
    simp [fromConst, bit_constantAnd, bit_maskConstant, hk.1, hk.2]
  rw [hvalue, constBits, List.getElem?_map, List.getElem?_range (by omega), Option.map_some]

theorem Holds.mask (h : kb.Holds bits) {w width : ℕ} (hw : w ≤ width) :
    (⟨maskConstant kb.known w, maskConstant kb.value w⟩ : KnownBits).Holds (fit bits width) := by
  apply holds_of_known
  intro k hk
  dsimp only at hk ⊢
  rw [bit_maskConstant, Bool.and_eq_true, decide_eq_true_iff] at hk
  rw [getElem?_fit (by omega), h.getD hk.2, bit_maskConstant, decide_eq_true hk.1, Bool.true_and]

theorem Holds.splat (h : kb.Holds bits) {w width : ℕ} (hw : w ≤ width) :
    (splatKnownBits kb w).Holds (List.replicate width (bits.headD false)) := by
  unfold splatKnownBits
  by_cases hknown : kb.known.bit 0 = true
  · have hhead : bits.headD false = kb.value.bit 0 := by
      rw [← h.getD hknown]
      cases bits <;> rfl
    rw [if_pos hknown, hhead]
    apply holds_of_known
    intro k hk
    dsimp only at hk ⊢
    rw [bit_maskConstant, bit_fullConstant, Bool.and_eq_true, decide_eq_true_iff,
      decide_eq_true_iff] at hk
    rw [List.getElem?_replicate, if_pos (by omega), bit_maskConstant, decide_eq_true hk.1,
      Bool.true_and]
    cases kb.value.bit 0 with
    | false => simp
    | true => simp [bit_fullConstant, hk.2]
  · rw [if_neg hknown]
    exact holds_nothing _

theorem Holds.rol (h : kb.Holds bits) (n : ℕ) :
    (⟨constantRol kb.known bits.length n, constantRol kb.value bits.length n⟩ : KnownBits).Holds
      (rotateLeft bits bits.length n) := by
  apply holds_of_known
  intro k hk
  dsimp only at hk ⊢
  have hlt : k < 256 := by
    by_contra hge
    rw [bit_of_ge _ (by omega)] at hk
    cases hk
  by_cases hwidth : k < bits.length
  · rw [bit_constantRol _ hwidth hlt] at hk ⊢
    simp [rotateLeft, hwidth, ← h.getD hk]
  · have hold := h.lt (bit_of_bit_constantRol (Nat.le_of_not_lt hwidth) hk)
    exact absurd hold hwidth

theorem Holds.ror (h : kb.Holds bits) (n : ℕ) :
    (⟨constantRor kb.known bits.length n, constantRor kb.value bits.length n⟩ : KnownBits).Holds
      (rotateRight bits bits.length n) := by
  rw [constantRor_eq, constantRor_eq]
  exact h.rol _

theorem holds_ofBits {readings : List (Option Bool)} {bits : List Bool}
    (h : ∀ (k : ℕ) (b : Bool), readings[k]? = some (some b) → bits[k]? = some b) :
    (ofBits readings).Holds bits := by
  intro k b hb
  rw [get_ofBits] at hb
  split_ifs at hb
  exact h k b (Option.join_eq_some_iff.mp hb)

theorem Holds.fit (h : kb.Holds bits) {width : ℕ} (hle : bits.length ≤ width) :
    kb.Holds (fit bits width) := by
  apply holds_of_known
  intro k hk
  rw [getElem?_fit (Nat.lt_of_lt_of_le (h.lt hk) hle), h.getD hk]

/-- The next part of a `Merge`, above `low`. -/
theorem Holds.place {part : KnownBits} {low : List Bool} (h : kb.Holds low)
    (hvalue : ∀ k, kb.value.bit k = true → k < low.length) (hpart : part.Holds bits) :
    let sk := constantShl (maskConstant part.known bits.length) low.length
    let sv := constantShl (maskConstant part.value bits.length) low.length
    (⟨constantOr kb.known sk, constantOr kb.value sv⟩ : KnownBits).Holds (low ++ bits) ∧
      ∀ k, (constantOr kb.value sv).bit k = true → k < (low ++ bits).length := by
  dsimp only
  have hshifted : ∀ (c : Constant) (k : ℕ),
      (constantShl (maskConstant c bits.length) low.length).bit k =
        (decide (low.length ≤ k ∧ k < 256) &&
          (decide (k - low.length < bits.length) && c.bit (k - low.length))) := by
    intro c k
    rw [bit_constantShl, bit_maskConstant]
  constructor
  · apply holds_of_known
    intro k hk
    dsimp only at hk ⊢
    rw [bit_constantOr, hshifted] at hk ⊢
    by_cases hlow : k < low.length
    · have hout : ¬ (low.length ≤ k ∧ k < 256) := by omega
      rw [decide_eq_false hout, Bool.false_and, Bool.or_false] at hk ⊢
      rw [List.getElem?_append_left hlow]
      exact h.known hk
    · have hold : kb.known.bit k = false := Bool.eq_false_iff.mpr fun hk => hlow (h.lt hk)
      have hnone : kb.value.bit k = false := Bool.eq_false_iff.mpr fun hk => hlow (hvalue k hk)
      rw [hold, Bool.false_or, Bool.and_eq_true, Bool.and_eq_true] at hk
      rw [hnone, hk.1, hk.2.1, List.getElem?_append_right (Nat.le_of_not_lt hlow)]
      exact hpart.known hk.2.2
  · intro k hk
    rw [bit_constantOr, hshifted, Bool.or_eq_true] at hk
    rw [List.length_append]
    rcases hk with hk | hk
    · exact Nat.lt_add_right _ (hvalue k hk)
    · simp only [Bool.and_eq_true, decide_eq_true_iff] at hk
      omega

/-- A `Merge` puts the known bits of its parts where their values stand. -/
theorem Holds.merge {getKb : ℕ → KnownBits} {getPw : ℕ → ℕ} {val : ℕ → List Bool} {low : List Bool}
    (totalW : ℕ) {parts : List ℕ} (h : kb.Holds low)
    (hvalue : ∀ k, kb.value.bit k = true → k < low.length)
    (hkb : ∀ p ∈ parts, (getKb p).Holds (val p))
    (hpw : ∀ p ∈ parts, getPw p ≠ 0 → getPw p = (val p).length) :
    (mergeKnownBits getKb getPw totalW low.length kb parts).Holds (low ++ parts.flatMap val) := by
  induction parts generalizing kb low with
  | nil =>
      rw [List.flatMap_nil, List.append_nil]
      exact h
  | cons p rest ih =>
      simp only [List.forall_mem_cons] at hkb hpw
      rw [mergeKnownBits]
      dsimp only
      split_ifs with hzero hfull
      · exact h.append _
      · have hnext := h.place hvalue hkb.1
        rw [hpw.1 hzero, List.flatMap_cons, ← List.append_assoc]
        exact hnext.1.append _
      · have hnext := h.place hvalue hkb.1
        have hrest := ih hnext.1 hnext.2 hkb.2 hpw.2
        rw [List.length_append] at hrest
        rw [hpw.1 hzero, List.flatMap_cons, ← List.append_assoc]
        exact hrest

end KnownBits

def laneSum (chosen : U8 → Bool) (lane : ℕ → Bool) (entries : List (List ℕ × U8)) : Bool :=
  entries.foldr (fun e acc => (chosen e.2 && e.1.all lane) ^^ acc) false

def Legible (w : ℕ) (c : U8) : Prop := ∀ b < min w 256, c.getLsbD b = odd c

instance (w : ℕ) (c : U8) : Decidable (Legible w c) := inferInstanceAs (Decidable (∀ _ < _, _))

section
variable {chosen chosen' : U8 → Bool} {lane : ℕ → Bool} {e : List ℕ × U8}
  {entries entries' : List (List ℕ × U8)}

@[simp] theorem laneSum_nil : laneSum chosen lane [] = false := rfl

@[simp] theorem laneSum_cons :
    laneSum chosen lane (e :: entries) =
      ((chosen e.2 && e.1.all lane) ^^ laneSum chosen lane entries) := rfl

theorem laneSum_perm (h : entries.Perm entries') :
    laneSum chosen lane entries = laneSum chosen lane entries' := by
  induction h with
  | nil => rfl
  | cons e _ ih => rw [laneSum_cons, laneSum_cons, ih]
  | swap d e rest => rw [laneSum_cons, laneSum_cons, laneSum_cons, laneSum_cons, Bool.xor_left_comm]
  | trans _ _ ih ih' => exact ih.trans ih'

theorem laneSum_congr (h : ∀ e ∈ entries, chosen e.2 = chosen' e.2) :
    laneSum chosen lane entries = laneSum chosen' lane entries := by
  induction entries with
  | nil => rfl
  | cons e rest ih =>
      rw [List.forall_mem_cons] at h
      rw [laneSum_cons, laneSum_cons, h.1, ih h.2]

theorem laneSum_eq_false (h : ∀ e ∈ entries, chosen e.2 = false) :
    laneSum chosen lane entries = false := by
  induction entries with
  | nil => rfl
  | cons e rest ih =>
      rw [List.forall_mem_cons] at h
      rw [laneSum_cons, h.1, ih h.2]
      rfl

theorem foldl_laneSum (b : Bool) :
    entries.foldl (fun acc e => if chosen e.2 then acc ^^ e.1.all lane else acc) b =
      (b ^^ laneSum chosen lane entries) := by
  induction entries generalizing b with
  | nil => simp
  | cons e rest ih =>
      rw [List.foldl_cons, ih, laneSum_cons]
      cases chosen e.2 with
      | false => simp
      | true => simp

theorem getElem?_evalBitPoly {look : ℕ → Value} {coeffs : Common.PolyCoeffs ℕ} {c : Constant}
    {width k : ℕ} (hk : k < width) :
    (evalBitPoly c width (storedTerms coeffs look))[k]? =
      some (c.bit k ^^ laneSum odd (fun v => (look v).lane k) coeffs.iter) := by
  rw [evalBitPoly, List.getElem?_map, List.getElem?_range hk, Option.map_some,
    storedTerms, List.foldl_map, ← foldl_laneSum]
  simp [Function.comp_def]

end

section
variable {getKb : ℕ → KnownBits} {b : ℕ} {lane : ℕ → Bool}

theorem monomialKnownBit_none (key : List ℕ) :
    monomialKnownBit getKb b none key =
      if ∃ v ∈ key, (getKb v).get b = some false then some false else none := by
  induction key with
  | nil => simp [monomialKnownBit]
  | cons v rest ih =>
      rw [monomialKnownBit]
      cases hv : (getKb v).get b with
      | none => simp [ih, hv]
      | some x => cases x <;> simp [ih, hv]

theorem all_of_monomialKnownBit {key : List ℕ} {x : Bool}
    (hlane : ∀ v ∈ key, ∀ y, (getKb v).get b = some y → lane v = y)
    (h : monomialKnownBit getKb b (some true) key = some x) : key.all lane = x := by
  induction key with
  | nil =>
      obtain rfl := Option.some.inj h
      rfl
  | cons v rest ih =>
      rw [List.forall_mem_cons] at hlane
      rw [monomialKnownBit] at h
      rw [List.all_cons]
      cases hv : (getKb v).get b with
      | none =>
          -- some later factor is known to be 0
          simp only [hv, ne_eq, Option.some.injEq, Bool.true_eq_false, not_false_eq_true, if_true,
            monomialKnownBit_none] at h
          split_ifs at h with hzero
          obtain ⟨u, hu, hzero⟩ := hzero
          obtain rfl := Option.some.inj h
          have hrest : rest.all lane = false :=
            List.all_eq_false.mpr ⟨u, hu, by simp [hlane.2 u hu false hzero]⟩
          rw [hrest, Bool.and_false]
      | some y =>
          rw [hv] at h
          rw [hlane.1 y hv]
          cases y with
          | false => exact Option.some.inj h
          | true => exact ih hlane.2 h

theorem eq_of_monomialsKnownBit {r x : Bool} {entries : List (List ℕ × U8)}
    (hlane : ∀ e ∈ entries, ∀ v ∈ e.1, ∀ y, (getKb v).get b = some y → lane v = y)
    (h : monomialsKnownBit getKb b r entries = some x) :
    x = (r ^^ laneSum (·.getLsbD b) lane entries) := by
  induction entries generalizing r with
  | nil => simpa [monomialsKnownBit, eq_comm] using h
  | cons e rest ih =>
      rw [List.forall_mem_cons] at hlane
      rw [monomialsKnownBit] at h
      rw [laneSum_cons]
      cases hread : e.2.getLsbD b with
      | false =>
          rw [if_pos hread] at h
          rw [ih hlane.2 h]
          simp
      | true =>
          rw [if_neg (by rw [hread]; decide)] at h
          cases hmono : monomialKnownBit getKb b (some true) e.1 with
          | none =>
              rw [hmono] at h
              cases h
          | some v =>
              rw [hmono] at h
              rw [ih hlane.2 h, all_of_monomialKnownBit hlane.1 hmono, Bool.true_and,
                Bool.xor_assoc]

theorem getLsbD_of_eight_le (c : U8) (hb : 8 ≤ b) : c.getLsbD b = false :=
  BitVec.getLsbD_of_ge _ _ hb

/-- What a polynomial is known to be at bit `b`: the constant and the monomials read there. -/
theorem eq_of_polyKnownBit {coeffs : Common.PolyCoeffs ℕ} {c : Constant} {x : Bool}
    (hlane : ∀ e ∈ coeffs.iter, ∀ v ∈ e.1, ∀ y, (getKb v).get b = some y → lane v = y)
    (h : polyKnownBit getKb coeffs c b = some x) :
    x = (c.bit b ^^ laneSum (·.getLsbD b) lane coeffs.iter) := by
  unfold polyKnownBit at h
  split_ifs at h with hb
  · exact eq_of_monomialsKnownBit hlane h
  · have hnone : laneSum (·.getLsbD b) lane coeffs.iter = false :=
      laneSum_eq_false fun e _ => getLsbD_of_eight_le e.2 (by omega)
    rw [hnone, Bool.xor_false]
    exact (Option.some.inj h).symm

theorem get_polyKnownBits (w : ℕ) (coeffs : Common.PolyCoeffs ℕ) (c : Constant) :
    (polyKnownBits getKb w coeffs c).get b =
      if b < min w 256 then polyKnownBit getKb coeffs c b else none := by
  rw [polyKnownBits, KnownBits.get_ofBits]
  by_cases hb : b < min w 256
  · have hlt : b < 256 := by omega
    rw [if_pos hb, if_pos hlt, List.getElem?_map, List.getElem?_range hb]
    rfl
  · have hnone : ((List.range (min w 256)).map (polyKnownBit getKb coeffs c))[b]? = none :=
      List.getElem?_eq_none (by simpa using Nat.le_of_not_lt hb)
    rw [if_neg hb, hnone]
    simp

end

section
variable {lane : ℕ → Bool}

theorem odd_xor (c d : U8) : odd (c ^^^ d) = (odd c ^^ odd d) := BitVec.getLsbD_xor

theorem Legible.xor {w : ℕ} {c d : U8} (hc : Legible w c) (hd : Legible w d) :
    Legible w (c ^^^ d) := by
  intro b hb
  rw [BitVec.getLsbD_xor, hc b hb, hd b hb, odd_xor]

theorem laneSum_entryOrInsert (ca : Common.PolyCoeffs ℕ) (key : List ℕ) (c : U8) :
    laneSum odd lane (ca.entryOrInsert key 0 (· ^^^ c)).iter =
      (laneSum odd lane ca.iter ^^ (odd c && key.all lane)) := by
  rcases ca.iter_entryOrInsert key 0 (· ^^^ c) with ⟨d, rest, hold, hnew⟩ | hnew
  · rw [laneSum_perm hold, laneSum_perm hnew, laneSum_cons, laneSum_cons, odd_xor,
      Bool.and_xor_distrib_right, Bool.xor_assoc, Bool.xor_assoc,
      Bool.xor_comm (odd c && key.all lane)]
  · have hzero : (0 : U8) ^^^ c = c := BitVec.zero_xor
    rw [laneSum_perm hnew, laneSum_cons, hzero, Bool.xor_comm]

theorem laneSum_xorMonomials (ca : Common.PolyCoeffs ℕ) (monomials : List (List ℕ × U8)) :
    laneSum odd lane (xorMonomials ca monomials).iter =
      (laneSum odd lane ca.iter ^^ laneSum odd lane monomials) := by
  unfold xorMonomials
  induction monomials generalizing ca with
  | nil => simp
  | cons e rest ih =>
      rw [List.foldl_cons, ih, laneSum_entryOrInsert, laneSum_cons, Bool.xor_assoc]

theorem laneSum_filter_odd (entries : List (List ℕ × U8)) :
    laneSum odd lane (entries.filter fun e => odd e.2) = laneSum odd lane entries := by
  induction entries with
  | nil => rfl
  | cons e rest ih =>
      cases hodd : odd e.2 with
      | false => simp [hodd, ih]
      | true => simp [hodd, ih]

theorem forall_xorMonomials {K : List ℕ → Prop} {Q : U8 → Prop}
    (hadd : ∀ c d, Q c → Q d → Q (c ^^^ d)) {monomials : List (List ℕ × U8)}
    (h : ∀ e ∈ monomials, K e.1 ∧ Q e.2) {ca : Common.PolyCoeffs ℕ}
    (hca : ∀ e ∈ ca.iter, K e.1 ∧ Q e.2) :
    ∀ e ∈ (xorMonomials ca monomials).iter, K e.1 ∧ Q e.2 := by
  unfold xorMonomials
  induction monomials generalizing ca with
  | nil => exact hca
  | cons e rest ih =>
      rw [List.forall_mem_cons] at h
      rw [List.foldl_cons]
      apply ih h.2
      intro x hx
      rcases ca.iter_entryOrInsert e.1 0 (· ^^^ e.2) with ⟨d, others, hold, hnew⟩ | hnew
      · rcases List.mem_cons.mp (hnew.mem_iff.mp hx) with rfl | hx
        · have hd := hca (e.1, d) (hold.mem_iff.mpr List.mem_cons_self)
          exact ⟨h.1.1, hadd _ _ hd.2 h.1.2⟩
        · exact hca x (hold.mem_iff.mpr (List.mem_cons_of_mem _ hx))
      · rcases List.mem_cons.mp (hnew.mem_iff.mp hx) with rfl | hx
        · have hzero : (0 : U8) ^^^ e.2 = e.2 := BitVec.zero_xor
          exact ⟨h.1.1, hzero.symm ▸ h.1.2⟩
        · exact hca x hx

theorem iter_retainOdd (coeffs : Common.PolyCoeffs ℕ) :
    (retainOdd coeffs).iter = coeffs.iter.filter fun e => odd e.2 :=
  coeffs.iter_retain fun _ c => odd c

variable {constMap : List (ℕ × Constant)} {polyMap : List (ℕ × IrPolyRepr)} {a b : ℕ}

theorem irPolysXorNonzeroConst_iff :
    irPolysXorNonzeroConst constMap polyMap a b = true ↔
      (retainOdd (xorMonomials (irAddrPoly constMap polyMap a).1
          (irAddrPoly constMap polyMap b).1.iter)).entries = [] ∧
        constantIsZero (constantXor (irAddrPoly constMap polyMap a).2
          (irAddrPoly constMap polyMap b).2) = false := by
  have hdef : irPolysXorNonzeroConst constMap polyMap a b =
      ((retainOdd (xorMonomials (irAddrPoly constMap polyMap a).1
          (irAddrPoly constMap polyMap b).1.iter)).entries.isEmpty &&
        !constantIsZero (constantXor (irAddrPoly constMap polyMap a).2
          (irAddrPoly constMap polyMap b).2)) := rfl
  rw [hdef, Bool.and_eq_true, List.isEmpty_iff, Bool.not_eq_true']

theorem laneSum_eq_of_xorNonzeroConst (h : irPolysXorNonzeroConst constMap polyMap a b = true) :
    laneSum odd lane (irAddrPoly constMap polyMap a).1.iter =
      laneSum odd lane (irAddrPoly constMap polyMap b).1.iter := by
  have hsum : laneSum odd lane _ = _ := laneSum_xorMonomials (irAddrPoly constMap polyMap a).1
    (irAddrPoly constMap polyMap b).1.iter
  rw [← laneSum_filter_odd, ← iter_retainOdd, Common.PolyCoeffs.iter,
    (irPolysXorNonzeroConst_iff.mp h).1, List.map_nil, laneSum_nil] at hsum
  simpa using hsum.symm

end

end VolarIR.Opt
