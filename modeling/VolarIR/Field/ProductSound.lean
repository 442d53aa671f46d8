import VolarIR.Field.Product
import VolarIR.Field.FieldType
import VolarIR.Library.BitAlgebra

/-!
# The product is multiplication

Field types and vectors over them are read as rings of bit strings. `monomial_product` is the
product of what its factors mean there, whatever their order.
-/
namespace VolarIR
open Polynomial

/-- How deep a type is: `Bit` at zero, a vector or an extension one above what it is over. -/
inductive Rank (table : TypeTable) : ℕ → TypeId → Prop
  | bit {id : TypeId} (get : table.get id = some (.primitive .bit)) : Rank table 0 id
  | vec {d n : ℕ} {id elem : TypeId} (get : table.get id = some (.vec n elem))
      (below : Rank table d elem) : Rank table (d + 1) id
  | ext {d degree : ℕ} {id wrapped : TypeId} {irreducible : List U64}
      (get : table.get id = some (.extField wrapped degree irreducible))
      (below : Rank table d wrapped) : Rank table (d + 1) id

section
variable {table : TypeTable}

theorem Rank.unique {j k : ℕ} {id : TypeId} (hj : Rank table j id) (hk : Rank table k id) :
    j = k := by
  induction hj generalizing k with
  | bit get =>
      cases hk with
      | bit => rfl
      | vec get' => simp [get] at get'
      | ext get' => simp [get] at get'
  | vec get _ ih =>
      cases hk with
      | bit get' => simp [get] at get'
      | vec get' below =>
          cases Option.some.inj (get.symm.trans get')
          rw [ih below]
      | ext get' => simp [get] at get'
  | ext get _ ih =>
      cases hk with
      | bit get' => simp [get] at get'
      | vec get' => simp [get] at get'
      | ext get' below =>
          cases Option.some.inj (get.symm.trans get')
          rw [ih below]

theorem Rank.get {d : ℕ} {id : TypeId} (h : Rank table d id) : ∃ t, table.get id = some t := by
  cases h with
  | bit get => exact ⟨_, get⟩
  | vec get => exact ⟨_, get⟩
  | ext get => exact ⟨_, get⟩

theorem Rank.lt_length {d : ℕ} {id : TypeId} (h : Rank table d id) : d < table.types.length := by
  apply Descent.lt_of_rank (Rank table) TypeId.id_injective _ _
    (fun _ _ _ => Rank.unique) h
  · intro d id h
    obtain ⟨t, ht⟩ := h.get
    exact (List.getElem?_eq_some_iff.mp ht).1
  · intro d id h
    cases h with
    | vec _ below => exact ⟨_, below⟩
    | ext _ below => exact ⟨_, below⟩

theorem FieldType.rank {id : TypeId} (h : FieldType table id) : ∃ d, Rank table d id := by
  induction h with
  | bit get => exact ⟨0, .bit get⟩
  | ext get _ _ _ ih =>
      obtain ⟨d, hd⟩ := ih
      exact ⟨d + 1, .ext get hd⟩

end

/-- A field type means its field, a vector the vectors over what its element means. -/
inductive Means (table : TypeTable) : TypeId → BitAlgebra → Prop
  | field {id : TypeId} {w : WrappedDesc} {F : BitField} (type : FieldType table id)
      (desc : wrappedDesc table id = some w) (describes : Describes w F) :
      Means table id (.ofField F)
  | vec {n : ℕ} {id elem : TypeId} {A : BitAlgebra} (get : table.get id = some (.vec n elem))
      (lanes : Means table elem A) (fits : A.width ≤ usizeMax) : Means table id (A.vec n)

section
variable {table : TypeTable}

theorem Means.rank {id : TypeId} {A : BitAlgebra} (h : Means table id A) :
    ∃ d, Rank table d id := by
  induction h with
  | field type => exact type.rank
  | vec get _ _ ih =>
      obtain ⟨d, hd⟩ := ih
      exact ⟨d + 1, .vec get hd⟩

theorem checkedMul_eq_some {a b : ℕ} (h : a * b ≤ usizeMax) : checkedMul a b = some (a * b) :=
  if_pos h

/-- What the descriptor of an extension field looks like. -/
theorem wrappedDesc_extField {id wrapped : TypeId} {degree : ℕ} {irreducible : List U64}
    {w : WrappedDesc} (get : table.get id = some (.extField wrapped degree irreducible))
    (h : wrappedDesc table id = some w) :
    ∃ v, wrappedDesc table wrapped = some v ∧
      fieldDesc table id = some ⟨degree, irreducible, v, degree * v.width⟩ ∧
      w = .field degree irreducible v (degree * v.width) := by
  rw [wrappedDesc, wrappedDescWith, get] at h
  obtain ⟨desc, hdesc, hw⟩ := Option.map_eq_some_iff.mp h
  rw [fieldDesc] at hdesc
  cases hlen : table.types.length with
  | zero =>
      rw [hlen] at hdesc
      cases hdesc
  | succ fuel =>
      rw [hlen, fieldDescFrom_succ get] at hdesc
      obtain ⟨v, hv, heq⟩ := Option.map_eq_some_iff.mp hdesc
      have hwrapped : wrappedDesc table wrapped = some v :=
        wrappedDescWith_mono (fun _ _ h => fieldDesc_of_from h) hv
      refine ⟨v, hwrapped, ?_, ?_⟩
      · rw [fieldDesc, hlen, fieldDescFrom_succ get, hv]
        rfl
      · rw [← hw, ← heq]
        rfl

theorem FieldType.valueBitWidthFrom_eq {id : TypeId} (h : FieldType table id) {w : WrappedDesc}
    (hw : wrappedDesc table id = some w) {d : ℕ} (hd : Rank table d id) {fuel : ℕ}
    (hfuel : d < fuel) : w.width ≤ usizeMax ∧ valueBitWidthFrom table fuel id = some w.width := by
  induction h generalizing w d fuel with
  | bit get =>
      obtain ⟨fuel, rfl⟩ : ∃ m, fuel = m + 1 := ⟨fuel - 1, by omega⟩
      rw [wrappedDesc, wrappedDescWith, get] at hw
      cases hw
      exact ⟨by decide, by rw [valueBitWidthFrom, get]; rfl⟩
  | @ext id wrapped degree irreducible get le_max _ accepted ih =>
      obtain ⟨fuel, rfl⟩ : ∃ m, fuel = m + 1 := ⟨fuel - 1, by omega⟩
      obtain ⟨v, hv, -, rfl⟩ := wrappedDesc_extField get hw
      obtain ⟨v', hv', -, hwidth, -⟩ := validateExtField_eq_ok accepted
      cases hv.symm.trans hv'
      cases hd with
      | bit get' => simp [get] at get'
      | vec get' => simp [get] at get'
      | ext get' below =>
          cases Option.some.inj (get.symm.trans get')
          have hlow := ih hv below (Nat.lt_of_succ_lt_succ hfuel)
          have hfits : degree * v.width ≤ usizeMax := by
            have hmul := Nat.mul_le_mul le_max hwidth
            have hbound : u32Max * 64 ≤ usizeMax := by decide
            omega
          refine ⟨hfits, ?_⟩
          rw [valueBitWidthFrom, get]
          simp only [hlow.2, Option.bind_some]
          exact checkedMul_eq_some hfits

theorem Means.valueBitWidthFrom_eq {id : TypeId} {A : BitAlgebra} (h : Means table id A)
    (hfits : A.width ≤ usizeMax) {d : ℕ} (hd : Rank table d id) {fuel : ℕ} (hfuel : d < fuel) :
    valueBitWidthFrom table fuel id = some A.width := by
  induction h generalizing d fuel with
  | field type desc describes =>
      rw [(type.valueBitWidthFrom_eq desc hd hfuel).2, describes.width_eq]
      rfl
  | @vec n id elem A get _ fits ih =>
      obtain ⟨fuel, rfl⟩ : ∃ m, fuel = m + 1 := ⟨fuel - 1, by omega⟩
      cases hd with
      | bit get' => simp [get] at get'
      | ext get' => simp [get] at get'
      | vec get' below =>
          cases Option.some.inj (get.symm.trans get')
          have hlow := ih fits below (Nat.lt_of_succ_lt_succ hfuel)
          rw [valueBitWidthFrom, get]
          simp only [hlow, Option.bind_some]
          exact checkedMul_eq_some hfits

theorem Means.valueBitWidth_eq {id : TypeId} {A : BitAlgebra} (h : Means table id A)
    (hfits : A.width ≤ usizeMax) : table.valueBitWidth id = some A.width := by
  obtain ⟨d, hd⟩ := h.rank
  exact h.valueBitWidthFrom_eq hfits hd hd.lt_length

end

/-- The value of a factor in the ring of the product: an element, a gate, the constant term of
an extension, or the same element in every lane. -/
inductive FactorMeans (table : TypeTable) (id : TypeId) (A : BitAlgebra) : Factor Bool → A.R → Prop
  | own {ty : TypeId} {bits : List Bool} (same : table.sameType ty id = true)
      (len : bits.length = A.width) : FactorMeans table id A (ty, bits) (A.decode bits)
  | gate {ty : TypeId} {b : Bool} (bit : table.isBit ty = true) :
      FactorMeans table id A (ty, [b]) (if b then 1 else 0)
  | constant {ty wrapped : TypeId} {degree : ℕ} {irreducible : List U64} {bits : List Bool}
      (get : table.get id = some (.extField wrapped degree irreducible))
      (same : table.sameType ty wrapped = true) (len : degree * bits.length = A.width) :
      FactorMeans table id A (ty, bits)
        (A.decode (bits ++ List.replicate (A.width - bits.length) false))
  | broadcast {ty elem : TypeId} {n : ℕ} {bits : List Bool}
      (get : table.get id = some (.vec n elem)) (same : table.sameType ty elem = true)
      (len : n * bits.length = A.width) :
      FactorMeans table id A (ty, bits) (A.decode (List.replicate n bits).flatten)

section
variable {table : TypeTable}

theorem TypeTable.get_of_sameType {a b : TypeId} (h : table.sameType a b = true) :
    table.get a = table.get b := by
  rw [sameType, Bool.or_eq_true, Bool.and_eq_true, decide_eq_true_iff, decide_eq_true_iff] at h
  cases h with
  | inl heq => rw [heq]
  | inr h => exact h.2

theorem TypeTable.sameType_self (id : TypeId) : table.sameType id id = true := by simp [sameType]

theorem TypeTable.isBit_iff {id : TypeId} :
    table.isBit id = true ↔ table.get id = some (.primitive .bit) := decide_eq_true_iff

theorem Rank.sameType {d : ℕ} {a b : TypeId} (h : table.sameType a b = true)
    (hd : Rank table d b) : Rank table d a := by
  have hget := TypeTable.get_of_sameType h
  cases hd with
  | bit get => exact .bit (hget.trans get)
  | vec get below => exact .vec (hget.trans get) below
  | ext get below => exact .ext (hget.trans get) below

theorem not_sameType_below {d : ℕ} {id below ty : TypeId} (hid : Rank table (d + 1) id)
    (hd : Rank table d below) (h : table.sameType ty below = true) :
    table.sameType ty id = false := by
  rw [Bool.eq_false_iff]
  intro hty
  have heq := (hd.sameType h).unique (hid.sameType hty)
  exact absurd heq (Nat.ne_of_lt (Nat.lt_succ_self d))

theorem not_sameType_of_bit {ty id : TypeId} (hbit : table.isBit ty = true)
    (hid : table.get id ≠ some (.primitive .bit)) : table.sameType ty id = false := by
  rw [Bool.eq_false_iff]
  intro h
  exact hid ((TypeTable.get_of_sameType h).symm.trans (TypeTable.isBit_iff.mp hbit))

theorem foldl_gates {factors : List (Factor Bool)} {acc : Bool} :
    factors.foldl (fun acc factor => boolBits.and acc (factor.2.headD boolBits.zero)) acc =
      (acc && factors.all fun factor => factor.2.headD false) := by
  induction factors generalizing acc with
  | nil => simp
  | cons f factors ih =>
      rw [List.foldl_cons, ih, List.all_cons, ← Bool.and_assoc]
      rfl

/-- At `Bit` every factor is one bit. -/
theorem FactorMeans.of_bit {id : TypeId} (get : table.get id = some (.primitive .bit))
    {f : Factor Bool} {x : (BitAlgebra.ofField .gf2).R}
    (h : FactorMeans table id (.ofField .gf2) f x) : x = if f.2.headD false then 1 else 0 := by
  cases h with
  | own => rfl
  | gate => rfl
  | constant get' => simp [get] at get'
  | broadcast get' => simp [get] at get'

theorem bitProduct_spec {id : TypeId} (get : table.get id = some (.primitive .bit))
    {fs : List (Factor Bool × (BitAlgebra.ofField .gf2).R)}
    (hfs : ∀ f ∈ fs, FactorMeans table id (.ofField .gf2) f.1 f.2) :
    (BitAlgebra.ofField .gf2).decode (bitProduct boolBits (fs.map Prod.fst)) =
      (fs.map Prod.snd).prod := by
  have hall : (if (fs.map Prod.fst).all fun factor => factor.2.headD false then
      (1 : (BitAlgebra.ofField .gf2).R) else 0) = (fs.map Prod.snd).prod := by
    induction fs with
    | nil => rfl
    | cons f fs ih =>
        have hrest := ih fun g hg => hfs g (List.mem_cons_of_mem _ hg)
        have hhead := (hfs f (List.mem_cons_self ..)).of_bit get
        rw [List.map_cons, List.map_cons, List.all_cons, List.prod_cons, ← hrest, hhead]
        cases f.1.2.headD false with
        | true => rw [Bool.true_and, if_pos rfl, one_mul]
        | false => rw [Bool.false_and, if_neg Bool.false_ne_true, zero_mul]
  rw [← hall, bitProduct, foldl_gates]
  rfl

section
variable {id wrapped : TypeId} {degree d : ℕ} {irreducible : List U64} {v : WrappedDesc}
  {F : BitField} (get : table.get id = some (.extField wrapped degree irreducible))
  (hv : wrappedDesc table wrapped = some v) (hd : Rank table d wrapped)
  (hF : Describes (.field degree irreducible v (degree * v.width)) F)
include get hF

omit get hF in
theorem map_gate_spec {acc : List Bool} (hacc : acc.length = F.width) (b : Bool) :
    (acc.map fun bit => boolBits.and bit b).length = F.width ∧
      F.decode (acc.map fun bit => boolBits.and bit b) = F.decode acc * if b then 1 else 0 := by
  refine ⟨by rw [List.length_map, hacc], ?_⟩
  cases b with
  | true => simp [boolBits]
  | false =>
      have hzero : (acc.map fun bit => boolBits.and bit false) = F.zeroBits := by
        simp [boolBits, BitField.zeroBits, ← hacc, List.map_const']
      rw [hzero, F.decode_zeroBits]
      simp

include hv hd

/-- One factor multiplies what is there. -/
theorem extFactor_spec {acc : List Bool} (hacc : acc.length = F.width) {f : Factor Bool}
    {x : (BitAlgebra.ofField F).R} (hf : FactorMeans table id (.ofField F) f x) :
    ∃ next, extFactor boolBits table id ⟨degree, irreducible, v, degree * v.width⟩ acc f =
      some next ∧ next.length = F.width ∧
        (BitAlgebra.ofField F).decode next = (BitAlgebra.ofField F).decode acc * x := by
  have hnotbit : table.get id ≠ some (.primitive .bit) := by simp [get]
  have hgate := map_gate_spec hacc
  let field : FieldDesc := ⟨degree, irreducible, v, degree * v.width⟩
  have hfield : Describes field.wrap F := hF
  have hmul := fun bits hbits => fieldMulDesc_spec hfield (a := acc) (b := bits) hacc hbits
  cases hf with
  | @own ty bits same len =>
      have hbit : ¬ table.isBit ty = true := fun h =>
        absurd same (Bool.eq_false_iff.mp (not_sameType_of_bit h hnotbit))
      rw [extFactor, if_neg hbit, if_pos same]
      exact ⟨_, rfl, hmul bits len⟩
  | @gate ty b bit =>
      rw [extFactor, if_pos bit]
      exact ⟨_, rfl, hgate b⟩
  | @broadcast ty elem n bits get' => simp [get] at get'
  | @constant ty wrapped' degree' irreducible' bits get' same len =>
      cases Option.some.inj (get.symm.trans get')
      have hwidth : degree * v.width = F.width := hF.width_eq
      have hlen : bits.length = v.width := by
        have hpos : 0 < degree := Nat.pos_of_mul_pos_right (hwidth ▸ F.width_pos)
        exact Nat.eq_of_mul_eq_mul_left hpos (len.trans hwidth.symm)
      by_cases hbit : table.isBit ty = true
      · -- over `Bit` a constant is taken for a gate, which comes to the same
        have hwrapped : table.get wrapped = some (.primitive .bit) :=
          (TypeTable.get_of_sameType same).symm.trans (TypeTable.isBit_iff.mp hbit)
        have hv' : v = .bit := by
          rw [wrappedDesc, wrappedDescWith, hwrapped] at hv
          exact (Option.some.inj hv).symm
        obtain ⟨b, rfl⟩ : ∃ b, bits = [b] := by
          rw [hv'] at hlen
          exact List.length_eq_one_iff.mp hlen
        have hconst : F.decode ([b] ++ List.replicate (F.width - 1) false) =
            if b then 1 else 0 := by
          cases b with
          | true => exact F.decode_one
          | false =>
              have hzero : [false] ++ List.replicate (F.width - 1) false = F.zeroBits := by
                rw [List.singleton_append, ← List.replicate_succ, BitField.zeroBits,
                  Nat.sub_add_cancel F.width_pos]
              rw [hzero, F.decode_zeroBits]
              simp
        rw [extFactor, if_pos hbit]
        refine ⟨_, rfl, (hgate b).1, (hgate b).2.trans ?_⟩
        rw [← hconst]
        rfl
      · have hmatch : table.wrappedTypeMatches ty id = true := by
          rw [TypeTable.wrappedTypeMatches, get]
          exact same
        have htake : bits.take v.width = bits := List.take_of_length_le (Nat.le_of_eq hlen)
        have hfull : (bits ++ List.replicate (F.width - bits.length) false).length = F.width := by
          have hle : v.width ≤ F.width := hwidth ▸ Nat.le_mul_of_pos_left _
            (Nat.pos_of_mul_pos_right (hwidth ▸ F.width_pos))
          rw [List.length_append, List.length_replicate]
          omega
        rw [extFactor, if_neg hbit,
          if_neg (Bool.eq_false_iff.mp (not_sameType_below (.ext get hd) hd same)), if_pos hmatch]
        simp only [htake]
        rw [zeros, hwidth]
        exact ⟨_, rfl, hmul _ hfull⟩

theorem foldlM_extFactor_spec {fs : List (Factor Bool × (BitAlgebra.ofField F).R)}
    (hfs : ∀ f ∈ fs, FactorMeans table id (.ofField F) f.1 f.2) {acc : List Bool}
    (hacc : acc.length = F.width) :
    ∃ out, (fs.map Prod.fst).foldlM
        (extFactor boolBits table id ⟨degree, irreducible, v, degree * v.width⟩) acc = some out ∧
      out.length = F.width ∧ (BitAlgebra.ofField F).decode out =
        (BitAlgebra.ofField F).decode acc * (fs.map Prod.snd).prod := by
  induction fs generalizing acc with
  | nil => exact ⟨acc, rfl, hacc, (mul_one _).symm⟩
  | cons f fs ih =>
      obtain ⟨next, hnext, hlen, hdecode⟩ :=
        extFactor_spec get hv hd hF hacc (hfs f (List.mem_cons_self ..))
      obtain ⟨out, hout, hlen', hdecode'⟩ := ih (fun g hg => hfs g (List.mem_cons_of_mem _ hg)) hlen
      refine ⟨out, ?_, hlen', ?_⟩
      · rw [List.map_cons, List.foldlM_cons, hnext]
        exact hout
      · rw [hdecode', hdecode, List.map_cons, List.prod_cons, mul_assoc]

end

def laneFactor (table : TypeTable) (outTy elem : TypeId) (width k : ℕ) (f : Factor Bool) :
    Factor Bool :=
  if table.sameType f.1 outTy then (elem, BitAlgebra.lane width k f.2) else f

section
variable {id elem : TypeId} {n d : ℕ} {A : BitAlgebra} (get : table.get id = some (.vec n elem))
  (hd : Rank table d elem)
include get hd

theorem FactorMeans.lane {f : Factor Bool} {x : (A.vec n).R}
    (h : FactorMeans table id (A.vec n) f x) (k : Fin n) :
    FactorMeans table elem A (laneFactor table id elem A.width k f) (x k) := by
  have hnotbit : table.get id ≠ some (.primitive .bit) := by simp [get]
  cases h with
  | @own ty bits same len =>
      rw [laneFactor, if_pos same]
      exact .own (TypeTable.sameType_self elem) (BitAlgebra.length_lane k.2 len)
  | @gate ty b bit =>
      rw [laneFactor, if_neg (Bool.eq_false_iff.mp (not_sameType_of_bit bit hnotbit))]
      have hlane : ((if b then 1 else 0 : (A.vec n).R) : Fin n → A.R) k = if b then 1 else 0 := by
        cases b <;> rfl
      rw [hlane]
      exact .gate bit
  | constant get' => simp [get] at get'
  | @broadcast ty elem' n' bits get' same len =>
      cases Option.some.inj (get.symm.trans get')
      have hlen : bits.length = A.width := Nat.eq_of_mul_eq_mul_left k.pos len
      have hlane : (A.vec n).decode (List.replicate n bits).flatten k = A.decode bits := by
        have hall : ∀ b ∈ List.replicate n bits, b.length = A.width := fun b hb =>
          (List.eq_of_mem_replicate hb).symm ▸ hlen
        have hk := BitAlgebra.lane_flatten hall (k := k) (by simp)
        rw [List.getElem_replicate] at hk
        exact congrArg A.decode hk
      rw [laneFactor, if_neg (Bool.eq_false_iff.mp (not_sameType_below (.vec get hd) hd same)),
        hlane]
      exact .own same hlen

theorem FactorMeans.whole_or_broadcast {f : Factor Bool} {x : (A.vec n).R}
    (h : FactorMeans table id (A.vec n) f x) :
    (table.sameType f.1 id = true → f.2.length = n * A.width) ∧
      (table.sameType f.1 id || table.sameType f.1 elem || table.isBit f.1) = true := by
  have hnotbit : table.get id ≠ some (.primitive .bit) := by simp [get]
  cases h with
  | own same len => exact ⟨fun _ => len, by simp [same]⟩
  | gate bit =>
      have hnot := not_sameType_of_bit bit hnotbit
      exact ⟨fun h => absurd h (Bool.eq_false_iff.mp hnot), by simp [bit]⟩
  | constant get' => simp [get] at get'
  | broadcast get' same =>
      cases Option.some.inj (get.symm.trans get')
      have hnot := not_sameType_below (.vec get hd) hd same
      exact ⟨fun h => absurd h (Bool.eq_false_iff.mp hnot), by simp [same]⟩

omit get hd in
theorem prod_lane (fs : List (Factor Bool × (A.vec n).R)) (k : Fin n) :
    (fs.map fun f => f.2 k).prod = (fs.map Prod.snd).prod k := by
  induction fs with
  | nil => rfl
  | cons f fs ih =>
      rw [List.map_cons, List.prod_cons, ih]
      rfl

/-- The factors of a lane are those of the vector up to their order. -/
theorem laneFactors_spec {fs : List (Factor Bool × (A.vec n).R)}
    (hfs : ∀ f ∈ fs, FactorMeans table id (A.vec n) f.1 f.2) (k : Fin n) :
    ∃ gs : List (Factor Bool × A.R),
      laneFactors boolBits table id elem A.width k (fs.map Prod.fst) = some (gs.map Prod.fst) ∧
        (∀ g ∈ gs, FactorMeans table elem A g.1 g.2) ∧
        (gs.map Prod.snd).prod = (fs.map Prod.snd).prod k ∧
        (gs.map Prod.fst).Perm ((fs.map Prod.fst).map (laneFactor table id elem A.width k)) := by
  let own : Factor Bool × (A.vec n).R → Bool := fun f => table.sameType f.1.1 id
  let part : Factor Bool × (A.vec n).R → Factor Bool × A.R := fun f =>
    (laneFactor table id elem A.width k f.1, f.2 k)
  have hperm : ((fs.filter own).map part ++ (fs.filter fun f => !own f).map part).Perm
      (fs.map part) := by
    rw [← List.map_append]
    exact (List.filter_append_perm own fs).map part
  refine ⟨(fs.filter own).map part ++ (fs.filter fun f => !own f).map part, ?_, ?_, ?_, ?_⟩
  · have hall : ((fs.map Prod.fst).all fun factor => table.sameType factor.1 id ||
        table.sameType factor.1 elem || table.isBit factor.1) = true := by
      rw [List.all_map, List.all_eq_true]
      exact fun f hf => ((hfs f hf).whole_or_broadcast get hd).2
    rw [laneFactors, if_pos hall, List.filter_map, List.filter_map, List.map_map, List.map_append,
      List.map_map, List.map_map]
    congr 2
    · apply List.map_congr_left
      intro f hf
      have hown : table.sameType f.1.1 id = true := (List.mem_filter.mp hf).2
      have hlen := ((hfs f (List.mem_filter.mp hf).1).whole_or_broadcast get hd).1 hown
      have hfit : k * A.width + A.width ≤ f.1.2.length := by
        rw [hlen, ← Nat.succ_mul]
        exact Nat.mul_le_mul_right _ k.2
      simp only [Function.comp_apply, part, laneFactor, if_pos hown, sliceOrPad_eq hfit]
      rfl
    · apply List.map_congr_left
      intro f hf
      have hown : ¬ table.sameType f.1.1 id = true := by simpa [own] using (List.mem_filter.mp hf).2
      simp only [Function.comp_apply, part, laneFactor, if_neg hown]
  · intro g hg
    obtain ⟨f, hf, rfl⟩ := List.mem_map.mp (hperm.mem_iff.mp hg)
    exact (hfs f hf).lane get hd k
  · rw [(hperm.map Prod.snd).prod_eq, List.map_map]
    exact prod_lane fs k
  · have hfst := hperm.map Prod.fst
    rw [List.map_map] at hfst ⊢
    exact hfst

end

theorem mapM_eq_some {α β : Type} {f : α → Option β} {g : α → β} {l : List α}
    (h : ∀ a ∈ l, f a = some (g a)) : l.mapM f = some (l.map g) := by
  induction l with
  | nil => rfl
  | cons a l ih =>
      rw [List.mapM_cons, h a (List.mem_cons_self ..),
        ih fun b hb => h b (List.mem_cons_of_mem _ hb)]
      rfl

theorem identityBits_extField {id wrapped : TypeId} {degree : ℕ} {irreducible : List U64}
    {A : BitAlgebra} (get : table.get id = some (.extField wrapped degree irreducible))
    (hA : Means table id A) (hfits : A.width ≤ usizeMax) (hpos : 0 < A.width) :
    identityBits boolBits table id = some (true :: List.replicate (A.width - 1) false) := by
  obtain ⟨fuel, hfuel⟩ : ∃ m, table.types.length = m + 1 :=
    ⟨table.types.length - 1, (Nat.succ_pred (Nat.ne_of_gt (Nat.zero_lt_of_lt
      (List.getElem?_eq_some_iff.mp get).1))).symm⟩
  rw [identityBits, hfuel, identityBitsFrom, get]
  simp only [hA.valueBitWidth_eq hfits, Option.map_some, gt_iff_lt, hpos, if_true]
  rfl

theorem monomialProductFrom_means {id : TypeId} {A : BitAlgebra} (h : Means table id A) {d : ℕ}
    (hd : Rank table d id) {fuel : ℕ} (hfuel : d < fuel) {fs : List (Factor Bool × A.R)}
    (hfs : ∀ f ∈ fs, FactorMeans table id A f.1 f.2) :
    ∃ out, monomialProductFrom boolBits table fuel id (fs.map Prod.fst) = some out ∧
      out.length = A.width ∧ A.decode out = (fs.map Prod.snd).prod := by
  induction h generalizing d fuel with
  | @field id w F type desc describes =>
      obtain ⟨fuel, rfl⟩ : ∃ m, fuel = m + 1 := ⟨fuel - 1, by omega⟩
      have hmeans : Means table id (.ofField F) := .field type desc describes
      have hfits := (type.valueBitWidthFrom_eq desc hd (Nat.lt_succ_self d)).1
      rw [describes.width_eq] at hfits
      cases type with
      | bit get =>
          rw [wrappedDesc, wrappedDescWith, get] at desc
          cases desc
          cases describes
          rw [monomialProductFrom, get]
          exact ⟨_, rfl, rfl, bitProduct_spec get hfs⟩
      | @ext _ wrapped degree irreducible get le_max coeffs accepted =>
          obtain ⟨v, hv, hdesc, rfl⟩ := wrappedDesc_extField get desc
          obtain ⟨dw, hdw⟩ := coeffs.rank
          obtain ⟨out, hout, hlen, hdecode⟩ := foldlM_extFactor_spec get hv hdw describes hfs
            F.length_oneBits
          rw [monomialProductFrom, get]
          simp only [hdesc, identityBits_extField get hmeans hfits F.width_pos]
          refine ⟨out, hout, hlen, ?_⟩
          rw [hdecode]
          exact (congrArg (fun y :
              (BitAlgebra.ofField F).R => y * _) F.decode_oneBits).trans (one_mul _)
  | @vec n id elem A get hA fits ih =>
      obtain ⟨fuel, rfl⟩ : ∃ m, fuel = m + 1 := ⟨fuel - 1, by omega⟩
      cases hd with
      | bit get' => simp [get] at get'
      | ext get' => simp [get] at get'
      | @vec d _ _ _ get' below =>
          cases Option.some.inj (get.symm.trans get')
          have hlane : ∀ k : Fin n, ∃ bits, (laneFactors boolBits table id elem A.width k
                (fs.map Prod.fst)).bind (monomialProductFrom boolBits table fuel elem) =
                  some bits ∧ bits.length = A.width ∧
              A.decode bits = (fs.map Prod.snd).prod k := by
            intro k
            obtain ⟨gs, hgs, hmeans, hprod, -⟩ := laneFactors_spec get below hfs k
            obtain ⟨bits, hbits, hlen, hdecode⟩ := ih below (Nat.lt_of_succ_lt_succ hfuel) hmeans
            exact ⟨bits, by rw [hgs]; exact hbits, hlen, hdecode.trans hprod⟩
          choose bits hbits hlen hdecode using hlane
          let lanes := (List.range n).map fun k => if hk : k < n then bits ⟨k, hk⟩ else []
          have hall : ∀ b ∈ lanes, b.length = A.width := by
            intro b hb
            obtain ⟨k, hk, rfl⟩ := List.mem_map.mp hb
            rw [dif_pos (List.mem_range.mp hk)]
            exact hlen _
          have hlanes : lanes.length = n := by simp [lanes]
          refine ⟨lanes.flatten, ?_, ?_, ?_⟩
          · rw [monomialProductFrom, get]
            have hmap : (List.range n).mapM (fun lane => do
                monomialProductFrom boolBits table fuel elem
                  (← laneFactors boolBits table id elem A.width lane (fs.map Prod.fst))) =
                some lanes := by
              apply mapM_eq_some
              intro k hk
              rw [dif_pos (List.mem_range.mp hk)]
              exact hbits ⟨k, List.mem_range.mp hk⟩
            simp only [hA.valueBitWidth_eq fits, Option.bind_eq_bind, Option.bind_some] at hmap ⊢
            rw [hmap]
            rfl
          · rw [BitField.length_flatten hall, hlanes]
            rfl
          · funext k
            have hk := BitAlgebra.lane_flatten hall (k := k) (by rw [hlanes]; exact k.2)
            have hget : lanes[k] = bits k := by simp [lanes]
            exact (congrArg A.decode (hk.trans hget)).trans (hdecode k)

/-- `monomial_product` is the product of what its factors mean. -/
theorem monomialProduct_means {id : TypeId} {A : BitAlgebra} (h : Means table id A)
    {fs : List (Factor Bool × A.R)} (hfs : ∀ f ∈ fs, FactorMeans table id A f.1 f.2) :
    ∃ out, monomialProduct boolBits table id (fs.map Prod.fst) = some out ∧
      out.length = A.width ∧ A.decode out = (fs.map Prod.snd).prod := by
  obtain ⟨d, hd⟩ := h.rank
  exact monomialProductFrom_means h hd hd.lt_length hfs

end

end VolarIR
