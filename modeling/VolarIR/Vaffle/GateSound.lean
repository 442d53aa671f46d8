import VolarIR.Lir.Arena
import VolarIR.Vaffle.Folding

/-!
# Gates of the two builders

The helper builder and the target as arenas: what their values evaluate to, and that every
gate computes its function, unless two of its monomials collapse.
-/
namespace VolarIR.Vaffle
open Common Lir

namespace Table

def holdings (table : Table) : Holdings := table.map Entry.bits

@[simp] theorem length_holdings (table : Table) : table.holdings.length = table.length :=
  List.length_map _

theorem getD_holdings (table : Table) (w : ℕ) : table.holdings.getD w [] = (table.look w).bits := by
  unfold holdings look
  rw [List.getD_eq_getElem?_getD, List.getD_eq_getElem?_getD, List.getElem?_map]
  cases table[w]? <;> rfl

theorem on_holdings (table : Table) :
    table.holdings.on = fun v => (table.look v).bits.getD 0 false := by
  funext v
  rw [Holdings.on, getD_holdings, List.headD_eq_head?_getD, List.head?_eq_getElem?,
    List.getD_eq_getElem?_getD]

theorem holdings_append (table : Table) (e : Entry) :
    (table ++ [e]).holdings = table.holdings ++ [e.bits] := by simp [holdings]

end Table

@[simp] theorem bit_boolConstant (b : Bool) : (boolConstant b).bit 0 = b := by
  cases b <;> rfl

@[simp] theorem bit_lowConstant (lo : BitVec 128) : (lowConstant lo).bit 0 = lo.getLsbD 0 := rfl

section
variable (reading : OutputReading) (answer : ℕ → List (List Bool) → Option (List (List Bool)))
  (start : Table)

structure Evaluated (values : List Value) (table : Table) : Prop where
  run : evalValues reading answer start (values.drop start.length) = some table
  length : table.length = values.length
  start_le : start.length ≤ values.length

variable {reading answer start} {values : List Value} {table : Table}

theorem Evaluated.emit (h : Evaluated reading answer start values table) {v : Value} {e : Entry}
    (hv : evalValue reading answer table v = some e) :
    Evaluated reading answer start (values ++ [v]) (table ++ [e]) := by
  have hstart := h.start_le
  have hlen := h.length
  constructor
  · rw [List.drop_append_of_le_length hstart, evalValues, List.foldlM_append]
    have hrun := h.run
    unfold evalValues at hrun
    rw [hrun]
    simp [hv]
  · rw [List.length_append, List.length_append, hlen]
    rfl
  · rw [List.length_append]
    omega

theorem evalValue_poly (table : Table) (coeffs : PolyCoeffs ℕ) (constant : Constant) :
    evalValue reading answer table (.poly .bit coeffs constant) =
      some (.ofBits [constant.bit 0 ^^ polySum table.holdings.on coeffs.iter]) := by
  rw [Table.on_holdings, ← polyBit_eq]
  rfl

theorem evalValue_const (table : Table) (b : Bool) :
    evalValue reading answer table (.const (boolConstant b) .bit) = some (.ofBits [b]) := by
  cases b <;> rfl

theorem holds_append (table : Table) (b : Bool) :
    (table ++ [Entry.ofBits [b]]).holdings.Holds table.length b := by
  constructor
  · simp
  · rw [Table.getD_holdings, Table.look, List.getD_eq_getElem?_getD, List.getElem?_concat_length]
    rfl

theorem prefix_append (table : Table) (e : Entry) :
    table.holdings <+: (table ++ [e]).holdings := by
  rw [Table.holdings_append]
  exact List.prefix_append _ _

end

namespace HelperBuilder
variable (reading : OutputReading) (answer : ℕ → List (List Bool) → Option (List (List Bool)))
  (start : Table)

def arena : Arena HelperBuilder where
  Tab b holds := ∃ table, Evaluated reading answer start b.values table ∧ table.holdings = holds
  Faulty on g := g.Collapses on

variable {reading answer start}

theorem emits {b : HelperBuilder} {table : Table}
    (h : Evaluated reading answer start b.values table) {val : Value} {bit : Bool}
    (hval : evalValue reading answer table val = some (.ofBits [bit])) :
    (arena reading answer start).Emits table.holdings (emit val b)
      fun holds w => holds.Holds w bit := by
  refine ⟨_, ⟨_, h.emit hval, rfl⟩, prefix_append _ _, ?_, ?_⟩
  · show b.values.length < _
    simp [h.length]
  · show Holdings.Holds _ b.values.length bit
    rw [← h.length]
    exact holds_append table bit

theorem bcPoly_emits {b : HelperBuilder} {table : Table}
    (h : Evaluated reading answer start b.values table) {keys : List (List ℕ)}
    (haligned : PolyKey.Aligned keys) (constant : BitVec 128) :
    (arena reading answer start).Emits table.holdings
      (bcPoly (.fromIter (keys.map fun key => (key, 1))) constant b)
      fun holds w => holds.Holds w
        (constant.getLsbD 0 ^^ keySum table.holdings.on keys.reverse) := by
  rw [← polySum_keyMap, ← iter_fromIter haligned]
  exact emits h (evalValue_poly table _ _)

theorem arena_sound : (arena reading answer start).Sound where
  unique := by
    rintro b _ _ ⟨table, h, rfl⟩ ⟨table', h', rfl⟩
    rw [Option.some.inj (h.run.symm.trans h'.run)]
  congr h heq := h.congr heq
  const := by
    rintro b _ ⟨table, h, rfl⟩ val
    exact emits h (evalValue_const table val)
  xor := by
    rintro b _ x y ⟨table, h, rfl⟩ - -
    have haligned : PolyKey.Aligned [[x], [y]] := aligned_of_length (n := 1) (by simp)
    apply (bcPoly_emits h haligned 0).mono
    intro holds w hw hgood u v hx hy
    have hsum := keySum_singles table.holdings.on hgood
    rw [hx.on_eq, hy.on_eq] at hsum
    have hbits : ((0 : BitVec 128).getLsbD 0 ^^ (u ^^ v)) = (u ^^ v) := by simp
    rw [← hbits, ← hsum]
    exact hw
  and := by
    rintro b _ x y ⟨table, h, rfl⟩ - -
    have haligned : PolyKey.Aligned [sortPair x y] := by
      apply aligned_of_length (n := 2)
      simp [length_sortPair]
    apply (bcPoly_emits h haligned 0).mono
    intro holds w hw u v hx hy
    have hsum : keySum table.holdings.on [sortPair x y] = (u && v) := by
      simp [keySum, all_sortPair, hx.on_eq, hy.on_eq]
    have hbits : ((0 : BitVec 128).getLsbD 0 ^^ (u && v)) = (u && v) := by simp
    rw [← hbits, ← hsum]
    exact hw
  not := by
    rintro b _ x ⟨table, h, rfl⟩ -
    have haligned : PolyKey.Aligned [[x]] := aligned_of_length (n := 1) (by simp)
    apply (bcPoly_emits h haligned 1).mono
    intro holds w hw u hx
    have hsum : keySum table.holdings.on [[x]] = u := by simp [keySum, hx.on_eq]
    have hbits : ((1 : BitVec 128).getLsbD 0 ^^ u) = !u := by simp
    rw [← hbits, ← hsum]
    exact hw
  carry3 := by
    rintro b _ x y z ⟨table, h, rfl⟩ - - -
    have haligned : PolyKey.Aligned [sortPair x y, sortPair x z, sortPair y z] := by
      apply aligned_of_length (n := 2)
      simp [length_sortPair]
    apply (bcPoly_emits h haligned 0).mono
    intro holds w hw hgood u v t hx hy hz
    have hsum := keySum_pairs table.holdings.on hgood
    rw [hx.on_eq, hy.on_eq, hz.on_eq] at hsum
    have hbits : ((0 : BitVec 128).getLsbD 0 ^^ ((u && v) ^^ ((u && t) ^^ (v && t)))) =
      ((u && v) ^^ ((u && t) ^^ (v && t))) := by simp
    rw [← hbits, ← hsum]
    exact hw

end HelperBuilder

namespace VaffleTarget
variable (reading : OutputReading) (answer : ℕ → List (List Bool) → Option (List (List Bool)))
  (start : Table)

structure Holding (t : VaffleTarget) (table : Table) : Prop where
  evaluated : Evaluated reading answer start t.kinds table
  assigns : t.Assigns table

/-- The sum of two equal wires is made zero; only a carry gate can be faulty. -/
def Faulty (on : ℕ → Bool) (g : Gate ℕ) : Prop := (∀ a b, g ≠ .xor a b) ∧ g.Collapses on

instance (on : ℕ → Bool) (g : Gate ℕ) : Decidable (Faulty on g) :=
  match g with
  | .xor a b => .isFalse fun h => h.1 a b rfl
  | .carry a b c => decidable_of_iff ((Gate.carry a b c).Collapses on) ⟨fun h =>
      ⟨nofun, h⟩, And.right⟩

def arena : Arena VaffleTarget where
  Tab t holds := ∃ table, Holding reading answer start t table ∧ table.holdings = holds
  Faulty := Faulty

variable {reading answer start} {t : VaffleTarget} {table : Table}

@[simp] theorem kinds_emitValue (val : Value) (t : VaffleTarget) :
    (emitValue val t).2.kinds = t.kinds ++ [val] := by simp [emitValue, kinds]

theorem kind_eq (t : VaffleTarget) (id : ℕ) : t.kind id = t.kinds.getD id .other := by
  rw [kind, kinds, List.getD_eq_getElem?_getD, List.getElem?_map]

@[simp] theorem length_kinds (t : VaffleTarget) : t.kinds.length = t.values.length :=
  List.length_map _

theorem Holding.length (h : Holding reading answer start t table) :
    table.length = t.values.length := h.assigns.length

theorem Assigns.emit (h : t.Assigns table) {val : Value} {e : Entry}
    (hconst : ∀ c ty, val = .const c ty → e.bits.headD false = c.lo.getLsbD 0) :
    (emitValue val t).2.Assigns (table ++ [e]) := by
  have hlen := h.length
  constructor
  · simp [emitValue, hlen]
  · intro id c ty hid
    rw [kind_eq, kinds_emitValue, List.getD_eq_getElem?_getD] at hid
    rw [Table.look, List.getD_eq_getElem?_getD]
    rcases lt_trichotomy id table.length with hlt | heq | hgt
    · rw [List.getElem?_append_left (by simpa [← hlen] using hlt)] at hid
      rw [List.getElem?_append_left hlt, ← List.getD_eq_getElem?_getD]
      have hkind : t.kind id = .const c ty := by
        rwa [kind_eq, List.getD_eq_getElem?_getD]
      exact h.const hkind
    · rw [heq, hlen, ← length_kinds, List.getElem?_concat_length] at hid
      rw [heq, List.getElem?_concat_length]
      exact hconst c ty hid
    · rw [List.getElem?_eq_none (by simp [← hlen]; omega)] at hid
      cases hid

theorem Holding.emit (h : Holding reading answer start t table) {val : Value} {e : Entry}
    (hval : evalValue reading answer table val = some e)
    (hconst : ∀ c ty, val = .const c ty → e.bits.headD false = c.lo.getLsbD 0) :
    Holding reading answer start (emitValue val t).2 (table ++ [e]) := by
  constructor
  · rw [kinds_emitValue]
    exact h.evaluated.emit hval
  · exact h.assigns.emit hconst

theorem Holding.knows (h : Holding reading answer start t table) :
    t.Knows table.holdings.on := by
  intro f b hf
  unfold constBit at hf
  split at hf
  case h_1 c ty hkind =>
    cases hf
    rw [Holdings.on, Table.getD_holdings]
    exact h.assigns.const hkind
  case h_2 => cases hf

theorem emits (h : Holding reading answer start t table) {val : Value} {bit : Bool}
    (hval : evalValue reading answer table val = some (.ofBits [bit]))
    (hconst : ∀ c ty, val = .const c ty → bit = c.lo.getLsbD 0) :
    (arena reading answer start).Emits table.holdings (emitValue val t)
      fun holds w => holds.Holds w bit := by
  refine ⟨_, ⟨_, h.emit hval hconst, rfl⟩, prefix_append _ _, ?_, ?_⟩
  · show t.values.length < _
    simp [h.length]
  · show Holdings.Holds _ t.values.length bit
    rw [← h.length]
    exact holds_append table bit

theorem emitConst_emits (h : Holding reading answer start t table) (b : Bool) :
    (arena reading answer start).Emits table.holdings (emitConst (boolConstant b) .bit t)
      fun holds w => holds.Holds w b := by
  apply emits h (evalValue_const table b)
  intro c ty hc
  cases hc
  cases b <;> rfl

theorem emits_self (h : Holding reading answer start t table) {v : ℕ} (hv : v < table.length)
    {Q : Holdings → ℕ → Prop} (hq : Q table.holdings v) :
    (arena reading answer start).Emits table.holdings (v, t) Q :=
  ⟨_, ⟨_, h, rfl⟩, List.prefix_refl _, by simpa using hv, hq⟩

theorem bcPoly_emits (h : Holding reading answer start t table) {l : List ℕ}
    (hwires : ∀ v ∈ l, v < table.length) (coeffs : PolyCoeffs ℕ) (constant : BitVec 128)
    (hover : Over (· ∈ l) coeffs.iter) :
    (arena reading answer start).Emits table.holdings (bcPoly coeffs constant t)
      fun holds w => (∀ v ∈ l, table.holdings.Single v) →
        holds.Holds w (constant.getLsbD 0 ^^ polySum table.holdings.on coeffs.iter) := by
  rcases bcPoly_cases h.knows coeffs constant hover with
    ⟨v, hv, hrun, hon⟩ | ⟨b, hrun, hb⟩ | ⟨out, b, hrun, -, hsum⟩
  · rw [hrun]
    apply emits_self h (hwires v hv)
    intro hsingle
    obtain ⟨b, hb⟩ := hsingle v hv
    rw [← hon, hb.on_eq]
    exact hb
  · rw [hrun, ← hb]
    exact (emitConst_emits h b).mono fun _ _ hw _ => hw
  · rw [hrun, ← hsum]
    have heval := @evalValue_poly reading answer table out (boolConstant b)
    rw [bit_boolConstant] at heval
    exact (emits h heval (fun _ _ hc => by cases hc)).mono fun _ _ hw _ => hw

/-- Inserted monomials, over the wires of their keys. -/
theorem monomials_emits (h : Holding reading answer start t table) {l : List ℕ}
    (hwires : ∀ v ∈ l, v < table.length) {keys : List (List ℕ)} (constant : BitVec 128)
    (hkeys : ∀ key ∈ keys, ∀ v ∈ key, v ∈ l) :
    (arena reading answer start).Emits table.holdings (bcPoly (monomials keys) constant t)
      fun holds w => (∀ v ∈ l, table.holdings.Single v) →
        holds.Holds w (constant.getLsbD 0 ^^ keySum table.holdings.on keys.reverse) := by
  rw [← polySum_keyMap, ← iter_monomials]
  apply bcPoly_emits h hwires
  rw [iter_monomials]
  intro e he v hv
  exact hkeys e.1 (mem_keyMap.mp (List.mem_map_of_mem he)) v hv

theorem arena_sound : (arena reading answer start).Sound where
  unique := by
    rintro t _ _ ⟨table, h, rfl⟩ ⟨table', h', rfl⟩
    rw [Option.some.inj (h.evaluated.run.symm.trans h'.evaluated.run)]
  congr h heq := ⟨h.1, h.2.congr heq⟩
  const := by
    rintro t _ ⟨table, h, rfl⟩ val
    exact emitConst_emits h val
  xor := by
    rintro t _ x y ⟨table, h, rfl⟩ hx hy
    rw [Table.length_holdings] at hx hy
    by_cases hxy : x = y
    · have hrun : bcXor x y t = emitConst (boolConstant false) .bit t := congrFun (if_pos hxy) t
      rw [hrun]
      apply (emitConst_emits h false).mono
      intro holds w hw _ u v hu hv
      have huv : u = v := by rw [← hu.on_eq, ← hv.on_eq, hxy]
      rw [huv, Bool.xor_self]
      exact hw
    · have hrun : bcXor x y t = bcPoly (monomials [[x], [y]]) 0 t := congrFun (if_neg hxy) t
      rw [hrun]
      apply (monomials_emits h (l := [x, y]) (by simp [hx, hy]) 0 (by simp)).mono
      intro holds w hw _ u v hu hv
      have hsum : keySum table.holdings.on [[y], [x]] = (u ^^ v) := by
        rw [keySum_singles table.holdings.on (fun hgood => hxy hgood.1), hu.on_eq, hv.on_eq]
      have hbits : ((0 : BitVec 128).getLsbD 0 ^^ (u ^^ v)) = (u ^^ v) := by simp
      rw [← hbits, ← hsum]
      exact hw (by simp [hu.single, hv.single])
  and := by
    rintro t _ x y ⟨table, h, rfl⟩ hx hy
    rw [Table.length_holdings] at hx hy
    by_cases hxy : x = y
    · have hrun : bcAnd x y t = (x, t) := congrFun (if_pos hxy) t
      rw [hrun]
      apply emits_self h hx
      intro u v hu hv
      have huv : u = v := by rw [← hu.on_eq, ← hv.on_eq, hxy]
      rw [← huv, Bool.and_self]
      exact hu
    · have hrun : bcAnd x y t = bcPoly (monomials [sortPair x y]) 0 t := congrFun (if_neg hxy) t
      rw [hrun]
      apply (monomials_emits h (l := [x, y]) (by simp [hx, hy]) 0 (by simp [mem_sortPair])).mono
      intro holds w hw u v hu hv
      have hsum : keySum table.holdings.on [sortPair x y] = (u && v) := by
        simp [keySum, all_sortPair, hu.on_eq, hv.on_eq]
      have hbits : ((0 : BitVec 128).getLsbD 0 ^^ (u && v)) = (u && v) := by simp
      rw [← hbits, ← hsum]
      exact hw (by simp [hu.single, hv.single])
  not := by
    rintro t _ x ⟨table, h, rfl⟩ hx
    rw [Table.length_holdings] at hx
    apply (monomials_emits h (l := [x]) (by simp [hx]) 1 (by simp)).mono
    intro holds w hw u hu
    have hsum : keySum table.holdings.on [[x]] = u := by simp [keySum, hu.on_eq]
    have hbits : ((1 : BitVec 128).getLsbD 0 ^^ u) = !u := by simp
    rw [← hbits, ← hsum]
    exact hw (by simp [hu.single])
  carry3 := by
    rintro t _ x y z ⟨table, h, rfl⟩ hx hy hz
    rw [Table.length_holdings] at hx hy hz
    apply (monomials_emits h (l := [x, y, z]) (by simp [hx, hy, hz]) 0
      (by simp [mem_sortPair])).mono
    intro holds w hw hgood u v s hu hv hs
    have hsum := keySum_pairs table.holdings.on fun hcollapse => hgood ⟨nofun, hcollapse⟩
    rw [hu.on_eq, hv.on_eq, hs.on_eq] at hsum
    have hbits : ((0 : BitVec 128).getLsbD 0 ^^ ((u && v) ^^ ((u && s) ^^ (v && s)))) =
      ((u && v) ^^ ((u && s) ^^ (v && s))) := by simp
    rw [← hbits, ← hsum]
    exact hw (by simp [hu.single, hv.single, hs.single])

end VaffleTarget
end VolarIR.Vaffle
