import VolarIR.Vaffle.GateSound
import VolarIR.Library.Bits

/-!
# Emitting words

Several values emitted one after another, bit vectors merged into one value, and the
statements that act on all bits of a word at once.
-/
namespace VolarIR.Vaffle
open Common Lir Bits

namespace Table

theorem look_append {table : Table} {w : ℕ} (hw : w < table.length) (ext : Table) :
    Table.look (table ++ ext) w = table.look w := List.getD_append _ _ _ _ hw

theorem look_length (table : Table) (e : Entry) (ext : Table) :
    Table.look (table ++ e :: ext) table.length = e := by
  rw [look, List.getD_append_right _ _ _ _ le_rfl, Nat.sub_self]
  rfl

variable {table : Table} {ws : List ℕ} {bits : List Bool}

theorem holds_iff {w : ℕ} {b : Bool} :
    table.holdings.Holds w b ↔ w < table.length ∧ (table.look w).bits = [b] := by
  constructor
  · intro h
    exact ⟨by simpa using h.lt, by rw [← getD_holdings]; exact h.bits⟩
  · intro h
    exact ⟨by simpa using h.1, by rw [getD_holdings]; exact h.2⟩

theorem prefix_holdings (table ext : Table) : table.holdings <+: Table.holdings (table ++ ext) := by
  rw [holdings, holdings, List.map_append]
  exact List.prefix_append _ _

theorem holdsBits_append (h : table.holdings.HoldsBits ws bits) (ext : Table) :
    (Table.holdings (table ++ ext)).HoldsBits ws bits :=
  List.Forall₂.imp (fun _ _ hw => hw.mono (prefix_holdings table ext)) h

theorem flatMap_bits (h : table.holdings.HoldsBits ws bits) :
    (ws.flatMap fun v => (table.look v).bits) = bits := by
  induction h with
  | nil => rfl
  | cons hw _ ih => rw [List.flatMap_cons, ih, (holds_iff.mp hw).2, List.singleton_append]

end Table

theorem fit_self (bits : List Bool) : fit bits bits.length = bits := by
  apply List.ext_getElem
  · simp [fit]
  · intro i hi hi'
    simp [fit, List.getElem?_eq_getElem hi']

theorem holdsBits_new {α : Type} (table : Table) (xs : List α) (bit : α → Bool) :
    (Table.holdings (table ++ xs.map fun x => Entry.ofBits [bit x])).HoldsBits
      (List.range' table.length xs.length) (xs.map bit) := by
  induction xs generalizing table with
  | nil => exact .nil
  | cons x xs ih =>
      have hrest := ih (table ++ [Entry.ofBits [bit x]])
      rw [List.length_append, List.length_singleton] at hrest
      rw [List.map_cons, List.map_cons, List.length_cons, List.range'_succ]
      rw [List.append_assoc, List.singleton_append] at hrest
      apply List.Forall₂.cons _ hrest
      rw [Table.holds_iff, Table.look_length]
      exact ⟨by simp, rfl⟩

namespace HelperBuilder
variable {reading : OutputReading} {answer : ℕ → List (List Bool) → Option (List (List Bool))}
  {start : Table} {α : Type} {val : α → Value}

theorem mapM_emit (xs : List α) (b : HelperBuilder) :
    (xs.mapM fun x => emit (val x)) b =
      (List.range' b.values.length xs.length, ⟨b.values ++ xs.map val⟩) := by
  induction xs generalizing b with
  | nil =>
      rw [List.mapM_nil, List.map_nil, List.append_nil]
      rfl
  | cons x xs ih =>
      rw [List.mapM_cons]
      simp only [bind, StateT.bind, emit, ih]
      rw [List.length_append, List.length_singleton, List.length_cons, List.range'_succ,
        List.map_cons, List.append_assoc, List.singleton_append]
      rfl

theorem evaluated_emit {values : List Value} {table : Table}
    (h : Evaluated reading answer start values table) {l : List α}
    {f : α → Value} {e : α → Entry}
    (heval : ∀ x ∈ l, ∀ ext, evalValue reading answer (table ++ ext) (f x) = some (e x)) :
    Evaluated reading answer start (values ++ l.map f) (table ++ l.map e) := by
  induction l generalizing values table with
  | nil => simpa using h
  | cons x l ih =>
      have hx := heval x List.mem_cons_self []
      rw [List.append_nil] at hx
      have hrest := ih (h.emit hx) fun y hy ext => by
        rw [List.append_assoc]
        exact heval y (List.mem_cons_of_mem x hy) _
      rwa [List.append_assoc, List.append_assoc] at hrest

end HelperBuilder

namespace VaffleTarget
variable {reading : OutputReading} {answer : ℕ → List (List Bool) → Option (List (List Bool))}
  {start : Table} {t t' : VaffleTarget} {table : Table} {α : Type} {val : α → Value}

theorem Holding.initial (h : t.Assigns table) : Holding reading answer table t table := by
  refine ⟨⟨?_, ?_, ?_⟩, h⟩
  · rw [h.length, ← length_kinds, List.drop_length]
    rfl
  · rw [h.length, length_kinds]
  · rw [h.length, length_kinds]

theorem Holding.congr (h : Holding reading answer start t table) (hk : t'.kinds = t.kinds) :
    Holding reading answer start t' table := by
  refine ⟨hk ▸ h.evaluated, ?_, ?_⟩
  · rw [← length_kinds, hk, length_kinds, h.length]
  · intro id c ty hid
    have hkind : t.kind id = .const c ty := by rwa [kind_eq, ← hk, ← kind_eq]
    exact h.assigns.const hkind

theorem mapM_emitValue_fst (xs : List α) (t : VaffleTarget) :
    ((xs.mapM fun x => emitValue (val x)) t).1 = List.range' t.values.length xs.length := by
  induction xs generalizing t with
  | nil => rfl
  | cons x xs ih =>
      have hrest := ih (emitValue (val x) t).2
      have hlen : (emitValue (val x) t).2.values.length = t.values.length + 1 := by
        simp [emitValue]
      rw [hlen] at hrest
      rw [List.mapM_cons, List.length_cons, List.range'_succ, ← hrest]
      rfl

theorem Holding.mapM_emitValue (h : Holding reading answer start t table) {l : List α}
    {f : α → Value} {e : α → Entry}
    (heval : ∀ x ∈ l, ∀ ext, evalValue reading answer (table ++ ext) (f x) = some (e x))
    (hconst : ∀ x ∈ l, ∀ c ty, f x = .const c ty → (e x).bits.headD false = c.lo.getLsbD 0) :
    Holding reading answer start ((l.mapM fun x => emitValue (f x)) t).2
      (table ++ l.map e) := by
  induction l generalizing t table with
  | nil =>
      rw [List.map_nil, List.append_nil]
      exact h
  | cons x l ih =>
      have hx := heval x List.mem_cons_self []
      rw [List.append_nil] at hx
      have hrest := ih (h.emit hx (hconst x List.mem_cons_self))
        (fun y hy ext => by
          rw [List.append_assoc]
          exact heval y (List.mem_cons_of_mem x hy) _)
        fun y hy => hconst y (List.mem_cons_of_mem x hy)
      rw [List.append_assoc] at hrest
      rw [List.mapM_cons]
      exact hrest

theorem funcs_mapM_emitValue (xs : List α) (t : VaffleTarget) :
    ((xs.mapM fun x => emitValue (val x)) t).2.funcs = t.funcs := by
  induction xs generalizing t with
  | nil => rfl
  | cons x xs ih =>
      rw [List.mapM_cons]
      exact ih _

theorem kinds_setNodeSide (side : Option SideId) (ids : List ℕ) (t : VaffleTarget) :
    (ids.forM (setNodeSide side) t).2.kinds = t.kinds := by
  induction ids generalizing t with
  | nil => rfl
  | cons id ids ih =>
      refine (ih _).trans ?_
      show ((t.values.modify id _).map ArenaNode.kind) = t.values.map ArenaNode.kind
      apply List.ext_getElem?
      intro i
      rw [List.getElem?_map, List.getElem?_map, List.getElem?_modify]
      split <;> cases t.values[i]? <;> rfl

theorem composeAddress_eq {ws : List ℕ} (h : ws.length ≠ 1) :
    composeAddress ws = emitValue (.merge ws (.vec ws.length)) := by
  match ws, h with
  | [], _ => rfl
  | [w], h => exact absurd rfl h
  | _ :: _ :: _, _ => rfl

theorem evalValue_merge {ws : List ℕ} {bits : List Bool} (h : table.holdings.HoldsBits ws bits)
    (ty : BitsType) (hty : ty.width = bits.length) :
    evalValue reading answer table (.merge ws ty) = some (.ofBits bits) := by
  rw [evalValue, Table.flatMap_bits h, hty, fit_self]

theorem evalValue_shuffle {w i : ℕ} (hi : i < 256) :
    evalValue reading answer table (.shuffle [(BitVec.ofNat 8 i, w)] .bit) =
      some (.ofBits [(table.look w).bits.getD i false]) := by
  have hidx : (BitVec.ofNat 8 i).toNat = i := by
    rw [BitVec.toNat_ofNat]
    exact Nat.mod_eq_of_lt hi
  rw [evalValue, List.map_singleton, hidx]
  rfl

/-- The first bits of a value, taken out one by one. -/
theorem extractBits_fit (h : Holding reading answer start t table) {wide n : ℕ}
    (hw : wide < table.length) (hn : n ≤ 256) :
    ∃ table', Holding reading answer start (((List.range n).mapM (extractBit wide)) t).2 table' ∧
      table.holdings <+: table'.holdings ∧
      table'.holdings.HoldsBits (((List.range n).mapM (extractBit wide)) t).1
        (fit (table.look wide).bits n) := by
  have hrun := h.mapM_emitValue (l := List.range n)
    (f := fun i => .shuffle [(BitVec.ofNat 8 i, wide)] .bit)
    (e := fun i => .ofBits [(table.look wide).bits.getD i false])
    (by
      intro i hi ext
      rw [evalValue_shuffle ((List.mem_range.mp hi).trans_le hn), Table.look_append hw])
    (by intro i _ c ty hc; cases hc)
  refine ⟨_, hrun, Table.prefix_holdings _ _, ?_⟩
  show Holdings.HoldsBits _ (((List.range n).mapM fun i => emitValue _) t).1 _
  rw [mapM_emitValue_fst, ← h.length]
  exact holdsBits_new table (List.range n) fun i => (table.look wide).bits.getD i false

/-- The bits of a wide value, taken out one by one. -/
theorem extractBits_holds (h : Holding reading answer start t table) {wide n : ℕ}
    (hw : wide < table.length) (hn : n ≤ 256) {bits : List Bool} (hlen : bits.length = n)
    (hbits : (table.look wide).bits = bits) :
    ∃ table', Holding reading answer start (((List.range n).mapM (extractBit wide)) t).2 table' ∧
      table'.holdings.HoldsBits (((List.range n).mapM (extractBit wide)) t).1 bits := by
  obtain ⟨table', htable, -, hholds⟩ := extractBits_fit h hw hn
  rw [hbits, ← hlen, fit_self, hlen] at hholds
  exact ⟨table', htable, hholds⟩

theorem evalValue_wide (table : Table) (n : ℕ) (keys : List (List ℕ)) (constant : Constant) :
    evalValue reading answer table (.poly (.vec n) (monomials keys) constant) =
      some (.ofBits ((List.range n).map fun k => constant.bit k ^^
        keySum (fun v => (table.look v).bits.getD k false) keys.reverse)) := by
  have hpos : (List.range n).map (polyBit (monomials keys) constant table) =
      (List.range n).map fun k => constant.bit k ^^
        keySum (fun v => (table.look v).bits.getD k false) keys.reverse := by
    apply List.map_congr_left
    intro k _
    rw [polyBit_eq, iter_monomials, polySum_keyMap]
  rw [← hpos]
  rfl

namespace WideBinOp

def onBit : WideBinOp → Bool → Bool → Bool
  | and, a, b => a && b
  | or, a, b => a || b
  | xor, a, b => a ^^ b

theorem keySum_keys (op : WideBinOp) (on : ℕ → Bool) {lhs rhs : ℕ} (h : lhs ≠ rhs) :
    keySum on (op.keys lhs rhs).reverse = op.onBit (on lhs) (on rhs) := by
  have hpair (v : ℕ) : sortPair lhs rhs ≠ [v] := by
    intro heq
    have hlen := length_sortPair lhs rhs
    rw [heq] at hlen
    cases hlen
  cases op with
  | and => simp [keys, keySum, all_sortPair, onBit]
  | xor => simp [keys, keySum, onBit, Ne.symm h]
  | or =>
      simp [keys, keySum, onBit, hpair, Ne.symm h, all_sortPair]
      cases on lhs <;> cases on rhs <;> rfl

end WideBinOp

variable {lhs rhs : List ℕ} {l r : List Bool}

def wideBinop (lhs rhs : List ℕ) (op : WideBinOp) (n : ℕ) : StateM VaffleTarget (List ℕ) := do
  let lhs ← composeAddress lhs
  let rhs ← composeAddress rhs
  let wide ← emitValue (.poly (.vec n) (monomials (op.keys lhs rhs)) .zero)
  (List.range n).mapM (extractBit wide)

theorem wideBinop_holds (h : Holding reading answer start t table) {n : ℕ} (hn : 1 < n)
    (hn' : n ≤ 64) (hl : table.holdings.HoldsBits lhs l) (hr : table.holdings.HoldsBits rhs r)
    (hll : l.length = n) (hrl : r.length = n) (op : WideBinOp) :
    ∃ table', Holding reading answer start (wideBinop lhs rhs op n t).2 table' ∧
      table'.holdings.HoldsBits (wideBinop lhs rhs op n t).1
        ((List.range n).map fun k => op.onBit (l.getD k false) (r.getD k false)) := by
  have hlhs : lhs.length = n := (List.Forall₂.length_eq hl).trans hll
  have hrhs : rhs.length = n := (List.Forall₂.length_eq hr).trans hrl
  have h₁ := h.emit (evalValue_merge hl (.vec lhs.length) (by rw [hlhs, hll]; rfl))
    (by intro c ty hc; cases hc)
  have h₂ := h₁.emit
    (evalValue_merge (Table.holdsBits_append hr _) (.vec rhs.length) (by rw [hrhs, hrl]; rfl))
    (by intro c ty hc; cases hc)
  rw [List.append_assoc, List.singleton_append] at h₂
  have hlook : Table.look (table ++ [.ofBits l, .ofBits r]) table.length = .ofBits l :=
    Table.look_length table _ _
  have hlook' : Table.look (table ++ [.ofBits l, .ofBits r]) (table.length + 1) = .ofBits r := by
    have hsplit : table ++ [Entry.ofBits l, .ofBits r] = (table ++ [.ofBits l]) ++ [.ofBits r] := by
      simp
    have hlast := Table.look_length (table ++ [.ofBits l]) (.ofBits r) []
    rwa [List.length_append, List.length_singleton, ← hsplit] at hlast
  have h₃ := h₂.emit (evalValue_wide _ n (op.keys table.length (table.length + 1)) .zero)
    (by intro c ty hc; cases hc)
  have hbits : ((List.range n).map fun k => (Constant.zero.bit k ^^
      keySum (fun v => (Table.look (table ++ [.ofBits l, .ofBits r]) v).bits.getD k false)
        (op.keys table.length (table.length + 1)).reverse)) =
      (List.range n).map fun k => op.onBit (l.getD k false) (r.getD k false) := by
    apply List.map_congr_left
    intro k _
    have hzero : Constant.zero.bit k = false := by simp [Constant.bit, Constant.zero]
    rw [hzero, Bool.false_xor, op.keySum_keys _ (by omega), hlook, hlook']
    rfl
  rw [hbits] at h₃
  have hids : wideBinop lhs rhs op n t =
      ((List.range n).mapM (extractBit (table.length + 2)))
        (emitValue (.poly (.vec n) (monomials (op.keys table.length (table.length + 1))) .zero)
          (emitValue (.merge rhs (.vec rhs.length))
            (emitValue (.merge lhs (.vec lhs.length)) t).2).2).2 := by
    unfold wideBinop
    rw [composeAddress_eq (by omega), composeAddress_eq (by omega), h.length]
    simp [bind, StateT.bind, emitValue]
  rw [hids]
  apply extractBits_holds h₃
  · simp
  · omega
  · simp
  · have hlast := Table.look_length (table ++ [Entry.ofBits l, .ofBits r])
      (.ofBits ((List.range n).map fun k => op.onBit (l.getD k false) (r.getD k false))) []
    rw [List.length_append] at hlast
    exact congrArg Entry.bits hlast

def wideNot (ws : List ℕ) (n : ℕ) : StateM VaffleTarget (List ℕ) := do
  let wide ← composeAddress ws
  let wide ← emitValue (.poly (.vec n) (monomials [[wide]]) (allOnes n))
  (List.range n).mapM (extractBit wide)

theorem bit_allOnes {n k : ℕ} (hn : n ≤ 64) (hk : k < n) : (allOnes n).bit k = true := by
  have hlow : k < 128 := by omega
  have hpow : 2 ^ n - 1 < 2 ^ 128 := by
    have hle : 2 ^ n ≤ 2 ^ 64 := Nat.pow_le_pow_right (by decide) hn
    omega
  rw [allOnes, Constant.bit, if_pos hlow, lowConstant, ← BitVec.testBit_toNat, BitVec.toNat_ofNat,
    Nat.mod_eq_of_lt hpow, Nat.testBit_two_pow_sub_one]
  exact decide_eq_true hk

theorem wideNot_holds (h : Holding reading answer start t table) {n : ℕ} (hn : 1 < n)
    (hn' : n ≤ 64) (hl : table.holdings.HoldsBits lhs l) (hll : l.length = n) :
    ∃ table', Holding reading answer start (wideNot lhs n t).2 table' ∧
      table'.holdings.HoldsBits (wideNot lhs n t).1 ((List.range n).map fun k =>
        !l.getD k false) := by
  have hlhs : lhs.length = n := (List.Forall₂.length_eq hl).trans hll
  have h₁ := h.emit (evalValue_merge hl (.vec lhs.length) (by rw [hlhs, hll]; rfl))
    (by intro c ty hc; cases hc)
  have hlook : Table.look (table ++ [.ofBits l]) table.length = .ofBits l :=
    Table.look_length table _ _
  have h₂ := h₁.emit (evalValue_wide _ n [[table.length]] (allOnes n))
    (by intro c ty hc; cases hc)
  have hbits : ((List.range n).map fun k => ((allOnes n).bit k ^^
      keySum (fun v => (Table.look (table ++ [.ofBits l]) v).bits.getD k false)
        [[table.length]].reverse)) = (List.range n).map fun k => !l.getD k false := by
    apply List.map_congr_left
    intro k hk
    have hsum : keySum (fun v => (Table.look (table ++ [.ofBits l]) v).bits.getD k false)
        [[table.length]].reverse = l.getD k false := by
      simp only [List.reverse_singleton, keySum, List.not_mem_nil, if_false, Bool.false_xor,
        List.all_cons, List.all_nil, Bool.and_true, hlook]
      rfl
    rw [hsum, bit_allOnes hn' (List.mem_range.mp hk), Bool.true_xor]
  rw [hbits] at h₂
  have hids : wideNot lhs n t =
      ((List.range n).mapM (extractBit (table.length + 1)))
        (emitValue (.poly (.vec n) (monomials [[table.length]]) (allOnes n))
          (emitValue (.merge lhs (.vec lhs.length)) t).2).2 := by
    unfold wideNot
    rw [composeAddress_eq (by omega), h.length]
    simp [bind, StateT.bind, emitValue]
  rw [hids]
  apply extractBits_holds h₂
  · simp
  · omega
  · simp
  · have hlast := Table.look_length (table ++ [Entry.ofBits l])
      (.ofBits ((List.range n).map fun k => !l.getD k false)) []
    rw [List.length_append] at hlast
    exact congrArg Entry.bits hlast

end VaffleTarget
end VolarIR.Vaffle
