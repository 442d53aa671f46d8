import VolarIR.Ir.PolyValue
import VolarIR.Ir.Typing
import VolarIR.Opt.IrStoreForward

/-!
# Address disambiguation in executions

What the sweep gathers about a block prefix, compared with an execution of it. Constants and
polynomials are the values of their vars. The known bits are right when the coefficients of
every polynomial are read at each lane as they are counted.
-/
namespace VolarIR.Opt
open Ir

section
variable (table : TypeTable)

/-- Operands of the types a statement moves bits of. -/
def OperandsTyped (kinds : List VarKind) : IRStmt → Prop
  | .storageWrite _ src ty _ => kindAt kinds src = .data ty
  | .rol src ty _ | .ror src ty _ =>
      kindAt kinds src = .data ty ∧ (table.valueBitWidth ty).isSome = true
  | .merge parts ty => ∃ tys : List TypeId, parts.map (kindAt kinds) = tys.map VarKind.data ∧
      (tys.map table.bitWidth).sum ≤ table.bitWidth ty
  | .shuffle resultBits ty => resultBits.length ≤ table.bitWidth ty
  | _ => True

def storedKind : StoredStmt → VarKind
  | .poly ty .. => .data ty
  | .plain s => s.1.varKind

def StoredTyped (kinds : List VarKind) : StoredStmt → Prop
  | .poly ty coeffs _ => PolyType table ty ∧ ∀ e ∈ coeffs.iter, ∀ v ∈ e.1,
      ∃ fty, kindAt kinds v = .data fty ∧ FactorTyped table ty fty
  | .plain s => StmtTyped table kinds s.1 ∧ OperandsTyped table kinds s.1

def PrefixTyped (kinds : List VarKind) : List StoredStmt → Prop
  | [] => True
  | s :: rest => StoredTyped table kinds s ∧ PrefixTyped (kinds ++ [storedKind s]) rest

def CacheTyped (kinds : List VarKind) (cache : IrStoreCache) : Prop :=
  ∀ e ∈ cache, kindAt kinds e.2 = .data e.1.2.1

def Masked (ty : TypeId) (c : Constant) : Prop :=
  table.mulIsIdempotent ty = true → maskConstant c (table.bitWidth ty) = c

/-- The known bits of a polynomial over bits read each coefficient as it is counted; a
polynomial over a field is a constant. -/
def Readable : StoredStmt → Prop
  | .poly ty coeffs c => Masked table ty c ∧
      if table.mulIsIdempotent ty = true then
        ∀ e ∈ coeffs.iter, Legible ((table.valueBitWidth ty).getD 0) e.2
      else table.containsPrimeField ty = false ∧ coeffs.iter = []
  | .plain ⟨.const c ty, _⟩ => Masked table ty c
  | _ => True

end

section
variable {table : TypeTable} {kinds : List VarKind} {aliases : AliasMap} {idem : ℕ → Bool}

theorem mem_aliasKey {key : List ℕ} {v : ℕ} (h : v ∈ aliasKey aliases idem key) :
    ∃ u ∈ key, canonAlias aliases u = v := by
  have hfold : ∀ (tagged : List (ℕ × Bool)) (acc : List ℕ),
      v ∈ tagged.foldl (fun newKey e =>
        if e.2 && newKey.getLast? = some e.1 then newKey else newKey ++ [e.1]) acc →
      v ∈ acc ∨ v ∈ tagged.map Prod.fst := by
    intro tagged
    induction tagged with
    | nil => exact fun acc h => .inl h
    | cons e rest ih =>
        intro acc h
        rw [List.foldl_cons] at h
        rw [List.map_cons, List.mem_cons]
        rcases ih _ h with hacc | hrest
        · split at hacc
          · exact .inl hacc
          · rcases List.mem_append.mp hacc with hacc | hlast
            · exact .inl hacc
            · exact .inr (.inl (List.mem_singleton.mp hlast))
        · exact .inr (.inr hrest)
  rcases hfold _ _ h with hnil | hmem
  · cases hnil
  · rw [(((SortByKey.perm_sortByKey _).map Prod.fst).mem_iff), List.map_map] at hmem
    exact List.mem_map.mp hmem

theorem forall_aliasCoeffs {coeffs : Common.PolyCoeffs ℕ} {Q : U8 → Prop}
    (hadd : ∀ c d, Q c → Q d → Q (c ^^^ d)) (h : ∀ e ∈ coeffs.iter, Q e.2) :
    ∀ e ∈ (aliasCoeffs aliases idem coeffs).iter,
      (∀ v ∈ e.1, ∃ d ∈ coeffs.iter, ∃ u ∈ d.1, canonAlias aliases u = v) ∧ Q e.2 := by
  intro e he
  rw [aliasCoeffs, iter_retainOdd] at he
  apply forall_xorMonomials (K := fun key => ∀ v ∈ key, ∃ d ∈ coeffs.iter, ∃ u ∈ d.1,
    canonAlias aliases u = v) hadd _ _ e (List.mem_of_mem_filter he)
  · intro t ht
    obtain ⟨d, hd, rfl⟩ := List.mem_map.mp ht
    have hmem : d ∈ coeffs.iter := List.mem_of_mem_filter hd
    exact ⟨fun v hv => ⟨d, hmem, mem_aliasKey hv⟩, h d hmem⟩
  · intro t ht
    cases ht

/-- A polynomial becomes one over canonical forms of its factors, with sums of its coefficients,
and any other statement reads the canonical forms of its operands. -/
theorem applyAliasesIrStmt_cases (aliases : AliasMap) (idem : ℕ → Bool) (s : StoredStmt) :
    (∃ ty coeffs coeffs' c, s = .poly ty coeffs c ∧
      (applyAliasesIrStmt aliases idem s).1 = .poly ty coeffs' c ∧
      ∀ Q : U8 → Prop, (∀ c d, Q c → Q d → Q (c ^^^ d)) → (∀ e ∈ coeffs.iter, Q e.2) →
        ∀ e ∈ coeffs'.iter,
          (∀ v ∈ e.1, ∃ d ∈ coeffs.iter, ∃ u ∈ d.1, canonAlias aliases u = v) ∧ Q e.2) ∨
    ∃ p : PlainStmt, s = .plain p ∧
      (applyAliasesIrStmt aliases idem s).1 =
          (StoredStmt.plain p).mapVars (canonAlias aliases) := by
  by_cases hempty : aliases.isEmpty = true
  · have hsame : (applyAliasesIrStmt aliases idem s).1 = s := by
      unfold applyAliasesIrStmt
      rw [if_pos hempty]
    obtain rfl := List.isEmpty_iff.mp hempty
    cases s with
    | poly ty coeffs c =>
        exact .inl ⟨ty, coeffs, coeffs, c, rfl, hsame, fun Q _ hQ e he =>
          ⟨fun v hv => ⟨e, he, v, hv, canonAlias_nil v⟩, hQ e he⟩⟩
    | plain p =>
        refine .inr ⟨p, rfl, hsame.trans ?_⟩
        exact congrArg StoredStmt.plain
          (Subtype.ext (IRStmt.mapVars_eq_self fun v _ => canonAlias_nil v).symm)
  · cases s with
    | poly ty coeffs c =>
        exact .inl ⟨ty, coeffs, _, c, rfl, by rw [applyAliasesIrStmt, if_neg hempty],
          fun Q hadd hQ => forall_aliasCoeffs hadd hQ⟩
    | plain p => exact .inr ⟨p, rfl, by rw [applyAliasesIrStmt, if_neg hempty]⟩

theorem readable_aliased {s : StoredStmt} (h : Readable table s) :
    Readable table (applyAliasesIrStmt aliases idem s).1 := by
  rcases applyAliasesIrStmt_cases aliases idem s with
    ⟨ty, coeffs, coeffs', c, rfl, ht, hmem⟩ | ⟨p, rfl, ht⟩
  · rw [ht]
    obtain ⟨hmasked, hread⟩ := h
    refine ⟨hmasked, ?_⟩
    split_ifs with hidem
    · rw [if_pos hidem] at hread
      exact fun e he => (hmem _ (fun _ _ => Legible.xor) hread e he).2
    · rw [if_neg hidem] at hread
      refine ⟨hread.1, List.eq_nil_iff_forall_not_mem.mpr fun e he => ?_⟩
      refine (hmem (fun _ => False) (fun _ _ hc _ => hc) ?_ e he).2
      rw [hread.2]
      exact fun d hd => absurd hd List.not_mem_nil
  · rw [ht]
    obtain ⟨s, hs⟩ := p
    cases s with
    | const c ty => exact h
    | _ => trivial

variable (hkept : ∀ v, kindAt kinds (canonAlias aliases v) = kindAt kinds v)
include hkept

theorem storedTyped_aliased {s : StoredStmt} (h : StoredTyped table kinds s) :
    StoredTyped table kinds (applyAliasesIrStmt aliases idem s).1 ∧
      storedKind (applyAliasesIrStmt aliases idem s).1 = storedKind s := by
  have hmap : ∀ vs : List ℕ, (vs.map (canonAlias aliases)).map (kindAt kinds) =
      vs.map (kindAt kinds) := by
    intro vs
    rw [List.map_map]
    exact List.map_congr_left fun v _ => hkept v
  rcases applyAliasesIrStmt_cases aliases idem s with
    ⟨ty, coeffs, coeffs', c, rfl, ht, hmem⟩ | ⟨p, rfl, ht⟩
  · rw [ht]
    refine ⟨⟨h.1, ?_⟩, rfl⟩
    intro e he v hv
    obtain ⟨d, hd, u, hu, rfl⟩ :=
      (hmem (fun _ => True) (fun _ _ _ _ => trivial) (fun _ _ => trivial) e he).1 v hv
    rw [hkept u]
    exact h.2 d hd u hu
  · rw [ht]
    refine ⟨?_, IRStmt.varKind_mapVars _ _⟩
    obtain ⟨htyped, hops⟩ := h
    obtain ⟨s, hs⟩ := p
    cases s with
    | poly ty coeffs c => cases hs
    | oracleOutput call idx ty | actionOutput call idx ty =>
        refine ⟨?_, trivial⟩
        simpa [IRStmt.mapVars, StmtTyped, hkept] using htyped
    | actionCall name guard args fallbacks outputTys resultTy =>
        refine ⟨?_, trivial⟩
        simp only [IRStmt.mapVars, StmtTyped, hmap]
        exact htyped
    | storageWrite storage src ty addr => exact ⟨trivial, (hkept src).trans hops⟩
    | rol src ty n | ror src ty n => exact ⟨trivial, (hkept src).trans hops.1, hops.2⟩
    | merge parts ty =>
        refine ⟨trivial, ?_⟩
        simp only [IRStmt.mapVars, OperandsTyped, hmap]
        exact hops
    | shuffle resultBits ty =>
        refine ⟨trivial, ?_⟩
        simpa [IRStmt.mapVars, OperandsTyped] using hops
    | _ => exact ⟨trivial, trivial⟩

end

def IrForwardState.kb (st : IrForwardState) (v : ℕ) : KnownBits :=
  (st.knownBitsMap.lookup v).getD .nothing

def IrForwardState.KnownRight (st : IrForwardState) (vals : List Value) : Prop :=
  ∀ v, (st.kb v).Holds (Ssa.look vals v).bits

/-- Vars of one bit-vector type that are taken to differ have different values. -/
def IrForwardState.KeepsApart (st : IrForwardState) (table : TypeTable) (kinds : List VarKind)
    (vals : List Value) : Prop :=
  ∀ a b ty, table.mulIsIdempotent ty = true → kindAt kinds a = .data ty →
    kindAt kinds b = .data ty → st.provablyDifferent a b = true →
      (Ssa.look vals a).bits ≠ (Ssa.look vals b).bits

/-- What the maps say of the vars of a frame. -/
structure Gathered (table : TypeTable) (kinds : List VarKind) (f : Ssa.Frame Value EvalState)
    (st : IrForwardState) : Prop where
  fits : FrameFits table kinds f
  aliased : ∀ v w, st.aliasMap.lookup v = some w →
    ∃ ty, kindAt kinds v = .data ty ∧ kindAt kinds w = .data ty
  cache : CacheTyped kinds st.cache
  fresh : ∀ v, kinds.length ≤ v → st.knownBitsMap.lookup v = none
  width : ∀ v w, st.widthMap.lookup v = some w → v < kinds.length ∧
    ∀ ty, kindAt kinds v = .data ty → w ≠ 0 → w = table.bitWidth ty
  const : ∀ v c, st.constMap.lookup v = some c → ∃ ty, kindAt kinds v = .data ty ∧
    Masked table ty c ∧ (Ssa.look f.vals v).bits = constBits c (table.bitWidth ty)
  poly : ∀ v p, st.addrPolyMap.lookup v = some p → ∃ ty, kindAt kinds v = .data ty ∧
    Masked table ty p.2 ∧ (∀ e ∈ p.1.iter, ∀ u ∈ e.1, u < v) ∧
    evalTerms table ty p.2 (storedTerms p.1 (Ssa.look f.vals)) = some (Ssa.look f.vals v).bits

def IrForwardState.rewritten (st : IrForwardState) (table : TypeTable)
    (s : StoredStmt) : StoredStmt :=
  (applyAliasesIrStmt st.aliasMap (st.idempotent table) s).1

section
variable {table : TypeTable} {st : IrForwardState} {rv : ℕ} {s : StoredStmt}

theorem forward_maps (st : IrForwardState) (rv : ℕ) (s : StoredStmt) :
    (st.forward rv s).constMap = st.constMap ∧ (st.forward rv s).addrPolyMap = st.addrPolyMap ∧
      (st.forward rv s).knownBitsMap = st.knownBitsMap ∧
      (st.forward rv s).widthMap = st.widthMap := by
  cases s with
  | poly ty coeffs c => exact ⟨rfl, rfl, rfl, rfl⟩
  | plain s =>
      obtain ⟨s, hs⟩ := s
      cases s with
      | storageRead storage ty addr =>
          rw [IrForwardState.forward]
          split <;> exact ⟨rfl, rfl, rfl, rfl⟩
      | _ => exact ⟨rfl, rfl, rfl, rfl⟩

@[simp] theorem forwardIrStmt_fst : (forwardIrStmt table st rv s).1 = st.rewritten table s := rfl

theorem forwardIrStmt_maps (table : TypeTable) (st : IrForwardState) (rv : ℕ) (s : StoredStmt) :
    (forwardIrStmt table st rv s).2.constMap =
        (st.gather table rv (st.rewritten table s)).constMap ∧
      (forwardIrStmt table st rv s).2.addrPolyMap =
        (st.gather table rv (st.rewritten table s)).addrPolyMap ∧
      (forwardIrStmt table st rv s).2.knownBitsMap =
        (st.gather table rv (st.rewritten table s)).knownBitsMap ∧
      (forwardIrStmt table st rv s).2.widthMap =
        (st.gather table rv (st.rewritten table s)).widthMap := forward_maps _ rv _

theorem lookup_gather_const {t : StoredStmt} {v : ℕ} {c : Constant}
    (h : (st.gather table rv t).constMap.lookup v = some c) :
    v = rv ∧ (∃ ty hplain, t = .plain ⟨.const c ty, hplain⟩) ∨ st.constMap.lookup v = some c := by
  cases t with
  | poly ty coeffs d => exact .inr h
  | plain p =>
      obtain ⟨s, hs⟩ := p
      cases s with
      | const d ty =>
          rcases lookup_cons_cases h with ⟨rfl, rfl⟩ | ⟨-, h⟩
          · exact .inl ⟨rfl, ty, hs, rfl⟩
          · exact .inr h
      | _ => exact .inr h

theorem lookup_gather_poly {t : StoredStmt} {v : ℕ} {p : IrPolyRepr}
    (h : (st.gather table rv t).addrPolyMap.lookup v = some p) :
    v = rv ∧ (∃ ty, t = .poly ty p.1 p.2) ∨ st.addrPolyMap.lookup v = some p := by
  cases t with
  | poly ty coeffs c =>
      rcases lookup_cons_cases h with ⟨rfl, rfl⟩ | ⟨-, h⟩
      · exact .inl ⟨rfl, ty, rfl⟩
      · exact .inr h
  | plain p => exact .inr h

theorem lookup_gather_width {t : StoredStmt} {v w : ℕ}
    (h : (st.gather table rv t).widthMap.lookup v = some w) :
    v = rv ∧ (irStmtKnownBits table st.knownBitsMap st.widthMap t).2 = some w ∨
      st.widthMap.lookup v = some w := by
  unfold IrForwardState.gather at h
  dsimp only at h
  split at h
  · next w' hw =>
      rcases lookup_cons_cases h with ⟨rfl, rfl⟩ | ⟨-, h⟩
      · exact .inl ⟨rfl, hw⟩
      · exact .inr h
  · exact .inr h

theorem kb_forwardIrStmt (v : ℕ) : (forwardIrStmt table st rv s).2.kb v =
    if v = rv then (irStmtKnownBits table st.knownBitsMap st.widthMap (st.rewritten table s)).1
    else st.kb v := by
  have hmap : (forwardIrStmt table st rv s).2.knownBitsMap =
      (st.gather table rv (st.rewritten table s)).knownBitsMap :=
        (forwardIrStmt_maps table st rv s).2.2.1
  unfold IrForwardState.kb
  rw [hmap]
  split_ifs with hv
  · subst hv
    simp [IrForwardState.gather]
  · exact congrArg (·.getD KnownBits.nothing) (lookup_cons_of_ne hv _ _)

theorem exists_forward (table : TypeTable) (st : IrForwardState) (rv : ℕ) (s : StoredStmt) :
    ∃ m : IrForwardState, m.aliasMap = st.aliasMap ∧ m.cache = st.cache ∧
      (forwardIrStmt table st rv s).2 = m.forward rv (st.rewritten table s) :=
  ⟨IrForwardState.gather table { st with
    changed := st.changed || (applyAliasesIrStmt st.aliasMap (st.idempotent table) s).2 } rv
      (st.rewritten table s), rfl, rfl, rfl⟩

theorem lookup_forwardIrStmt_aliasMap {v w : ℕ}
    (h : (forwardIrStmt table st rv s).2.aliasMap.lookup v = some w) :
    st.aliasMap.lookup v = some w ∨ v = rv ∧ ∃ storage ty addr addr' hplain,
      st.rewritten table s = .plain ⟨.storageRead storage ty addr, hplain⟩ ∧
        ((storage, ty, addr'), w) ∈ st.cache := by
  obtain ⟨m, haliases, hcache, hm⟩ := exists_forward table st rv s
  rw [hm] at h
  cases ht : st.rewritten table s with
  | poly ty coeffs c =>
      rw [ht] at h
      exact .inl (haliases ▸ h)
  | plain p =>
      rw [ht] at h
      obtain ⟨t, hplain⟩ := p
      cases t with
      | storageRead storage ty addr =>
          rw [IrForwardState.forward] at h
          split at h
          · next src hsrc =>
              rcases lookup_cons_cases h with ⟨rfl, rfl⟩ | ⟨-, h⟩
              · obtain ⟨before, after, hsplit, -⟩ := List.lookup_eq_some_iff.mp hsrc
                refine .inr ⟨rfl, storage, ty, addr, canonAlias m.aliasMap addr, hplain, rfl, ?_⟩
                rw [← hcache, hsplit]
                exact List.mem_append_right _ List.mem_cons_self
              · exact .inl (haliases ▸ h)
          · exact .inl (haliases ▸ h)
      | _ => exact .inl (haliases ▸ h)

theorem mem_forwardIrStmt_cache {e : IrStoreKey × ℕ}
    (h : e ∈ (forwardIrStmt table st rv s).2.cache) :
    e ∈ st.cache ∨ ∃ storage src ty addr hplain,
      st.rewritten table s = .plain ⟨.storageWrite storage src ty addr, hplain⟩ ∧
        e.1.2.1 = ty ∧ e.2 = canonAlias st.aliasMap src := by
  obtain ⟨m, haliases, hcache, hm⟩ := exists_forward table st rv s
  rw [hm] at h
  cases ht : st.rewritten table s with
  | poly ty coeffs c =>
      rw [ht] at h
      exact .inl (hcache ▸ h)
  | plain p =>
      rw [ht] at h
      obtain ⟨t, hplain⟩ := p
      cases t with
      | storageWrite storage src ty addr =>
          rcases List.mem_cons.mp h with rfl | h
          · exact .inr ⟨storage, src, ty, addr, hplain, rfl, rfl, by rw [haliases]⟩
          · have hretained := List.mem_of_mem_filter h
            unfold IrForwardState.retained at hretained
            rw [hcache] at hretained
            split_ifs at hretained
            · exact .inl (List.mem_of_mem_filter hretained)
            · exact .inl (List.mem_of_mem_filter hretained)
      | storageRead storage ty addr =>
          rw [IrForwardState.forward] at h
          split at h
          · exact .inl (hcache ▸ h)
          · exact .inl (hcache ▸ h)
      | _ => exact .inl (hcache ▸ h)

end

section
variable {table : TypeTable} {kinds : List VarKind} {f : Ssa.Frame Value EvalState}
  {st : IrForwardState} {s t : StoredStmt}

theorem exists_polyValue (h : FrameFits table kinds f) {ty : TypeId}
    {coeffs : Common.PolyCoeffs ℕ} {c : Constant}
    (hs : StoredTyped table kinds (.poly ty coeffs c)) :
    ∃ bits, evalTerms table ty c (storedTerms coeffs (Ssa.look f.vals)) = some bits ∧
      bits.length = table.bitWidth ty :=
  evalTerms_isSome hs.1 c (h.factors hs.2)

theorem fits_storedStep (h : FrameFits table kinds f) (world : Externals)
    (hs : StoredTyped table kinds s) :
    FrameFits table (kinds ++ [storedKind s]) ((storedLanguage table world).step f s) := by
  cases s with
  | poly ty coeffs c =>
      obtain ⟨bits, hbits, hlen⟩ := exists_polyValue h hs
      refine h.push ⟨rfl, ?_⟩ h.storage
      simp only [storedLanguage, StoredStmt.eval, hbits]
      exact hlen
  | plain p => exact h.step world hs.1

theorem valueBitWidth_getD_le (ty : TypeId) :
    (table.valueBitWidth ty).getD 0 ≤ table.bitWidth ty := by
  cases h : table.valueBitWidth ty with
  | none => exact Nat.zero_le _
  | some w => exact (bitWidth_eq_of_valueBitWidth h).ge

theorem eq_bitWidth_of_valueBitWidth_getD {ty : TypeId} {w : ℕ}
    (h : (table.valueBitWidth ty).getD 0 = w) (hw : w ≠ 0) : w = table.bitWidth ty := by
  cases hty : table.valueBitWidth ty with
  | none =>
      rw [hty] at h
      exact absurd h.symm hw
  | some n =>
      rw [hty] at h
      rw [bitWidth_eq_of_valueBitWidth hty]
      exact h.symm

theorem width_of_irStmtKnownBits {knownBitsMap : List (ℕ × KnownBits)} {widthMap : List (ℕ × ℕ)}
    {w : ℕ} {ty : TypeId} (h : (irStmtKnownBits table knownBitsMap widthMap t).2 = some w)
    (hw : w ≠ 0) (hkind : storedKind t = .data ty) : w = table.bitWidth ty := by
  have hother : ∀ {ty'}, ty' = ty → (if ((some ty').bind table.valueBitWidth).getD 0 > 0
      then some (((some ty').bind table.valueBitWidth).getD 0) else none) = some w →
      w = table.bitWidth ty := by
    rintro ty' rfl h
    split_ifs at h
    exact eq_bitWidth_of_valueBitWidth_getD (Option.some.inj h) hw
  cases t with
  | poly ty' coeffs c =>
      obtain rfl := VarKind.data.inj hkind
      exact eq_bitWidth_of_valueBitWidth_getD (Option.some.inj h) hw
  | plain p =>
      obtain ⟨t, hplain⟩ := p
      cases t with
      | poly => cases hplain
      | oracleCall | actionCall | actionStore | storageWrite => cases hkind
      | const c ty' | transmute src srcTy ty' | merge parts ty' | rol src ty' n | ror src ty' n
      | splat src ty' | shuffle resultBits ty' =>
          obtain rfl := VarKind.data.inj hkind
          exact eq_bitWidth_of_valueBitWidth_getD (Option.some.inj h) hw
      | storageRead storage ty' addr | oracleOutput call idx ty' | actionOutput call idx ty'
      | rng name ty' => exact hother (VarKind.data.inj hkind) h

theorem getD_valueBitWidth_of_isSome {ty : TypeId} (h : (table.valueBitWidth ty).isSome = true) :
    (table.valueBitWidth ty).getD 0 = table.bitWidth ty := by
  obtain ⟨w, hw⟩ := Option.isSome_iff_exists.mp h
  rw [hw, bitWidth_eq_of_valueBitWidth hw]
  rfl

theorem Gathered.rotated_length (h : Gathered table kinds f st) {src : ℕ} {ty : TypeId}
    (hsrc : kindAt kinds src = .data ty ∧ (table.valueBitWidth ty).isSome = true) :
    (Ssa.look f.vals src).bits.length = table.bitWidth ty := by
  have hkind := h.fits.var src (lt_of_kindAt_data hsrc.1)
  rw [hsrc.1] at hkind
  exact hkind.2

/-- The parts of a `Merge` as wide as they are recorded. -/
theorem Gathered.parts_width (h : Gathered table kinds f st) {parts : List ℕ} {tys : List TypeId}
    (htys : parts.map (kindAt kinds) = tys.map VarKind.data) :
    (∀ p ∈ parts, (st.widthMap.lookup p).getD 0 ≠ 0 →
        (st.widthMap.lookup p).getD 0 = (Ssa.look f.vals p).bits.length) ∧
      (flatBits (parts.map (Ssa.look f.vals))).length = (tys.map table.bitWidth).sum := by
  induction parts generalizing tys with
  | nil =>
      obtain rfl := List.map_eq_nil_iff.mp htys.symm
      exact ⟨nofun, rfl⟩
  | cons p rest ih =>
      cases tys with
      | nil => cases htys
      | cons ty tys =>
          rw [List.map_cons, List.map_cons, List.cons.injEq] at htys
          have hkind := h.fits.var p (lt_of_kindAt_data htys.1)
          rw [htys.1] at hkind
          have hrest := ih htys.2
          constructor
          · rw [List.forall_mem_cons]
            refine ⟨?_, hrest.1⟩
            intro hw
            cases hlookup : st.widthMap.lookup p with
            | none =>
                rw [hlookup] at hw
                exact absurd rfl hw
            | some w =>
                rw [hlookup] at hw
                rw [hkind.2]
                exact (h.width p w hlookup).2 ty htys.1 hw
          · rw [List.map_cons, flatBits, List.flatMap_cons, List.length_append, List.map_cons,
              List.sum_cons, hkind.2]
            exact congrArg (table.bitWidth ty + ·) hrest.2

theorem evalTerms_of_idempotent {ty : TypeId} (hidem : table.mulIsIdempotent ty = true)
    (c : Constant) (terms : List ValueTerm) :
    evalTerms table ty c terms = some (evalBitPoly c (table.bitWidth ty) terms) := by
  apply evalTerms_bits _ hidem
  by_contra hprime
  rw [mulIsIdempotent_of_prime (Bool.not_eq_false _ ▸ hprime)] at hidem
  cases hidem

theorem IrForwardState.KnownRight.lane (hright : st.KnownRight f.vals) {v b : ℕ} {y : Bool}
    (h : (st.kb v).get b = some y) : (Ssa.look f.vals v).lane b = y := by
  have hbit := hright v b y h
  rw [Value.lane_eq (List.getElem?_eq_some_iff.mp hbit).1, List.getD_eq_getElem?_getD, hbit]
  rfl

theorem evalTerms_nil {ty : TypeId} (hprime : table.containsPrimeField ty = false) (c : Constant) :
    evalTerms table ty c [] = some (constBits c (table.bitWidth ty)) := by
  by_cases hidem : table.mulIsIdempotent ty = true
  · rw [evalTerms_bits hprime hidem]
    simp [evalBitPoly, constBits]
  · rw [evalTerms_ring hprime (Bool.eq_false_iff.mpr hidem)]
    rfl

theorem holds_polyKnownBits (hright : st.KnownRight f.vals) {ty : TypeId}
    {coeffs : Common.PolyCoeffs ℕ} {c : Constant} (hread : Readable table (.poly ty coeffs c)) :
    (polyKnownBits st.kb ((table.valueBitWidth ty).getD 0) coeffs c).Holds
      ((evalTerms table ty c (storedTerms coeffs (Ssa.look f.vals))).getD []) := by
  intro b x hx
  rw [get_polyKnownBits] at hx
  split_ifs at hx with hb
  have hlt : b < table.bitWidth ty := Nat.lt_of_lt_of_le (by omega) (valueBitWidth_getD_le ty)
  have hlane : ∀ e ∈ coeffs.iter, ∀ v ∈ e.1, ∀ y, (st.kb v).get b = some y →
      (fun v => (Ssa.look f.vals v).lane b) v = y := fun e _ v _ y hy => hright.lane hy
  have hsum := eq_of_polyKnownBit hlane hx
  obtain ⟨-, hread⟩ := hread
  split_ifs at hread with hidem
  · have hcounted : laneSum (·.getLsbD b) (fun v => (Ssa.look f.vals v).lane b) coeffs.iter =
        laneSum odd (fun v => (Ssa.look f.vals v).lane b) coeffs.iter :=
      laneSum_congr fun e he => hread e he b hb
    rw [hsum, hcounted, evalTerms_of_idempotent hidem, Option.getD_some, getElem?_evalBitPoly hlt]
  · have hterms : storedTerms coeffs (Ssa.look f.vals) = [] := by
      rw [storedTerms, hread.2, List.map_nil]
    rw [hread.2, laneSum_nil, Bool.xor_false] at hsum
    rw [hsum, hterms, evalTerms_nil hread.1, Option.getD_some, constBits, List.getElem?_map,
      List.getElem?_range hlt, Option.map_some]

theorem holds_irStmtKnownBits (world : Externals) (h : Gathered table kinds f st)
    (hright : st.KnownRight f.vals) (htyped : StoredTyped table kinds t)
    (hread : Readable table t) :
    (irStmtKnownBits table st.knownBitsMap st.widthMap t).1.Holds
      (t.eval table world f.st (Ssa.look f.vals)).1.bits := by
  cases t with
  | poly ty coeffs c => exact holds_polyKnownBits hright hread
  | plain p =>
      obtain ⟨t, hplain⟩ := p
      have hops := htyped.2
      cases t with
      | poly ty coeffs c => cases hplain
      | const c ty => exact KnownBits.holds_fromConst c (valueBitWidth_getD_le ty)
      | transmute src srcTy dstTy => exact (hright src).mask (valueBitWidth_getD_le dstTy)
      | splat src ty => exact (hright src).splat (valueBitWidth_getD_le ty)
      | rol src ty n =>
          rw [StoredStmt.eval, evalStmt, evalKind, ← h.rotated_length hops]
          simp only [irStmtKnownBits, getD_valueBitWidth_of_isSome hops.2, ← h.rotated_length hops]
          exact (hright src).rol n
      | ror src ty n =>
          rw [StoredStmt.eval, evalStmt, evalKind, ← h.rotated_length hops]
          simp only [irStmtKnownBits, getD_valueBitWidth_of_isSome hops.2, ← h.rotated_length hops]
          exact (hright src).ror n
      | merge parts ty =>
          obtain ⟨tys, htys, hsum⟩ := hops
          have hparts := h.parts_width htys
          have hmerge : (mergeKnownBits st.kb (fun v => (st.widthMap.lookup v).getD 0)
              ((table.valueBitWidth ty).getD 0) 0 .nothing parts).Holds
                ([] ++ parts.flatMap fun p => (Ssa.look f.vals p).bits) :=
            (KnownBits.holds_nothing []).merge _ (by simp [KnownBits.nothing])
              (fun p _ => hright p) hparts.1
          have hflat : (parts.flatMap fun p => (Ssa.look f.vals p).bits) =
              flatBits (parts.map (Ssa.look f.vals)) := by
            rw [flatBits, List.flatMap_map]
          rw [List.nil_append, hflat] at hmerge
          exact hmerge.fit (hparts.2.trans_le hsum)
      | shuffle resultBits ty =>
          have hbits : (KnownBits.ofBits (resultBits.map fun e => (st.kb e.2).get e.1.toNat)).Holds
              (resultBits.map fun e => (Ssa.look f.vals e.2).bits.getD e.1.toNat false) := by
            apply KnownBits.holds_ofBits
            intro k b hb
            rw [List.getElem?_map, Option.map_eq_some_iff] at hb ⊢
            obtain ⟨e, he, hget⟩ := hb
            have hknown := KnownBits.get_eq_some.mp hget
            exact ⟨e, he, ((hright e.2).getD hknown.1).trans hknown.2⟩
          exact hbits.fit ((List.length_map _).trans_le hops)
      | _ => exact KnownBits.holds_nothing _

theorem Gathered.kindAt_canon (h : Gathered table kinds f st) (v : ℕ) :
    kindAt kinds (canonAlias st.aliasMap v) = kindAt kinds v := by
  apply canonAlias_rel (R := fun v w => kindAt kinds w = kindAt kinds v) (fun _ => rfl)
    (fun _ _ _ h₁ h₂ => h₂.trans h₁)
  intro v w hw
  obtain ⟨ty, hv, hw⟩ := h.aliased v w hw
  rw [hv, hw]

theorem kindAt_data_append {v : ℕ} {ty : TypeId} (h : kindAt kinds v = .data ty)
    (more : List VarKind) : kindAt (kinds ++ more) v = .data ty :=
  (kindAt_append_left (lt_of_kindAt_data h)).trans h

end

section
variable {table : TypeTable} {kinds : List VarKind} {f : Ssa.Frame Value EvalState}
  {st : IrForwardState} {s : StoredStmt}

theorem Gathered.step (h : Gathered table kinds f st) (world : Externals)
    (hs : StoredTyped table kinds s) (hread : Readable table s) :
    Gathered table (kinds ++ [storedKind s])
      ((storedLanguage table world).step f (st.rewritten table s))
      (forwardIrStmt table st kinds.length s).2 := by
  obtain ⟨htyped, hkind⟩ : StoredTyped table kinds (st.rewritten table s) ∧
      storedKind (st.rewritten table s) = storedKind s := storedTyped_aliased h.kindAt_canon hs
  have hread' : Readable table (st.rewritten table s) := readable_aliased hread
  have hlen : f.vals.length = kinds.length := h.fits.length
  have hlast : kindAt (kinds ++ [storedKind s]) kinds.length =
      storedKind (st.rewritten table s) := by
    rw [kindAt_append_length, hkind]
  have hlook : ∀ {v ty}, kindAt kinds v = .data ty →
      Ssa.look ((storedLanguage table world).step f (st.rewritten table s)).vals v =
        Ssa.look f.vals v := fun hv =>
    Ssa.Language.step_look _ (hlen ▸ lt_of_kindAt_data hv)
  have hnew : Ssa.look ((storedLanguage table world).step f (st.rewritten table s)).vals
      kinds.length =
      ((st.rewritten table s).eval table world f.st (Ssa.look f.vals)).1 := by
    rw [← hlen]
    exact Ssa.look_append_length _ _
  have hmaps := forwardIrStmt_maps table st kinds.length s
  constructor
  case fits =>
    have hfits := fits_storedStep h.fits world htyped
    rwa [hkind] at hfits
  case aliased =>
    intro v w hw
    rcases lookup_forwardIrStmt_aliasMap hw with hw | ⟨rfl, storage, ty, addr, addr',
        hplain, ht, hmem⟩
    · obtain ⟨ty, hv, hw⟩ := h.aliased v w hw
      exact ⟨ty, kindAt_data_append hv _, kindAt_data_append hw _⟩
    · refine ⟨ty, ?_, kindAt_data_append (h.cache _ hmem) _⟩
      rw [hlast, ht]
      rfl
  case cache =>
    intro e he
    rcases mem_forwardIrStmt_cache he with he | ⟨storage, src, ty, addr, hplain, ht, hty, hsrc⟩
    · exact kindAt_data_append (h.cache e he) _
    · rw [ht] at htyped
      rw [hsrc, hty]
      exact kindAt_data_append ((h.kindAt_canon src).trans htyped.2) _
  case fresh =>
    intro v hv
    rw [List.length_append, List.length_singleton] at hv
    rw [hmaps.2.2.1]
    exact (lookup_cons_of_ne (by omega) _ _).trans (h.fresh v (by omega))
  case width =>
    intro v w hw
    rw [hmaps.2.2.2] at hw
    rw [List.length_append, List.length_singleton]
    rcases lookup_gather_width hw with ⟨rfl, hown⟩ | hold
    · refine ⟨Nat.lt_succ_self _, ?_⟩
      intro ty hty hne
      exact width_of_irStmtKnownBits hown hne (hlast ▸ hty)
    · obtain ⟨hv, hwidth⟩ := h.width v w hold
      refine ⟨Nat.lt_succ_of_lt hv, ?_⟩
      intro ty hty
      rw [kindAt_append_left hv] at hty
      exact hwidth ty hty
  case const =>
    intro v c hc
    rw [hmaps.1] at hc
    rcases lookup_gather_const hc with ⟨rfl, ty, hplain, ht⟩ | hc
    · rw [ht] at hread'
      refine ⟨ty, ?_, hread', ?_⟩
      · rw [hlast, ht]
        rfl
      · rw [hnew, ht]
        rfl
    · obtain ⟨ty, hv, hmasked, hbits⟩ := h.const v c hc
      exact ⟨ty, kindAt_data_append hv _, hmasked, by rw [hlook hv, hbits]⟩
  case poly =>
    have hterms : ∀ {coeffs : Common.PolyCoeffs ℕ},
        (∀ e ∈ coeffs.iter, ∀ u ∈ e.1, u < kinds.length) →
        storedTerms coeffs
            (Ssa.look ((storedLanguage table world).step f (st.rewritten table s)).vals) =
          storedTerms coeffs (Ssa.look f.vals) := by
      intro coeffs hvars
      apply List.map_congr_left
      intro e he
      rw [List.map_congr_left fun u hu => Ssa.Language.step_look _ (hlen ▸ hvars e he u hu)]
    intro v p hp
    rw [hmaps.2.1] at hp
    rcases lookup_gather_poly hp with ⟨rfl, ty, ht⟩ | hp
    · rw [ht] at htyped hread'
      have hvars : ∀ e ∈ p.1.iter, ∀ u ∈ e.1, u < kinds.length := by
        intro e he u hu
        obtain ⟨fty, hfty, -⟩ := htyped.2 e he u hu
        exact lt_of_kindAt_data hfty
      obtain ⟨bits, hbits, -⟩ := exists_polyValue h.fits htyped
      refine ⟨ty, ?_, hread'.1, hvars, ?_⟩
      · rw [hlast, ht]
        rfl
      · rw [hterms hvars, hnew, ht, hbits]
        simp only [StoredStmt.eval, hbits, Option.getD_some]
    · obtain ⟨ty, hv, hmasked, hvars, hbits⟩ := h.poly v p hp
      have hlt : v < kinds.length := lt_of_kindAt_data hv
      refine ⟨ty, kindAt_data_append hv _, hmasked, hvars, ?_⟩
      rw [hterms fun e he u hu => (hvars e he u hu).trans hlt, hlook hv, hbits]

theorem knownRight_step (h : Gathered table kinds f st) (hright : st.KnownRight f.vals)
    (world : Externals) (hs : StoredTyped table kinds s) (hread : Readable table s) :
    (forwardIrStmt table st kinds.length s).2.KnownRight
      ((storedLanguage table world).step f (st.rewritten table s)).vals := by
  have htyped : StoredTyped table kinds (st.rewritten table s) :=
    (storedTyped_aliased h.kindAt_canon hs).1
  have hlen : f.vals.length = kinds.length := h.fits.length
  intro v
  rw [kb_forwardIrStmt]
  rcases lt_trichotomy v kinds.length with hv | rfl | hv
  · rw [if_neg (Nat.ne_of_lt hv), Ssa.Language.step_look _ (hlen ▸ hv)]
    exact hright v
  · have hnew : Ssa.look ((storedLanguage table world).step f (st.rewritten table s)).vals
        kinds.length = ((st.rewritten table s).eval table world f.st (Ssa.look f.vals)).1 := by
      rw [← hlen]
      exact Ssa.look_append_length _ _
    rw [if_pos rfl, hnew]
    exact holds_irStmtKnownBits world h hright htyped (readable_aliased hread)
  · have hnone : st.kb v = .nothing := by
      rw [IrForwardState.kb, h.fresh v (Nat.le_of_lt hv)]
      rfl
    rw [if_neg (Nat.ne_of_gt hv), hnone]
    exact KnownBits.holds_nothing _

end

section
variable {table : TypeTable} {kinds : List VarKind} {f : Ssa.Frame Value EvalState}
  {st : IrForwardState} {stmts : List StoredStmt}

theorem forwardIrStmtsFrom_cons (st : IrForwardState) (rv : ℕ) (s : StoredStmt)
    (rest : List StoredStmt) :
    forwardIrStmtsFrom table st rv (s :: rest) =
      (st.rewritten table s ::
          (forwardIrStmtsFrom table (forwardIrStmt table st rv s).2 (rv + 1) rest).1,
        (forwardIrStmtsFrom table (forwardIrStmt table st rv s).2 (rv + 1) rest).2) := rfl

/-- What the maps say after a prefix is true, and what is known then is right. -/
theorem Gathered.run (h : Gathered table kinds f st) (hright : st.KnownRight f.vals)
    (world : Externals) (hs : PrefixTyped table kinds stmts)
    (hread : ∀ s ∈ stmts, Readable table s) :
    Gathered table (kinds ++ stmts.map storedKind)
        ((storedLanguage table world).run f (forwardIrStmtsFrom table st kinds.length stmts).1)
        (forwardIrStmtsFrom table st kinds.length stmts).2 ∧
      (forwardIrStmtsFrom table st kinds.length stmts).2.KnownRight
        ((storedLanguage table world).run f
          (forwardIrStmtsFrom table st kinds.length stmts).1).vals := by
  induction stmts generalizing kinds f st with
  | nil => exact ⟨by simpa [forwardIrStmtsFrom] using h, hright⟩
  | cons s rest ih =>
      rw [List.forall_mem_cons] at hread
      have hrest := ih (h.step world hs.1 hread.1) (knownRight_step h hright world hs.1 hread.1)
        hs.2 hread.2
      rw [List.length_append, List.length_singleton] at hrest
      rw [List.map_cons, List.append_cons, forwardIrStmtsFrom_cons, Ssa.Language.run_cons]
      exact hrest

theorem iter_insert_new (v : ℕ) (c : U8) :
    (Common.PolyCoeffs.new.insert [v] c).2.iter = [([v], c)] := rfl

/-- A var of a bit-vector type is the sum that the maps hold for it. -/
theorem Gathered.getD_eq (h : Gathered table kinds f st) {v k : ℕ} {ty : TypeId}
    (hidem : table.mulIsIdempotent ty = true) (hv : kindAt kinds v = .data ty)
    (hk : k < table.bitWidth ty) :
    (Ssa.look f.vals v).bits.getD k false =
      ((irAddrPoly st.constMap st.addrPolyMap v).2.bit k ^^
        laneSum odd (fun u => (Ssa.look f.vals u).lane k)
          (irAddrPoly st.constMap st.addrPolyMap v).1.iter) := by
  unfold irAddrPoly
  cases hconst : st.constMap.lookup v with
  | some c =>
      obtain ⟨ty', hv', -, hbits⟩ := h.const v c hconst
      obtain rfl := VarKind.data.inj (hv.symm.trans hv')
      rw [hbits, List.getD_eq_getElem?_getD, constBits, List.getElem?_map,
        List.getElem?_range hk]
      simp [Common.PolyCoeffs.new, Common.PolyCoeffs.iter]
  | none =>
      cases hpoly : st.addrPolyMap.lookup v with
      | some p =>
          obtain ⟨ty', hv', -, -, hbits⟩ := h.poly v p hpoly
          obtain rfl := VarKind.data.inj (hv.symm.trans hv')
          rw [evalTerms_of_idempotent hidem, Option.some.injEq] at hbits
          rw [← hbits, List.getD_eq_getElem?_getD, getElem?_evalBitPoly hk]
          rfl
      | none =>
          have hkind := h.fits.var v (lt_of_kindAt_data hv)
          rw [hv] at hkind
          rw [← Value.lane_eq (hkind.2.symm ▸ hk), iter_insert_new]
          simp [odd]

theorem Gathered.masked (h : Gathered table kinds f st) {v : ℕ} {ty : TypeId}
    (hv : kindAt kinds v = .data ty) :
    Masked table ty (irAddrPoly st.constMap st.addrPolyMap v).2 := by
  unfold irAddrPoly
  cases hconst : st.constMap.lookup v with
  | some c =>
      obtain ⟨ty', hv', hmasked, -⟩ := h.const v c hconst
      obtain rfl := VarKind.data.inj (hv.symm.trans hv')
      exact hmasked
  | none =>
      cases hpoly : st.addrPolyMap.lookup v with
      | some p =>
          obtain ⟨ty', hv', hmasked, -⟩ := h.poly v p hpoly
          obtain rfl := VarKind.data.inj (hv.symm.trans hv')
          exact hmasked
      | none =>
          exact fun _ => maskConstant_zero _

theorem Gathered.ne_of_xorNonzeroConst (h : Gathered table kinds f st) {a b : ℕ} {ty : TypeId}
    (hidem : table.mulIsIdempotent ty = true) (ha : kindAt kinds a = .data ty)
    (hb : kindAt kinds b = .data ty)
    (hxor : irPolysXorNonzeroConst st.constMap st.addrPolyMap a b = true) :
    (Ssa.look f.vals a).bits ≠ (Ssa.look f.vals b).bits := by
  intro heq
  have hzero := (irPolysXorNonzeroConst_iff.mp hxor).2
  rw [← Bool.not_eq_true, constantIsZero_iff] at hzero
  apply hzero
  intro k
  rw [bit_constantXor, ← h.masked ha hidem, ← h.masked hb hidem, bit_maskConstant,
    bit_maskConstant]
  by_cases hk : k < table.bitWidth ty
  · have hsame : (Ssa.look f.vals a).bits.getD k false = (Ssa.look f.vals b).bits.getD k false := by
      rw [heq]
    rw [h.getD_eq hidem ha hk, h.getD_eq hidem hb hk, laneSum_eq_of_xorNonzeroConst hxor] at hsame
    rw [Bool.xor_left_inj.mp hsame, Bool.xor_self]
  · rw [decide_eq_false hk, Bool.false_and, Bool.false_and, Bool.xor_self]

theorem Gathered.keepsApart (h : Gathered table kinds f st) (hright : st.KnownRight f.vals) :
    st.KeepsApart table kinds f.vals := by
  intro a b ty hidem ha hb hdiff
  rw [IrForwardState.provablyDifferent, irAddrsProvablyDifferent] at hdiff
  split_ifs at hdiff with hab hxor
  · exact h.ne_of_xorNonzeroConst hidem ha hb hxor
  · exact (hright a).ne (hright b) hdiff

end

/-- The sweep gets through the prefix, and in the execution from these arguments every known
bit is the value's and addresses that are taken to differ hold different values. The prefix
executes as the sweep leaves it. -/
def Disambiguates (table : TypeTable) (world : Externals) (params : List TypeId)
    (incoming : IrStoreCache) (stmts : List StoredStmt) (args : List (List Bool)) (σ : EvalState) :
    Prop :=
  ∃ swept st, forwardIrStmts table params incoming stmts = some (swept, st) ∧
    let f := (storedLanguage table world).run ⟨paramValues params args, σ⟩ swept
    st.KnownRight f.vals ∧
      st.KeepsApart table (params.map .data ++ stmts.map storedKind) f.vals

section
variable {table : TypeTable} {params : List TypeId} {incoming : IrStoreCache}
  {stmts : List StoredStmt} {args : List (List Bool)} {σ : EvalState}

theorem gathered_start (hargs : ArgsFit table params args) (hσ : StorageFits table σ)
    (hcache : CacheTyped (params.map .data) incoming) :
    Gathered table (params.map .data) ⟨paramValues params args, σ⟩ (.start params incoming) where
  fits := frameFits_params (b := (⟨params, [], .jmp ⟨.ret, []⟩⟩ : IRBlock Unit)) hargs hσ
  aliased := nofun
  cache := hcache
  fresh := fun _ _ => rfl
  width := nofun
  const := nofun
  poly := nofun

end

theorem storageFits_start (table : TypeTable) : StorageFits table .start := nofun

def byteTable : TypeTable := ⟨[.primitive .bit, .vec 8 ⟨0⟩]⟩

def byteTwo : List Bool := [false, true, false, false, false, false, false, false]

def flippedPrefix : List StoredStmt :=
  [.poly ⟨1⟩ (.single [0] 255) ⟨0, 1⟩, .plain ⟨.storageWrite ⟨0⟩ 0 ⟨1⟩ 0, rfl⟩,
    .plain ⟨.storageWrite ⟨0⟩ 0 ⟨1⟩ 1, rfl⟩]

theorem byteCopy_typed (coeff : U8) (c : Constant) :
    StoredTyped byteTable [.data ⟨1⟩] (.poly ⟨1⟩ (.single [0] coeff) c) := by
  refine ⟨.bits (by decide) (by decide), ?_⟩
  intro e he v hv
  obtain rfl := List.mem_singleton.mp he
  obtain rfl := List.mem_singleton.mp hv
  exact ⟨⟨1⟩, rfl, .own (by decide)⟩

theorem flippedPrefix_typed : PrefixTyped byteTable [.data ⟨1⟩] flippedPrefix :=
  ⟨byteCopy_typed 255 _, ⟨trivial, rfl⟩, ⟨trivial, rfl⟩, trivial⟩

def misreadPrefix : List StoredStmt :=
  [.poly ⟨1⟩ (.single [0] 1) .zero, .plain ⟨.const ⟨0, 2⟩ ⟨1⟩, rfl⟩,
    .plain ⟨.storageWrite ⟨0⟩ 0 ⟨1⟩ 1, rfl⟩, .plain ⟨.storageWrite ⟨0⟩ 0 ⟨1⟩ 2, rfl⟩]

/-- Two literals of one byte, told apart by a bit above it. -/
example :
    (forwardIrStmtsFrom byteTable (.start [] []) 0
      [.plain ⟨.const ⟨0, 256⟩ ⟨1⟩, rfl⟩, .plain ⟨.const .zero ⟨1⟩, rfl⟩]).2.provablyDifferent
        0 1 = true ∧
    constBits ⟨0, 256⟩ 8 = constBits .zero 8 := by decide

end VolarIR.Opt
