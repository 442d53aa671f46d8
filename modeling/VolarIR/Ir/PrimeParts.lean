import VolarIR.Ir.PrimeReading

/-!
# The lanes and parts of a prime-field type

A vector and a tuple unroll to their parts in order. What holds of every part, its width and
its moduli included, is stated once for both.
-/
namespace VolarIR.Ir

theorem sliceWires_append (xs ys zs : List Bool) :
    sliceWires boolRing (xs ++ (ys ++ zs)) xs.length ys.length = ys := by
  apply List.ext_getElem
  · exact length_sliceWires _ _ _
  · intro i _ hi
    simp only [sliceWires, List.getElem_map, List.getElem_range, List.getD_eq_getElem?_getD]
    rw [List.getElem?_append_right (Nat.le_add_right _ _), Nat.add_sub_cancel_left,
      List.getElem?_append_left hi, List.getElem?_eq_getElem hi]
    rfl

section
variable {table : TypeTable} {ty : TypeId}

theorem length_identity_parts {fuel : ℕ} {parts : List TypeId} {lanes : List (List Bool)}
    (hlen : ∀ p ∈ parts, ∀ bits, identityBitsFrom boolBits table fuel p = some bits →
      bits.length = table.bitWidth p)
    (h : parts.mapM (identityBitsFrom boolBits table fuel) = some lanes) :
    lanes.flatten.length = (parts.map table.bitWidth).sum := by
  induction parts generalizing lanes with
  | nil =>
      cases h
      rfl
  | cons p rest ih =>
      rw [List.mapM_cons] at h
      obtain ⟨lane, hlane, h⟩ := Option.bind_eq_some_iff.mp h
      obtain ⟨lanes', hlanes', h⟩ := Option.bind_eq_some_iff.mp h
      cases h
      rw [List.flatten_cons, List.length_append, hlen p List.mem_cons_self lane hlane,
        ih (fun q hq => hlen q (List.mem_cons_of_mem p hq)) hlanes', List.map_cons, List.sum_cons]

theorem length_identity_of_prime {m fuel : ℕ} {ty : TypeId} (h : PrimeTypeFrom table m ty)
    {w : ℕ} (hw : table.valueBitWidth ty = some w) {bits : List Bool}
    (hbits : identityBitsFrom boolBits table fuel ty = some bits) : bits.length = w := by
  induction m generalizing fuel ty w bits with
  | zero => exact h.elim
  | succ m ih =>
      cases fuel with
      | zero => cases hbits
      | succ fuel =>
          rw [identityBitsFrom] at hbits
          rcases h.cases with ⟨n, elem, get, h⟩ | ⟨parts, get, h⟩ | ⟨k, n, get, h⟩
          · rw [get] at hbits
            obtain ⟨lane, hlane, rfl⟩ := Option.map_eq_some_iff.mp hbits
            obtain ⟨laneW, hlaneW, rfl⟩ := valueBitWidth_vec get hw
            simp [ih h.2 hlaneW hlane]
          · rw [get] at hbits
            obtain ⟨lanes, hlanes, rfl⟩ := Option.map_eq_some_iff.mp hbits
            rw [← valueBitWidth_tuple get hw]
            apply length_identity_parts _ hlanes
            intro part hpart bits hbits
            obtain ⟨hsome, hprime⟩ := h.2 part hpart
            obtain ⟨partW, hpartW⟩ := Option.isSome_iff_exists.mp hsome
            rw [ih hprime hpartW hbits, bitWidth_eq_of_valueBitWidth hpartW]
          · rw [get] at hbits
            rw [valueBitWidth_primeField get] at hw
            cases hw
            simp only [valueBitWidth_primeField get, Option.map_some, Option.some.injEq] at hbits
            subst hbits
            have htwo := h.two_le
            rw [if_pos (by omega)]
            simp [zeros]
            omega

theorem partOf_vec {elem : TypeId} {n lane laneW m : ℕ} (get : table.get ty = some (.vec n elem))
    (hring : table.mulIsIdempotent ty = false) (hprime : PrimeTypeFrom table m elem)
    (hw : table.valueBitWidth elem = some laneW) (hlane : lane < n) :
    PartOf table ty elem (lane * laneW) laneW where
  ring := hring
  partWidth := bitWidth_eq_of_valueBitWidth hw
  typed fty h := by
    cases h with
    | own same => exact .inl same
    | gate bit => exact .inr (.inr bit)
    | constant get' => simp [get] at get'
    | broadcast _ get' same =>
        rw [get] at get'
        cases get'
        exact .inr (.inl same)
    | parts _ get' => simp [get] at get'
    | wide idem => exact absurd idem (by rw [hring]; decide)
  identity bits h := by
    obtain ⟨fuel, hfuel⟩ := TypeTable.exists_length get
    unfold mulIdentity identityBits at h ⊢
    rw [hfuel] at h ⊢
    rw [identityBitsFrom, get] at h
    obtain ⟨one, hone, rfl⟩ := Option.map_eq_some_iff.mp h
    have hlen := length_identity_of_prime hprime hw hone
    rw [identityBitsFrom_succ hone]
    obtain ⟨rest, rfl⟩ : ∃ rest, n = lane + (rest + 1) := ⟨n - lane - 1, by omega⟩
    have hsplit : (List.replicate (lane + (rest + 1)) one).flatten =
        (List.replicate lane one).flatten ++ (one ++ (List.replicate rest one).flatten) := by
      rw [← List.replicate_append_replicate, List.flatten_append, List.replicate_succ,
        List.flatten_cons]
    have hstart : (List.replicate lane one).flatten.length = lane * laneW := by simp [hlen]
    rw [hsplit, ← hstart, ← hlen, sliceWires_append]

/-- A part of a tuple. -/
theorem partOf_tuple {pre post : List TypeId} {part : TypeId} {m : ℕ}
    (get : table.get ty = some (.tuple (pre ++ part :: post)))
    (hring : table.mulIsIdempotent ty = false)
    (hparts : ∀ p ∈ pre ++ part :: post,
      (table.valueBitWidth p).isSome = true ∧ PrimeTypeFrom table m p) :
    PartOf table ty part (pre.map table.bitWidth).sum (table.bitWidth part) where
  ring := hring
  partWidth := rfl
  typed fty h := by
    cases h with
    | own same => exact .inl same
    | gate bit => exact .inr (.inr bit)
    | constant get' => simp [get] at get'
    | broadcast _ get' => simp [get] at get'
    | parts _ get' same =>
        rw [get] at get'
        cases get'
        exact .inr (.inl (same part (List.mem_append_right _ List.mem_cons_self)))
    | wide idem => exact absurd idem (by rw [hring]; decide)
  identity bits h := by
    obtain ⟨fuel, hfuel⟩ := TypeTable.exists_length get
    unfold mulIdentity identityBits at h ⊢
    rw [hfuel] at h ⊢
    rw [identityBitsFrom, get] at h
    obtain ⟨lanes, hlanes, rfl⟩ := Option.map_eq_some_iff.mp h
    rw [List.mapM_append, List.mapM_cons] at hlanes
    obtain ⟨before, hbefore, hlanes⟩ := Option.bind_eq_some_iff.mp hlanes
    obtain ⟨after, hafter, hlanes⟩ := Option.bind_eq_some_iff.mp hlanes
    cases hlanes
    obtain ⟨one, hone, hafter⟩ := Option.bind_eq_some_iff.mp hafter
    obtain ⟨rest, _, hafter⟩ := Option.bind_eq_some_iff.mp hafter
    cases hafter
    have hlen : ∀ p ∈ pre ++ part :: post, ∀ bits,
        identityBitsFrom boolBits table fuel p = some bits → bits.length = table.bitWidth p := by
      intro p hp bits hbits
      obtain ⟨hsome, hprime⟩ := hparts p hp
      obtain ⟨w, hw⟩ := Option.isSome_iff_exists.mp hsome
      rw [length_identity_of_prime hprime hw hbits, bitWidth_eq_of_valueBitWidth hw]
    have hmem : part ∈ pre ++ part :: post := List.mem_append_right _ List.mem_cons_self
    have hstart := length_identity_parts (fun p hp => hlen p (List.mem_append_left _ hp)) hbefore
    rw [identityBitsFrom_succ hone, List.flatten_append, List.flatten_cons, ← hstart,
      ← hlen part hmem one hone, sliceWires_append]

/-- The parts evaluated in order, from bit `start` of the whole on. -/
def evalParts (table : TypeTable) (fuel : ℕ) (ty : TypeId) (c : List Bool)
    (terms : List (Term Bool)) : (start : ℕ) → List TypeId → Option (List Bool)
  | _, [] => some []
  | start, part :: rest => do
      let width := table.bitWidth part
      let bits ← evalPrimePolyFrom boolRing table fuel part (sliceWires boolRing c start width)
        (terms.map fun t => (t.1.map (partAt table ty part start width), t.2))
      some (bits ++ (← evalParts table fuel ty c terms (start + width) rest))

/-- `ty` consists of `parts`, one after another. -/
structure Unrolls (table : TypeTable) (fuel : ℕ) (ty : TypeId) (parts : List TypeId) : Prop where
  part : ∀ pre part post, parts = pre ++ part :: post →
    PartOf table ty part (pre.map table.bitWidth).sum (table.bitWidth part)
  prime : ∀ part ∈ parts,
    (table.valueBitWidth part).isSome = true ∧ PrimeTypeFrom table fuel part
  moduli : ∀ part ∈ parts, ∀ p ∈ moduliFrom table fuel part, p ∈ moduliFrom table (fuel + 1) ty
  width : ∀ w, table.valueBitWidth ty = some w → (parts.map table.bitWidth).sum = w
  eval : ∀ c terms, (∀ t ∈ terms, ∀ f ∈ t.1, FactorFits table ty f) →
    evalPrimePolyFrom boolRing table (fuel + 1) ty c terms = evalParts table fuel ty c terms 0 parts

theorem unrolls_vec {fuel n : ℕ} {elem : TypeId} (get : table.get ty = some (.vec n elem))
    (hring : table.mulIsIdempotent ty = false)
    (helem : (table.valueBitWidth elem).isSome = true ∧ PrimeTypeFrom table fuel elem) :
    Unrolls table fuel ty (List.replicate n elem) := by
  obtain ⟨laneW, hlaneW⟩ := Option.isSome_iff_exists.mp helem.1
  have hwidth := bitWidth_eq_of_valueBitWidth hlaneW
  have hpart : ∀ lane, lane < n → PartOf table ty elem (lane * laneW) laneW :=
    fun lane => partOf_vec get hring helem.2 hlaneW
  constructor
  case part =>
    intro pre part post hsplit
    have hpre : pre = List.replicate pre.length elem := by
      apply List.eq_replicate_of_mem
      intro p hp
      apply List.eq_of_mem_replicate (n := n)
      rw [hsplit]
      exact List.mem_append_left _ hp
    have hmem : part ∈ List.replicate n elem := by
      rw [hsplit]
      exact List.mem_append_right _ List.mem_cons_self
    have hlt : pre.length < n := by
      have hlen := congrArg List.length hsplit
      simp at hlen
      omega
    obtain rfl := List.eq_of_mem_replicate hmem
    have hsum : (pre.map table.bitWidth).sum = pre.length * laneW := by
      rw [hpre, List.map_replicate, List.sum_replicate, List.length_replicate, hwidth, smul_eq_mul]
    rw [hsum, hwidth]
    exact hpart _ hlt
  case prime =>
    intro part hmem
    obtain rfl := List.eq_of_mem_replicate hmem
    exact helem
  case moduli =>
    intro part hmem p hp
    obtain rfl := List.eq_of_mem_replicate hmem
    rw [moduliFrom, get]
    exact hp
  case width =>
    intro w hw
    obtain ⟨laneW', hlaneW', rfl⟩ := valueBitWidth_vec get hw
    cases hlaneW.symm.trans hlaneW'
    rw [List.map_replicate, List.sum_replicate, hwidth, smul_eq_mul]
  case eval =>
    intro c terms hterms
    have hlanes : ∀ m lane, lane + m = n → ((List.range' lane m).mapM (fun lane => do
          evalPrimePolyFrom boolRing table fuel elem
            (sliceWires boolRing c (lane * laneW) laneW)
            (← partTerms boolRing table ty elem (lane * laneW) laneW terms))).map List.flatten =
        evalParts table fuel ty c terms (lane * laneW) (List.replicate m elem) := by
      intro m
      induction m with
      | zero => exact fun _ _ => rfl
      | succ m ih =>
          intro lane hlane
          rw [List.range'_succ, List.mapM_cons, List.replicate_succ, evalParts, hwidth,
            (hpart lane (by omega)).partTerms_eq hterms]
          have hnext := ih (lane + 1) (by omega)
          rw [Nat.succ_mul] at hnext
          rw [← hnext]
          simp only [Option.bind_eq_bind, Option.bind_some, Option.pure_def]
          cases evalPrimePolyFrom boolRing table fuel elem
            (sliceWires boolRing c (lane * laneW) laneW)
            (terms.map fun t => (t.1.map (partAt table ty elem (lane * laneW) laneW), t.2)) with
          | none => rfl
          | some bits =>
              simp only [Option.bind_some, Option.map_bind, Option.bind_map]
              rfl
    have hall := hlanes n 0 (Nat.zero_add n)
    rw [Nat.zero_mul, ← List.range_eq_range'] at hall
    rw [evalPrimePolyFrom, get, ← hall]
    simp only [hlaneW, Option.bind_eq_bind, Option.bind_some, Option.map_eq_bind]
    rfl

theorem unrolls_tuple {fuel : ℕ} {parts : List TypeId} (get : table.get ty = some (.tuple parts))
    (hring : table.mulIsIdempotent ty = false)
    (hparts : ∀ part ∈ parts,
      (table.valueBitWidth part).isSome = true ∧ PrimeTypeFrom table fuel part) :
    Unrolls table fuel ty parts := by
  constructor
  case part =>
    rintro pre part post rfl
    exact partOf_tuple get hring hparts
  case prime => exact hparts
  case moduli =>
    intro part hmem p hp
    rw [moduliFrom, get]
    exact List.mem_flatMap.mpr ⟨part, hmem, hp⟩
  case width => exact fun w => valueBitWidth_tuple get
  case eval =>
    intro c terms hterms
    have hfold : ∀ (post pre : List TypeId) (out : List Bool), pre ++ post = parts →
        post.foldlM (fun (acc : List Bool × ℕ) part => do
            let partW ← table.valueBitWidth part
            let bits ← evalPrimePolyFrom boolRing table fuel part
              (sliceWires boolRing c acc.2 partW)
              (← partTerms boolRing table ty part acc.2 partW terms)
            some (acc.1 ++ bits, acc.2 + partW)) (out, (pre.map table.bitWidth).sum) =
          (evalParts table fuel ty c terms (pre.map table.bitWidth).sum post).map
            fun bits => (out ++ bits, (parts.map table.bitWidth).sum) := by
      intro post
      induction post with
      | nil =>
          intro pre out hsplit
          rw [List.append_nil] at hsplit
          rw [List.foldlM_nil, evalParts, Option.map_some, List.append_nil, hsplit]
          rfl
      | cons part post ih =>
          intro pre out hsplit
          subst hsplit
          have hmem : part ∈ pre ++ part :: post := List.mem_append_right _ List.mem_cons_self
          obtain ⟨partW, hpartW⟩ := Option.isSome_iff_exists.mp (hparts part hmem).1
          have hwidth := bitWidth_eq_of_valueBitWidth hpartW
          have hpart := partOf_tuple get hring hparts
          rw [hwidth] at hpart
          rw [List.foldlM_cons, evalParts, hwidth, hpartW]
          simp only [hpart.partTerms_eq hterms, Option.bind_eq_bind, Option.bind_some]
          cases evalPrimePolyFrom boolRing table fuel part
            (sliceWires boolRing c (pre.map table.bitWidth).sum partW)
            (terms.map fun t => (t.1.map (partAt table ty part (pre.map table.bitWidth).sum partW),
              t.2)) with
          | none => rfl
          | some bits =>
              have hrest := ih (pre ++ [part]) (out ++ bits) (by simp)
              rw [List.map_append, List.sum_append, List.map_singleton, List.sum_singleton,
                hwidth] at hrest
              apply Eq.trans hrest
              simp only [Option.bind_some, Option.map_bind]
              simp [Option.map_eq_bind]
    have hall := hfold parts [] [] rfl
    rw [evalPrimePolyFrom, get]
    simp only [Option.bind_eq_bind, List.map_nil, List.sum_nil, List.nil_append] at hall ⊢
    rw [hall]
    cases evalParts table fuel ty c terms 0 parts <;> rfl

theorem unrolls_of_prime {fuel : ℕ} (h : PrimeTypeFrom table (fuel + 1) ty)
    (hfuel : fuel + 1 ≤ table.types.length) :
    (∃ parts, Unrolls table fuel ty parts) ∨
      ∃ k n, table.get ty = some (.primeField k n) ∧ Canonical k (Limbs.value n) := by
  have hring : table.mulIsIdempotent ty = false :=
    mulIsIdempotent_of_prime (h.containsPrimeField hfuel)
  rcases h.cases with ⟨n, elem, get, h⟩ | ⟨parts, get, h⟩ | ⟨k, n, get, h⟩
  · exact .inl ⟨_, unrolls_vec get hring h⟩
  · exact .inl ⟨_, unrolls_tuple get hring h.2⟩
  · exact .inr ⟨k, n, get, h⟩

end

end VolarIR.Ir
