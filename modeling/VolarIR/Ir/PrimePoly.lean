import VolarIR.Ir.PrimeParts

/-!
# The value of a prime-field polynomial

`evalPrimePoly` always gives an element of its type, and the sums at the valuations of the type
fix it.
-/
namespace VolarIR.Ir

section
variable {table : TypeTable} {ty : TypeId}

/-- The moduli of a part are moduli of the whole. -/
theorem SameSums.ofPart {part : TypeId} {start width m : ℕ}
    (h : PartOf table ty part start width) (hprime : PrimeTypeFrom table m part)
    (hm : m ≤ table.types.length) (hmem : ∀ p ∈ moduliFrom table m part, p ∈ moduli table ty)
    (hty : table.containsPrimeField ty = true) {terms terms' : List (Term Bool)}
    (hsums : SameSums table ty terms terms') :
    SameSums table part
      (terms.map fun t => (t.1.map (partAt table ty part start width), t.2))
      (terms'.map fun t => (t.1.map (partAt table ty part start width), t.2)) := by
  intro R _ x hx
  have hchar := hx.char
  unfold CharOf at hchar
  rw [if_pos (hprime.containsPrimeField hm)] at hchar
  obtain ⟨p, hp, hzero⟩ := hchar
  have hwhole : CharOf table ty R := by
    unfold CharOf
    rw [if_pos hty]
    exact ⟨p, hmem p (hprime.mem_moduliFrom hp), hzero⟩
  rw [sumAt_map, sumAt_map]
  exact hsums R _ ⟨hx.toReading.ofPart h, hwhole⟩

theorem valuation_residueAt {k : ℕ} {n : List U64} (get : table.get ty = some (.primeField k n))
    (hc : Canonical k (Limbs.value n)) :
    Valuation table ty (residueAt table ty k (PrimeSpec.modulus ⟨k, n⟩)) := by
  refine ⟨reading_residueAt get hc _, ?_⟩
  obtain ⟨fuel, hfuel⟩ := TypeTable.exists_length get
  unfold CharOf TypeTable.containsPrimeField moduli
  rw [hfuel, containsPrimeFieldFrom, moduliFrom, get]
  exact ⟨_, List.mem_singleton_self _, ZMod.natCast_self _⟩

/-- The sum of one prime field is fixed by its residue. -/
theorem evalPrimeField_congr {k : ℕ} {n : List U64} (get : table.get ty = some (.primeField k n))
    (hc : Canonical k (Limbs.value n)) {start : List Bool} (hstart : start.length = k)
    {terms terms' : List (Term Bool)} (hterms : ∀ t ∈ terms, ∀ f ∈ t.1, FactorFits table ty f)
    (hterms' : ∀ t ∈ terms', ∀ f ∈ t.1, FactorFits table ty f)
    (hsums : SameSums table ty terms terms') :
    terms.foldlM (addFieldTerm boolRing table ty ⟨k, n⟩)
        (solinasAdd boolRing start (List.replicate k false) ⟨k, n⟩) =
      terms'.foldlM (addFieldTerm boolRing table ty ⟨k, n⟩)
        (solinasAdd boolRing start (List.replicate k false) ⟨k, n⟩) := by
  obtain ⟨bits, hbits, hlen, hlt, hval⟩ := evalPrimeField_spec get hc hstart hterms
  obtain ⟨bits', hbits', hlen', hlt', hval'⟩ := evalPrimeField_spec get hc hstart hterms'
  rw [hbits, hbits']
  apply congrArg
  apply Bits.eq_of_value_eq (hlen.trans hlen'.symm)
  have hmod : (Bits.value bits : ZMod (PrimeSpec.modulus ⟨k, n⟩)) = Bits.value bits' := by
    rw [hval, hval', hsums _ _ (valuation_residueAt get hc)]
  exact Nat.ModEq.eq_of_lt_of_lt ((ZMod.natCast_eq_natCast_iff _ _ _).mp hmod) hlt hlt'

theorem PartOf.forall_fits {part : TypeId} {start width : ℕ} (h : PartOf table ty part start width)
    {terms : List (Term Bool)} (hterms : ∀ t ∈ terms, ∀ f ∈ t.1, FactorFits table ty f) :
    ∀ t ∈ terms.map fun t => (t.1.map (partAt table ty part start width), t.2), ∀ f ∈ t.1,
      FactorFits table part f := by
  intro t ht f hf
  obtain ⟨u, hu, rfl⟩ := List.mem_map.mp ht
  obtain ⟨g, hg, rfl⟩ := List.mem_map.mp hf
  exact h.fits (hterms u hu g hg)

/-- The terms of the part that starts at a given bit fit it. -/
theorem Unrolls.forall_fits {fuel : ℕ} {parts : List TypeId} (h : Unrolls table fuel ty parts)
    {pre post : List TypeId} {part : TypeId} (hsplit : parts = pre ++ part :: post)
    {terms : List (Term Bool)} (hterms : ∀ t ∈ terms, ∀ f ∈ t.1, FactorFits table ty f) :
    ∀ t ∈ terms.map fun t =>
        (t.1.map (partAt table ty part (pre.map table.bitWidth).sum (table.bitWidth part)), t.2),
      ∀ f ∈ t.1, FactorFits table part f :=
  (h.part pre part post hsplit).forall_fits hterms

theorem Unrolls.valueBitWidth {fuel : ℕ} {parts : List TypeId} (h : Unrolls table fuel ty parts)
    {part : TypeId} (hmem : part ∈ parts) :
    table.valueBitWidth part = some (table.bitWidth part) := by
  obtain ⟨w, hw⟩ := Option.isSome_iff_exists.mp (h.prime part hmem).1
  rw [hw, bitWidth_eq_of_valueBitWidth hw]

theorem evalPrimePolyFrom_isSome {fuel : ℕ} {ty : TypeId} (h : PrimeTypeFrom table fuel ty)
    (hfuel : fuel ≤ table.types.length) {w : ℕ} (hw : table.valueBitWidth ty = some w)
    {c : List Bool} {terms : List (Term Bool)}
    (hterms : ∀ t ∈ terms, ∀ f ∈ t.1, FactorFits table ty f) :
    ∃ bits, evalPrimePolyFrom boolRing table fuel ty c terms = some bits ∧ bits.length = w := by
  induction fuel generalizing ty w c terms with
  | zero => exact h.elim
  | succ fuel ih =>
      rcases unrolls_of_prime h hfuel with ⟨parts, hparts⟩ | ⟨k, n, get, hc⟩
      · rw [hparts.eval c terms hterms, ← hparts.width w hw]
        have hall : ∀ post pre, parts = pre ++ post →
            ∃ bits, evalParts table fuel ty c terms (pre.map table.bitWidth).sum post =
              some bits ∧ bits.length = (post.map table.bitWidth).sum := by
          intro post
          induction post with
          | nil => exact fun _ _ => ⟨[], rfl, rfl⟩
          | cons part post ihpost =>
              intro pre hsplit
              have hmem : part ∈ parts := by
                rw [hsplit]
                exact List.mem_append_right _ List.mem_cons_self
              obtain ⟨bits, hbits, hlen⟩ := ih (hparts.prime part hmem).2 (by omega)
                (hparts.valueBitWidth hmem) (hparts.forall_fits hsplit hterms)
              obtain ⟨rest, hrest, hrestLen⟩ := ihpost (pre ++ [part]) (by simp [hsplit])
              rw [List.map_append, List.sum_append, List.map_singleton,
                List.sum_singleton] at hrest
              refine ⟨bits ++ rest, ?_, ?_⟩
              · rw [evalParts, hbits, hrest]
                rfl
              · rw [List.length_append, hlen, hrestLen, List.map_cons, List.sum_cons]
        exact hall parts [] rfl
      · rw [valueBitWidth_primeField get] at hw
        cases hw
        rw [evalPrimePolyFrom, get]
        obtain ⟨bits, hbits, hlen, _⟩ :=
          evalPrimeField_spec get hc (length_sliceWires c 0 w) hterms
        exact ⟨bits, hbits, hlen⟩

theorem mapM_congr_of_mem {α β : Type} {f g : α → Option β} {l : List α}
    (h : ∀ a ∈ l, f a = g a) : l.mapM f = l.mapM g := by
  induction l with
  | nil => rfl
  | cons a rest ih =>
      rw [List.mapM_cons, List.mapM_cons, h a List.mem_cons_self,
        ih fun b hb => h b (List.mem_cons_of_mem a hb)]

/-- A polynomial of prime fields is fixed by its sums. -/
theorem evalPrimePolyFrom_congr {fuel : ℕ} {ty : TypeId} (h : PrimeTypeFrom table fuel ty)
    (hfuel : fuel ≤ table.types.length) {c : List Bool} {terms terms' : List (Term Bool)}
    (hterms : ∀ t ∈ terms, ∀ f ∈ t.1, FactorFits table ty f)
    (hterms' : ∀ t ∈ terms', ∀ f ∈ t.1, FactorFits table ty f)
    (hsums : SameSums table ty terms terms') :
    evalPrimePolyFrom boolRing table fuel ty c terms =
      evalPrimePolyFrom boolRing table fuel ty c terms' := by
  induction fuel generalizing ty c terms terms' with
  | zero => exact h.elim
  | succ fuel ih =>
      have hprime : table.containsPrimeField ty = true := h.containsPrimeField hfuel
      rcases unrolls_of_prime h hfuel with ⟨parts, hparts⟩ | ⟨k, n, get, hc⟩
      · rw [hparts.eval c terms hterms, hparts.eval c terms' hterms']
        have hall : ∀ post pre, parts = pre ++ post →
            evalParts table fuel ty c terms (pre.map table.bitWidth).sum post =
              evalParts table fuel ty c terms' (pre.map table.bitWidth).sum post := by
          intro post
          induction post with
          | nil => exact fun _ _ => rfl
          | cons part post ihpost =>
              intro pre hsplit
              have hmem : part ∈ parts := by
                rw [hsplit]
                exact List.mem_append_right _ List.mem_cons_self
              have hpart := (hparts.prime part hmem).2
              have hmoduli : ∀ p ∈ moduliFrom table fuel part, p ∈ moduli table ty :=
                fun p hp => moduliFrom_mono hfuel (hparts.moduli part hmem p hp)
              have hrest := ihpost (pre ++ [part]) (by simp [hsplit])
              rw [List.map_append, List.sum_append, List.map_singleton,
                List.sum_singleton] at hrest
              rw [evalParts, evalParts, hrest,
                ih hpart (by omega) (hparts.forall_fits hsplit hterms)
                  (hparts.forall_fits hsplit hterms')
                  (hsums.ofPart (hparts.part pre part post hsplit) hpart (by omega) hmoduli hprime)]
        exact hall parts [] rfl
      · rw [evalPrimePolyFrom, evalPrimePolyFrom, get]
        exact evalPrimeField_congr get hc (length_sliceWires c 0 k) hterms hterms' hsums

/-- The sum of one prime field in two steps. -/
theorem evalPrimeField_append {k : ℕ} {n : List U64}
    (get : table.get ty = some (.primeField k n)) (hc : Canonical k (Limbs.value n))
    {c out : List Bool} (hstart : c.length = k) {first terms : List (Term Bool)}
    (hfirst : ∀ t ∈ first, ∀ f ∈ t.1, FactorFits table ty f)
    (hterms : ∀ t ∈ terms, ∀ f ∈ t.1, FactorFits table ty f)
    (hout : first.foldlM (addFieldTerm boolRing table ty ⟨k, n⟩)
      (solinasAdd boolRing c (List.replicate k false) ⟨k, n⟩) = some out) :
    terms.foldlM (addFieldTerm boolRing table ty ⟨k, n⟩)
        (solinasAdd boolRing out (List.replicate k false) ⟨k, n⟩) =
      (first ++ terms).foldlM (addFieldTerm boolRing table ty ⟨k, n⟩)
        (solinasAdd boolRing c (List.replicate k false) ⟨k, n⟩) := by
  have hboth : ∀ t ∈ first ++ terms, ∀ f ∈ t.1, FactorFits table ty f := by
    intro t ht
    rcases List.mem_append.mp ht with ht | ht
    · exact hfirst t ht
    · exact hterms t ht
  obtain ⟨out', hout', hlen, _, hval⟩ := evalPrimeField_spec get hc hstart hfirst
  cases hout.symm.trans hout'
  obtain ⟨bits, hbits, hbitsLen, hlt, hsum⟩ := evalPrimeField_spec get hc hlen hterms
  obtain ⟨bits', hbits', hbitsLen', hlt', hsum'⟩ := evalPrimeField_spec get hc hstart hboth
  rw [hbits, hbits']
  apply congrArg
  apply Bits.eq_of_value_eq (hbitsLen.trans hbitsLen'.symm)
  have hmod : (Bits.value bits : ZMod (PrimeSpec.modulus ⟨k, n⟩)) = Bits.value bits' := by
    rw [hsum, hsum', hval, sumAt_append, add_assoc]
  exact Nat.ModEq.eq_of_lt_of_lt ((ZMod.natCast_eq_natCast_iff _ _ _).mp hmod) hlt hlt'

theorem evalPrimePolyFrom_field {fuel k : ℕ} {n : List U64}
    (get : table.get ty = some (.primeField k n)) {c : List Bool} (hlen : c.length = k)
    (terms : List (Term Bool)) : evalPrimePolyFrom boolRing table (fuel + 1) ty c terms =
      terms.foldlM (addFieldTerm boolRing table ty ⟨k, n⟩)
        (solinasAdd boolRing c (List.replicate k false) ⟨k, n⟩) := by
  rw [evalPrimePolyFrom, get]
  dsimp only
  rw [sliceWires_self hlen]
  rfl

/-- Terms added to a constant first and the others to the sum are all added to the constant. -/
theorem evalPrimePolyFrom_append {fuel : ℕ} {ty : TypeId} (h : PrimeTypeFrom table fuel ty)
    (hfuel : fuel ≤ table.types.length) {w : ℕ} (hw : table.valueBitWidth ty = some w)
    {c out : List Bool} (hlen : c.length = w) {first terms : List (Term Bool)}
    (hfirst : ∀ t ∈ first, ∀ f ∈ t.1, FactorFits table ty f)
    (hterms : ∀ t ∈ terms, ∀ f ∈ t.1, FactorFits table ty f)
    (hout : evalPrimePolyFrom boolRing table fuel ty c first = some out) :
    evalPrimePolyFrom boolRing table fuel ty out terms =
      evalPrimePolyFrom boolRing table fuel ty c (first ++ terms) := by
  have hboth : ∀ t ∈ first ++ terms, ∀ f ∈ t.1, FactorFits table ty f := by
    intro t ht
    rcases List.mem_append.mp ht with ht | ht
    · exact hfirst t ht
    · exact hterms t ht
  induction fuel generalizing ty w c out first terms with
  | zero => exact h.elim
  | succ fuel ih =>
      rcases unrolls_of_prime h hfuel with ⟨parts, hparts⟩ | ⟨k, n, get, hc⟩
      · rw [hparts.eval c first hfirst] at hout
        rw [hparts.eval out terms hterms, hparts.eval c _ hboth]
        -- the parts done so far are a prefix of the sum
        have hall : ∀ post pre before after, parts = pre ++ post →
            before.length = (pre.map table.bitWidth).sum →
            evalParts table fuel ty c first (pre.map table.bitWidth).sum post = some after →
            evalParts table fuel ty (before ++ after) terms (pre.map table.bitWidth).sum post =
              evalParts table fuel ty c (first ++ terms) (pre.map table.bitWidth).sum post := by
          intro post
          induction post with
          | nil => exact fun _ _ _ _ _ _ => rfl
          | cons part post ihpost =>
              intro pre before after hsplit hbefore hafter
              have hmem : part ∈ parts := by
                rw [hsplit]
                exact List.mem_append_right _ List.mem_cons_self
              have hpart := (hparts.prime part hmem).2
              have hwidth := hparts.valueBitWidth hmem
              have hfirstPart := hparts.forall_fits hsplit hfirst
              have htermsPart := hparts.forall_fits hsplit hterms
              rw [evalParts] at hafter
              obtain ⟨bits, hbits, hafter⟩ := Option.bind_eq_some_iff.mp hafter
              obtain ⟨rest, hrest, hafter⟩ := Option.bind_eq_some_iff.mp hafter
              cases hafter
              obtain ⟨bits', hbits', hbitsLen⟩ := evalPrimePolyFrom_isSome hpart (by omega)
                hwidth (c := sliceWires boolRing c (pre.map table.bitWidth).sum
                  (table.bitWidth part)) hfirstPart
              cases hbits.symm.trans hbits'
              have hboth' := hparts.forall_fits hsplit hboth
              rw [List.map_append] at hboth'
              have hslice : sliceWires boolRing (before ++ (bits ++ rest))
                  (pre.map table.bitWidth).sum (table.bitWidth part) = bits := by
                rw [← hbefore, ← hbitsLen]
                exact sliceWires_append before bits rest
              have hsum : (pre.map table.bitWidth).sum + table.bitWidth part =
                  ((pre ++ [part]).map table.bitWidth).sum := by simp
              rw [hsum] at hrest
              have hnext := ihpost (pre ++ [part]) (before ++ bits) rest (by simp [hsplit])
                (by rw [List.length_append, hbefore, hbitsLen, hsum]) hrest
              rw [List.append_assoc] at hnext
              rw [evalParts, evalParts, hslice, List.map_append, hsum, hnext,
                ih hpart (by omega) hwidth (length_sliceWires _ _ _) hfirstPart htermsPart hbits
                  hboth']
        exact hall parts [] [] out rfl rfl hout
      · rw [valueBitWidth_primeField get] at hw
        cases hw
        rw [evalPrimePolyFrom_field get hlen] at hout ⊢
        have houtLen : out.length = w := by
          obtain ⟨out', hout', hlen', _⟩ := evalPrimeField_spec get hc hlen hfirst
          cases hout.symm.trans hout'
          exact hlen'
        rw [evalPrimePolyFrom_field get houtLen]
        exact evalPrimeField_append get hc hlen hfirst hterms hout

end

end VolarIR.Ir
