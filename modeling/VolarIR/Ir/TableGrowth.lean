import VolarIR.Ir.PolyValue
import VolarIR.Ir.Typing

/-!
# Type tables that grow

Passes intern new types. The ids handed out before keep their entries, and values and
polynomials of characteristic two over them mean what they meant.
-/
namespace VolarIR

structure TypeTable.Grows (table table' : TypeTable) : Prop where
  get : ∀ {id t}, table.get id = some t → table'.get id = some t
  length : table.types.length ≤ table'.types.length

theorem TypeTable.Grows.refl (table : TypeTable) : table.Grows table := ⟨fun h => h, le_rfl⟩

theorem TypeTable.Grows.trans {a b c : TypeTable} (h : a.Grows b) (h' : b.Grows c) : a.Grows c :=
  ⟨fun hget => h'.get (h.get hget), h.length.trans h'.length⟩

theorem TypeTable.grows_intern (table : TypeTable) (ty : IrType) :
    table.Grows (table.intern ty).2 := by
  refine ⟨fun hget => TypeTable.get_intern_of_get table ty hget, ?_⟩
  unfold TypeTable.intern
  cases table.types.findIdx? (· == ty) with
  | none => simp [TypeTable.push]
  | some pos => exact le_rfl

namespace Ir

section
variable {table table' : TypeTable} {ty : TypeId} (h : table.Grows table')
include h

theorem isBit_grows (hty : table.isBit ty = true) : table'.isBit ty = true :=
  TypeTable.isBit_iff.mpr (h.get (TypeTable.isBit_iff.mp hty))

theorem sameType_grows {a b : TypeId} (hab : table.sameType a b = true) :
    table'.sameType a b = true := by
  rw [TypeTable.sameType, Bool.or_eq_true, Bool.and_eq_true, decide_eq_true_iff,
    decide_eq_true_iff] at hab
  rcases hab with rfl | ⟨hsome, hget⟩
  · exact TypeTable.sameType_self a
  · obtain ⟨t, ht⟩ := Option.isSome_iff_exists.mp hsome
    apply TypeTable.sameType_of_get
    · rw [h.get ht, h.get (hget.symm.trans ht)]
    · rw [h.get ht]
      rfl

theorem idempotent_grows {fuel fuel' : ℕ} (hfuel : fuel ≤ fuel')
    (hidem : mulIsIdempotentFrom table fuel ty = true) :
    mulIsIdempotentFrom table' fuel' ty = true ∧ containsPrimeFieldFrom table' fuel' ty = false ∧
      bitWidthFrom table' fuel' ty = bitWidthFrom table fuel ty := by
  induction fuel generalizing ty fuel' with
  | zero => cases hidem
  | succ fuel ih =>
      obtain ⟨fuel', rfl⟩ : ∃ m, fuel' = m + 1 := ⟨fuel' - 1, by omega⟩
      have hle : fuel ≤ fuel' := Nat.le_of_succ_le_succ hfuel
      rw [mulIsIdempotentFrom] at hidem
      cases hget : table.get ty with
      | none =>
          rw [hget] at hidem
          cases hidem
      | some t =>
          rw [hget] at hidem
          have hget' := h.get hget
          simp only [mulIsIdempotentFrom, containsPrimeFieldFrom, bitWidthFrom, hget, hget']
          cases t with
          | primitive p =>
              cases p
              exact ⟨rfl, rfl, rfl⟩
          | vec n elem =>
              obtain ⟨hi, hp, hw⟩ := ih hle hidem
              exact ⟨hi, hp, congrArg (n * ·) hw⟩
          | tuple parts =>
              have hparts := List.all_eq_true.mp hidem
              refine ⟨List.all_eq_true.mpr fun part hpart => (ih hle (hparts part hpart)).1, ?_, ?_⟩
              · rw [List.any_eq_false]
                intro part hpart
                rw [(ih hle (hparts part hpart)).2.1]
                decide
              · exact congrArg List.sum
                  (List.map_congr_left fun part hpart => (ih hle (hparts part hpart)).2.2)
          | _ => cases hidem

theorem wrappedDescWith_grows {next next' : TypeId → Option FieldDesc} {wrapped : TypeId}
    {w : WrappedDesc} (hnext : ∀ id desc, next id = some desc → next' id = some desc)
    (hw : wrappedDescWith next table wrapped = some w) :
    wrappedDescWith next' table' wrapped = some w := by
  unfold wrappedDescWith at hw ⊢
  split at hw
  · next hget =>
      rw [h.get hget]
      exact hw
  · next hget =>
      rw [h.get hget]
      obtain ⟨desc, hdesc, hdw⟩ := Option.map_eq_some_iff.mp hw
      exact Option.map_eq_some_iff.mpr ⟨desc, hnext _ _ hdesc, hdw⟩
  · cases hw

theorem fieldDescFrom_grows {fuel : ℕ} {id : TypeId} {desc : FieldDesc}
    (hd : fieldDescFrom table fuel id = some desc) :
    fieldDescFrom table' fuel id = some desc := by
  induction fuel generalizing id desc with
  | zero => cases hd
  | succ fuel ih =>
      obtain ⟨wrapped, degree, irreducible, hget⟩ :=
        get_of_fieldDescFrom (Option.ne_none_iff_exists'.mpr ⟨desc, hd⟩)
      rw [fieldDescFrom_succ hget] at hd
      rw [fieldDescFrom_succ (h.get hget)]
      obtain ⟨w, hw, hdesc⟩ := Option.map_eq_some_iff.mp hd
      exact Option.map_eq_some_iff.mpr ⟨w, wrappedDescWith_grows h (fun _ _ hn => ih hn) hw, hdesc⟩

theorem wrappedDesc_grows {wrapped : TypeId} {w : WrappedDesc}
    (hw : wrappedDesc table wrapped = some w) : wrappedDesc table' wrapped = some w := by
  apply wrappedDescWith_grows h _ hw
  intro id desc hdesc
  exact fieldDescFrom_mono h.length (fieldDescFrom_grows h hdesc)

theorem fieldType_grows {id : TypeId} (hid : FieldType table id) : FieldType table' id := by
  induction hid with
  | bit get => exact .bit (h.get get)
  | ext get le_max _ accepted ih =>
      refine .ext (h.get get) le_max ih ?_
      obtain ⟨w, hw, -⟩ := validateExtField_eq_ok accepted
      unfold validateExtField at accepted ⊢
      rw [wrappedDesc_grows h hw]
      rwa [hw] at accepted

theorem means_grows {id : TypeId} {A : BitAlgebra} (hid : Means table id A) :
    Means table' id A := by
  induction hid with
  | field type desc describes =>
      exact .field (fieldType_grows h type) (wrappedDesc_grows h desc) describes
  | vec get _ fits ih => exact .vec (h.get get) ih fits

theorem rank_grows {d fuel fuel' : ℕ} (hty : Rank table d ty) (hfuel : d < fuel)
    (hfuel' : d < fuel') :
    mulIsIdempotentFrom table' fuel' ty = mulIsIdempotentFrom table fuel ty ∧
      containsPrimeFieldFrom table' fuel' ty = false := by
  induction hty generalizing fuel fuel' with
  | bit get =>
      obtain ⟨fuel, rfl⟩ : ∃ m, fuel = m + 1 := ⟨fuel - 1, by omega⟩
      obtain ⟨fuel', rfl⟩ : ∃ m, fuel' = m + 1 := ⟨fuel' - 1, by omega⟩
      simp only [mulIsIdempotentFrom, containsPrimeFieldFrom, get, h.get get, and_self]
  | vec get _ ih =>
      obtain ⟨fuel, rfl⟩ : ∃ m, fuel = m + 1 := ⟨fuel - 1, by omega⟩
      obtain ⟨fuel', rfl⟩ : ∃ m, fuel' = m + 1 := ⟨fuel' - 1, by omega⟩
      simp only [mulIsIdempotentFrom, containsPrimeFieldFrom, get, h.get get]
      exact ih (by omega) (by omega)
  | ext get _ _ =>
      obtain ⟨fuel, rfl⟩ : ∃ m, fuel = m + 1 := ⟨fuel - 1, by omega⟩
      obtain ⟨fuel', rfl⟩ : ∃ m, fuel' = m + 1 := ⟨fuel' - 1, by omega⟩
      simp only [mulIsIdempotentFrom, containsPrimeFieldFrom, get, h.get get, and_self]

theorem binaryType_grows (hty : BinaryType table ty) : BinaryType table' ty := by
  cases hty with
  | bits prime idem =>
      obtain ⟨hi, hp, -⟩ := idempotent_grows h h.length idem
      exact .bits hp hi
  | ring prime ring means fits =>
      obtain ⟨d, hd⟩ := means.rank
      have hlt := hd.lt_length
      obtain ⟨hi, hp⟩ := rank_grows h hd hlt (hlt.trans_le h.length)
      exact .ring hp (hi.trans ring) (means_grows h means) fits

theorem bitWidth_grows (hty : BinaryType table ty) : table'.bitWidth ty = table.bitWidth ty := by
  cases hty with
  | bits prime idem => exact (idempotent_grows h h.length idem).2.2
  | ring prime ring means fits =>
      rw [(means_grows h means).bitWidth_eq fits, means.bitWidth_eq fits]

theorem idem_grows (hty : BinaryType table ty) :
    table'.mulIsIdempotent ty = table.mulIsIdempotent ty := by
  cases hty with
  | bits prime idem => exact (idempotent_grows h h.length idem).1.trans idem.symm
  | ring prime ring means fits =>
      obtain ⟨d, hd⟩ := means.rank
      have hlt := hd.lt_length
      exact (rank_grows h hd hlt (hlt.trans_le h.length)).1

theorem factorTyped_grows (hty : BinaryType table ty) {fty : TypeId} (hfty : BinaryType table fty)
    (htyped : FactorTyped table ty fty) : FactorTyped table' ty fty := by
  cases htyped with
  | own same => exact .own (sameType_grows h same)
  | gate bit => exact .gate (isBit_grows h bit)
  | constant get same => exact .constant (h.get get) (sameType_grows h same)
  | broadcast ring get same =>
      exact .broadcast ((idem_grows h hty).trans ring) (h.get get) (sameType_grows h same)
  | parts ring get same =>
      exact .parts ((idem_grows h hty).trans ring) (h.get get)
        fun part hpart => sameType_grows h (same part hpart)
  | wide idem le =>
      refine .wide ((idem_grows h hty).trans idem) ?_
      rw [bitWidth_grows h hty, bitWidth_grows h hfty]
      exact le

theorem valueFits_grows (hty : BinaryType table ty) {v : Value} {fty : TypeId}
    (hv : v.ty = some fty) (hfty : BinaryType table fty) (hfits : ValueFits table ty v) :
    ValueFits table' ty v := by
  have hfactor : v.asFactor = (fty, v.bits) := by rw [Value.asFactor, hv]; rfl
  obtain ⟨htyped, hlen⟩ := hfits.fits
  rw [hfactor] at htyped hlen
  refine ⟨hfits.typed, ?_, ?_⟩
  · rw [hfactor]
    exact factorTyped_grows h hty hfty htyped
  · rw [hfactor, bitWidth_grows h hfty]
    exact hlen

theorem factorMeans_grows {A : BitAlgebra} {f : Factor Bool} {a : A.R}
    (hf : FactorMeans table ty A f a) : FactorMeans table' ty A f a := by
  cases hf with
  | own same len => exact .own (sameType_grows h same) len
  | gate bit => exact .gate (isBit_grows h bit)
  | constant get same len => exact .constant (h.get get) (sameType_grows h same) len
  | broadcast get same len => exact .broadcast (h.get get) (sameType_grows h same) len

theorem ringAt_grows {A : BitAlgebra} (means : Means table ty A) (fits : A.width ≤ usizeMax)
    (ring : table.mulIsIdempotent ty = false) {f : Factor Bool} (hf : FactorFits table ty f) :
    ringAt table' ty A f = ringAt table ty A f := by
  obtain ⟨a, ha⟩ := hf.means means fits ring
  rw [ringAt_eq means ha, ringAt_eq (means_grows h means) (factorMeans_grows h ha)]

end
end Ir
end VolarIR

/-!
## Well-typed polynomials in a grown table

A polynomial that is well typed stays so, its prime fields included, when more types are
interned.
-/
namespace VolarIR.Ir

section
variable {table table' : TypeTable} {ty : TypeId} (h : table.Grows table')
include h

theorem valueBitWidthFrom_grows {fuel fuel' w : ℕ} (hfuel : fuel ≤ fuel')
    (hw : valueBitWidthFrom table fuel ty = some w) :
    valueBitWidthFrom table' fuel' ty = some w := by
  induction fuel generalizing ty w fuel' with
  | zero => cases hw
  | succ fuel ih =>
      obtain ⟨fuel', rfl⟩ : ∃ m, fuel' = m + 1 := ⟨fuel' - 1, by omega⟩
      have hle : fuel ≤ fuel' := Nat.le_of_succ_le_succ hfuel
      rw [valueBitWidthFrom] at hw ⊢
      cases hget : table.get ty with
      | none =>
          rw [hget] at hw
          cases hw
      | some t =>
          rw [hget] at hw
          rw [h.get hget]
          cases t with
          | vec n elem =>
              obtain ⟨lane, hlane, hmul⟩ := Option.bind_eq_some_iff.mp hw
              exact Option.bind_eq_some_iff.mpr ⟨lane, ih hle hlane, hmul⟩
          | extField wrapped degree irreducible =>
              obtain ⟨width, hwidth, hmul⟩ := Option.bind_eq_some_iff.mp hw
              exact Option.bind_eq_some_iff.mpr ⟨width, ih hle hwidth, hmul⟩
          | tuple parts =>
              have hsum : ∀ (parts : List TypeId) (start : ℕ), parts.foldlM (fun sum part =>
                  (valueBitWidthFrom table fuel part).bind (checkedAdd sum)) start = some w →
                  parts.foldlM (fun sum part =>
                    (valueBitWidthFrom table' fuel' part).bind (checkedAdd sum)) start =
                    some w := by
                intro parts
                induction parts with
                | nil => exact fun _ hw => hw
                | cons part rest ihparts =>
                    intro start hw
                    rw [List.foldlM_cons] at hw ⊢
                    obtain ⟨sum, hsum, hrest⟩ := Option.bind_eq_some_iff.mp hw
                    obtain ⟨width, hwidth, hadd⟩ := Option.bind_eq_some_iff.mp hsum
                    rw [ih hle hwidth, Option.bind_some, hadd]
                    exact ihparts sum hrest
              exact hsum parts 0 hw
          | _ => exact hw

theorem valueBitWidth_grows {w : ℕ} (hw : table.valueBitWidth ty = some w) :
    table'.valueBitWidth ty = some w := valueBitWidthFrom_grows h h.length hw

theorem primeTypeFrom_grows {fuel : ℕ} (hty : PrimeTypeFrom table fuel ty) :
    PrimeTypeFrom table' fuel ty := by
  have hsome : ∀ {part : TypeId}, (table.valueBitWidth part).isSome = true →
      (table'.valueBitWidth part).isSome = true := by
    intro part hpart
    obtain ⟨w, hw⟩ := Option.isSome_iff_exists.mp hpart
    rw [valueBitWidth_grows h hw]
    rfl
  induction fuel generalizing ty with
  | zero => exact hty
  | succ fuel ih =>
      rw [PrimeTypeFrom]
      rcases hty.cases with ⟨n, elem, get, hwidth, helem⟩ | ⟨parts, get, hne, hparts⟩ |
        ⟨k, n, get, hcanonical⟩
      · rw [h.get get]
        exact ⟨hsome hwidth, ih helem⟩
      · rw [h.get get]
        exact ⟨hne, fun part hpart => ⟨hsome (hparts part hpart).1, ih (hparts part hpart).2⟩⟩
      · rw [h.get get]
        exact hcanonical

theorem primeType_grows (hty : PrimeType table ty) : PrimeType table' ty :=
  (primeTypeFrom_grows h hty).mono h.length

theorem moduliFrom_grows {fuel : ℕ} (hty : PrimeTypeFrom table fuel ty) {fuel' : ℕ}
    (hfuel : fuel ≤ fuel') : moduliFrom table' fuel' ty = moduliFrom table fuel ty := by
  induction fuel generalizing ty fuel' with
  | zero => exact hty.elim
  | succ fuel ih =>
      obtain ⟨fuel', rfl⟩ : ∃ m, fuel' = m + 1 := ⟨fuel' - 1, by omega⟩
      have hle : fuel ≤ fuel' := Nat.le_of_succ_le_succ hfuel
      rw [moduliFrom, moduliFrom]
      rcases hty.cases with ⟨n, elem, get, hwidth, helem⟩ | ⟨parts, get, hne, hparts⟩ |
        ⟨k, n, get, hcanonical⟩
      · rw [h.get get, get]
        exact ih helem hle
      · rw [h.get get, get]
        exact List.flatMap_congr fun part hpart => ih (hparts part hpart).2 hle
      · rw [h.get get, get]

omit h in
theorem moduliFrom_eq_nil {fuel : ℕ} (hprime : containsPrimeFieldFrom table fuel ty = false) :
    moduliFrom table fuel ty = [] := by
  induction fuel generalizing ty with
  | zero => rfl
  | succ fuel ih =>
      rw [containsPrimeFieldFrom] at hprime
      rw [moduliFrom]
      cases hget : table.get ty with
      | none => rfl
      | some t =>
          rw [hget] at hprime
          cases t with
          | vec n elem => exact ih hprime
          | tuple parts =>
              rw [List.flatMap_eq_nil_iff]
              intro part hpart
              have hfalse := List.any_eq_false.mp hprime part hpart
              exact ih (Bool.eq_false_iff.mpr hfalse)
          | primeField k n => cases hprime
          | _ => rfl

omit h in
theorem PolyType.binary_or_prime (hty : PolyType table ty) : BinaryType table ty ∨
    PrimeType table ty ∧ ∃ w, table.valueBitWidth ty = some w := by
  cases hty with
  | bits prime idem => exact Or.inl (.bits prime idem)
  | ring prime ring means fits => exact Or.inl (.ring prime ring means fits)
  | prime fields width => exact Or.inr ⟨fields, _, width⟩

theorem polyType_grows (hty : PolyType table ty) : PolyType table' ty := by
  cases hty.binary_or_prime with
  | inl hbinary => exact (binaryType_grows h hbinary).polyType
  | inr hprime =>
      obtain ⟨fields, w, hw⟩ := hprime
      exact .prime (primeType_grows h fields) (valueBitWidth_grows h hw)

theorem moduli_grows (hty : PolyType table ty) : moduli table' ty = moduli table ty := by
  cases hty.binary_or_prime with
  | inl hbinary =>
      have hnil : ∀ {t : TypeTable}, BinaryType t ty → moduli t ty = [] := by
        intro t ht
        apply moduliFrom_eq_nil
        cases ht with
        | bits prime => exact prime
        | ring prime => exact prime
      rw [hnil hbinary, hnil (binaryType_grows h hbinary)]
  | inr hprime => exact moduliFrom_grows h hprime.1 h.length

theorem idem_polyType_grows (hty : PolyType table ty) :
    table'.mulIsIdempotent ty = table.mulIsIdempotent ty := by
  cases hty.binary_or_prime with
  | inl hbinary => exact idem_grows h hbinary
  | inr hprime =>
      rw [mulIsIdempotent_of_prime (hprime.1.containsPrimeField le_rfl),
        mulIsIdempotent_of_prime ((primeType_grows h hprime.1).containsPrimeField le_rfl)]

theorem factorTyped_polyType_grows (hty : PolyType table ty)
    (hring : table.mulIsIdempotent ty = false) {fty : TypeId} (htyped : FactorTyped table ty fty) :
    FactorTyped table' ty fty := by
  have hring' := (idem_polyType_grows h hty).trans hring
  cases htyped with
  | own same => exact .own (sameType_grows h same)
  | gate bit => exact .gate (isBit_grows h bit)
  | constant get same => exact .constant (h.get get) (sameType_grows h same)
  | broadcast ring get same => exact .broadcast hring' (h.get get) (sameType_grows h same)
  | parts ring get same =>
      exact .parts hring' (h.get get) fun part hpart => sameType_grows h (same part hpart)
  | wide idem le => exact absurd idem (by rw [hring]; decide)

end

theorem foldlM_congr_of_mem {α β : Type} {f g : β → α → Option β} {l : List α}
    (h : ∀ b, ∀ a ∈ l, f b a = g b a) (b : β) : l.foldlM f b = l.foldlM g b := by
  induction l generalizing b with
  | nil => rfl
  | cons a rest ih =>
      rw [List.foldlM_cons, List.foldlM_cons, h b a List.mem_cons_self]
      exact congrArg _ (funext fun b' => ih (fun b a ha => h b a (List.mem_cons_of_mem _ ha)) b')

section
variable {table table' : TypeTable} {ty : TypeId} (h : table.Grows table')
include h

omit h in
theorem get_isSome_of_sameType {a b : TypeId} (hab : table.sameType a b = true)
    (hb : (table.get b).isSome = true) : (table.get a).isSome = true := by
  rw [TypeTable.get_of_sameType hab]
  exact hb

theorem sameType_grows_eq {a b : TypeId} (ha : (table.get a).isSome = true)
    (hb : (table.get b).isSome = true) : table'.sameType a b = table.sameType a b := by
  obtain ⟨s, hs⟩ := Option.isSome_iff_exists.mp ha
  obtain ⟨t, ht⟩ := Option.isSome_iff_exists.mp hb
  rw [TypeTable.sameType, TypeTable.sameType, h.get hs, h.get ht, hs, ht]

theorem isBit_grows_eq {a : TypeId} (ha : (table.get a).isSome = true) :
    table'.isBit a = table.isBit a := by
  obtain ⟨s, hs⟩ := Option.isSome_iff_exists.mp ha
  rw [TypeTable.isBit, TypeTable.isBit, h.get hs, hs]

theorem partAt_grows {part : TypeId} {start width : ℕ} {f : Factor Bool}
    (hty : (table.get ty).isSome = true) (hf : (table.get f.1).isSome = true) :
    partAt table' ty part start width f = partAt table ty part start width f := by
  rw [partAt, partAt, sameType_grows_eq h hf hty]

theorem evalParts_grows (fuel fuel' : ℕ) (c : List Bool) {terms : List (Term Bool)}
    {parts : List TypeId} (hty : (table.get ty).isSome = true)
    (hterms : ∀ t ∈ terms, ∀ f ∈ t.1, (table.get f.1).isSome = true)
    (hwidth : ∀ part ∈ parts, table'.bitWidth part = table.bitWidth part) (pre : List TypeId)
    (heval : ∀ mid part post, parts = mid ++ part :: post → ∀ c,
      let terms' := terms.map fun t => (t.1.map (partAt table ty part
        ((pre ++ mid).map table.bitWidth).sum (table.bitWidth part)), t.2)
      evalPrimePolyFrom boolRing table' fuel' part c terms' =
        evalPrimePolyFrom boolRing table fuel part c terms') :
    evalParts table' fuel' ty c terms (pre.map table.bitWidth).sum parts =
      evalParts table fuel ty c terms (pre.map table.bitWidth).sum parts := by
  induction parts generalizing pre with
  | nil => rfl
  | cons part rest ih =>
      have hpart := hwidth part List.mem_cons_self
      have hsame : (terms.map fun t => (t.1.map (partAt table' ty part
            (pre.map table.bitWidth).sum (table.bitWidth part)), t.2)) =
          terms.map fun t => (t.1.map (partAt table ty part
            (pre.map table.bitWidth).sum (table.bitWidth part)), t.2) := by
        apply List.map_congr_left
        intro t ht
        rw [List.map_congr_left fun f hf => partAt_grows h hty (hterms t ht f hf)]
      have hhead := heval [] part rest rfl
      rw [List.append_nil] at hhead
      have hrest := ih (fun p hp => hwidth p (List.mem_cons_of_mem part hp)) (pre ++ [part]) (by
          intro mid p post hsplit
          have hnext := heval (part :: mid) p post (by rw [hsplit, List.cons_append])
          rw [List.append_assoc]
          exact hnext)
      rw [List.map_append, List.sum_append, List.map_singleton, List.sum_singleton] at hrest
      rw [evalParts, evalParts, hpart, hsame, hrest]
      dsimp only at hhead ⊢
      rw [hhead]

end

section
variable {table table' : TypeTable} {ty : TypeId}

theorem FactorTyped.known_of_prime {fuel : ℕ} (hty : PrimeTypeFrom table (fuel + 1) ty)
    (hfuel : fuel + 1 ≤ table.types.length) {fty : TypeId} (hf : FactorTyped table ty fty) :
    (table.get fty).isSome = true := by
  have hring : table.mulIsIdempotent ty = false :=
    mulIsIdempotent_of_prime (hty.containsPrimeField hfuel)
  have hself : (table.get ty).isSome = true := by
    rcases hty.cases with ⟨n, elem, get, -⟩ | ⟨parts, get, -⟩ | ⟨k, n, get, -⟩ <;> rw [get] <;> rfl
  have hpart : ∀ {part : TypeId}, PrimeTypeFrom table fuel part →
      (table.get part).isSome = true := by
    intro part hpart
    cases fuel with
    | zero => exact hpart.elim
    | succ fuel =>
        rcases hpart.cases with ⟨n, elem, get, -⟩ | ⟨parts, get, -⟩ | ⟨k, n, get, -⟩ <;>
          rw [get] <;> rfl
  cases hf with
  | own same => exact get_isSome_of_sameType same hself
  | gate bit =>
      rw [TypeTable.isBit_iff.mp bit]
      rfl
  | constant get same =>
      rcases hty.cases with ⟨n, elem, get', -⟩ | ⟨parts, get', -⟩ | ⟨k, n, get', -⟩ <;>
        simp [get] at get'
  | broadcast _ get same =>
      rcases hty.cases with ⟨n, elem, get', -, helem⟩ | ⟨parts, get', -⟩ | ⟨k, n, get', -⟩
      · cases Option.some.inj (get.symm.trans get')
        exact get_isSome_of_sameType same (hpart helem)
      · simp [get] at get'
      · simp [get] at get'
  | parts _ get same =>
      rcases hty.cases with ⟨n, elem, get', -⟩ | ⟨parts, get', hne, hparts⟩ | ⟨k, n, get', -⟩
      · simp [get] at get'
      · cases Option.some.inj (get.symm.trans get')
        obtain ⟨part, hmem⟩ := List.exists_mem_of_ne_nil _ hne
        exact get_isSome_of_sameType (same part hmem) (hpart (hparts part hmem).2)
      · simp [get] at get'
  | wide idem => exact absurd idem (by rw [hring]; decide)

theorem addFieldTerm_grows (h : table.Grows table') (hty : (table.get ty).isSome = true)
    (spec : PrimeSpec) (acc : List Bool) {term : Term Bool}
    (hterm : ∀ f ∈ term.1, (table.get f.1).isSome = true) :
    addFieldTerm boolRing table' ty spec acc term =
        addFieldTerm boolRing table ty spec acc term := by
  have hdigits : ∀ f ∈ term.1, fieldDigits boolRing table' ty spec.k f =
      fieldDigits boolRing table ty spec.k f := by
    intro f hf
    rw [fieldDigits, fieldDigits, isBit_grows_eq h (hterm f hf),
      sameType_grows_eq h (hterm f hf) hty]
  rw [addFieldTerm, addFieldTerm, fieldProduct, fieldProduct,
    foldlM_congr_of_mem fun product f hf => by rw [hdigits f hf]]

/-- A polynomial over prime fields has the value it had. -/
theorem evalPrimePolyFrom_grows (h : table.Grows table') {fuel fuel' : ℕ}
    (hty : PrimeTypeFrom table fuel ty) (hfuel : fuel ≤ table.types.length) (hle : fuel ≤ fuel')
    (hfuel' : fuel' ≤ table'.types.length) {c : List Bool} {terms : List (Term Bool)}
    (hterms : ∀ t ∈ terms, ∀ f ∈ t.1, FactorFits table ty f)
    (hterms' : ∀ t ∈ terms, ∀ f ∈ t.1, FactorFits table' ty f) :
    evalPrimePolyFrom boolRing table' fuel' ty c terms =
      evalPrimePolyFrom boolRing table fuel ty c terms := by
  induction fuel generalizing ty fuel' c terms with
  | zero => exact hty.elim
  | succ fuel ih =>
      obtain ⟨fuel', rfl⟩ : ∃ m, fuel' = m + 1 := ⟨fuel' - 1, by omega⟩
      have hty' : PrimeTypeFrom table' (fuel' + 1) ty := (primeTypeFrom_grows h hty).mono hle
      have hring : table.mulIsIdempotent ty = false :=
        mulIsIdempotent_of_prime (hty.containsPrimeField hfuel)
      have hring' : table'.mulIsIdempotent ty = false :=
        mulIsIdempotent_of_prime (hty'.containsPrimeField hfuel')
      have hknown : ∀ t ∈ terms, ∀ f ∈ t.1, (table.get f.1).isSome = true :=
        fun t ht f hf => (hterms t ht f hf).typed.known_of_prime hty hfuel
      have hpart' : ∀ {part : TypeId}, (table.valueBitWidth part).isSome = true ∧
          PrimeTypeFrom table fuel part → (table'.valueBitWidth part).isSome = true ∧
            PrimeTypeFrom table' fuel' part := by
        intro part hpart
        obtain ⟨w, hw⟩ := Option.isSome_iff_exists.mp hpart.1
        exact ⟨by rw [valueBitWidth_grows h hw]; rfl,
          (primeTypeFrom_grows h hpart.2).mono (by omega)⟩
      have hunrolled : (∃ k n, table.get ty = some (.primeField k n)) ∨
          ∃ parts, Unrolls table fuel ty parts ∧ Unrolls table' fuel' ty parts ∧
            (table.get ty).isSome = true := by
        rcases hty.cases with ⟨n, elem, get, helem⟩ | ⟨parts, get, hne, hparts⟩ |
          ⟨k, n, get, -⟩
        · refine Or.inr ⟨_, unrolls_vec get hring helem,
            unrolls_vec (h.get get) hring' (hpart' helem), ?_⟩
          rw [get]
          rfl
        · refine Or.inr ⟨_, unrolls_tuple get hring hparts,
            unrolls_tuple (h.get get) hring' fun part hmem => hpart' (hparts part hmem), ?_⟩
          rw [get]
          rfl
        · exact Or.inl ⟨k, n, get⟩
      rcases hunrolled with ⟨k, n, get⟩ | ⟨parts, hu, hu', hself⟩
      · have hself : (table.get ty).isSome = true := by
          rw [get]
          rfl
        rw [evalPrimePolyFrom, evalPrimePolyFrom, get, h.get get]
        exact foldlM_congr_of_mem
          (fun acc t ht => addFieldTerm_grows h hself ⟨k, n⟩ acc (hknown t ht)) _
      · rw [hu.eval c terms hterms, hu'.eval c terms hterms']
        have hpartWidth : ∀ part ∈ parts, table'.bitWidth part = table.bitWidth part := by
          intro part hmem
          obtain ⟨w, hw⟩ := Option.isSome_iff_exists.mp (hu.prime part hmem).1
          rw [bitWidth_eq_of_valueBitWidth hw,
            bitWidth_eq_of_valueBitWidth (valueBitWidth_grows h hw)]
        have hstart := evalParts_grows h fuel fuel' c hself hknown hpartWidth []
        apply hstart
        intro mid part post hsplit c
        dsimp only
        have hmem : part ∈ parts := by
          rw [hsplit]
          exact List.mem_append_right _ List.mem_cons_self
        apply ih (hu.prime part hmem).2 (by omega) (by omega) (by omega)
        · exact hu.forall_fits hsplit hterms
        · have hfits' := hu'.forall_fits hsplit hterms'
          have hmid : (mid.map table'.bitWidth).sum = (mid.map table.bitWidth).sum := by
            apply congrArg List.sum
            apply List.map_congr_left
            intro p hp
            apply hpartWidth
            rw [hsplit]
            exact List.mem_append_left _ hp
          have hsame : ∀ t ∈ terms, (t.1.map (partAt table' ty part
              (mid.map table'.bitWidth).sum (table'.bitWidth part)), t.2) =
              (t.1.map (partAt table ty part (mid.map table.bitWidth).sum
                (table.bitWidth part)), t.2) := by
            intro t ht
            rw [hmid, hpartWidth part hmem,
              List.map_congr_left fun f hf => partAt_grows h hself (hknown t ht f hf)]
          rwa [List.map_congr_left hsame] at hfits'

end

section
variable {table types : TypeTable} {ty : TypeId}

theorem evalTerms_grows_of_fits (h : table.Grows types) (hty : PolyType table ty) (c : Constant)
    (hwidth : types.bitWidth ty = table.bitWidth ty) {terms : List ValueTerm}
    (hfits : ∀ t ∈ terms, ∀ v ∈ t.1, ValueFits table ty v)
    (hfits' : ∀ t ∈ terms, ∀ v ∈ t.1, ValueFits types ty v) :
    evalTerms types ty c terms = evalTerms table ty c terms := by
  cases hty with
  | bits prime idem =>
      obtain ⟨hi, hp, -⟩ := idempotent_grows h h.length idem
      rw [evalTerms_bits prime idem, evalTerms_bits hp hi, hwidth]
  | @ring A prime ring means fits =>
      obtain ⟨d, hd⟩ := means.rank
      have hlt := hd.lt_length
      obtain ⟨hi, hp⟩ := rank_grows h hd hlt (hlt.trans_le h.length)
      have ring' : types.mulIsIdempotent ty = false := hi.trans ring
      have means' := means_grows h means
      rw [evalTerms_ring prime ring, evalTerms_ring hp ring']
      obtain ⟨bits, hbits, hlen, hval⟩ := evalTypedPoly_spec means fits ring (c := c) hfits
      obtain ⟨bits', hbits', hlen', hval'⟩ := evalTypedPoly_spec means' fits ring' (c := c) hfits'
      have hsum : sumAt (ringAt types ty A) (factorTerms terms) =
          sumAt (ringAt table ty A) (factorTerms terms) := by
        apply sumAt_congr
        intro t ht f hf
        exact ringAt_grows h means fits ring (forall_factorTerms hfits t ht f hf)
      rw [hbits, hbits']
      rw [hsum, ← hval] at hval'
      exact congrArg some (A.decode_inj bits' bits hlen' hlen hval')
  | prime fields width =>
      have hprime := fields.containsPrimeField le_rfl
      have hprime' := (primeType_grows h fields).containsPrimeField le_rfl
      rw [evalTerms_prime hprime c hfits, evalTerms_prime hprime' c hfits', hwidth]
      exact evalPrimePolyFrom_grows h fields le_rfl h.length le_rfl (forall_factorTerms hfits)
        (forall_factorTerms hfits')

theorem evalTerms_grows (h : table.Grows types) (hty : BinaryType table ty) (c : Constant)
    {terms : List ValueTerm} (hterms : ∀ t ∈ terms, ∀ v ∈ t.1, ValueFits table ty v ∧
      ∃ fty, v.ty = some fty ∧ BinaryType table fty) :
    evalTerms types ty c terms = evalTerms table ty c terms := by
  apply evalTerms_grows_of_fits h hty.polyType c (bitWidth_grows h hty)
  · exact fun t ht v hv => (hterms t ht v hv).1
  · intro t ht v hv
    obtain ⟨hv, fty, hvty, hfty⟩ := hterms t ht v hv
    exact valueFits_grows h hty hvty hfty hv

end
end VolarIR.Ir
