import VolarIR.Field.ProductSound

/-!
# The laws of the product

Every law of `monomial_product` is an identity in the ring its output type means: results of
one width with one value are the same string.
-/
namespace VolarIR
open Polynomial

section
variable {table : TypeTable} {id : TypeId} {A : BitAlgebra}

def withValues (v : Factor Bool → A.R) (factors : List (Factor Bool)) :
    List (Factor Bool × A.R) := factors.map fun f => (f, v f)

theorem map_fst_withValues (v : Factor Bool → A.R) (factors : List (Factor Bool)) :
    (withValues v factors).map Prod.fst = factors := by
  rw [withValues, List.map_map]
  exact List.map_id factors

theorem map_snd_withValues (v : Factor Bool → A.R) (factors : List (Factor Bool)) :
    (withValues v factors).map Prod.snd = factors.map v := by simp [withValues]

theorem exists_values {factors : List (Factor Bool)}
    (hfs : ∀ f ∈ factors, ∃ x, FactorMeans table id A f x) :
    ∃ v : Factor Bool → A.R, ∀ f ∈ factors, FactorMeans table id A f (v f) := by
  classical
  refine ⟨fun f => if hf : ∃ x, FactorMeans table id A f x then hf.choose else 0, ?_⟩
  intro f hf
  simp only [dif_pos (hfs f hf)]
  exact (hfs f hf).choose_spec

theorem FactorMeans.withValues {v : Factor Bool → A.R} {factors : List (Factor Bool)}
    (hv : ∀ f ∈ factors, FactorMeans table id A f (v f)) :
    ∀ f ∈ VolarIR.withValues v factors, FactorMeans table id A f.1 f.2 := by
  intro f hf
  obtain ⟨g, hg, rfl⟩ := List.mem_map.mp hf
  exact hv g hg

variable (h : Means table id A)
include h

theorem monomialProduct_eq_some {fs : List (Factor Bool × A.R)}
    (hfs : ∀ f ∈ fs, FactorMeans table id A f.1 f.2) {out : List Bool}
    (hlen : out.length = A.width) (hdecode : A.decode out = (fs.map Prod.snd).prod) :
    monomialProduct boolBits table id (fs.map Prod.fst) = some out := by
  obtain ⟨out', hout', hlen', hdecode'⟩ := monomialProduct_means h hfs
  rw [hout', A.decode_inj out' out hlen' hlen (hdecode'.trans hdecode.symm)]

theorem monomialProduct_perm {factors factors' : List (Factor Bool)}
    (hfs : ∀ f ∈ factors, ∃ x, FactorMeans table id A f x) (hperm : factors.Perm factors') :
    monomialProduct boolBits table id factors = monomialProduct boolBits table id factors' := by
  obtain ⟨v, hv⟩ := exists_values hfs
  have hv' : ∀ f ∈ factors', FactorMeans table id A f (v f) := fun f hf =>
    hv f (hperm.mem_iff.mpr hf)
  obtain ⟨out, hout, hlen, hdecode⟩ := monomialProduct_means h (FactorMeans.withValues hv)
  have heq := monomialProduct_eq_some h (FactorMeans.withValues hv') hlen (by
    rw [hdecode, map_snd_withValues, map_snd_withValues, (hperm.map v).prod_eq])
  rw [map_fst_withValues] at hout heq
  rw [hout, heq]

theorem monomialProduct_two {f g : Factor Bool} {x y : A.R} (hf : FactorMeans table id A f x)
    (hg : FactorMeans table id A g y) :
    ∃ out, monomialProduct boolBits table id [f, g] = some out ∧ out.length = A.width ∧
      A.decode out = x * y := by
  have hfs : ∀ p ∈ [(f, x), (g, y)], FactorMeans table id A p.1 p.2 := by
    intro p hp
    simp only [List.mem_cons, List.not_mem_nil, or_false] at hp
    rcases hp with rfl | rfl
    · exact hf
    · exact hg
  obtain ⟨out, hout, hlen, hdecode⟩ := monomialProduct_means h hfs
  exact ⟨out, hout, hlen, by rw [hdecode]; simp⟩

theorem monomialProduct_pair {a b : List Bool} (ha : a.length = A.width)
    (hb : b.length = A.width) {out : List Bool} (hlen : out.length = A.width)
    (hdecode : A.decode out = A.decode a * A.decode b) :
    monomialProduct boolBits table id [(id, a), (id, b)] = some out := by
  obtain ⟨out', hout', hlen', hdecode'⟩ := monomialProduct_two h
    (.own (TypeTable.sameType_self id) ha) (.own (TypeTable.sameType_self id) hb)
  rw [hout', A.decode_inj out' out hlen' hlen (hdecode'.trans hdecode.symm)]

theorem exists_monomialProduct_pair {a b : List Bool} (ha : a.length = A.width)
    (hb : b.length = A.width) :
    ∃ out, out.length = A.width ∧ A.decode out = A.decode a * A.decode b ∧
      monomialProduct boolBits table id [(id, a), (id, b)] = some out := by
  obtain ⟨out, hlen, hdecode⟩ := A.decode_surj (A.decode a * A.decode b)
  exact ⟨out, hlen, hdecode, monomialProduct_pair h ha hb hlen hdecode⟩

/-- Associativity. -/
theorem monomialProduct_assoc {a b c : List Bool} (ha : a.length = A.width)
    (hb : b.length = A.width) (hc : c.length = A.width) :
    ∃ ab bc, monomialProduct boolBits table id [(id, a), (id, b)] = some ab ∧
      monomialProduct boolBits table id [(id, b), (id, c)] = some bc ∧
      monomialProduct boolBits table id [(id, ab), (id, c)] =
        monomialProduct boolBits table id [(id, a), (id, bc)] := by
  obtain ⟨ab, hlen, hdecode, hab⟩ := exists_monomialProduct_pair h ha hb
  obtain ⟨bc, hlen', hdecode', hbc⟩ := exists_monomialProduct_pair h hb hc
  obtain ⟨out, hlen'', hdecode'', hout⟩ := exists_monomialProduct_pair h hlen hc
  refine ⟨ab, bc, hab, hbc, ?_⟩
  rw [hout, monomialProduct_pair h ha hlen' hlen''
      (by rw [hdecode'', hdecode, hdecode', mul_assoc])]

/-- Distributivity over exclusive or. -/
theorem monomialProduct_xor {a b c : List Bool} (ha : a.length = A.width)
    (hb : b.length = A.width) (hc : c.length = A.width) :
    ∃ ab ac, monomialProduct boolBits table id [(id, a), (id, b)] = some ab ∧
      monomialProduct boolBits table id [(id, a), (id, c)] = some ac ∧
      monomialProduct boolBits table id [(id, a), (id, List.zipWith xor b c)] =
        some (List.zipWith xor ab ac) := by
  obtain ⟨ab, hlen, hdecode, hab⟩ := exists_monomialProduct_pair h ha hb
  obtain ⟨ac, hlen', hdecode', hac⟩ := exists_monomialProduct_pair h ha hc
  refine ⟨ab, ac, hab, hac, ?_⟩
  apply monomialProduct_pair h ha (by simp [hb, hc]) (by simp [hlen, hlen'])
  rw [A.decode_xor _ _ hlen hlen', hdecode, hdecode', A.decode_xor _ _ hb hc, mul_add]

theorem monomialProduct_one : monomialProduct boolBits table id [] = some A.one ∧
    ∀ a, a.length = A.width →
      monomialProduct boolBits table id [(id, a), (id, A.one)] = some a := by
  constructor
  · have hnil : ∀ f ∈ ([] : List (Factor Bool × A.R)), FactorMeans table id A f.1 f.2 := nofun
    exact monomialProduct_eq_some h hnil A.length_one A.decode_one
  · intro a ha
    exact monomialProduct_pair h ha A.length_one ha (by rw [A.decode_one, mul_one])

/-- A `Bit` factor keeps the element or clears it. -/
theorem monomialProduct_gate {ty : TypeId} (hty : table.isBit ty = true) (b : Bool) {a : List Bool}
    (ha : a.length = A.width) :
    monomialProduct boolBits table id [(ty, [b]), (id, a)] = some (if b then a else A.zero) := by
  obtain ⟨out, hout, hlen, hdecode⟩ := monomialProduct_two h (.gate (b := b) hty)
    (.own (TypeTable.sameType_self id) ha)
  rw [hout]
  congr 1
  cases b with
  | true => exact A.decode_inj _ _ hlen ha (by rw [hdecode]; simp)
  | false => exact A.decode_inj _ _ hlen A.length_zero (by rw [hdecode]; simp)

end

/-- A vector multiplies lane by lane: slices of the vectors, every other factor whole. -/
theorem monomialProduct_lanes {table : TypeTable} {id elem : TypeId} {n : ℕ} {A : BitAlgebra}
    (get : table.get id = some (.vec n elem)) (h : Means table elem A) (fits : A.width ≤ usizeMax)
    {factors : List (Factor Bool)} (hfs : ∀ f ∈ factors, ∃ x, FactorMeans table id (A.vec n) f x) :
    ∃ out, monomialProduct boolBits table id factors = some out ∧ out.length = n * A.width ∧
      ∀ k, k < n → monomialProduct boolBits table elem
        (factors.map (laneFactor table id elem A.width k)) =
          some (BitAlgebra.lane A.width k out) := by
  obtain ⟨v, hv⟩ := exists_values hfs
  obtain ⟨d, hd⟩ := h.rank
  obtain ⟨out, hout, hlen, hdecode⟩ :=
    monomialProduct_means (.vec get h fits) (FactorMeans.withValues hv)
  rw [map_fst_withValues] at hout
  refine ⟨out, hout, hlen, fun k hk => ?_⟩
  let lanes := (withValues v factors).map fun f =>
    (laneFactor table id elem A.width k f.1, f.2 ⟨k, hk⟩)
  have hlanes : ∀ f ∈ lanes, FactorMeans table elem A f.1 f.2 := by
    intro f hf
    obtain ⟨g, hg, rfl⟩ := List.mem_map.mp hf
    exact (FactorMeans.withValues hv g hg).lane get hd ⟨k, hk⟩
  have heq := monomialProduct_eq_some h hlanes (BitAlgebra.length_lane hk hlen) (by
    rw [List.map_map]
    exact (congrFun hdecode ⟨k, hk⟩).trans (prod_lane _ ⟨k, hk⟩).symm)
  have hfst : lanes.map Prod.fst = factors.map (laneFactor table id elem A.width k) := by
    simp [lanes, withValues, List.map_map, Function.comp_def]
  rwa [hfst] at heq

/-- `wrapped[x]/(irreducible)`. -/
noncomputable abbrev quotientField {G : BitField} {degree : ℕ} {irreducible : List U64}
    (hm : Modulus G degree irreducible) (hi : Irreducible (modulusOf G irreducible)) : BitField :=
  G.ext (modulusOf G irreducible) hm.monic hi

theorem decode_constant {G : BitField} {degree : ℕ} {irreducible : List U64}
    (hm : Modulus G degree irreducible) (hi : Irreducible (modulusOf G irreducible))
    {c : List Bool} (hc : c.length = G.width) :
    (quotientField hm hi).decode (c ++ List.replicate (degree * G.width - G.width) false) =
      AdjoinRoot.of (modulusOf G irreducible) (G.decode c) := by
  have hpos : 0 < degree := hm.natDegree_eq ▸ hi.natDegree_pos
  have hflat : c ++ List.replicate (degree * G.width - G.width) false =
      (c :: List.replicate (degree - 1) G.zeroBits).flatten := by
    rw [List.flatten_cons, BitField.zeroBits, List.flatten_replicate_replicate, Nat.sub_mul,
      Nat.one_mul]
  have hall : ∀ b ∈ c :: List.replicate (degree - 1) G.zeroBits, b.length = G.width := by
    intro b hb
    cases List.mem_cons.mp hb with
    | inl heq => rw [heq, hc]
    | inr hmem => rw [List.eq_of_mem_replicate hmem, G.length_zeroBits]
  have hlen : (c :: List.replicate (degree - 1) G.zeroBits).length = degree := by
    rw [List.length_cons, List.length_replicate, Nat.sub_add_cancel hpos]
  have hchunks := BitField.chunks_flatten hall
  rw [hlen] at hchunks
  have hdecode : (quotientField hm hi).decode
      (c :: List.replicate (degree - 1) G.zeroBits).flatten =
        AdjoinRoot.mk (modulusOf G irreducible)
          (G.poly (c :: List.replicate (degree - 1) G.zeroBits)) := by
    change G.extDecode (modulusOf G irreducible) _ = _
    rw [BitField.extDecode, hm.natDegree_eq, hchunks]
  rw [hflat, hdecode, BitField.poly_cons, G.poly_replicate_zeroBits, mul_zero, add_zero,
    AdjoinRoot.mk_C]

/-- The product at `id` is that of `F`, with the constants of `G` and the inverse `inv`. -/
structure FieldProduct (table : TypeTable) (id wrapped : TypeId) (G F : BitField)
    (const : G.K → F.K) (one : List Bool) (inv : List Bool → List Bool) : Prop where
  /-- Elements, gates and constants multiply as what they mean. -/
  product : ∀ fs : List (Factor Bool × F.K),
    (∀ f ∈ fs, FactorMeans table id (.ofField F) f.1 f.2) →
    ∃ out, monomialProduct boolBits table id (fs.map Prod.fst) = some out ∧
      out.length = F.width ∧ F.decode out = (fs.map Prod.snd).prod
  comm : ∀ factors factors' : List (Factor Bool),
    (∀ f ∈ factors, ∃ x, FactorMeans table id (.ofField F) f x) → factors.Perm factors' →
    monomialProduct boolBits table id factors = monomialProduct boolBits table id factors'
  assoc : ∀ a b c : List Bool, a.length = F.width → b.length = F.width → c.length = F.width →
    ∃ ab bc, monomialProduct boolBits table id [(id, a), (id, b)] = some ab ∧
      monomialProduct boolBits table id [(id, b), (id, c)] = some bc ∧
      monomialProduct boolBits table id [(id, ab), (id, c)] =
        monomialProduct boolBits table id [(id, a), (id, bc)]
  distrib : ∀ a b c : List Bool, a.length = F.width → b.length = F.width → c.length = F.width →
    ∃ ab ac, monomialProduct boolBits table id [(id, a), (id, b)] = some ab ∧
      monomialProduct boolBits table id [(id, a), (id, c)] = some ac ∧
      monomialProduct boolBits table id [(id, a), (id, List.zipWith xor b c)] =
        some (List.zipWith xor ab ac)
  empty : monomialProduct boolBits table id [] = some one
  unit : ∀ a : List Bool, a.length = F.width →
    monomialProduct boolBits table id [(id, a), (id, one)] = some a
  gate : ∀ (ty : TypeId) (b : Bool) (a : List Bool), table.isBit ty = true →
    a.length = F.width → monomialProduct boolBits table id [(ty, [b]), (id, a)] =
      some (if b then a else F.zeroBits)
  constant : ∀ (ty : TypeId) (c a : List Bool), table.sameType ty wrapped = true →
    c.length = G.width → a.length = F.width →
    ∃ out, monomialProduct boolBits table id [(ty, c), (id, a)] = some out ∧
      out.length = F.width ∧ F.decode out = const (G.decode c) * F.decode a
  inverse : ∀ a : List Bool, a.length = F.width → a ≠ F.zeroBits →
    monomialProduct boolBits table id [(id, a), (id, inv a)] = some one

section
variable {table : TypeTable} {id wrapped : TypeId} {degree : ℕ} {irreducible : List U64}
  {G : BitField} (get : table.get id = some (.extField wrapped degree irreducible))
  (hm : Modulus G degree irreducible) (hi : Irreducible (modulusOf G irreducible))

theorem width_quotientField : (quotientField hm hi).width = degree * G.width :=
  congrArg (· * G.width) hm.natDegree_eq

noncomputable def constOf (c : G.K) : (quotientField hm hi).K :=
  AdjoinRoot.of (modulusOf G irreducible) c

include get

theorem factorMeans_constant {ty : TypeId} (same : table.sameType ty wrapped = true)
    {c : List Bool} (hc : c.length = G.width) :
    FactorMeans table id (.ofField (quotientField hm hi)) (ty, c) (constOf hm hi (G.decode c)) := by
  have hwidth := width_quotientField hm hi
  have hlen : degree * c.length = (BitAlgebra.ofField (quotientField hm hi)).width := by
    rw [hc]
    exact hwidth.symm
  have hmeans := FactorMeans.constant get same hlen
  have hdecode := decode_constant hm hi hc
  rw [← hwidth, ← hc] at hdecode
  rw [constOf, ← hdecode]
  exact hmeans

/-- A factor of the wrapped type multiplies by the constant it is. -/
theorem monomialProduct_constant (h : Means table id (.ofField (quotientField hm hi)))
    {ty : TypeId} (same : table.sameType ty wrapped = true) {c a : List Bool}
    (hc : c.length = G.width) (ha : a.length = (quotientField hm hi).width) :
    ∃ out, monomialProduct boolBits table id [(ty, c), (id, a)] = some out ∧
      out.length = (quotientField hm hi).width ∧ (quotientField hm hi).decode out =
        constOf hm hi (G.decode c) * (quotientField hm hi).decode a :=
  monomialProduct_two h (factorMeans_constant get hm hi same hc)
    (.own (TypeTable.sameType_self id) ha)

end

end VolarIR
