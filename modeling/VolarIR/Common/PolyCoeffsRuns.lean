import VolarIR.Common.PolyCoeffsSound

/-!
# The collection over runs of calls

Next to every call stands what it does to a map. A run is a map throughout exactly when no
sort in it meets keys that its order puts elsewhere.
-/
namespace VolarIR.Common
open SortedMap

namespace PolyCoeffs
open PolyKey

/-- The calls that build or change a collection. A closure that is called once per entry is
a function of the call's number. -/
inductive Op (V : Type) where
  | fromIter (entries : List (List V × BitVec 8))
  | single (key : List V) (coeff : BitVec 8)
  | insert (key : List V) (coeff : BitVec 8)
  | entryOrInsert (key : List V) (default : BitVec 8) (update : BitVec 8 → BitVec 8)
  | remove (key : List V)
  | retain (f : ℕ → List V → BitVec 8 → BitVec 8 × Bool)
  | remap (f : ℕ → List V → List V) (length_eq : ∀ i vars, (f i vars).length = vars.length)

variable {V : Type}

/-- The entries a `retain` leaves. -/
def kept (f : ℕ → List V → BitVec 8 → BitVec 8 × Bool) (entries : List (List V × BitVec 8)) :
    List (List V × BitVec 8) :=
  (entries.mapIdx fun i e => ((e.1, (f i e.1 e.2).1), (f i e.1 e.2).2)).filterMap fun e =>
    if e.2 then some e.1 else none

def remapped (f : ℕ → List V → List V) (entries : List (List V × BitVec 8)) :
    List (List V × BitVec 8) :=
  entries.mapIdx fun i e => (f i e.1, e.2)

theorem kept_cons (f : ℕ → List V → BitVec 8 → BitVec 8 × Bool) (e : List V × BitVec 8)
    (l : List (List V × BitVec 8)) : kept f (e :: l) =
      (if (f 0 e.1 e.2).2 then [(e.1, (f 0 e.1 e.2).1)] else []) ++
        kept (fun i => f (i + 1)) l := by
  rw [kept, List.mapIdx_cons, List.filterMap_cons]
  cases hkeep : (f 0 e.1 e.2).2 <;> rfl

theorem keys_kept_sublist (f : ℕ → List V → BitVec 8 → BitVec 8 × Bool)
    (l : List (List V × BitVec 8)) :
    ((kept f l).map Prod.fst).Sublist (l.map Prod.fst) := by
  induction l generalizing f with
  | nil => exact List.Sublist.slnil
  | cons e rest ih =>
      rw [kept_cons, List.map_append, List.map_cons]
      split
      case isTrue => exact (ih _).cons_cons e.1
      case isFalse => exact (ih _).cons e.1

theorem retain_stored (f : ℕ → List V → BitVec 8 → BitVec 8 × Bool)
    (l : List (List V × BitVec 8)) : (PolyCoeffs.mk (stored l)).retain f = ⟨stored (kept f l)⟩ := by
  induction l generalizing f with
  | nil => rfl
  | cons e rest ih =>
      have htail := congrArg entries (ih fun i => f (i + 1))
      rw [kept_cons]
      unfold PolyCoeffs.retain at htail ⊢
      rw [stored, List.map_cons, List.mapIdx_cons, List.filterMap_cons]
      simp only [asSlice_fromVec]
      cases hkeep : (f 0 e.1 e.2).2 with
      | false => exact congrArg mk htail
      | true => exact congrArg (fun l => mk ((fromVec e.1, (f 0 e.1 e.2).1) :: l)) htail

theorem mapIdx_stored {f : ℕ → List V → List V} (hf : ∀ i vars, (f i vars).length = vars.length)
    (l : List (List V × BitVec 8)) :
    ((stored l).mapIdx fun i e => (e.1.mapSlice (f i), e.2)) = stored (remapped f l) := by
  induction l generalizing f with
  | nil => rfl
  | cons e rest ih =>
      rw [stored, List.map_cons, List.mapIdx_cons, mapSlice_fromVec (hf 0), remapped,
        List.mapIdx_cons, stored, List.map_cons]
      exact congrArg _ (ih fun i => hf (i + 1))

variable [LinearOrder V]

namespace Op

def apply : Op V → PolyCoeffs V → PolyCoeffs V
  | fromIter entries, _ => .fromIter entries
  | single key coeff, _ => .single key coeff
  | insert key coeff, c => (c.insert key coeff).2
  | entryOrInsert key default update, c => c.entryOrInsert key default update
  | remove key, c => (c.remove key).2
  | retain f, c => c.retain f
  | remap f _, c => c.remapMonomialsInPlace f

/-- The call on a map: what is written last stays. -/
def spec : Op V → SortedMap (List V) (BitVec 8) → SortedMap (List V) (BitVec 8)
  | fromIter entries, _ => ofList entries
  | single key coeff, _ => ofList [(key, coeff)]
  | insert key coeff, m => m.upsert key fun _ => coeff
  | entryOrInsert key default update, m => m.upsert key fun o => update (o.getD default)
  | remove key, m => m.erase key
  | retain f, m => ofList (kept f m.entries)
  | remap f _, m => ofList (remapped f m.entries)

/-- The two calls that can sort meet keys on which the derived order is lexicographic, or do
not sort. -/
def Keeps (m : SortedMap (List V) (BitVec 8)) : Op V → Prop
  | fromIter entries => Aligned (entries.map Prod.fst)
  | remap f _ => Sorted (remapped f m.entries) ∨ Aligned ((remapped f m.entries).map Prod.fst)
  | _ => True

end Op

theorem increasing_keys {c : PolyCoeffs V} :
    c.keys.Pairwise (· < ·) ↔ (c.entries.map fun e => e.1.asSlice).Pairwise (· < ·) := by
  rw [PolyCoeffs.keys, PolyCoeffs.iter, List.map_map]
  rfl

theorem outOfOrder_stored {l : List (List V × BitVec 8)} :
    outOfOrder (stored l) = false ↔ Sorted l := by
  induction l with
  | nil => exact iff_of_true rfl List.Pairwise.nil
  | cons a rest ih =>
      cases rest with
      | nil => exact iff_of_true rfl (List.pairwise_singleton _ _)
      | cons b rest =>
          have hsplit : outOfOrder (stored (a :: b :: rest))
              = (decide (b.1 ≤ a.1) || outOfOrder (stored (b :: rest))) := by
            simp [outOfOrder, stored]
          rw [hsplit, Bool.or_eq_false_iff, decide_eq_false_iff_not, not_le, ih]
          constructor
          · rintro ⟨hab, hrest⟩
            apply List.pairwise_cons.mpr ⟨?_, hrest⟩
            intro x hx
            rcases List.mem_cons.mp hx with rfl | hx
            · exact hab
            · exact hab.trans ((List.pairwise_cons.mp hrest).1 x hx)
          · intro h
            exact ⟨(List.pairwise_cons.mp h).1 b List.mem_cons_self, (List.pairwise_cons.mp h).2⟩

theorem sorted_kept (f : ℕ → List V → BitVec 8 → BitVec 8 × Bool) {l : List (List V × BitVec 8)}
    (h : Sorted l) : Sorted (kept f l) :=
  List.pairwise_map.mp ((List.pairwise_map.mpr h).sublist (keys_kept_sublist f l))

section
variable {c : PolyCoeffs V} {m : SortedMap (List V) (BitVec 8)}

theorem Represents.retain (h : Represents c m) (f : ℕ → List V → BitVec 8 → BitVec 8 × Bool) :
    Represents (c.retain f) (ofList (kept f m.entries)) := by
  have hc : c = ⟨stored m.entries⟩ := congrArg mk h
  rw [Represents, entries_ofList_of_sorted (sorted_kept f m.sorted), hc, retain_stored]

theorem represents_fromIter {l : List (List V × BitVec 8)} (h : Aligned (l.map Prod.fst)) :
    Represents (.fromIter l) (ofList l) :=
  canonicalize_stored h

theorem Represents.entries_remap (h : Represents c m) {f : ℕ → List V → List V}
    (hf : ∀ i vars, (f i vars).length = vars.length) :
    (c.remapMonomialsInPlace f).entries =
      if Sorted (remapped f m.entries) then stored (remapped f m.entries)
      else canonicalize (stored (remapped f m.entries)) := by
  unfold remapMonomialsInPlace
  rw [h, mapIdx_stored hf]
  dsimp only
  split
  case isTrue hout =>
    have hsorted : ¬ Sorted (remapped f m.entries) := fun hs => by
      rw [outOfOrder_stored.mpr hs] at hout
      cases hout
    rw [if_neg hsorted]
  case isFalse hout =>
    rw [if_pos (outOfOrder_stored.mp (Bool.not_eq_true _ ▸ hout))]

theorem Represents.remap (h : Represents c m) {f : ℕ → List V → List V}
    (hf : ∀ i vars, (f i vars).length = vars.length)
    (hkeeps : Sorted (remapped f m.entries) ∨ Aligned ((remapped f m.entries).map Prod.fst)) :
    Represents (c.remapMonomialsInPlace f) (ofList (remapped f m.entries)) := by
  rw [Represents, h.entries_remap hf]
  split
  case isTrue hsorted => rw [entries_ofList_of_sorted hsorted]
  case isFalse hsorted => exact canonicalize_stored (hkeeps.resolve_left hsorted)

theorem Represents.apply (h : Represents c m) {op : Op V} (hkeeps : op.Keeps m) :
    Represents (op.apply c) (op.spec m) := by
  cases op with
  | fromIter entries => exact represents_fromIter hkeeps
  | single key coeff => rfl
  | insert key coeff => exact (h.insert key coeff).2
  | entryOrInsert key default update => exact h.entryOrInsert key default update
  | remove key => exact (h.remove key).2
  | retain f => exact h.retain f
  | remap f hf => exact h.remap hf hkeeps

theorem Represents.keeps (h : Represents c m) {op : Op V}
    (hkeys : (op.apply c).keys.Pairwise (· < ·)) : op.Keeps m := by
  rw [increasing_keys] at hkeys
  cases op with
  | fromIter entries => exact aligned_of_canonicalize hkeys
  | remap f hf =>
      rw [Op.apply, h.entries_remap hf] at hkeys
      split at hkeys
      case isTrue hsorted => exact .inl hsorted
      case isFalse => exact .inr (aligned_of_canonicalize hkeys)
  | single _ _ => trivial
  | insert _ _ => trivial
  | entryOrInsert _ _ _ => trivial
  | remove _ => trivial
  | retain _ => trivial

end

def run (ops : List (Op V)) : PolyCoeffs V := ops.foldl (fun c op => op.apply c) new

def history (ops : List (Op V)) : SortedMap (List V) (BitVec 8) :=
  ops.foldl (fun m op => op.spec m) SortedMap.empty

def AcceptedFrom (m : SortedMap (List V) (BitVec 8)) : List (Op V) → Prop
  | [] => True
  | op :: ops => op.Keeps m ∧ AcceptedFrom (op.spec m) ops

def Accepted (ops : List (Op V)) : Prop := AcceptedFrom SortedMap.empty ops

/-- What a collection promises of the map it should be: the keys it yields increase, every
call that takes a key finds it exactly when it is among them, and the coefficients are those
of the map. -/
structure IsMap (c : PolyCoeffs V) (m : SortedMap (List V) (BitVec 8)) : Prop where
  increasing : c.keys.Pairwise (· < ·)
  found : ∀ key, (∃ i, c.keyIndex key = .ok i) ↔ key ∈ c.keys
  stored : ∀ key coeff, (key, coeff) ∈ c.iter ↔ m.get key = some coeff
  get : ∀ key, c.get key = m.get key
  insert : ∀ key coeff, (c.insert key coeff).1 = m.get key
  remove : ∀ key, (c.remove key).1 = m.get key

theorem Represents.isMap {c : PolyCoeffs V} {m : SortedMap (List V) (BitVec 8)}
    (h : Represents c m) : IsMap c m where
  increasing := by
    rw [h.keys]
    exact List.pairwise_map.mpr m.sorted
  found := h.found
  stored := fun key coeff => by rw [h.iter, mem_entries_iff]
  get := h.get
  insert := fun key coeff => (h.insert key coeff).1
  remove := fun key => (h.remove key).1

theorem represents_foldl {ops : List (Op V)} {c : PolyCoeffs V} {m : SortedMap (List V) (BitVec 8)}
    (h : Represents c m) (hacc : AcceptedFrom m ops) :
    Represents (ops.foldl (fun c op => op.apply c) c) (ops.foldl (fun m op => op.spec m) m) := by
  induction ops generalizing c m with
  | nil => exact h
  | cons op ops ih => exact ih (h.apply hacc.1) hacc.2

theorem acceptedFrom_take {ops : List (Op V)} {m : SortedMap (List V) (BitVec 8)}
    (h : AcceptedFrom m ops) (k : ℕ) : AcceptedFrom m (ops.take k) := by
  induction ops generalizing m k with
  | nil => rwa [List.take_nil]
  | cons op ops ih =>
      cases k with
      | zero => trivial
      | succ k => exact ⟨h.1, ih h.2 k⟩

theorem acceptedFrom_of_increasing {ops : List (Op V)} {c : PolyCoeffs V}
    {m : SortedMap (List V) (BitVec 8)} (h : Represents c m)
    (hkeys : ∀ k, ((ops.take k).foldl (fun c op => op.apply c) c).keys.Pairwise (· < ·)) :
    AcceptedFrom m ops := by
  induction ops generalizing c m with
  | nil => trivial
  | cons op ops ih =>
      have hkeeps : op.Keeps m := h.keeps (hkeys 1)
      exact ⟨hkeeps, ih (h.apply hkeeps) fun k => hkeys (k + 1)⟩

theorem represents_run {ops : List (Op V)} (h : Accepted ops) :
    Represents (run ops) (history ops) :=
  represents_foldl (by rfl) h

theorem cmp_self (c : PolyCoeffs V) : cmp c c = .eq := by
  unfold cmp
  induction c.entries with
  | nil => rfl
  | cons e rest ih =>
      rw [List.compareLex_cons_cons, ih, cmpEntry, Std.ReflOrd.compare_self,
        Std.ReflOrd.compare_self]
      rfl

/-- The collection is a map after every call exactly when each sort meets keys on which its
order is lexicographic; and then the pairs determine the collection. -/
theorem run_isMap_iff (ops : List (Op V)) :
    ((∀ k, IsMap (run (ops.take k)) (history (ops.take k))) ↔ Accepted ops) ∧
      (Accepted ops → ∀ ops', Accepted ops' →
        (∀ e, e ∈ (run ops).iter ↔ e ∈ (run ops').iter) →
          run ops = run ops' ∧ cmp (run ops) (run ops') = .eq) := by
  constructor
  · constructor
    · intro h
      exact acceptedFrom_of_increasing (c := new) (by rfl) fun k => (h k).increasing
    · intro h k
      exact (represents_run (acceptedFrom_take h k)).isMap
  · intro h ops' h' hsame
    have hrep := represents_run h
    have hrep' := represents_run h'
    rw [hrep.iter, hrep'.iter] at hsame
    have hmaps : history ops = history ops' := SortedMap.ext_entries hsame
    have heq : run ops = run ops' := by
      have hentries : (run ops).entries = (run ops').entries := by rw [hrep, hrep', hmaps]
      exact congrArg mk hentries
    exact ⟨heq, heq ▸ cmp_self (run ops)⟩

/-- A key of one variable and a longer one below it: the short one is yielded first, and is not
found. -/
theorem not_run_isMap : ¬ ∀ ops : List (Op ℕ), IsMap (run ops) (history ops) := by
  intro h
  have hkeys := (h [.fromIter [([3], 2), ([0, 5], 1)]]).increasing
  have hiter : (run [Op.fromIter [([3], 2), ([0, 5], 1)]]).keys = [[3], [0, 5]] := by
    decide +kernel
  rw [hiter] at hkeys
  exact absurd hkeys (by decide)

end PolyCoeffs
end VolarIR.Common
