import VolarIR.Lir.Simulation
import VolarIR.Lir.BitArithmetic

/-!
# Builders that emit into an arena

A builder whose wires are places of an arena, with a table of what the places hold. A gate that
sums monomials may be wrong when two of its wires are the same; the gates of a run are
written down, and a run without a faulty gate computes what the algorithm computes on bits.
-/
namespace VolarIR.Lir

inductive Gate (Bit : Type) where
  | xor (a b : Bit)
  | carry (a b c : Bit)
  deriving DecidableEq, Repr

namespace Gate
variable {Bit : Type}

def wires : Gate Bit → List Bit
  | xor a b => [a, b]
  | carry a b c => [a, b, c]

/-- Two of the monomials are one and the same, and its value is on: collected under one key
they count once. -/
def Collapses [DecidableEq Bit] (on : Bit → Bool) : Gate Bit → Prop
  | xor a b => a = b ∧ on a = true
  | carry a b c => (a = b ∨ a = c ∨ b = c) ∧ ¬(a = b ∧ b = c) ∧
      on a = true ∧ on b = true ∧ on c = true

instance [DecidableEq Bit] (on : Bit → Bool) (g : Gate Bit) : Decidable (g.Collapses on) := by
  cases g <;> exact inferInstanceAs (Decidable (_ ∧ _))

theorem Collapses.congr [DecidableEq Bit] {on on' : Bit → Bool} {g : Gate Bit}
    (h : g.Collapses on) (heq : ∀ w ∈ g.wires, on w = on' w) : g.Collapses on' := by
  cases g with
  | xor a b => exact ⟨h.1, heq a (by simp [wires]) ▸ h.2⟩
  | carry a b c =>
      exact ⟨h.1, h.2.1, heq a (by simp [wires]) ▸ h.2.2.1, heq b (by simp [wires]) ▸ h.2.2.2.1,
        heq c (by simp [wires]) ▸ h.2.2.2.2⟩

end Gate

structure Watched (B Bit : Type) where
  base : B
  gates : List (Gate Bit)

namespace Watched
variable {B Bit : Type} {α : Type}

def lift (p : StateM B α) : StateM (Watched B Bit) α :=
  fun w => ((p w.base).1, { w with base := (p w.base).2 })

def record (g : Gate Bit) (p : StateM B α) : StateM (Watched B Bit) α :=
  fun w => ((p w.base).1, ⟨(p w.base).2, w.gates ++ [g]⟩)

variable [BitCircuitBuilder B Bit]

instance : BitCircuitBuilder (Watched B Bit) Bit where
  bcConst val := lift (bcConst val)
  bcXor a b := record (.xor a b) (bcXor a b)
  bcAnd a b := lift (bcAnd a b)
  bcNot a := lift (bcNot a)
  bcCarry3 a b c := record (.carry a b c) (bcCarry3 a b c)

def unwatched : Simulation (Watched B Bit) Bit B Bit where
  Inv w := w.1.base = w.2
  Wire _ := Eq

theorem unwatched_sound : (unwatched : Simulation (Watched B Bit) Bit B Bit).Sound := by
  constructor
  · rintro ⟨⟨b, gates⟩, b'⟩ (rfl : b = b') val
    exact ⟨⟨rfl, id⟩, rfl⟩
  · rintro ⟨⟨b, gates⟩, b'⟩ a _ x _ (rfl : b = b') rfl rfl
    exact ⟨⟨rfl, id⟩, rfl⟩
  · rintro ⟨⟨b, gates⟩, b'⟩ a _ x _ (rfl : b = b') rfl rfl
    exact ⟨⟨rfl, id⟩, rfl⟩
  · rintro ⟨⟨b, gates⟩, b'⟩ a _ (rfl : b = b') rfl
    exact ⟨⟨rfl, id⟩, rfl⟩
  · rintro ⟨⟨b, gates⟩, b'⟩ a _ x _ c _ (rfl : b = b') rfl rfl rfl
    exact ⟨⟨rfl, id⟩, rfl⟩

end Watched

def gatesOf {B Bit α : Type} (b : B) (p : StateM (Watched B Bit) α) : List (Gate Bit) :=
  (p ⟨b, []⟩).2.gates

abbrev Holdings := List (List Bool)

def Holdings.on (table : Holdings) (w : ℕ) : Bool := (table.getD w []).headD false

structure Holdings.Holds (table : Holdings) (w : ℕ) (b : Bool) : Prop where
  lt : w < table.length
  bits : table.getD w [] = [b]

theorem Holdings.Holds.on_eq {table : Holdings} {w : ℕ} {b : Bool} (h : table.Holds w b) :
    table.on w = b := by
  rw [Holdings.on, h.bits]
  rfl

theorem Holdings.getD_mono {table table' : Holdings} (h : table <+: table') {w : ℕ}
    (hw : w < table.length) : table'.getD w [] = table.getD w [] := by
  obtain ⟨rest, rfl⟩ := h
  exact List.getD_append _ _ _ _ hw

theorem Holdings.Holds.mono {table table' : Holdings} {w : ℕ} {b : Bool} (h : table.Holds w b)
    (hp : table <+: table') : table'.Holds w b :=
  ⟨h.lt.trans_le hp.length_le, (getD_mono hp h.lt).trans h.bits⟩

def Holdings.Single (table : Holdings) (w : ℕ) : Prop := ∃ b, table.Holds w b

theorem Holdings.Holds.single {table : Holdings} {w : ℕ} {b : Bool} (h : table.Holds w b) :
    table.Single w := ⟨b, h⟩

def Holdings.HoldsBits (holds : Holdings) : List ℕ → List Bool → Prop := List.Forall₂ holds.Holds

structure Arena (B : Type) where
  Tab : B → Holdings → Prop
  Faulty : (ℕ → Bool) → Gate ℕ → Prop

namespace Arena
variable {B : Type} (A : Arena B)

def Emits (table : Holdings) (r : ℕ × B) (Q : Holdings → ℕ → Prop) : Prop :=
  ∃ table', A.Tab r.2 table' ∧ table <+: table' ∧ r.1 < table'.length ∧ Q table' r.1

variable {A} in
theorem Emits.mono {table : Holdings} {r : ℕ × B} {Q Q' : Holdings → ℕ → Prop}
    (h : A.Emits table r Q) (hQ : ∀ table' w, Q table' w → Q' table' w) : A.Emits table r Q' := by
  obtain ⟨table', htab, hprefix, hlt, hq⟩ := h
  exact ⟨table', htab, hprefix, hlt, hQ _ _ hq⟩

/-- Every gate that is not faulty computes its function. -/
structure Sound [BitCircuitBuilder B ℕ] : Prop where
  unique {b table table'} (h : A.Tab b table) (h' : A.Tab b table') : table = table'
  congr {on on' : ℕ → Bool} {g} (h : A.Faulty on g) (heq : ∀ w ∈ g.wires, on w = on' w) :
    A.Faulty on' g
  const {b table} (h : A.Tab b table) (val : Bool) :
    A.Emits table (bcConst val b) fun table' w => table'.Holds w val
  xor {b table x y} (h : A.Tab b table) (hx : x < table.length) (hy : y < table.length) :
    A.Emits table (bcXor x y b) fun table' w => ¬A.Faulty table.on (.xor x y) →
      ∀ {u v}, table.Holds x u → table.Holds y v → table'.Holds w (u ^^ v)
  and {b table x y} (h : A.Tab b table) (hx : x < table.length) (hy : y < table.length) :
    A.Emits table (bcAnd x y b) fun table' w =>
      ∀ {u v}, table.Holds x u → table.Holds y v → table'.Holds w (u && v)
  not {b table x} (h : A.Tab b table) (hx : x < table.length) :
    A.Emits table (bcNot x b) fun table' w => ∀ {u}, table.Holds x u → table'.Holds w (!u)
  carry3 {b table x y z} (h : A.Tab b table) (hx : x < table.length) (hy : y < table.length)
      (hz : z < table.length) :
    A.Emits table (bcCarry3 x y z b) fun table' w => ¬A.Faulty table.on (.carry x y z) →
      ∀ {u v t}, table.Holds x u → table.Holds y v → table.Holds z t →
        table'.Holds w ((u && v) ^^ ((u && t) ^^ (v && t)))

def Faultless (table : Holdings) (gates : List (Gate ℕ)) : Prop :=
  ∀ g ∈ gates, ¬A.Faulty table.on g

variable [BitCircuitBuilder B ℕ]

def onBits : Simulation (Watched B ℕ) ℕ Unit Bool where
  Inv w := ∃ table, A.Tab w.1.base table ∧ ∀ g ∈ w.1.gates, ∀ v ∈ g.wires, v < table.length
  Wire w x b := ∀ table, A.Tab w.1.base table →
    x < table.length ∧ (A.Faultless table w.1.gates → table.Holds x b)

variable {A}

theorem Faultless.of_prefix (sound : A.Sound) {table table' : Holdings}
    {gates gates' : List (Gate ℕ)} (hin : ∀ g ∈ gates, ∀ v ∈ g.wires, v < table.length)
    (hp : table <+: table') (hg : gates ⊆ gates') (h : A.Faultless table' gates') :
    A.Faultless table gates := by
  intro g hmem hfault
  apply h g (hg hmem)
  apply sound.congr hfault
  intro v hv
  rw [Holdings.on, Holdings.on, Holdings.getD_mono hp (hin g hmem v hv)]

/-- One gate, written down or not, beside the bit it stands for. -/
theorem onBits_step (sound : A.Sound) {b : B} {gates n : List (Gate ℕ)} {table : Holdings}
    {w : Watched B ℕ × Unit} (hw : w = (⟨b, gates⟩, ())) (htab : A.Tab b table)
    (hin : ∀ g ∈ gates, ∀ v ∈ g.wires, v < table.length)
    (hnew : ∀ g ∈ n, ∀ v ∈ g.wires, v < table.length) {r : ℕ × B} {v : Bool}
    {p : StateM (Watched B ℕ) ℕ} {q : StateM Unit Bool}
    (hp : p ⟨b, gates⟩ = (r.1, ⟨r.2, gates ++ n⟩)) (hq : q () = (v, ()))
    (h : A.Emits table r fun table' x =>
      A.Faultless table gates → A.Faultless table n → table'.Holds x v) :
    A.onBits.Runs w p q A.onBits.Wire := by
  subst hw
  obtain ⟨table', htab', hprefix, hlt, hval⟩ := h
  have hin' : ∀ g ∈ gates ++ n, ∀ v ∈ g.wires, v < table.length := by
    intro g hg
    rcases List.mem_append.mp hg with hg | hg
    · exact hin g hg
    · exact hnew g hg
  refine ⟨⟨?_, ?_⟩, ?_⟩
  · rw [hp, hq]
    exact ⟨table', htab', fun g hg v hv => (hin' g hg v hv).trans_le hprefix.length_le⟩
  · intro x y hwire
    rw [hp, hq]
    intro t ht
    obtain rfl := sound.unique ht htab'
    have hold := hwire table htab
    refine ⟨hold.1.trans_le hprefix.length_le, fun hf => ?_⟩
    exact (hold.2 (hf.of_prefix sound hin hprefix (List.subset_append_left _ _))).mono hprefix
  · rw [hp, hq]
    intro t ht
    obtain rfl := sound.unique ht htab'
    refine ⟨hlt, fun hf => ?_⟩
    have hf' := hf.of_prefix sound hin' hprefix (List.Subset.refl _)
    exact hval (fun g hg => hf' g (List.mem_append_left _ hg))
      (fun g hg => hf' g (List.mem_append_right _ hg))

theorem onBits_sound (sound : A.Sound) : A.onBits.Sound := by
  constructor
  case const =>
    rintro ⟨⟨b, gates⟩, _⟩ ⟨table, htab, hin⟩ val
    apply onBits_step sound rfl htab hin (n := []) (by simp) (by rw [List.append_nil]; rfl) rfl
    exact (sound.const htab val).mono fun _ _ h _ _ => h
  case xor =>
    rintro ⟨⟨b, gates⟩, _⟩ x u y v ⟨table, htab, hin⟩ hx hy
    have hx := hx table htab
    have hy := hy table htab
    apply onBits_step sound rfl htab hin (n := [.xor x y]) _ rfl rfl
    · exact (sound.xor htab hx.1 hy.1).mono fun _ _ h hf hn =>
        h (hn _ List.mem_cons_self) (hx.2 hf) (hy.2 hf)
    · simp [Gate.wires, hx.1, hy.1]
  case and =>
    rintro ⟨⟨b, gates⟩, _⟩ x u y v ⟨table, htab, hin⟩ hx hy
    have hx := hx table htab
    have hy := hy table htab
    apply onBits_step sound rfl htab hin (n := []) (by simp) (by rw [List.append_nil]; rfl) rfl
    exact (sound.and htab hx.1 hy.1).mono fun _ _ h hf _ => h (hx.2 hf) (hy.2 hf)
  case not =>
    rintro ⟨⟨b, gates⟩, _⟩ x u ⟨table, htab, hin⟩ hx
    have hx := hx table htab
    apply onBits_step sound rfl htab hin (n := []) (by simp) (by rw [List.append_nil]; rfl) rfl
    exact (sound.not htab hx.1).mono fun _ _ h hf _ => h (hx.2 hf)
  case carry3 =>
    rintro ⟨⟨b, gates⟩, _⟩ x u y v z t ⟨table, htab, hin⟩ hx hy hz
    have hx := hx table htab
    have hy := hy table htab
    have hz := hz table htab
    apply onBits_step sound rfl htab hin (n := [.carry x y z]) _ rfl rfl
    · exact (sound.carry3 htab hx.1 hy.1 hz.1).mono fun _ _ h hf hn =>
        h (hn _ List.mem_cons_self) (hx.2 hf) (hy.2 hf) (hz.2 hf)
    · simp [Gate.wires, hx.1, hy.1, hz.1]

section
variable {b : B} {holds : Holdings}

theorem wires_start (sound : A.Sound) (htab : A.Tab b holds) {ws : List ℕ} {bits : List Bool}
    (h : holds.HoldsBits ws bits) : A.onBits.Wires (⟨b, []⟩, ()) ws bits := by
  apply List.Forall₂.imp _ h
  intro w bit hw t ht
  rw [sound.unique ht htab]
  exact ⟨hw.lt, fun _ => hw⟩

theorem wires_self (b : B) (ws : List ℕ) : (Watched.unwatched (B := B)).Wires (⟨b, []⟩, b) ws ws :=
  List.forall₂_same.mpr fun _ _ => rfl

/-- A run whose gates are watched, the run itself, and the run on bits: when no gate was faulty,
the wires of the first hold the bits of the last. -/
theorem holds_of_runs {pw : StateM (Watched B ℕ) (List ℕ)} {p : StateM B (List ℕ)}
    {q : StateM Unit (List Bool)}
    (hbits : A.onBits.Runs (⟨b, []⟩, ()) pw q A.onBits.Wires)
    (hplain : Watched.unwatched.Runs (⟨b, []⟩, b) pw p Watched.unwatched.Wires) :
    ∃ holds', A.Tab (p b).2 holds' ∧
      (A.Faultless holds' (gatesOf b pw) → holds'.HoldsBits (p b).1 (Lir.onBits q)) := by
  have hstate : (pw ⟨b, []⟩).2.base = (p b).2 := hplain.later.inv
  have hwires : (pw ⟨b, []⟩).1 = (p b).1 := List.forall₂_eq_eq_eq ▸ hplain.result
  obtain ⟨holds', htab', -⟩ := hbits.later.inv
  refine ⟨holds', hstate ▸ htab', fun hgood => ?_⟩
  rw [← hwires]
  apply List.Forall₂.imp _ hbits.result
  intro w bit hw
  exact (hw holds' htab').2 hgood

end

end Arena
end VolarIR.Lir
