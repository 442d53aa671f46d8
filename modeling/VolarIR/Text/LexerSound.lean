import VolarIR.Text.Lexer

/-!
# The cursor stays between characters

A token reader that starts between characters ends between characters or in an error. It is
compared with the same reader under another treatment of escapes: the two agree until one of
them comes to an escape of a character of several bytes.
-/
namespace VolarIR.Text
open Utf8

variable {α β σ : Type} {l l' : Lexer}

structure Counted (l : Lexer) : Prop where
  pos_le : l.pos ≤ l.bytes.length
  counters : l.overflowChecks = true → l.line ≤ l.pos + 1 ∧ l.col ≤ l.pos + 1

structure Between (l : Lexer) : Prop extends Counted l where
  boundary : ∃ rest, dropBytes l.src l.pos = some rest

/-- The same text, at least `d` bytes on. -/
structure Ahead (d : ℕ) (l l' : Lexer) : Prop where
  src : l'.src = l.src
  checks : l'.overflowChecks = l.overflowChecks
  pos : l.pos + d ≤ l'.pos

theorem Ahead.refl (l : Lexer) : Ahead 0 l l := ⟨rfl, rfl, Nat.le_refl _⟩

theorem Ahead.trans {d e : ℕ} {l'' : Lexer} (h : Ahead d l l') (h' : Ahead e l' l'') :
    Ahead (d + e) l l'' where
  src := h'.src.trans h.src
  checks := h'.checks.trans h.checks
  pos := by
    have hfst := h.pos
    have hsnd := h'.pos
    omega

theorem Ahead.mono {d e : ℕ} (h : Ahead d l l') (hle : e ≤ d) : Ahead e l l' :=
  ⟨h.src, h.checks, Nat.le_trans (Nat.add_le_add_left hle _) h.pos⟩

theorem Ahead.bytes {d : ℕ} (h : Ahead d l l') : l'.bytes = l.bytes := congrArg Utf8.bytes h.src

def EscapesCharacter (src : List Char) : Prop :=
  ∃ front c rest, src = front ++ '\\' :: c :: rest ∧ c.utf8Size ≠ 1

structure Uncountable (l : Lexer) : Prop where
  checks : l.overflowChecks = true
  bytes : 2 ^ 32 ≤ l.bytes.length + 1

/-- How two parsers end that agree but for escapes of characters of several bytes. -/
inductive Follows (d : α → ℕ) (l : Lexer) :
    Except Stop (α × Lexer) → Except Stop (α × Lexer) → Prop
  | ok {a : α} {l' : Lexer} (ahead : Ahead (d a) l l') (between : Between l') :
      Follows d l (.ok (a, l')) (.ok (a, l'))
  | error (e : ParseError) : Follows d l (.error (.error e)) (.error (.error e))
  | overflow (h : Uncountable l) :
      Follows d l (.error (.panic .overflow)) (.error (.panic .overflow))
  | inside (why : Panic) (h : EscapesCharacter l.src) :
      Follows d l (.error (.panic why)) (.error .refused)

def Overflows (l : Lexer) (r : Except Stop (α × Lexer)) : Prop :=
  r = .error (.panic .overflow) ∧ Uncountable l

theorem Ahead.uncountable {d : ℕ} (h : Ahead d l l') (hover : Uncountable l') : Uncountable l :=
  ⟨h.checks ▸ hover.checks, h.bytes ▸ hover.bytes⟩

theorem Overflows.bind {r : Except Stop (α × Lexer)} (h : Overflows l r)
    (f : α × Lexer → Except Stop (β × Lexer)) : Overflows l (r >>= f) := by
  rw [h.1]
  exact ⟨rfl, h.2⟩

theorem Overflows.follows {d : α → ℕ} {r r' : Except Stop (α × Lexer)} (h : Overflows l r)
    (h' : Overflows l r') : Follows d l r r' := by
  rw [h.1, h'.1]
  exact .overflow h.2

/-- From between characters, the two parsers agree; a result `a` takes `d a` bytes. -/
def Goes (d : α → ℕ) (p q : Parser α) : Prop := ∀ l, Between l → Follows d l (p l) (q l)

def Tracks (p q : Parser α) : Prop := Goes (fun _ => 0) p q

def Advances (p q : Parser α) : Prop := Goes (fun _ => 1) p q

def Continues (p q : Parser (σ ⊕ α)) : Prop := Goes (Sum.elim (fun _ => 1) fun _ => 0) p q

section Rules
variable {d : α → ℕ} {e : β → ℕ} {p q : Parser α} {f g : α → Parser β}

theorem Follows.after {c : β → ℕ} {n : ℕ} {r r' : Except Stop (β × Lexer)} (h : Follows e l' r r')
    (ahead : Ahead n l l') (hle : ∀ b, c b ≤ n + e b) : Follows c l r r' := by
  cases h with
  | ok ahead' between => exact .ok ((ahead.trans ahead').mono (hle _)) between
  | error e => exact .error e
  | overflow h => exact .overflow (ahead.uncountable h)
  | inside why h => exact .inside why (ahead.src ▸ h)

theorem Goes.mono {d' : α → ℕ} (h : Goes d p q) (hle : ∀ a, d' a ≤ d a) : Goes d' p q :=
  fun l hl => (h l hl).after (.refl l) fun a => by
    rw [Nat.zero_add]
    exact hle a

theorem Goes.bind_where {c : β → ℕ} {P : α → Prop} (h : Goes d p q)
    (hp : ∀ {l a l'}, p l = .ok (a, l') → P a) (hk : ∀ a, P a → Goes e (f a) (g a))
    (hle : ∀ a b, c b ≤ d a + e b) : Goes c (p >>= f) (q >>= g) := by
  intro l hl
  change Follows c l (p l >>= fun r => f r.1 r.2) (q l >>= fun r => g r.1 r.2)
  have hfirst := h l hl
  generalize hr : p l = r, q l = r' at hfirst ⊢
  cases hfirst with
  | ok ahead between => exact (hk _ (hp hr) _ between).after ahead (hle _)
  | error e => exact .error e
  | overflow h => exact .overflow h
  | inside why h => exact .inside why h

theorem Goes.bind {c : β → ℕ} (h : Goes d p q) (hk : ∀ a, Goes e (f a) (g a))
    (hle : ∀ a b, c b ≤ d a + e b) : Goes c (p >>= f) (q >>= g) :=
  h.bind_where (fun _ => trivial) (fun a _ => hk a) hle

theorem Goes.fail (e : ParseError) : Goes d (fail e) (fail e) := fun _ _ => .error e

theorem Goes.unexpected (got : Got) : Goes d (unexpected got) (unexpected got) :=
  fun l _ => .error (.unexpectedToken l.line l.col got)

theorem Goes.pure {a : α} (ha : d a = 0) : Goes d (pure a) (pure a) :=
  fun l hl => .ok (ha ▸ .refl l) hl

theorem Tracks.pure (a : α) : Tracks (pure a) (pure a) := Goes.pure rfl

theorem Advances.tracks (h : Advances p q) : Tracks p q := Goes.mono h fun _ => Nat.zero_le _

theorem Tracks.bind (h : Tracks p q) (hk : ∀ a, Tracks (f a) (g a)) :
    Tracks (p >>= f) (q >>= g) := Goes.bind h hk fun _ _ => Nat.le_refl _

theorem Advances.bind (h : Advances p q) (hk : ∀ a, Tracks (f a) (g a)) :
    Advances (p >>= f) (q >>= g) := Goes.bind h hk fun _ _ => Nat.le_refl _

theorem Tracks.bind_advances (h : Tracks p q) (hk : ∀ a, Advances (f a) (g a)) :
    Advances (p >>= f) (q >>= g) := Goes.bind h hk fun _ _ => Nat.le_refl _

variable {γ : Type} {u v : α → Parser (σ ⊕ γ)}

theorem Tracks.bind_continues (h : Tracks p q) (hk : ∀ a, Continues (u a) (v a)) :
    Continues (p >>= u) (q >>= v) := Goes.bind h hk fun _ _ => Nat.le_of_eq (Nat.zero_add _).symm

theorem Advances.bind_continues (h : Advances p q) (hk : ∀ a, Tracks (u a) (v a)) :
    Continues (p >>= u) (q >>= v) := by
  apply Goes.bind h hk
  rintro _ (s | a)
  · exact Nat.le_refl 1
  · exact Nat.zero_le 1

theorem Continues.break (a : γ) : Continues (σ := σ) (.pure (.inr a)) (.pure (.inr a)) :=
  Goes.pure rfl

end Rules

section Loops
variable {round round' : σ → Parser (σ ⊕ α)}

theorem rounds_follows (h : ∀ s, Continues (round s) (round' s)) {left : ℕ}
    (hl : Between l) (hleft : l.left < left) (s : σ) :
    Follows (fun _ => 0) l (rounds round left s l) (rounds round' left s l) := by
  induction left generalizing l s with
  | zero => exact absurd hleft (Nat.not_lt_zero _)
  | succ left ih =>
      change Follows _ l (round s l >>= fun r => _) (round' s l >>= fun r => _)
      have hround := h s l hl
      generalize round s l = r, round' s l = r' at hround ⊢
      cases hround with
      | @ok a l' ahead between =>
          cases a with
          | inl s' =>
              have hstep : Ahead 1 l l' := ahead
              have hle := between.pos_le
              have hpos := hstep.pos
              have hlt : l'.left < left := by
                rw [Lexer.left] at hleft ⊢
                rw [hstep.bytes] at hle ⊢
                omega
              exact (ih between hlt s').after hstep fun _ => Nat.zero_le _
          | inr a => exact .ok ahead between
      | error e => exact .error e
      | overflow h => exact .overflow h
      | inside why h => exact .inside why h

theorem tracks_loop (h : ∀ s, Continues (round s) (round' s)) (s : σ) :
    Tracks (loop round s) (loop round' s) :=
  fun _ hl => rounds_follows h hl (Nat.lt_succ_self _) s

end Loops

/-- Exactly `k` bytes on. -/
structure Moved (k : ℕ) (l l' : Lexer) : Prop extends Ahead k l l' where
  counted : Counted l'
  pos_eq : l'.pos = l.pos + k

theorem count_cases (l : Lexer) (n k : ℕ) :
    (∃ m, l.count n k = some m ∧ (l.overflowChecks = true → m = n + k)) ∨
      l.count n k = none ∧ l.overflowChecks = true ∧ 2 ^ 32 ≤ n + k := by
  unfold Lexer.count
  by_cases hlt : n + k < 2 ^ 32
  · exact .inl ⟨n + k, if_pos hlt, fun _ => rfl⟩
  · rw [if_neg hlt]
    by_cases hon : l.overflowChecks = true
    · exact .inr ⟨if_pos hon, hon, Nat.le_of_not_lt hlt⟩
    · rw [if_neg hon]
      exact .inl ⟨_, rfl, fun h => absurd h hon⟩

theorem forward_moves (k cols : ℕ) (hl : Counted l) (hk : l.pos + k ≤ l.bytes.length)
    (hcols : cols ≤ k) :
    (∃ l', forward k cols l = .ok ((), l') ∧ Moved k l l') ∨ Overflows l (forward k cols l) := by
  have hbody : forward k cols l = (orPanic Panic.overflow (l.count l.col cols) l >>= fun r =>
      .ok ((), { l with pos := l.pos + k, col := r.1 })) := rfl
  rw [hbody]
  rcases count_cases l l.col cols with ⟨col, hcol, heq⟩ | ⟨hcol, hon, hlarge⟩
  · refine .inl ⟨{ l with pos := l.pos + k, col }, ?_, ⟨rfl, rfl, Nat.le_refl _⟩,
      ⟨hk, fun hon => ?_⟩, rfl⟩
    · rw [hcol]
      rfl
    · have hcounters := hl.counters hon
      have hnew := heq hon
      constructor
      · change l.line ≤ l.pos + k + 1
        omega
      · change col ≤ l.pos + k + 1
        omega
  · have hcounters := hl.counters hon
    refine .inr ⟨?_, hon, by omega⟩
    rw [hcol]
    rfl

theorem byte_lt {b : UInt8} (h : l.byte = some b) : l.pos < l.bytes.length :=
  (List.getElem?_eq_some_iff.mp h).1

theorem get_bind_apply {α : Type} (f : Lexer → Parser α) (l : Lexer) :
    (get >>= f : Parser α) l = f l l := rfl

theorem advanceByte_moves {b : UInt8} (hl : Counted l) (hb : l.byte = some b) :
    (∃ l', advanceByte l = .ok ((), l') ∧ Moved 1 l l') ∨ Overflows l (advanceByte l) := by
  have hlt := byte_lt hb
  have hbody : advanceByte l = (if b = ascii '\n' then (do
      let line ← orPanic Panic.overflow (l.count l.line 1)
      set { l with pos := l.pos + 1, line, col := 1 }) else forward 1 1 : Parser Unit) l := by
    unfold advanceByte
    rw [get_bind_apply, hb]
  rw [hbody]
  split_ifs with hnew
  · change (∃ l', (orPanic Panic.overflow (l.count l.line 1) l >>= fun r => _) = _ ∧ _) ∨
      Overflows l (orPanic Panic.overflow (l.count l.line 1) l >>= fun r => _)
    rcases count_cases l l.line 1 with ⟨line, hline, heq⟩ | ⟨hline, hon, hlarge⟩
    · refine .inl ⟨{ l with pos := l.pos + 1, line, col := 1 }, ?_, ⟨rfl, rfl, Nat.le_refl _⟩,
        ⟨hlt, fun hon => ?_⟩, rfl⟩
      · rw [hline]
        rfl
      · have hcounters := hl.counters hon
        have hnext := heq hon
        constructor
        · change line ≤ l.pos + 1 + 1
          omega
        · change 1 ≤ l.pos + 1 + 1
          omega
    · have hcounters := hl.counters hon
      refine .inr ⟨?_, hon, by omega⟩
      rw [hline]
      rfl
  · exact forward_moves 1 1 hl hlt (Nat.le_refl _)

theorem Moved.between {k : ℕ} {rest : List Char} (h : Moved k l l')
    (hrest : dropBytes l.src (l.pos + k) = some rest) : Between l' :=
  ⟨h.counted, rest, by rw [h.src, h.pos_eq, hrest]⟩

theorem Moved.between_ascii {b : UInt8} (h : Moved 1 l l') (hb : l.byte = some b) (hlt : b < 128) :
    Between l' := by
  obtain ⟨rest, hrest⟩ := step_ascii hb hlt
  exact h.between hrest

def StepsOver (step : Parser Unit) : Prop :=
  ∀ l b, Counted l → l.byte = some b →
    (∃ l', step l = .ok ((), l') ∧ Moved 1 l l') ∨ Overflows l (step l)

theorem stepsOver_forward : StepsOver (forward 1 1) :=
  fun _ _ hl hb => forward_moves 1 1 hl (byte_lt hb) (Nat.le_refl _)

theorem stepsOver_advanceByte : StepsOver advanceByte := fun _ _ => advanceByte_moves

/-- Where a scan from `l` stops. -/
structure Scanned (p : UInt8 → Bool) (l l' : Lexer) : Prop extends Ahead 0 l l' where
  counted : Counted l'
  stops : ∀ b, l'.byte = some b → p b = false
  /-- A scan over bytes below 128 stays between characters. -/
  between : Between l → (∀ b, p b = true → b < 128) → Between l'
  moves : ∀ b, l.byte = some b → p b = true → l.pos + 1 ≤ l'.pos

theorem passWhile_scans {step : Parser Unit} {p : UInt8 → Bool} (hstep : StepsOver step) {left : ℕ}
    (hl : Counted l) (hleft : l.left ≤ left) :
    (∃ l', passWhile step p left l = .ok ((), l') ∧ Scanned p l l') ∨
      Overflows l (passWhile step p left l) := by
  induction left generalizing l with
  | zero =>
      have hend : l.byte = none := by
        apply List.getElem?_eq_none
        rw [Lexer.left] at hleft
        omega
      refine .inl ⟨l, rfl, .refl l, hl, ?_, fun h _ => h, ?_⟩
      · intro b hb
        rw [hend] at hb
        cases hb
      · intro b hb
        rw [hend] at hb
        cases hb
  | succ left ih =>
      cases hb : l.byte with
      | none =>
          refine .inl ⟨l, ?_, .refl l, hl, ?_, fun h _ => h, ?_⟩
          · rw [passWhile, get_bind_apply, hb]
            rfl
          · intro b hb'
            rw [hb] at hb'
            cases hb'
          · intro b hb'
            rw [hb] at hb'
            cases hb'
      | some b =>
          have hbody : passWhile step p (left + 1) l = (if p b then (do
              step
              passWhile step p left) else return () : Parser Unit) l := by
            rw [passWhile, get_bind_apply, hb]
          rw [hbody]
          by_cases hp : p b = true
          · rw [if_pos hp]
            change (∃ l', (step l >>= fun r => passWhile step p left r.2) = _ ∧ _) ∨
              Overflows l (step l >>= fun r => passWhile step p left r.2)
            rcases hstep l b hl hb with ⟨l₁, hrun, hmoved⟩ | hover
            case inr => exact .inr (hover.bind _)
            have hlt := byte_lt hb
            have hleft₁ : l₁.left ≤ left := by
              rw [Lexer.left] at hleft ⊢
              rw [hmoved.bytes, hmoved.pos_eq]
              omega
            rw [hrun]
            rcases ih (l := l₁) hmoved.counted hleft₁ with ⟨l', hrest, hscan⟩ | hover
            case inr => exact .inr ⟨hover.1, hmoved.uncountable hover.2⟩
            refine .inl ⟨l', hrest, ?_, hscan.counted, hscan.stops, ?_, ?_⟩
            · exact (hmoved.toAhead.trans hscan.toAhead).mono (Nat.zero_le _)
            · intro hbetween hascii
              exact hscan.between (hmoved.between_ascii hb (hascii b hp)) hascii
            · intro _ _ _
              rw [← hmoved.pos_eq]
              exact hscan.pos
          · refine .inl ⟨l, ?_, .refl l, hl, ?_, fun h _ => h, ?_⟩
            · rw [if_neg hp]
              rfl
            · intro c hc
              rw [hb] at hc
              cases hc
              exact Bool.eq_false_iff.mpr hp
            · intro c hc hpc
              rw [hb] at hc
              cases hc
              exact absurd hpc hp

theorem scanWhile_scans {step : Parser Unit} {p : UInt8 → Bool} (hstep : StepsOver step)
    (hl : Counted l) :
    (∃ l', scanWhile step p l = .ok ((), l') ∧ Scanned p l l') ∨ Overflows l (scanWhile step p l) :=
  passWhile_scans hstep hl (Nat.le_refl _)

theorem Counted.between (hl : Counted l) (h : ∀ b, l.byte = some b → b < 128) : Between l := by
  refine ⟨hl, ?_⟩
  cases hb : l.byte with
  | none =>
      have hle : l.bytes.length ≤ l.pos := List.getElem?_eq_none_iff.mp hb
      have heq : l.pos = l.bytes.length := Nat.le_antisymm hl.pos_le hle
      exact ⟨[], heq ▸ dropBytes_length l.src⟩
  | some b =>
      obtain ⟨c, rest, hdrop, -⟩ := char_of_ascii hb (h b hb)
      exact ⟨_, hdrop⟩

theorem isBlank_ascii {b : UInt8} (h : isBlank b = true) : b < 128 := by
  have hcases : b = ascii ' ' ∨ b = ascii '\t' ∨ b = ascii '\r' ∨ b = ascii '\n' := by
    simpa [isBlank] using h
  rcases hcases with rfl | rfl | rfl | rfl <;> decide

theorem Scanned.between_line (h : Scanned (· != ascii '\n') l l') : Between l' := by
  apply h.counted.between
  intro b hb
  have hline : b = ascii '\n' := by simpa using h.stops b hb
  rw [hline]
  decide

section Primitives
variable {d : α → ℕ}

theorem Goes.get_bind {f g : Lexer → Parser α}
    (h : ∀ l, Between l → Follows d l (f l l) (g l l)) : Goes d (get >>= f) (get >>= g) := h

theorem skipRound_continues : Continues (skipRound ()) (skipRound ()) := by
  intro l hl
  rcases scanWhile_scans (p := isBlank) stepsOver_advanceByte hl.toCounted with
    ⟨l₁, hblank, hscan⟩ | hover
  case inr =>
    exact (hover.bind fun r => _).follows (hover.bind fun r => _)
  have hbetween := hscan.between hl fun _ => isBlank_ascii
  have hbody : skipRound () l = (if l₁.byte = some (ascii ';') then (do
        scanWhile (forward 1 1) (· != ascii '\n')
        return .inl ())
      else if l₁.pos = l.pos then return .inr ()
      else return .inl () : Parser (Unit ⊕ Unit)) l₁ := by
    change (scanWhile advanceByte isBlank l >>= fun r => _) = _
    rw [hblank]
    change ((if l₁.byte = some (ascii ';') then _ else _ : Parser (Unit ⊕ Unit)) l₁) = _
    by_cases hcomment : l₁.byte = some (ascii ';')
    · rw [if_pos hcomment, if_pos hcomment]
    · rw [if_neg hcomment, if_neg hcomment]
      rfl
  rw [hbody]
  split_ifs with hcomment hsame
  · rcases scanWhile_scans (p := (· != ascii '\n')) stepsOver_forward hscan.counted with
      ⟨l₂, hline, hscan'⟩ | hover
    case inr =>
      have hlate : Overflows l ((do
          scanWhile (forward 1 1) (· != ascii '\n')
          return .inl () : Parser (Unit ⊕ Unit)) l₁) :=
        ⟨(hover.bind fun r => _).1, hscan.uncountable hover.2⟩
      exact hlate.follows hlate
    have hrun : (do
        scanWhile (forward 1 1) (· != ascii '\n')
        return .inl () : Parser (Unit ⊕ Unit)) l₁ = .ok (.inl (), l₂) := by
      change (scanWhile (forward 1 1) (· != ascii '\n') l₁ >>= fun r => _) = _
      rw [hline]
      rfl
    have hmoves := hscan'.moves _ hcomment (by decide)
    have hpos := hscan.pos
    rw [hrun]
    refine .ok ⟨hscan'.src.trans hscan.src, hscan'.checks.trans hscan.checks, ?_⟩
      hscan'.between_line
    change l.pos + 1 ≤ l₂.pos
    omega
  · exact .ok hscan.toAhead hbetween
  · refine .ok ⟨hscan.src, hscan.checks, ?_⟩ hbetween
    have hpos := hscan.pos
    change l.pos + 1 ≤ l₁.pos
    omega

theorem skip_tracks : Tracks skip skip := tracks_loop (fun _ => skipRound_continues) ()

theorem isEof_tracks : Tracks isEof isEof :=
  skip_tracks.bind fun _ => Goes.get_bind fun _ hl => .ok (.refl _) hl

theorem peekByte_tracks : Tracks peekByte peekByte :=
  skip_tracks.bind fun _ => Goes.get_bind fun _ hl => .ok (.refl _) hl

theorem advanceByte_follows {b : UInt8} (hl : Between l) (hb : l.byte = some b) (hlt : b < 128) :
    Follows (fun _ => 1) l (advanceByte l) (advanceByte l) := by
  rcases advanceByte_moves hl.toCounted hb with ⟨l', hrun, hmoved⟩ | hover
  case inr => exact hover.follows hover
  rw [hrun]
  exact .ok hmoved.toAhead (hmoved.between_ascii hb hlt)

theorem tryByte_tracks {b : UInt8} (hlt : b < 128) : Tracks (tryByte b) (tryByte b) := by
  apply skip_tracks.bind
  intro _
  apply Goes.get_bind
  intro l hl
  split_ifs with hb
  · rcases advanceByte_moves hl.toCounted hb with ⟨l', hrun, hmoved⟩ | hover
    case inr => exact (hover.bind fun r => _).follows (hover.bind fun r => _)
    have hbody : (do
        advanceByte
        return true : Parser Bool) l = .ok (true, l') := by
      change (advanceByte l >>= fun r => _) = _
      rw [hrun]
      rfl
    rw [hbody]
    exact .ok (hmoved.toAhead.mono (Nat.zero_le _)) (hmoved.between_ascii hb hlt)
  · exact .ok (.refl _) hl

theorem expectByte_advances {b : UInt8} (hlt : b < 128) :
    Advances (expectByte b) (expectByte b) := by
  apply skip_tracks.bind_advances
  intro _
  apply Goes.get_bind
  intro l hl
  split_ifs with hb
  · exact advanceByte_follows hl hb hlt
  · exact .error _

theorem isAlphabetic_ascii {b : UInt8} (h : isAlphabetic b = true) : b < 128 := by
  have hcases : ascii 'a' ≤ b ∧ b ≤ ascii 'z' ∨ ascii 'A' ≤ b ∧ b ≤ ascii 'Z' := by
    simpa [isAlphabetic] using h
  rcases hcases with h | h
  · exact Nat.lt_of_le_of_lt h.2 (by decide)
  · exact Nat.lt_of_le_of_lt h.2 (by decide)

theorem isDigit_ascii {b : UInt8} (h : isDigit b = true) : b < 128 := by
  have hle : ascii '0' ≤ b ∧ b ≤ ascii '9' := by simpa [isDigit] using h
  exact Nat.lt_of_le_of_lt hle.2 (by decide)

theorem isIdent_ascii {b : UInt8} (h : isIdent b = true) : b < 128 := by
  have hcases : ((isAlphabetic b = true ∨ isDigit b = true) ∨ b = ascii '_') ∨ b = ascii '-' := by
    simpa [isIdent] using h
  rcases hcases with ((h | h) | rfl) | rfl
  · exact isAlphabetic_ascii h
  · exact isDigit_ascii h
  · decide
  · decide

theorem isHexDigit_ascii {b : UInt8} (h : isHexDigit b = true) : b < 128 := by
  have hcases : (isDigit b = true ∨ ascii 'a' ≤ b ∧ b ≤ ascii 'f') ∨
      ascii 'A' ≤ b ∧ b ≤ ascii 'F' := by
    simpa [isHexDigit] using h
  rcases hcases with (h | h) | h
  · exact isDigit_ascii h
  · exact Nat.lt_of_le_of_lt h.2 (by decide)
  · exact Nat.lt_of_le_of_lt h.2 (by decide)

theorem sliceFrom_eq {l₀ : Lexer} (hl₀ : Between l₀) (hl : Between l) (h : Ahead 0 l₀ l) :
    ∃ s, sliceFrom l₀.pos l = .ok (s, l) := by
  obtain ⟨rest, hstart⟩ := hl₀.boundary
  obtain ⟨more, hstop⟩ := hl.boundary
  rw [← h.src] at hstart
  obtain ⟨front, hfront⟩ := slice_of_dropBytes hstart hstop h.pos
  refine ⟨.ofList front, ?_⟩
  change (orPanic Panic.insideCharacter (Utf8.slice l.src l₀.pos l.pos) l >>= fun r => _) = _
  rw [hfront]
  rfl

theorem scan_slice {p : UInt8 → Bool} {l₀ : Lexer} (hl₀ : Between l₀) (h : Ahead 0 l₀ l)
    (hl : Between l) (hp : ∀ b, p b = true → b < 128) :
    (∃ s l', (do
        scanWhile (forward 1 1) p
        sliceFrom l₀.pos : Parser String) l = .ok (s, l') ∧ Scanned p l l' ∧ Between l') ∨
      Overflows l ((do
        scanWhile (forward 1 1) p
        sliceFrom l₀.pos : Parser String) l) := by
  rcases scanWhile_scans (p := p) stepsOver_forward hl.toCounted with ⟨l', hrun, hscan⟩ | hover
  case inr => exact .inr (hover.bind fun r => _)
  have hbetween := hscan.between hl hp
  obtain ⟨s, hs⟩ := sliceFrom_eq hl₀ hbetween (h.trans hscan.toAhead)
  refine .inl ⟨s, l', ?_, hscan, hbetween⟩
  change (scanWhile (forward 1 1) p l >>= fun r => sliceFrom l₀.pos r.2) = _
  rw [hrun]
  exact hs

theorem readIdent_advances : Advances readIdent readIdent := by
  apply skip_tracks.bind_advances
  intro _
  apply Goes.get_bind
  intro l hl
  rw [get_bind_apply]
  cases hb : l.byte with
  | none => exact .error _
  | some b =>
      change Follows _ l ((if _ then _ else _ : Parser String) l)
        ((if _ then _ else _ : Parser String) l)
      split_ifs with hstart
      · rcases scan_slice hl (.refl l) hl fun _ => isIdent_ascii with
          ⟨s, l', hrun, hscan, hbetween⟩ | hover
        case inr => exact hover.follows hover
        rw [hrun]
        refine .ok ⟨hscan.src, hscan.checks, hscan.moves b hb ?_⟩ hbetween
        have hcases : isAlphabetic b = true ∨ b = ascii '_' := by simpa using hstart
        rcases hcases with h | rfl
        · simp [isIdent, h]
        · decide
      · exact .error _

theorem digits_follow {l₀ : Lexer} (hl₀ : Between l₀) (h : Ahead 0 l₀ l) (hl : Between l) :
    Follows (fun _ => 1) l₀
      ((do
        let digitStart := (← get).pos
        scanWhile (forward 1 1) isHexDigit
        if (← get).pos = digitStart then fail .unexpectedEof
        else sliceFrom l₀.pos : Parser String) l)
      ((do
        let digitStart := (← get).pos
        scanWhile (forward 1 1) isHexDigit
        if (← get).pos = digitStart then fail .unexpectedEof
        else sliceFrom l₀.pos : Parser String) l) := by
  rcases scanWhile_scans (p := isHexDigit) stepsOver_forward hl.toCounted with
    ⟨l', hrun, hscan⟩ | hover
  case inr =>
    exact Overflows.follows ⟨(hover.bind fun r => _).1, h.uncountable hover.2⟩
      ⟨(hover.bind fun r => _).1, h.uncountable hover.2⟩
  have hbetween := hscan.between hl fun _ => isHexDigit_ascii
  have hahead := h.trans hscan.toAhead
  have hbody : (do
      let digitStart := (← get).pos
      scanWhile (forward 1 1) isHexDigit
      if (← get).pos = digitStart then fail .unexpectedEof
      else sliceFrom l₀.pos : Parser String) l =
      (if l'.pos = l.pos then fail .unexpectedEof else sliceFrom l₀.pos : Parser String) l' := by
    change (scanWhile (forward 1 1) isHexDigit l >>= fun r => _) = _
    rw [hrun]
    rfl
  rw [hbody]
  split_ifs with hnone
  · exact .error _
  · obtain ⟨s, hs⟩ := sliceFrom_eq hl₀ hbetween hahead
    have hfrom := h.pos
    have hto := hscan.pos
    rw [hs]
    refine .ok ⟨hahead.src, hahead.checks, ?_⟩ hbetween
    omega

theorem readUnsignedIntStr_advances : Advances readUnsignedIntStr readUnsignedIntStr := by
  apply Goes.get_bind
  intro l hl
  by_cases hmark : l.byte = some (ascii '0') ∧ l.bytes[l.pos + 1]?.any isHexMark
  · obtain ⟨b, hb, hx⟩ : ∃ b, l.bytes[l.pos + 1]? = some b ∧ isHexMark b = true := by
      cases hb : l.bytes[l.pos + 1]? with
      | none =>
          rw [hb] at hmark
          cases hmark.2
      | some b =>
          rw [hb] at hmark
          exact ⟨b, rfl, hmark.2⟩
    have hxascii : b < 128 := by
      have hcases : b = ascii 'x' ∨ b = ascii 'X' := by simpa [isHexMark] using hx
      rcases hcases with rfl | rfl <;> decide
    have hlt := (List.getElem?_eq_some_iff.mp hb).1
    obtain ⟨rest, hrest⟩ := step_ascii hb hxascii
    simp only [hmark, and_self, if_true]
    change Follows _ l (forward 2 2 l >>= fun r => _) (forward 2 2 l >>= fun r => _)
    rcases forward_moves 2 2 hl.toCounted (by omega) (Nat.le_refl _) with
      ⟨l₁, hrun, hmoved⟩ | hover
    case inr => exact (hover.bind _).follows (hover.bind _)
    have hnext := digits_follow hl (hmoved.toAhead.mono (Nat.zero_le _)) (hmoved.between hrest)
    rw [hrun]
    exact hnext
  · simp only [hmark, if_false]
    exact digits_follow hl (.refl l) hl

theorem readUnsigned_advances (max : ℕ) : Advances (readUnsigned max) (readUnsigned max) := by
  apply skip_tracks.bind_advances
  intro _
  apply readUnsignedIntStr_advances.bind
  intro raw
  cases parseUnsigned max raw with
  | some n => exact .pure n
  | none => exact Goes.fail _

theorem readU32_advances : Advances readU32 readU32 := readUnsigned_advances _

theorem readU64_advances : Advances readU64 readU64 := readUnsigned_advances _

theorem readU128_advances : Advances readU128 readU128 := readUnsigned_advances _

theorem readUsize_advances : Advances readUsize readUsize := readU32_advances

theorem advanceBytes_moves {n : ℕ} (hl : Counted l) (hn : l.pos + n ≤ l.bytes.length) :
    (∃ l', advanceBytes n l = .ok ((), l') ∧ Moved n l l') ∨ Overflows l (advanceBytes n l) := by
  induction n generalizing l with
  | zero => exact .inl ⟨l, rfl, .refl l, hl, rfl⟩
  | succ n ih =>
      obtain ⟨b, hb⟩ : ∃ b, l.byte = some b := ⟨_, List.getElem?_eq_getElem (by omega)⟩
      change (∃ l', (advanceByte l >>= fun r => advanceBytes n r.2) = _ ∧ _) ∨
        Overflows l (advanceByte l >>= fun r => advanceBytes n r.2)
      rcases advanceByte_moves hl hb with ⟨l₁, hrun, hmoved⟩ | hover
      case inr => exact .inr (hover.bind _)
      have hn₁ : l₁.pos + n ≤ l₁.bytes.length := by
        rw [hmoved.bytes, hmoved.pos_eq]
        omega
      rw [hrun]
      rcases ih hmoved.counted hn₁ with ⟨l', hrest, hmoved'⟩ | hover
      case inr => exact .inr ⟨hover.1, hmoved.uncountable hover.2⟩
      refine .inl ⟨l', hrest, ?_, hmoved'.counted, ?_⟩
      · exact (hmoved.toAhead.trans hmoved'.toAhead).mono (by omega)
      · rw [hmoved'.pos_eq, hmoved.pos_eq]
        omega

theorem rest_eq (hl : Between l) :
    ∃ text, dropBytes l.src l.pos = some text ∧ rest l = .ok (text, l) := by
  obtain ⟨text, htext⟩ := hl.boundary
  refine ⟨text, htext, ?_⟩
  change orPanic Panic.insideCharacter (dropBytes l.src l.pos) l = _
  rw [htext]
  rfl

theorem expectStr_tracks (expected : String) :
    Tracks (expectStr expected) (expectStr expected) := by
  apply skip_tracks.bind
  intro _ l hl
  obtain ⟨text, htext, hrest⟩ := rest_eq hl
  change Follows _ l (rest l >>= fun r => _) (rest l >>= fun r => _)
  rw [hrest]
  change Follows _ l ((if _ then _ else _ : Parser Unit) l) ((if _ then _ else _ : Parser Unit) l)
  split_ifs with hprefix
  · obtain ⟨more, rfl⟩ := hprefix
    have hplace := dropBytes_add htext (bytes expected.toList).length
    rw [dropBytes_append] at hplace
    have hle := pos_le_of_dropBytes hplace
    rcases advanceBytes_moves hl.toCounted (n := (bytes expected.toList).length) (by
        change _ ≤ (bytes l.src).length
        omega) with ⟨l', hrun, hmoved⟩ | hover
    case inr => exact hover.follows hover
    rw [hrun]
    exact .ok (hmoved.toAhead.mono (Nat.zero_le _)) (hmoved.between hplace)
  · exact .error _

theorem expectKey_advances (expected : String) :
    Advances (expectKey expected) (expectKey expected) := by
  apply readIdent_advances.bind
  intro k
  by_cases hk : k = expected
  · simp only [hk, if_true]
    exact (expectByte_advances (by decide)).tracks
  · simp only [hk, if_false]
    exact Goes.fail _

theorem listRound_continues {item item' : Parser α} (h : Advances item item') (out : List α) :
    Continues (listRound item out) (listRound item' out) := by
  apply skip_tracks.bind_continues
  intro _
  apply (tryByte_tracks (b := ascii ']') (by decide)).bind_continues
  intro closed
  cases closed with
  | true => exact .break out
  | false =>
      apply h.bind_continues
      intro x
      apply skip_tracks.bind
      intro _
      apply (tryByte_tracks (b := ascii ',') (by decide)).bind
      intro more
      cases more with
      | true => exact .pure _
      | false => exact (expectByte_advances (by decide)).tracks.bind fun _ => .pure _

theorem readList_advances {item item' : Parser α} (h : Advances item item') :
    Advances (readList item) (readList item') :=
  (expectByte_advances (by decide)).bind fun _ => tracks_loop (listRound_continues h) []

theorem readU32List_advances : Advances readU32List readU32List :=
  readList_advances readU32_advances

theorem readVar_advances : Advances readVar readVar := by
  apply skip_tracks.bind_advances
  intro _
  apply Goes.get_bind
  intro l hl
  cases hb : l.byte with
  | none => exact .error _
  | some b =>
      change Follows _ l ((if _ then _ else _ : Parser ℕ) l) ((if _ then _ else _ : Parser ℕ) l)
      split_ifs with hv
      · change Follows _ l (advanceByte l >>= fun r => readU32 r.2)
          (advanceByte l >>= fun r => readU32 r.2)
        rcases advanceByte_moves hl.toCounted hb with ⟨l', hrun, hmoved⟩ | hover
        case inr => exact (hover.bind _).follows (hover.bind _)
        have hbetween := hmoved.between_ascii hb (by rw [hv]; decide)
        rw [hrun]
        exact (readU32_advances l' hbetween).after hmoved.toAhead fun _ => Nat.le_add_left _ _
      · exact .error _

theorem readVarList_advances : Advances readVarList readVarList :=
  readList_advances readVar_advances

theorem readToNewline_tracks : Tracks readToNewline readToNewline := by
  apply Goes.get_bind
  intro l hl
  change Follows _ l (scanWhile (forward 1 1) (· != ascii '\n') l >>= fun r => _)
    (scanWhile (forward 1 1) (· != ascii '\n') l >>= fun r => _)
  rcases scanWhile_scans (p := (· != ascii '\n')) stepsOver_forward hl.toCounted with
    ⟨l', hrun, hscan⟩ | hover
  case inr => exact (hover.bind _).follows (hover.bind _)
  obtain ⟨s, hs⟩ := sliceFrom_eq hl hscan.between_line hscan.toAhead
  rw [hrun]
  change Follows _ l (sliceFrom l.pos l') (sliceFrom l.pos l')
  rw [hs]
  exact .ok hscan.toAhead hscan.between_line

end Primitives

end VolarIR.Text

/-!
## String literals

The reader of literals takes the byte after a backslash by itself. When that byte starts a
longer character, the next round slices the text inside it.
-/
namespace VolarIR.Text
open Utf8

section Strings
variable {σ α : Type} {l l' : Lexer} {escaped : Parser Char} {s : List Char}

theorem stringRound_end (h : l.byte = none) :
    stringRound escaped s l = .error (.error .unexpectedEof) := by
  unfold stringRound
  rw [get_bind_apply, h]
  rfl

theorem stringRound_close (h : l.byte = some (ascii '"')) (hrun : advanceByte l = .ok ((), l')) :
    stringRound escaped s l = .ok (.inr (.ofList s), l') := by
  unfold stringRound
  rw [get_bind_apply, h]
  change (advanceByte l >>= fun r => _) = _
  rw [hrun]
  rfl

theorem stringRound_escape (escaped : Parser Char) (s : List Char)
    (h : l.byte = some (ascii '\\')) (hrun : advanceByte l = .ok ((), l')) :
    stringRound escaped s l = (escaped l' >>= fun r => .ok (.inl (s ++ [r.1]), r.2)) := by
  unfold stringRound
  rw [get_bind_apply, h]
  change (advanceByte l >>= fun r => _) = _
  rw [hrun]
  rfl

theorem stringRound_overflow {b : UInt8} (h : l.byte = some b)
    (hb : b = ascii '"' ∨ b = ascii '\\') (hover : Overflows l (advanceByte l)) :
    stringRound escaped s l = .error (.panic .overflow) := by
  unfold stringRound
  rw [get_bind_apply, h]
  rcases hb with rfl | rfl
  · exact (hover.bind fun r => _).1
  · exact (hover.bind fun r => _).1

theorem stringRound_character {b : UInt8} (h : l.byte = some b) (hclose : b ≠ ascii '"')
    (hescape : b ≠ ascii '\\') :
    stringRound escaped s l = (do
      let ch ← orPanic Panic.insideCharacter (← rest).head?
      forward ch.utf8Size 1
      return .inl (s ++ [ch]) : Parser (List Char ⊕ String)) l := by
  unfold stringRound
  rw [get_bind_apply, h]
  change (if b = ascii '"' then _ else if b = ascii '\\' then _ else _ :
    Parser (List Char ⊕ String)) l = _
  rw [if_neg hclose, if_neg hescape]

theorem character_moves {c : Char} {more : List Char} (hl : Between l)
    (htext : dropBytes l.src l.pos = some (c :: more)) :
    (∃ l', (do
        let ch ← orPanic Panic.insideCharacter (← rest).head?
        forward ch.utf8Size 1
        return .inl (s ++ [ch]) : Parser (List Char ⊕ String)) l = .ok (.inl (s ++ [c]), l') ∧
      Ahead 1 l l' ∧ Between l') ∨
    Overflows l ((do
        let ch ← orPanic Panic.insideCharacter (← rest).head?
        forward ch.utf8Size 1
        return .inl (s ++ [ch]) : Parser (List Char ⊕ String)) l) := by
  obtain ⟨text, heq, hrest⟩ := rest_eq hl
  obtain rfl : c :: more = text := Option.some.inj (htext.symm.trans heq)
  have hnext := dropBytes_next htext
  have hle := pos_le_of_dropBytes hnext
  have hpos := c.utf8Size_pos
  have hbody : (do
      let ch ← orPanic Panic.insideCharacter (← rest).head?
      forward ch.utf8Size 1
      return .inl (s ++ [ch]) : Parser (List Char ⊕ String)) l =
      (forward c.utf8Size 1 l >>= fun r => .ok (.inl (s ++ [c]), r.2)) := by
    change (rest l >>= fun r => _) = _
    rw [hrest]
    rfl
  rw [hbody]
  rcases forward_moves c.utf8Size 1 hl.toCounted (by
      change _ ≤ (bytes l.src).length
      omega) hpos with ⟨l', hrun, hmoved⟩ | hover
  case inr => exact .inr (hover.bind _)
  refine .inl ⟨l', ?_, hmoved.toAhead.mono hpos, hmoved.between hnext⟩
  rw [hrun]
  rfl

theorem escapedByte_moves {b : UInt8} (hl : Counted l) (hb : l.byte = some b) :
    (∃ c l', escapedByte l = .ok (c, l') ∧ Moved 1 l l') ∨ Overflows l (escapedByte l) := by
  have hbody : escapedByte l = (advanceByte l >>= fun r =>
      .ok (if b = ascii 'n' then '\n' else if b = ascii 't' then '\t'
        else if b = ascii 'r' then '\r' else Char.ofNat b.toNat, r.2)) := by
    unfold escapedByte
    rw [get_bind_apply, hb]
    rfl
  rw [hbody]
  rcases advanceByte_moves hl hb with ⟨l', hrun, hmoved⟩ | hover
  case inr => exact .inr (hover.bind _)
  rw [hrun]
  exact .inl ⟨_, l', rfl, hmoved⟩

theorem escapesCharacter_of {c : Char} {more : List Char} (hb : l.byte = some (ascii '\\'))
    (hmoved : Moved 1 l l') (htext : dropBytes l'.src l'.pos = some (c :: more))
    (hc : c.utf8Size ≠ 1) : EscapesCharacter l.src := by
  obtain ⟨d, text, hdrop, hsize, hval⟩ := char_of_ascii hb (by decide)
  have hd : d = '\\' := by
    apply Char.ext
    have hle : d.val.toNat ≤ 127 := UInt32.le_iff_toNat_le.mp (Char.utf8Size_eq_one_iff.mp hsize)
    have hnat := congrArg UInt8.toNat hval
    rw [UInt32.toNat_toUInt8] at hnat
    apply UInt32.toNat_inj.mp
    have hback : (ascii '\\').toNat = 92 := rfl
    have hslash : '\\'.val.toNat = 92 := rfl
    omega
  have hnext := dropBytes_next hdrop
  rw [hsize, ← hmoved.pos_eq, ← hmoved.src, htext] at hnext
  obtain rfl := Option.some.inj hnext
  obtain ⟨front, hfront⟩ := append_of_dropBytes hdrop
  exact ⟨front, c, more, hd ▸ hfront, hc⟩

theorem stringRound_inside {b : UInt8} (hdrop : dropBytes l.src l.pos = none)
    (hb : l.byte = some b) (hlt : 128 ≤ b) :
    stringRound escapedByte s l = .error (.panic .insideCharacter) := by
  have hne : ∀ c : UInt8, c < 128 → b ≠ c := fun c hc hbc =>
    absurd hc (UInt8.not_lt.mpr (hbc ▸ hlt))
  rw [stringRound_character hb (hne _ (by decide)) (hne _ (by decide))]
  change (orPanic Panic.insideCharacter (dropBytes l.src l.pos) l >>= fun r => _) = _
  rw [hdrop]
  rfl

/-- A round that goes on at `l'`. -/
theorem rounds_of_inl {round : σ → Parser (σ ⊕ α)} {left : ℕ} {t t' : σ}
    (h : round t l = .ok (.inl t', l')) :
    rounds round (left + 1) t l = rounds round left t' l' := by
  change (round t l >>= fun r => _) = _
  rw [h]
  rfl

theorem rounds_of_error {round : σ → Parser (σ ⊕ α)} {left : ℕ} {t : σ} {e : Stop}
    (h : round t l = .error e) : rounds round (left + 1) t l = .error e := by
  change (round t l >>= fun r => _) = _
  rw [h]
  rfl

theorem exists_byte {c : Char} {more : List Char} (h : dropBytes l.src l.pos = some (c :: more)) :
    ∃ b, l.byte = some b := by
  rw [Lexer.byte, Lexer.bytes, getElem?_bytes h, bytes_cons]
  have hne : String.utf8EncodeChar c ++ bytes more ≠ [] := by
    intro hnil
    have hlen := congrArg List.length hnil
    rw [List.length_append, String.length_utf8EncodeChar] at hlen
    have hpos := c.utf8Size_pos
    simp at hlen
    omega
  exact ⟨_, List.head?_eq_some_head hne⟩

theorem escapedCharacter_end (h : dropBytes l.src l.pos = some []) :
    escapedCharacter l = .error (.error .unexpectedEof) ∧
      escapedByte l = .error (.error .unexpectedEof) := by
  have hend : l.byte = none := getElem?_bytes h
  have hbyte : escapedByte l = .error (.error .unexpectedEof) := by
    unfold escapedByte
    rw [get_bind_apply, hend]
    rfl
  refine ⟨?_, hbyte⟩
  unfold escapedCharacter
  rw [get_bind_apply, h]
  exact hbyte

theorem escapedCharacter_cons {c : Char} {more : List Char}
    (h : dropBytes l.src l.pos = some (c :: more)) : escapedCharacter l =
      (if c.utf8Size = 1 then escapedByte else throw .refused : Parser Char) l := by
  unfold escapedCharacter
  rw [get_bind_apply, h]

section Rounds
variable {left : ℕ} (hl : Between l) (hleft : l.left < left + 1) (s : List Char)
  (hgo : ∀ {l' : Lexer} (s' : List Char), Ahead 1 l l' → Between l' →
    Follows (fun _ => 0) l (rounds (stringRound escapedByte) left s' l')
      (rounds (stringRound escapedCharacter) left s' l'))
include hl

theorem closing_follows (hb : l.byte = some (ascii '"')) :
    Follows (fun _ => 0) l (rounds (stringRound escapedByte) (left + 1) s l)
      (rounds (stringRound escapedCharacter) (left + 1) s l) := by
  rcases advanceByte_moves hl.toCounted hb with ⟨l', hrun, hmoved⟩ | hover
  case inr =>
    rw [rounds_of_error (stringRound_overflow hb (.inl rfl) hover),
      rounds_of_error (stringRound_overflow hb (.inl rfl) hover)]
    exact .overflow hover.2
  change Follows _ l (stringRound escapedByte s l >>= fun r => _)
    (stringRound escapedCharacter s l >>= fun r => _)
  rw [stringRound_close hb hrun, stringRound_close hb hrun]
  exact .ok (hmoved.toAhead.mono (Nat.zero_le _)) (hmoved.between_ascii hb (by decide))

include hleft hgo in
/-- The two readers of an escape part where its character is not one byte: the one goes on
inside it, the other has refused. -/
theorem escape_follows (hb : l.byte = some (ascii '\\')) :
    Follows (fun _ => 0) l (rounds (stringRound escapedByte) (left + 1) s l)
      (rounds (stringRound escapedCharacter) (left + 1) s l) := by
  rcases advanceByte_moves hl.toCounted hb with ⟨l₁, hrun, hmoved⟩ | hover
  case inr =>
    rw [rounds_of_error (stringRound_overflow hb (.inr rfl) hover),
      rounds_of_error (stringRound_overflow hb (.inr rfl) hover)]
    exact .overflow hover.2
  have hbetween := hmoved.between_ascii hb (by decide)
  obtain ⟨text, htext⟩ := hbetween.boundary
  have hround := stringRound_escape escapedByte s hb hrun
  have hround' := stringRound_escape escapedCharacter s hb hrun
  cases text with
  | nil =>
      obtain ⟨hcharacter, hbyte⟩ := escapedCharacter_end htext
      rw [hbyte] at hround
      rw [hcharacter] at hround'
      rw [rounds_of_error hround, rounds_of_error hround']
      exact .error _
  | cons c more =>
      have hlook := escapedCharacter_cons htext
      obtain ⟨esc, hesc⟩ := exists_byte htext
      rcases escapedByte_moves hbetween.toCounted hesc with ⟨ch, l₂, hch, hmoved'⟩ | hover
      case inr =>
        rw [hover.1] at hround
        rw [rounds_of_error hround]
        by_cases hc : c.utf8Size = 1
        · rw [hlook, if_pos hc, hover.1] at hround'
          rw [rounds_of_error hround']
          exact .overflow (hmoved.uncountable hover.2)
        · rw [hlook, if_neg hc] at hround'
          rw [rounds_of_error hround']
          exact .inside _ (escapesCharacter_of hb hmoved htext hc)
      have hstep := (hmoved.toAhead.trans hmoved'.toAhead).mono (Nat.le_add_left 1 1)
      rw [hch] at hround
      by_cases hc : c.utf8Size = 1
      · have hsame : escapedCharacter l₁ = escapedByte l₁ := by
          rw [hlook, if_pos hc]
        have hnext := dropBytes_next htext
        rw [hc] at hnext
        rw [hsame, hch] at hround'
        rw [rounds_of_inl hround, rounds_of_inl hround']
        exact hgo _ hstep (hmoved'.between hnext)
      · have hrefused : escapedCharacter l₁ = .error .refused := by
          rw [hlook, if_neg hc]
          rfl
        obtain ⟨hdrop, b', hb', hlarge⟩ := inside_of_long htext hc
        rw [← hmoved'.pos_eq, ← hmoved'.src] at hdrop
        have hbyte : l₂.byte = some b' := by
          rw [Lexer.byte, hmoved'.bytes, hmoved'.pos_eq]
          exact hb'
        obtain ⟨left, rfl⟩ : ∃ m, left = m + 1 := by
          have hlt := byte_lt hesc
          rw [hmoved.bytes, hmoved.pos_eq] at hlt
          rw [Lexer.left] at hleft
          exact Nat.exists_eq_succ_of_ne_zero (by omega)
        rw [hrefused] at hround'
        rw [rounds_of_inl hround, rounds_of_error hround',
          rounds_of_error (stringRound_inside hdrop hbyte hlarge)]
        exact .inside _ (escapesCharacter_of hb hmoved htext hc)

include hgo in
theorem character_follows {b : UInt8} (hb : l.byte = some b) (hclose : b ≠ ascii '"')
    (hescape : b ≠ ascii '\\') :
    Follows (fun _ => 0) l (rounds (stringRound escapedByte) (left + 1) s l)
      (rounds (stringRound escapedCharacter) (left + 1) s l) := by
  obtain ⟨text, htext⟩ := hl.boundary
  cases text with
  | nil =>
      have hend : l.byte = none := getElem?_bytes htext
      rw [hb] at hend
      cases hend
  | cons c more =>
      rcases character_moves (s := s) hl htext with ⟨l', hrun, hahead, hbetween⟩ | hover
      case inr =>
        have hround : ∀ escaped, stringRound escaped s l = .error (.panic .overflow) :=
          fun _ => (stringRound_character hb hclose hescape).trans hover.1
        rw [rounds_of_error (hround _), rounds_of_error (hround _)]
        exact .overflow hover.2
      have hround : ∀ escaped, stringRound escaped s l = .ok (.inl (s ++ [c]), l') :=
        fun _ => (stringRound_character hb hclose hescape).trans hrun
      rw [rounds_of_inl (hround _), rounds_of_inl (hround _)]
      exact hgo _ hahead hbetween

end Rounds

theorem stringRounds_follow {left : ℕ} (hl : Between l) (hleft : l.left < left) (s : List Char) :
    Follows (fun _ => 0) l (rounds (stringRound escapedByte) left s l)
      (rounds (stringRound escapedCharacter) left s l) := by
  induction left generalizing l s with
  | zero => exact absurd hleft (Nat.not_lt_zero _)
  | succ left ih =>
      -- a round that takes a byte and ends between characters goes on with the hypothesis
      have hgo : ∀ {l' : Lexer} (s' : List Char), Ahead 1 l l' → Between l' →
          Follows (fun _ => 0) l (rounds (stringRound escapedByte) left s' l')
            (rounds (stringRound escapedCharacter) left s' l') := by
        intro l' s' hahead hbetween
        have hle := hbetween.pos_le
        have hpos := hahead.pos
        refine (ih hbetween ?_ s').after hahead fun _ => Nat.zero_le _
        rw [Lexer.left] at hleft ⊢
        rw [hahead.bytes] at hle ⊢
        omega
      cases hb : l.byte with
      | none =>
          rw [rounds_of_error (stringRound_end hb), rounds_of_error (stringRound_end hb)]
          exact .error _
      | some b =>
          by_cases hclose : b = ascii '"'
          · exact closing_follows hl s (hclose ▸ hb)
          by_cases hescape : b = ascii '\\'
          · exact escape_follows hl hleft s hgo (hescape ▸ hb)
          · exact character_follows hl s hgo hb hclose hescape

theorem readString_advances : Advances (readString escapedByte) (readString escapedCharacter) := by
  apply skip_tracks.bind_advances
  intro _
  apply (expectByte_advances (by decide)).bind
  intro _ l hl
  exact stringRounds_follow hl (Nat.lt_succ_self _) []

end Strings

end VolarIR.Text
