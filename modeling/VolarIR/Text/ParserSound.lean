import VolarIR.Library.Fallible
import VolarIR.Text.LexerSound
import VolarIR.Text.Parser

/-!
# The parsers end

Every reader of the grammar keeps the cursor between characters, and every loop consumes or
exits. So a parse ends in a value or an error, unless it comes to an escape of a character of
several bytes or, in a build that checks its arithmetic, past the last line or column.
-/
namespace VolarIR.Text

variable {α σ : Type}

theorem readConstant_advances : Advances readConstant readConstant :=
  readU128_advances.bind fun _ => (expectByte_advances (by decide)).tracks.bind fun _ =>
    readU128_advances.tracks.bind fun _ => .pure _

theorem readBlockTarget_advances : Advances readBlockTarget readBlockTarget := by
  apply readIdent_advances.bind
  intro kw
  split
  · exact .pure _
  · exact (expectByte_advances (by decide)).tracks.bind fun _ =>
      readU32_advances.tracks.bind fun _ => .pure _
  · exact (expectByte_advances (by decide)).tracks.bind fun _ =>
      readVar_advances.tracks.bind fun _ => .pure _
  · exact Goes.fail _

theorem readTypeId_advances : Advances readTypeId readTypeId :=
  readU32_advances.bind fun _ => .pure _

theorem readStorageId_advances : Advances readStorageId readStorageId :=
  readU32_advances.bind fun _ => .pure _

theorem readTypeIdList_advances : Advances readTypeIdList readTypeIdList :=
  readU32List_advances.bind fun _ => .pure _

theorem field_advances {p q : Parser α} (key : String) (h : Tracks p q) :
    Advances (field key p) (field key q) := (expectKey_advances key).bind fun _ => h

theorem field_tracks {p q : Parser α} (key : String) (h : Advances p q) :
    Tracks (field key p) (field key q) := (field_advances key h.tracks).tracks

theorem withCapacity_tracks {count : ℕ} (h : count ≤ u32Max) :
    Tracks (withCapacity (count + 1) 8) (withCapacity (count + 1) 8) := by
  have hroom : (count + 1) * 8 < 2 ^ 63 := by
    have hmax : u32Max = 4294967295 := rfl
    omega
  rw [withCapacity, if_pos hroom]
  exact .pure ()

theorem readMany_tracks {item item' : Parser α} (h : Advances item item') (count : ℕ) :
    Tracks (readMany item count) (readMany item' count) := by
  induction count with
  | zero => exact .pure []
  | succ count ih => exact h.tracks.bind fun _ => ih.bind fun _ => .pure _

theorem readPrimType_advances : Advances readPrimType readPrimType := by
  apply readIdent_advances.bind
  intro kw
  split
  all_goals first | exact .pure _ | exact Goes.fail _

theorem readLimb_advances : Advances readLimb readLimb := readU64_advances.bind fun _ => .pure _

theorem limbsRound_continues (n : List U64) : Continues (limbsRound n) (limbsRound n) := by
  apply peekByte_tracks.bind_continues
  intro b
  split_ifs
  · exact readLimb_advances.bind_continues fun _ => .pure _
  · exact .break n

theorem canonicalNamedField_tracks (types : List SavedType) (degree : ℕ) (irreducible : List U64) :
    Tracks (canonicalNamedField types degree irreducible)
      (canonicalNamedField types degree irreducible) := by
  unfold canonicalNamedField
  split
  · exact .pure _
  · exact Goes.fail _

theorem parseHex_le {max n : ℕ} {digits : List Char} (h : parseHex max digits = some n) :
    n ≤ max := by
  obtain ⟨ds, -, hds⟩ := Option.bind_eq_some_iff.mp h
  obtain ⟨hok, heq⟩ := Option.ite_none_right_eq_some.mp hds
  exact Option.some.inj heq ▸ hok.2

theorem parseUnsigned_le {max n : ℕ} {raw : String} (h : parseUnsigned max raw = some n) :
    n ≤ max := by
  unfold parseUnsigned at h
  split at h
  · exact parseHex_le h
  · exact parseHex_le h
  · exact Numerals.parse_le h

theorem readUnsigned_le {max n : ℕ} {l l' : Lexer} (h : readUnsigned max l = .ok (n, l')) :
    n ≤ max := by
  change (skip l >>= fun r => (readUnsignedIntStr >>= fun raw => _) r.2) = _ at h
  cases hskip : skip l with
  | error e =>
      rw [hskip] at h
      cases h
  | ok r =>
      rw [hskip] at h
      change (readUnsignedIntStr r.2 >>= fun t => _) = _ at h
      cases hraw : readUnsignedIntStr r.2 with
      | error e =>
          rw [hraw] at h
          cases h
      | ok t =>
          rw [hraw, Fallible.ok_bind] at h
          cases hnum : parseUnsigned max t.1 with
          | none =>
              rw [hnum] at h
              cases h
          | some m =>
              rw [hnum] at h
              cases h
              exact parseUnsigned_le hnum

theorem readCoefficients_tracks (wrapped : TypeId) :
    Tracks (do
        let degree ← readU32
        withCapacity (degree + 1) 8
        return SavedType.extField wrapped degree (← readMany readLimb (degree + 1)))
      (do
        let degree ← readU32
        withCapacity (degree + 1) 8
        return SavedType.extField wrapped degree (← readMany readLimb (degree + 1))) := by
  apply Goes.bind_where (d := fun _ => 1) (e := fun _ => 0) (P := (· ≤ u32Max)) readU32_advances
    readUnsigned_le _ fun _ _ => Nat.zero_le _
  intro degree hdegree
  exact (withCapacity_tracks hdegree).bind fun _ =>
    (readMany_tracks readLimb_advances _).bind fun _ => .pure _

theorem parseIrType_tracks (kw : String) (types : List SavedType) :
    Tracks (parseIrType kw types) (parseIrType kw types) := by
  unfold parseIrType
  split
  · exact readPrimType_advances.tracks.bind fun _ => .pure _
  · exact readUsize_advances.tracks.bind fun _ =>
      readTypeId_advances.tracks.bind fun _ => .pure _
  · exact readTypeIdList_advances.tracks.bind fun _ => .pure _
  · exact readTypeIdList_advances.tracks.bind fun _ => .pure _
  · exact readTypeIdList_advances.tracks.bind fun _ => (expectStr_tracks _).bind fun _ =>
      readTypeIdList_advances.tracks.bind fun _ => .pure _
  · exact readTypeId_advances.tracks.bind readCoefficients_tracks
  · exact canonicalNamedField_tracks _ _ _
  · exact canonicalNamedField_tracks _ _ _
  · exact .pure _
  · apply readU32_advances.tracks.bind
    intro k
    apply (tracks_loop limbsRound_continues []).bind
    intro n
    split_ifs
    · exact Goes.fail _
    · exact .pure _
  · exact Goes.fail _

theorem coeffRound_continues (coeffs : Ir.PolyCoeffs) :
    Continues (coeffRound coeffs) (coeffRound coeffs) := by
  apply peekByte_tracks.bind_continues
  intro b
  split_ifs
  · apply readIdent_advances.bind_continues
    intro kw
    split_ifs
    · exact (expectByte_advances (by decide)).tracks.bind fun _ =>
        readVarList_advances.tracks.bind fun _ =>
        (expectByte_advances (by decide)).tracks.bind fun _ =>
        readU32_advances.tracks.bind fun _ => .pure _
    · exact .pure _
  · exact .break coeffs

theorem readResultBit_advances : Advances readResultBit readResultBit :=
  (expectByte_advances (by decide)).bind fun _ => readU32_advances.tracks.bind fun _ =>
    (expectByte_advances (by decide)).tracks.bind fun _ => readVar_advances.tracks.bind fun _ =>
    (expectByte_advances (by decide)).tracks.bind fun _ => .pure _

theorem readRotation_tracks (make : ℕ → TypeId → ℕ → Ir.IRStmt) :
    Tracks (readRotation make) (readRotation make) :=
  (field_tracks _ readVar_advances).bind fun _ => (field_tracks _ readTypeId_advances).bind fun _ =>
    (field_tracks _ readUsize_advances).bind fun _ => .pure _

theorem readOutput_tracks (make : ℕ → ℕ → TypeId → Ir.IRStmt) :
    Tracks (readOutput make) (readOutput make) :=
  (field_tracks _ readVar_advances).bind fun _ => (field_tracks _ readUsize_advances).bind fun _ =>
    (field_tracks _ readTypeId_advances).bind fun _ => .pure _

theorem parseIrStmt_tracks (kw : String) :
    Tracks (parseIrStmt escapedByte kw) (parseIrStmt escapedCharacter kw) := by
  have hvar := fun key => field_tracks key readVar_advances
  have hvars := fun key => field_tracks key readVarList_advances
  have hty := fun key => field_tracks key readTypeId_advances
  have htys := fun key => field_tracks key readTypeIdList_advances
  have hstorage := fun key => field_tracks key readStorageId_advances
  have hname := readString_advances.tracks
  unfold parseIrStmt
  split
  case h_1 =>
    exact readConstant_advances.tracks.bind fun _ => (hty _).bind fun _ => .pure _
  case h_2 =>
    exact (hstorage _).bind fun _ => (hty _).bind fun _ => (hvar _).bind fun _ => .pure _
  case h_3 =>
    exact (hstorage _).bind fun _ => (hvar _).bind fun _ => (hty _).bind fun _ =>
      (hvar _).bind fun _ => .pure _
  case h_4 => exact (hvar _).bind fun _ => (hty _).bind fun _ => (hty _).bind fun _ => .pure _
  case h_5 =>
    exact (hty _).bind fun _ => (field_tracks _ readConstant_advances).bind fun _ =>
      (tracks_loop coeffRound_continues _).bind fun _ => .pure _
  case h_6 => exact readRotation_tracks _
  case h_7 => exact readRotation_tracks _
  case h_8 => exact (hty _).bind fun _ => (hvars _).bind fun _ => .pure _
  case h_9 => exact (hvar _).bind fun _ => (hty _).bind fun _ => .pure _
  case h_10 =>
    exact (hty _).bind fun _ =>
      (field_tracks _ (readList_advances readResultBit_advances)).bind fun _ => .pure _
  case h_11 =>
    exact hname.bind fun _ => (hvars _).bind fun _ => (htys _).bind fun _ =>
      (hty _).bind fun _ => .pure _
  case h_12 => exact readOutput_tracks _
  case h_13 =>
    exact hname.bind fun _ => (hvar _).bind fun _ => (hvars _).bind fun _ =>
      (hvars _).bind fun _ => (htys _).bind fun _ => (hty _).bind fun _ => .pure _
  case h_14 => exact readOutput_tracks _
  case h_15 => exact hname.bind fun _ => (hty _).bind fun _ => .pure _
  case h_16 => exact Goes.unexpected _

theorem readBranchTarget_advances : Advances readBranchTarget readBranchTarget :=
  readBlockTarget_advances.bind fun _ =>
    (field_tracks _ readVarList_advances).bind fun _ => .pure _

theorem caseRound_continues (cases : SortedMap Constant Ir.IRBranchTarget) :
    Continues (caseRound cases) (caseRound cases) := by
  apply peekByte_tracks.bind_continues
  intro b
  split_ifs
  · apply readIdent_advances.bind_continues
    intro kw
    split_ifs
    · exact readConstant_advances.tracks.bind fun _ => (expectStr_tracks _).bind fun _ =>
        readBranchTarget_advances.tracks.bind fun _ => .pure _
    · exact .pure _
  · exact .break cases

theorem parseIrTerminator_tracks (kw : String) :
    Tracks (parseIrTerminator kw) (parseIrTerminator kw) := by
  have hblock := fun key => field_tracks key readBlockTarget_advances
  have hvars := fun key => field_tracks key readVarList_advances
  unfold parseIrTerminator
  split
  · exact readBranchTarget_advances.tracks.bind fun _ => .pure _
  · exact (field_tracks _ readVar_advances).bind fun _ => (hblock _).bind fun _ =>
      (hvars _).bind fun _ => (hblock _).bind fun _ => (hvars _).bind fun _ => .pure _
  · exact (field_tracks _ readVar_advances).bind fun _ =>
      (tracks_loop caseRound_continues _).bind fun _ => .pure _
  · exact Goes.unexpected _

section Blocks
variable {A S T : Type} {stmt stmt' : String → Parser S}
  {terminator terminator' : String → Parser T}

theorem blockRound_continues (hstmt : ∀ kw, Tracks (stmt kw) (stmt' kw))
    (hterm : ∀ kw, Tracks (terminator kw) (terminator' kw)) (stmts : List (Node S Unit)) :
    Continues (blockRound stmt terminator stmts) (blockRound stmt' terminator' stmts) := by
  apply skip_tracks.bind_continues
  intro _
  apply isEof_tracks.bind_continues
  intro eof
  cases eof with
  | true => exact .break _
  | false =>
      apply peekByte_tracks.bind_continues
      intro b
      split_ifs
      · exact readVar_advances.bind_continues fun _ =>
          (expectByte_advances (by decide)).tracks.bind fun _ =>
          readIdent_advances.tracks.bind fun _ => (hstmt _).bind fun _ => .pure _
      · apply readIdent_advances.bind_continues
        intro kw
        split_ifs
        · exact .pure _
        · apply (hterm kw).bind
          intro term
          apply readIdent_advances.tracks.bind
          intro endKw
          split_ifs
          · exact .pure _
          · exact Goes.unexpected _

theorem parseBlock_advances {params params' : Parser A} (hparams : Tracks params params')
    (hstmt : ∀ kw, Tracks (stmt kw) (stmt' kw))
    (hterm : ∀ kw, Tracks (terminator kw) (terminator' kw)) :
    Advances (parseBlock params stmt terminator) (parseBlock params' stmt' terminator') := by
  apply readIdent_advances.bind
  intro kw
  split_ifs
  · apply hparams.bind
    intro ps
    apply (tracks_loop (blockRound_continues hstmt hterm) []).bind
    rintro ⟨stmts, term⟩
    cases term with
    | some term => exact .pure _
    | none => exact Goes.fail _
  · exact Goes.fail _

theorem fileRound_continues {F : Type} {directive directive' : F → String → Parser F}
    (h : ∀ saved name, Tracks (directive saved name) (directive' saved name)) (saved : F) :
    Continues (fileRound directive saved) (fileRound directive' saved) := by
  apply skip_tracks.bind_continues
  intro _
  apply isEof_tracks.bind_continues
  intro eof
  cases eof with
  | true => exact .break saved
  | false => exact readIdent_advances.bind_continues fun _ => (h saved _).bind fun _ => .pure _

end Blocks

theorem checkHeader_tracks (families : List String) :
    Tracks (checkHeader families) (checkHeader families) := by
  apply (readToNewline_tracks.bind fun _ => .pure _).bind
  intro header
  split_ifs
  · exact Goes.fail _
  · exact .pure ()
  · exact Goes.fail _
  · exact Goes.fail _

theorem parseIrBlock_advances :
    Advances (parseIrBlock escapedByte) (parseIrBlock escapedCharacter) :=
  (parseBlock_advances readTypeIdList_advances.tracks parseIrStmt_tracks
    parseIrTerminator_tracks).bind fun _ => .pure _

theorem readCallDecl_advances :
    Advances (readCallDecl escapedByte) (readCallDecl escapedCharacter) :=
  readString_advances.bind fun _ => (field_tracks _ readTypeIdList_advances).bind fun _ =>
    (field_tracks _ readTypeIdList_advances).bind fun _ => .pure _

theorem parseIrDirective_tracks (saved : SavedIrBlocks) (directive : String) :
    Tracks (parseIrDirective escapedByte saved directive)
      (parseIrDirective escapedCharacter saved directive) := by
  unfold parseIrDirective
  split
  · exact readU32_advances.tracks.bind fun _ => readIdent_advances.tracks.bind fun _ =>
      (parseIrType_tracks _ _).bind fun _ => .pure _
  · exact readCallDecl_advances.tracks.bind fun _ => .pure _
  · exact readCallDecl_advances.tracks.bind fun _ => .pure _
  · exact readString_advances.tracks.bind fun _ =>
      (field_tracks _ readTypeId_advances).bind fun _ => .pure _
  · exact readU32_advances.tracks.bind fun _ =>
      parseIrBlock_advances.tracks.bind fun _ => .pure _
  · exact Goes.fail _

theorem parseIrFile_tracks : Tracks (parseIrFile escapedByte) (parseIrFile escapedCharacter) :=
  (checkHeader_tracks _).bind fun _ => tracks_loop (fileRound_continues parseIrDirective_tracks) _

theorem readGate_tracks (make : ℕ → ℕ → Boolar.Stmt) : Tracks (readGate make) (readGate make) :=
  readVar_advances.tracks.bind fun _ => readVar_advances.tracks.bind fun _ => .pure _

theorem readLane_advances : Advances readLane readLane := readU32_advances.bind fun _ => .pure _

theorem readProjection_tracks (make : ℕ → ℕ → Boolar.Stmt) :
    Tracks (readProjection make) (readProjection make) :=
  (field_tracks _ readVar_advances).bind fun _ =>
    (field_tracks _ readUsize_advances).bind fun _ => .pure _

theorem parseBirStmt_tracks (kw : String) :
    Tracks (parseBirStmt escapedByte kw) (parseBirStmt escapedCharacter kw) := by
  have hvar := fun key => field_tracks key readVar_advances
  have hvars := fun key => field_tracks key readVarList_advances
  have hcount := fun key => field_tracks key readUsize_advances
  have hstorage := fun key => field_tracks key readStorageId_advances
  have hlane := fun key => field_tracks key readLane_advances
  have hname := readString_advances.tracks
  unfold parseBirStmt
  split
  case h_1 => exact .pure _
  case h_2 => exact .pure _
  case h_3 => exact readGate_tracks _
  case h_4 => exact readGate_tracks _
  case h_5 => exact readGate_tracks _
  case h_6 => exact readVar_advances.tracks.bind fun _ => .pure _
  case h_7 =>
    exact hname.bind fun _ => (hvars _).bind fun _ => (hcount _).bind fun _ => .pure _
  case h_8 => exact readProjection_tracks _
  case h_9 =>
    exact hname.bind fun _ => (hvar _).bind fun _ => (hvars _).bind fun _ =>
      (hvars _).bind fun _ => (hcount _).bind fun _ => .pure _
  case h_10 => exact readProjection_tracks _
  case h_11 => exact hname.bind fun _ => .pure _
  case h_12 =>
    exact (hstorage _).bind fun _ => (hlane _).bind fun _ => (hvars _).bind fun _ => .pure _
  case h_13 =>
    exact (hstorage _).bind fun _ => (hlane _).bind fun _ => (hvar _).bind fun _ =>
      (hvars _).bind fun _ => .pure _
  case h_14 => exact Goes.unexpected _

theorem parseBirTerminator_tracks (kw : String) :
    Tracks (parseBirTerminator kw) (parseBirTerminator kw) := by
  have hblock := fun key => field_tracks key readBlockTarget_advances
  have hvars := fun key => field_tracks key readVarList_advances
  unfold parseBirTerminator
  split
  · exact readBlockTarget_advances.tracks.bind fun _ => (hvars _).bind fun _ => .pure _
  · exact (field_tracks _ readVar_advances).bind fun _ => (hblock _).bind fun _ =>
      (hvars _).bind fun _ => (hblock _).bind fun _ => (hvars _).bind fun _ => .pure _
  · exact Goes.unexpected _

theorem parseBirBlock_advances :
    Advances (parseBirBlock escapedByte) (parseBirBlock escapedCharacter) :=
  (parseBlock_advances readU32_advances.tracks parseBirStmt_tracks
    parseBirTerminator_tracks).bind fun _ => .pure _

theorem parseBirDirective_tracks (saved : SavedBIrBlocks) (directive : String) :
    Tracks (parseBirDirective escapedByte saved directive)
      (parseBirDirective escapedCharacter saved directive) := by
  unfold parseBirDirective
  split
  · exact readU32_advances.tracks.bind fun _ =>
      parseBirBlock_advances.tracks.bind fun _ => .pure _
  · exact Goes.fail _

theorem sectionIsValid_tracks (name : String) :
    Tracks (sectionIsValid name) (sectionIsValid name) := by
  unfold sectionIsValid
  split_ifs
  · exact tryByte_tracks (by decide)
  · exact .pure false

theorem parseBirFile_tracks :
    Tracks (parseBirFile escapedByte) (parseBirFile escapedCharacter) := by
  apply (checkHeader_tracks _).bind
  intro _
  apply readIdent_advances.tracks.bind
  intro name
  apply (sectionIsValid_tracks name).bind
  intro isValid
  split_ifs
  · exact tracks_loop (fileRound_continues parseBirDirective_tracks) _
  · exact Goes.fail _

/-- A parse returns: a value or a `ParseError`. -/
def Returns (r : Except Stop α) : Prop := (∃ a, r = .ok a) ∨ ∃ e, r = .error (.error e)

section Runs
variable {p q : Parser α} {overflowChecks : Bool} {s : String}

theorem between_new (overflowChecks : Bool) (s : String) : Between (.new overflowChecks s) :=
  ⟨⟨Nat.zero_le _, fun _ => ⟨le_rfl, le_rfl⟩⟩, s.toList, Utf8.dropBytes_zero _⟩

/-- The parser returns unless the one that looks ahead refuses or counts too far. -/
theorem returns_iff (h : Tracks p q) (overflowChecks : Bool) (s : String) :
    Returns (runOn p overflowChecks s) ↔ runOn q overflowChecks s ≠ .error .refused ∧
      runOn q overflowChecks s ≠ .error (.panic .overflow) := by
  have hruns := h _ (between_new overflowChecks s)
  unfold runOn
  change Returns ((p (.new overflowChecks s)).map Prod.fst) ↔
    (q (.new overflowChecks s)).map Prod.fst ≠ _ ∧ (q (.new overflowChecks s)).map Prod.fst ≠ _
  generalize p (.new overflowChecks s) = r, q (.new overflowChecks s) = r' at hruns ⊢
  cases hruns with
  | ok => exact ⟨fun _ => ⟨fun h => (by cases h), fun h => (by cases h)⟩, fun _ => .inl ⟨_, rfl⟩⟩
  | error e =>
      exact ⟨fun _ => ⟨fun h => (by cases h), fun h => (by cases h)⟩, fun _ => .inr ⟨e, rfl⟩⟩
  | overflow =>
      constructor
      · rintro (⟨a, h⟩ | ⟨e, h⟩) <;> cases h
      · intro h
        exact absurd rfl h.2
  | inside =>
      constructor
      · rintro (⟨a, h⟩ | ⟨e, h⟩) <;> cases h
      · intro h
        exact absurd rfl h.1

end Runs

/-- The same grammar, looking at the whole character after a backslash: it comes to no escape of
a character of several bytes, and no checked counter of lines or columns overflows. -/
def LooksAhead (overflowChecks : Bool) (p : Parser Char → Parser α) (s : String) : Prop :=
  runOn (p escapedCharacter) overflowChecks s ≠ .error .refused ∧
    runOn (p escapedCharacter) overflowChecks s ≠ .error (.panic .overflow)

/-- On every text, the two parsers return a value or an error unless they come to an escape of
a character of several bytes or count too far. -/
theorem parsers_return_iff (overflowChecks : Bool) (s : String) :
    (Returns (parseSavedIrBlocks overflowChecks s) ↔ LooksAhead overflowChecks parseIrFile s) ∧
      (Returns (parseSavedBirBlocks overflowChecks s) ↔
        LooksAhead overflowChecks parseBirFile s) :=
  ⟨returns_iff parseIrFile_tracks overflowChecks s,
      returns_iff parseBirFile_tracks overflowChecks s⟩

def escapedLiteral (c : Char) : String := "volar-ir v1\noracle \"\\" ++ .ofList [c, '"']

/-- An escape of a character of two bytes: the next slice starts inside it. -/
theorem escapedLiteral_panics : ¬Returns (parseSavedIrBlocks true (escapedLiteral 'é')) := by
  have hrun : parseSavedIrBlocks true (escapedLiteral 'é') =
      .error (.panic .insideCharacter) := by
    decide +kernel
  rw [hrun]
  rintro (⟨a, h⟩ | ⟨e, h⟩) <;> cases h

end VolarIR.Text
