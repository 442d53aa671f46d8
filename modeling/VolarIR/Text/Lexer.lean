import VolarIR.Basic
import VolarIR.Library.Hexadecimal
import VolarIR.Library.Numerals
import VolarIR.Library.Utf8

/-!
# The lexer of the text formats

The cursor of `volar-ir-text/src/parse/lexer.rs` and its token readers. The cursor counts
bytes, and the counters of lines and columns are 32 bits wide: they overflow in a build that
checks its arithmetic, and wrap in one that does not.
-/
namespace VolarIR.Text

inductive Got where
  | byte (b : UInt8)
  | expectedByte (expected got : UInt8)
  | expectedStr (expected got : String)
  | expectedVar (b : UInt8)
  | unknown (what name : String)
  | expectedEndBlock (got : String)
  | token (text : String)
  deriving DecidableEq, Repr

inductive ParseError where
  | missingVersionLine
  | unsupportedVersion (header : String)
  | unknownDirective (name : String)
  | unexpectedEof
  | unexpectedToken (line col : ℕ) (got : Got)
  | missingField (name : String)
  | invalidInt (raw : String)
  | unknownPrimType (name : String)
  deriving DecidableEq, Repr

inductive Panic where
  /-- A slice that starts or ends inside a character. -/
  | insideCharacter
  | overflow
  /-- The request of more than `isize::MAX` bytes. -/
  | capacity
  /-- A loop that would not end. -/
  | endless
  deriving DecidableEq, Repr

/-- Why a parse ends early. No reader of the source refuses: that is for a reader that looks
ahead in its place. -/
inductive Stop where
  | error (e : ParseError)
  | panic (why : Panic)
  | refused
  deriving DecidableEq, Repr

structure Lexer where
  src : List Char
  /-- Whether the build checks its arithmetic. -/
  overflowChecks : Bool
  pos : ℕ
  line : ℕ
  col : ℕ
  deriving DecidableEq, Repr

abbrev Parser := StateT Lexer (Except Stop)

namespace Lexer

def new (overflowChecks : Bool) (src : String) : Lexer := ⟨src.toList, overflowChecks, 0, 1, 1⟩

def bytes (l : Lexer) : List UInt8 := Utf8.bytes l.src

/-- `as_bytes().get(pos)`. -/
def byte (l : Lexer) : Option UInt8 := l.bytes[l.pos]?

def left (l : Lexer) : ℕ := l.bytes.length - l.pos

/-- `n += k` on a counter. -/
def count (l : Lexer) (n k : ℕ) : Option ℕ :=
  if n + k < 2 ^ 32 then some (n + k)
  else if l.overflowChecks then none
  else some ((n + k) % 2 ^ 32)

end Lexer

def ascii (c : Char) : UInt8 := c.val.toUInt8

variable {α σ : Type}

def fail (e : ParseError) : Parser α := throw (.error e)

def unexpected (got : Got) : Parser α := do
  let l ← get
  fail (.unexpectedToken l.line l.col got)

/-- What the source unwraps. -/
def orPanic (why : Panic) : Option α → Parser α
  | some a => return a
  | none => throw (.panic why)

def forward (bytes cols : ℕ) : Parser Unit := do
  let l ← get
  let col ← orPanic .overflow (l.count l.col cols)
  set { l with pos := l.pos + bytes, col }

def advanceByte : Parser Unit := do
  let l ← get
  match l.byte with
  | none => return ()
  | some b =>
      if b = ascii '\n' then
        let line ← orPanic .overflow (l.count l.line 1)
        set { l with pos := l.pos + 1, line, col := 1 }
      else forward 1 1

/-- A `while` loop over the bytes that satisfy `p`, for as many bytes as are left. -/
def passWhile (step : Parser Unit) (p : UInt8 → Bool) : (left : ℕ) → Parser Unit
  | 0 => return ()
  | left + 1 => do
      match (← get).byte with
      | none => return ()
      | some b =>
          if p b then
            step
            passWhile step p left
          else return ()

def scanWhile (step : Parser Unit) (p : UInt8 → Bool) : Parser Unit := do
  passWhile step p (← get).left

/-- A `loop`: each round goes on or breaks with a value. One that goes on for more rounds than
there are bytes left does not end. -/
def rounds (round : σ → Parser (σ ⊕ α)) : (left : ℕ) → σ → Parser α
  | 0, _ => throw (.panic .endless)
  | left + 1, s => do
      match ← round s with
      | .inl s => rounds round left s
      | .inr a => return a

def loop (round : σ → Parser (σ ⊕ α)) (s : σ) : Parser α := do
  rounds round ((← get).left + 1) s

def isBlank (b : UInt8) : Bool :=
  b = ascii ' ' ∨ b = ascii '\t' ∨ b = ascii '\r' ∨ b = ascii '\n'

def skipRound (_ : Unit) : Parser (Unit ⊕ Unit) := do
  let start := (← get).pos
  scanWhile advanceByte isBlank
  if (← get).byte = some (ascii ';') then
    scanWhile (forward 1 1) (· != ascii '\n')
    return .inl ()
  else if (← get).pos = start then return .inr ()
  else return .inl ()

def skip : Parser Unit := loop skipRound ()

def isEof : Parser Bool := do
  skip
  let l ← get
  return decide (l.bytes.length ≤ l.pos)

def peekByte : Parser (Option UInt8) := do
  skip
  return (← get).byte

def tryByte (b : UInt8) : Parser Bool := do
  skip
  if (← get).byte = some b then
    advanceByte
    return true
  else return false

def expectByte (expected : UInt8) : Parser Unit := do
  skip
  if (← get).byte = some expected then advanceByte
  else unexpected (.expectedByte expected ((← get).byte.getD 0))

/-- `&src[start..pos]`. -/
def sliceFrom (start : ℕ) : Parser String := do
  let l ← get
  return .ofList (← orPanic .insideCharacter (Utf8.slice l.src start l.pos))

/-- `&src[pos..]`. -/
def rest : Parser (List Char) := do
  let l ← get
  orPanic .insideCharacter (Utf8.dropBytes l.src l.pos)

def isAlphabetic (b : UInt8) : Bool :=
  ascii 'a' ≤ b ∧ b ≤ ascii 'z' ∨ ascii 'A' ≤ b ∧ b ≤ ascii 'Z'

def isDigit (b : UInt8) : Bool := ascii '0' ≤ b ∧ b ≤ ascii '9'

def isIdent (b : UInt8) : Bool := isAlphabetic b || isDigit b || b = ascii '_' || b = ascii '-'

def readIdent : Parser String := do
  skip
  let start := (← get).pos
  match (← get).byte with
  | none => fail .unexpectedEof
  | some b =>
      if isAlphabetic b || b = ascii '_' then
        scanWhile (forward 1 1) isIdent
        sliceFrom start
      else unexpected (.byte b)

def isHexDigit (b : UInt8) : Bool :=
  isDigit b || decide (ascii 'a' ≤ b ∧ b ≤ ascii 'f') || decide (ascii 'A' ≤ b ∧ b ≤ ascii 'F')

def isHexMark (b : UInt8) : Bool := b = ascii 'x' || b = ascii 'X'

def readUnsignedIntStr : Parser String := do
  let l ← get
  if l.byte = some (ascii '0') ∧ l.bytes[l.pos + 1]?.any isHexMark then forward 2 2
  let digitStart := (← get).pos
  scanWhile (forward 1 1) isHexDigit
  if (← get).pos = digitStart then fail .unexpectedEof
  else sliceFrom l.pos

/-- `from_str_radix(_, 16)` of digits. -/
def parseHex (max : ℕ) (digits : List Char) : Option ℕ :=
  (digits.mapM Hexadecimal.toDigit).bind fun ds =>
    let n := ds.foldl (16 * · + ·) 0
    if digits ≠ [] ∧ n ≤ max then some n else none

/-- An unsigned type with largest value `max`, from its digits or from `0x` and its digits. -/
def parseUnsigned (max : ℕ) (raw : String) : Option ℕ :=
  match raw.toList with
  | '0' :: 'x' :: digits | '0' :: 'X' :: digits => parseHex max digits
  | digits => Numerals.parse max digits

def readUnsigned (max : ℕ) : Parser ℕ := do
  skip
  let raw ← readUnsignedIntStr
  match parseUnsigned max raw with
  | some n => return n
  | none => fail (.invalidInt raw)

def readU32 : Parser ℕ := readUnsigned u32Max

def readU64 : Parser ℕ := readUnsigned (2 ^ 64 - 1)

def readU128 : Parser ℕ := readUnsigned (2 ^ 128 - 1)

def readUsize : Parser ℕ := readU32

/-- `for _ in expected.bytes()`. -/
def advanceBytes : ℕ → Parser Unit
  | 0 => return ()
  | n + 1 => do
      advanceByte
      advanceBytes n

def expectStr (expected : String) : Parser Unit := do
  skip
  let text ← rest
  if expected.toList <+: text then advanceBytes (Utf8.bytes expected.toList).length
  else unexpected (.expectedStr expected (.ofList (text.take 16)))

def expectKey (expected : String) : Parser Unit := do
  let k ← readIdent
  if k = expected then expectByte (ascii '=')
  else fail (.missingField expected)

def escapedByte : Parser Char := do
  match (← get).byte with
  | none => fail .unexpectedEof
  | some esc =>
      advanceByte
      return if esc = ascii 'n' then '\n'
        else if esc = ascii 't' then '\t'
        else if esc = ascii 'r' then '\r'
        else Char.ofNat esc.toNat

def escapedCharacter : Parser Char := do
  let l ← get
  match Utf8.dropBytes l.src l.pos with
  | some (c :: _) => if c.utf8Size = 1 then escapedByte else throw .refused
  | _ => escapedByte

section Strings
variable (escaped : Parser Char)

def stringRound (s : List Char) : Parser (List Char ⊕ String) := do
  match (← get).byte with
  | none => fail .unexpectedEof
  | some b =>
      if b = ascii '"' then
        advanceByte
        return .inr (.ofList s)
      else if b = ascii '\\' then
        advanceByte
        return .inl (s ++ [← escaped])
      else
        let ch ← orPanic .insideCharacter (← rest).head?
        forward ch.utf8Size 1
        return .inl (s ++ [ch])

def readString : Parser String := do
  skip
  expectByte (ascii '"')
  loop (stringRound escaped) []

end Strings

def listRound (item : Parser α) (out : List α) : Parser (List α ⊕ List α) := do
  skip
  if ← tryByte (ascii ']') then return .inr out
  let out := out ++ [← item]
  skip
  if ← tryByte (ascii ',') then return .inl out
  expectByte (ascii ']')
  return .inr out

def readList (item : Parser α) : Parser (List α) := do
  expectByte (ascii '[')
  loop (listRound item) []

def readU32List : Parser (List ℕ) := readList readU32

def readVar : Parser ℕ := do
  skip
  match (← get).byte with
  | none => fail .unexpectedEof
  | some b =>
      if b = ascii 'v' then
        advanceByte
        readU32
      else unexpected (.expectedVar b)

def readVarList : Parser (List ℕ) := readList readVar

def readToNewline : Parser String := do
  let start := (← get).pos
  scanWhile (forward 1 1) (· != ascii '\n')
  sliceFrom start

/-- `trim`. -/
def trim (text : String) : String :=
  .ofList ((text.toList.dropWhile isWhitespace).rdropWhile isWhitespace)

end VolarIR.Text
