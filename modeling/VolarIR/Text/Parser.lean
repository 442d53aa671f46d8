import VolarIR.Boolar.Syntax
import VolarIR.Ir.Syntax
import VolarIR.Text.Lexer

/-!
# The parsers of the text formats

`volar-ir-text/src/parse/ir.rs`. What an escape in a string literal stands for is a parameter
of every reader that comes to one.
-/
namespace VolarIR.Text

/-- `Type`, as the format spells it. -/
inductive PrimType where
  | bit
  | u8
  | u16
  | u32
  | u64
  | u128
  | u256
  deriving DecidableEq, Repr

/-- `IrType`, with every leaf type the format has. -/
inductive SavedType where
  | primitive (t : PrimType)
  | vec (len : ℕ) (elem : TypeId)
  | tuple (parts : List TypeId)
  | block (params : List TypeId)
  | func (params results : List TypeId)
  | extField (wrapped : TypeId) (degree : ℕ) (irreducible : List U64)
  | primeField (k : ℕ) (n : List U64)
  deriving DecidableEq, Repr

structure CallDecl where
  name : String
  params : List TypeId
  results : List TypeId
  deriving DecidableEq, Repr

structure RngDecl where
  name : String
  ty : TypeId
  deriving DecidableEq, Repr

structure SavedIrBlocks where
  types : List SavedType
  oracles : List CallDecl
  actions : List CallDecl
  rngs : List RngDecl
  blocks : List (Ir.IRBlock Unit)
  deriving DecidableEq

structure SavedBIrBlocks where
  blocks : List (Boolar.BIrBlock Unit)
  deriving DecidableEq

open Ir (IRStmt IRTerminator IRBranchTarget IRBlock PolyCoeffs)
open Boolar (BIrTarget BIrTerminator BIrBlock)

def readConstant : Parser Constant := do
  let hi ← readU128
  expectByte (ascii ':')
  let lo ← readU128
  return ⟨.ofNat 128 hi, .ofNat 128 lo⟩

def readBlockTarget : Parser (IRBlockTargetId ℕ) := do
  let kw ← readIdent
  match kw with
  | "return" => return .ret
  | "block" => do
      expectByte (ascii ':')
      return .block (← readU32)
  | "dyn" => do
      expectByte (ascii ':')
      return .dyn (← readVar)
  | other => fail (.unknownDirective other)

def readTypeId : Parser TypeId := do return ⟨← readU32⟩

def readStorageId : Parser StorageId := do return ⟨← readU32⟩

def readTypeIdList : Parser (List TypeId) := do return (← readU32List).map TypeId.mk

/-- `expect_key` and what comes after it. -/
def field {α : Type} (key : String) (value : Parser α) : Parser α := do
  expectKey key
  value

/-- `Vec::with_capacity(count)` for elements of `size` bytes. -/
def withCapacity (count size : ℕ) : Parser Unit :=
  if count * size < 2 ^ 63 then return () else throw (.panic .capacity)

/-- `for _ in 0..count`. -/
def readMany {α : Type} (item : Parser α) : (count : ℕ) → Parser (List α)
  | 0 => return []
  | count + 1 => do return (← item) :: (← readMany item count)

def aes8Irreducible : List U64 := [1, 1, 0, 1, 1, 0, 0, 0, 1]

def galois64Irreducible : List U64 :=
  (List.range 65).map fun i => if i ∈ [0, 1, 3, 4, 64] then 1 else 0

def canonicalNamedField (types : List SavedType) (degree : ℕ) (irreducible : List U64) :
    Parser SavedType :=
  match types.findIdx? (· == .primitive .bit) with
  | some bit => return .extField ⟨bit⟩ degree irreducible
  | none => fail (.missingField "prim bit")

def readPrimType : Parser PrimType := do
  let primKw ← readIdent
  match primKw with
  | "bit" => return .bit
  | "u8" => return .u8
  | "u16" => return .u16
  | "u32" => return .u32
  | "u64" => return .u64
  | "u128" => return .u128
  | "u256" => return .u256
  | other => fail (.unknownPrimType other)

def readLimb : Parser U64 := do return .ofNat 64 (← readU64)

def limbsRound (n : List U64) : Parser (List U64 ⊕ List U64) := do
  if (← peekByte).any isDigit then return .inl (n ++ [← readLimb])
  else return .inr n

def parseIrType (kw : String) (types : List SavedType) : Parser SavedType :=
  match kw with
  | "prim" => do return .primitive (← readPrimType)
  | "vec" => do
      let n ← readUsize
      return .vec n (← readTypeId)
  | "tuple" => do return .tuple (← readTypeIdList)
  | "block" => do return .block (← readTypeIdList)
  | "func" => do
      let params ← readTypeIdList
      expectStr "->"
      return .func params (← readTypeIdList)
  | "extfield" => do
      let wrapped ← readTypeId
      let degree ← readU32
      withCapacity (degree + 1) 8
      return .extField wrapped degree (← readMany readLimb (degree + 1))
  | "aes8" => canonicalNamedField types 8 aes8Irreducible
  | "galois64" => canonicalNamedField types 64 galois64Irreducible
  | "z3" => return .primeField 2 [1]
  | "primefield" => do
      let k ← readU32
      let n ← loop limbsRound []
      if n = [] then fail (.missingField "primefield limb")
      else return .primeField k n
  | other => fail (.unknownDirective other)

/-- `PolyCoeffs::insert`: the last coefficient of a monomial stays. -/
def insertCoeff (coeffs : PolyCoeffs) (vars : List ℕ) (coeff : U8) : PolyCoeffs :=
  coeffs.upsert vars fun _ => coeff

/-- A coefficient; a word with its first letter ends the loop as well. -/
def coeffRound (coeffs : PolyCoeffs) : Parser (PolyCoeffs ⊕ PolyCoeffs) := do
  if (← peekByte) = some (ascii 'c') then
    let kw ← readIdent
    if kw = "coeff" then
      expectByte (ascii '=')
      let vars ← readVarList
      expectByte (ascii ':')
      let coeff ← readU32
      return .inl (insertCoeff coeffs vars (.ofNat 8 coeff))
    else return .inr coeffs
  else return .inr coeffs

def readResultBit : Parser (U8 × ℕ) := do
  expectByte (ascii '(')
  let bit ← readU32
  expectByte (ascii ',')
  let v ← readVar
  expectByte (ascii ')')
  return (.ofNat 8 bit, v)

/-- `src`, `ty` and `n` of a rotation. -/
def readRotation (make : ℕ → TypeId → ℕ → IRStmt) : Parser IRStmt := do
  let src ← field "src" readVar
  let ty ← field "ty" readTypeId
  let n ← field "n" readUsize
  return make src ty n

/-- `call`, `idx` and `ty` of an output. -/
def readOutput (make : ℕ → ℕ → TypeId → IRStmt) : Parser IRStmt := do
  let call ← field "call" readVar
  let idx ← field "idx" readUsize
  let ty ← field "ty" readTypeId
  return make call idx ty

section Grammar
variable (escaped : Parser Char)

def parseIrStmt (kw : String) : Parser IRStmt :=
  match kw with
  | "const" => do
      let c ← readConstant
      let ty ← field "ty" readTypeId
      return .const c ty
  | "storage_read" => do
      let storage ← field "storage" readStorageId
      let ty ← field "ty" readTypeId
      let addr ← field "addr" readVar
      return .storageRead storage ty addr
  | "storage_write" => do
      let storage ← field "storage" readStorageId
      let src ← field "src" readVar
      let ty ← field "ty" readTypeId
      let addr ← field "addr" readVar
      return .storageWrite storage src ty addr
  | "transmute" => do
      let src ← field "src" readVar
      let srcTy ← field "src_ty" readTypeId
      let dstTy ← field "dst_ty" readTypeId
      return .transmute src srcTy dstTy
  | "poly" => do
      let ty ← field "ty" readTypeId
      let constant ← field "const" readConstant
      let coeffs ← loop coeffRound .empty
      return .poly ty coeffs constant
  | "rol" => readRotation .rol
  | "ror" => readRotation .ror
  | "merge" => do
      let ty ← field "ty" readTypeId
      let parts ← field "parts" readVarList
      return .merge parts ty
  | "splat" => do
      let src ← field "src" readVar
      let ty ← field "ty" readTypeId
      return .splat src ty
  | "shuffle" => do
      let ty ← field "ty" readTypeId
      let resultBits ← field "bits" (readList readResultBit)
      return .shuffle resultBits ty
  | "oracle_call" => do
      let name ← readString escaped
      let args ← field "args" readVarList
      let outputTys ← field "out_tys" readTypeIdList
      let resultTy ← field "result_ty" readTypeId
      return .oracleCall name args outputTys resultTy
  | "oracle_output" => readOutput .oracleOutput
  | "action_call" => do
      let name ← readString escaped
      let guard ← field "guard" readVar
      let args ← field "args" readVarList
      let fallbacks ← field "fallbacks" readVarList
      let outputTys ← field "out_tys" readTypeIdList
      let resultTy ← field "result_ty" readTypeId
      return .actionCall name guard args fallbacks outputTys resultTy
  | "action_output" => readOutput .actionOutput
  | "rng" => do
      let name ← readString escaped
      let ty ← field "ty" readTypeId
      return .rng name ty
  | other => unexpected (.unknown "IR stmt" other)

def readBranchTarget : Parser IRBranchTarget := do
  let dest ← readBlockTarget
  let args ← field "args" readVarList
  return ⟨dest, args⟩

def caseRound (cases : SortedMap Constant IRBranchTarget) :
    Parser (SortedMap Constant IRBranchTarget ⊕ SortedMap Constant IRBranchTarget) := do
  if (← peekByte) = some (ascii 'c') then
    let kw ← readIdent
    if kw = "case" then
      let constant ← readConstant
      expectStr "->"
      let target ← readBranchTarget
      return .inl (cases.upsert constant fun _ => target)
    else return .inr cases
  else return .inr cases

def parseIrTerminator (kw : String) : Parser IRTerminator :=
  match kw with
  | "jmp" => do return .jmp (← readBranchTarget)
  | "jmp_cond" => do
      let condition ← field "cond" readVar
      let trueBlock ← field "then" readBlockTarget
      let trueArgs ← field "then_args" readVarList
      let falseBlock ← field "else" readBlockTarget
      let falseArgs ← field "else_args" readVarList
      return .jumpCond condition ⟨trueBlock, trueArgs⟩ ⟨falseBlock, falseArgs⟩
  | "jmp_table" => do
      let index ← field "index" readVar
      return .jumpTable index (← loop caseRound .empty)
  | other => unexpected (.unknown "terminator" other)

/-- The loop of a block, on the statements so far; it ends with them and the terminator. -/
def blockRound {S T : Type} (stmt : String → Parser S) (terminator : String → Parser T)
    (stmts : List (Node S Unit)) :
    Parser (List (Node S Unit) ⊕ List (Node S Unit) × Option T) := do
  skip
  if ← isEof then return .inr (stmts, none)
  if (← peekByte) = some (ascii 'v') then
    let _ ← readVar
    expectByte (ascii '=')
    let stmtKw ← readIdent
    return .inl (stmts ++ [.new (← stmt stmtKw) ()])
  else
    let kw ← readIdent
    if kw = "end_block" then return .inr (stmts, none)
    else
      let term ← terminator kw
      let endKw ← readIdent
      if endKw = "end_block" then return .inr (stmts, some term)
      else unexpected (.expectedEndBlock endKw)

/-- A block: its parameters, statements and terminator. -/
def parseBlock {A S T : Type} (params : Parser A) (stmt : String → Parser S)
    (terminator : String → Parser T) : Parser (A × List (Node S Unit) × T) := do
  let kw ← readIdent
  if kw = "params" then
    let params ← params
    match ← loop (blockRound stmt terminator) [] with
    | (stmts, some term) => return (params, stmts, term)
    | (_, none) => fail (.missingField "terminator")
  else fail (.missingField "params")

def parseIrBlock : Parser (IRBlock Unit) := do
  let (params, stmts, terminator) ← parseBlock readTypeIdList (parseIrStmt escaped)
    parseIrTerminator
  return ⟨params, stmts, terminator⟩

def readHeader : Parser String := do return trim (← readToNewline)

def formatHeader : String := "volar-ir v1"

/-- `FORMAT_SECTION` without its colon. -/
def formatSection : String := "boolar"

/-- The version line is refused: another version of one of the formats, or no version. -/
def checkHeader (families : List String) : Parser Unit := do
  let header ← readHeader
  if header = "" then fail .missingVersionLine
  else if header = formatHeader then return ()
  else if families.any fun family => decide (family.toList <+: header.toList) then
    fail (.unsupportedVersion header)
  else fail .missingVersionLine

def readCallDecl : Parser CallDecl := do
  let name ← readString escaped
  let params ← field "params" readTypeIdList
  let results ← field "results" readTypeIdList
  return ⟨name, params, results⟩

/-- One directive of a file of Volar IR. -/
def parseIrDirective (saved : SavedIrBlocks) (directive : String) : Parser SavedIrBlocks :=
  match directive with
  | "type" => do
      let _ ← readU32
      let tyKw ← readIdent
      let ty ← parseIrType tyKw saved.types
      return { saved with types := saved.types ++ [ty] }
  | "oracle" => do
      let decl ← readCallDecl escaped
      return { saved with oracles := saved.oracles ++ [decl] }
  | "action" => do
      let decl ← readCallDecl escaped
      return { saved with actions := saved.actions ++ [decl] }
  | "rng" => do
      let name ← readString escaped
      let ty ← field "ty" readTypeId
      return { saved with rngs := saved.rngs ++ [⟨name, ty⟩] }
  | "begin_block" => do
      let _ ← readU32
      let block ← parseIrBlock escaped
      return { saved with blocks := saved.blocks ++ [block] }
  | other => fail (.unknownDirective other)

def fileRound {F : Type} (directive : F → String → Parser F) (saved : F) : Parser (F ⊕ F) := do
  skip
  if ← isEof then return .inr saved
  let name ← readIdent
  return .inl (← directive saved name)

def parseIrFile : Parser SavedIrBlocks := do
  checkHeader ["volar-ir v"]
  loop (fileRound (parseIrDirective escaped)) ⟨[], [], [], [], []⟩

def readGate (make : ℕ → ℕ → Boolar.Stmt) : Parser Boolar.Stmt := do
  let a ← readVar
  let b ← readVar
  return make a b

def readLane : Parser LaneId := do return ⟨← readU32⟩

/-- `call` and `bit` of a projection. -/
def readProjection (make : ℕ → ℕ → Boolar.Stmt) : Parser Boolar.Stmt := do
  let call ← field "call" readVar
  let bit ← field "bit" readUsize
  return make call bit

def parseBirStmt (kw : String) : Parser Boolar.Stmt :=
  match kw with
  | "zero" => return .zero
  | "one" => return .one
  | "and" => readGate .and
  | "or" => readGate .or
  | "xor" => readGate .xor
  | "not" => do return .not (← readVar)
  | "oracle_call" => do
      let name ← readString escaped
      let args ← field "args" readVarList
      let numBits ← field "num_bits" readUsize
      return .oracleCall name args numBits
  | "oracle_bit" => readProjection .oracleProjectedBit
  | "action_call" => do
      let name ← readString escaped
      let guard ← field "guard" readVar
      let args ← field "args" readVarList
      let fallback ← field "fallback" readVarList
      let numBits ← field "num_bits" readUsize
      return .actionCall name guard args fallback numBits
  | "action_bit" => readProjection .actionBit
  | "rng" => do return .rng (← readString escaped)
  | "storage_read" => do
      let storage ← field "storage" readStorageId
      let lane ← field "lane" readLane
      let addr ← field "addr" readVarList
      return .storageRead storage lane addr
  | "storage_write" => do
      let storage ← field "storage" readStorageId
      let lane ← field "lane" readLane
      let src ← field "src" readVar
      let addr ← field "addr" readVarList
      return .storageWrite storage lane src addr
  | other => unexpected (.unknown "BIR stmt" other)

def parseBirTerminator (kw : String) : Parser (BIrTerminator ℕ) :=
  match kw with
  | "jmp" => do
      let block ← readBlockTarget
      let args ← field "args" readVarList
      return .jmp ⟨block, args⟩
  | "cond_jmp" => do
      let val ← field "val" readVar
      let thenBlock ← field "then" readBlockTarget
      let thenArgs ← field "then_args" readVarList
      let elseBlock ← field "else" readBlockTarget
      let elseArgs ← field "else_args" readVarList
      return .condJmp val ⟨thenBlock, thenArgs⟩ ⟨elseBlock, elseArgs⟩
  | other => unexpected (.unknown "BIR terminator" other)

def parseBirBlock : Parser (BIrBlock Unit) := do
  let (params, stmts, terminator) ← parseBlock readU32 (parseBirStmt escaped) parseBirTerminator
  return ⟨params, stmts, terminator⟩

def parseBirDirective (saved : SavedBIrBlocks) (directive : String) : Parser SavedBIrBlocks :=
  match directive with
  | "begin_block" => do
      let _ ← readU32
      let block ← parseBirBlock escaped
      return ⟨saved.blocks ++ [block]⟩
  | other => fail (.unknownDirective other)

def sectionIsValid (name : String) : Parser Bool :=
  if name = formatSection then tryByte (ascii ':') else return false

def parseBirFile : Parser SavedBIrBlocks := do
  checkHeader ["volar-ir v", "volar-bir v"]
  let name ← readIdent
  if ← sectionIsValid name then loop (fileRound (parseBirDirective escaped)) ⟨[]⟩
  else fail (.unexpectedToken 2 1 (.token name))

end Grammar

section Texts
variable {α : Type}

def runOn (p : Parser α) (overflowChecks : Bool) (s : String) : Except Stop α :=
  (p.run (.new overflowChecks s)).map Prod.fst

def parseSavedIrBlocks (overflowChecks : Bool) (s : String) : Except Stop SavedIrBlocks :=
  runOn (parseIrFile escapedByte) overflowChecks s

def parseSavedBirBlocks (overflowChecks : Bool) (s : String) : Except Stop SavedBIrBlocks :=
  runOn (parseBirFile escapedByte) overflowChecks s

end Texts

end VolarIR.Text
