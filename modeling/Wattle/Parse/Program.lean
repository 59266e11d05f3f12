import Wattle.Parse.Stmt
import Wattle.Program.Basic
import Wattle.Text.Decimal

/-!
# Reading programs

A program is a sequence of functions with at most one memory among them.
-/

namespace Wattle

namespace Parser

def parameter : Parser Parameter := do
  let first ← peek
  let name ← identifier "parameter"
  punct .colon "parameter"
  let type ← valueType
  return ⟨name, type, ← spanFrom first⟩

/-- The name, parameters and result type of a function. -/
def signature : Parser Signature := do
  let name ← identifier "function signature"
  punct .leftParen "parameter list"
  let parameters ← commaList parameter .parameterListEnd
  punct .colon "function signature"
  let result ← resultType
  return ⟨name, result, parameters⟩

def importPath : Parser ImportPath := do
  keyword .import_ "import location"
  punct .leftParen "import location"
  let nameSpace ← identifier "import namespace"
  punct .doubleColon "import location"
  let specifier ← identifier "import specifier"
  punct .rightParen "import location"
  return ⟨nameSpace, specifier⟩

/-- The signature and body of a function that starts at the token `first`. -/
def funcDef (first : Token) : Parser (FuncDef Node) := do
  let header ← signature
  let body ← block
  return ⟨← nodeFrom first, header, body⟩

/-- The rest of an imported function that starts at the token `first`. -/
def funcImport (first : Token) : Parser FuncImport := do
  let path ← importPath
  let header ← signature
  punct .semicolon "function import"
  return ⟨← nodeFrom first, header, path⟩

def function : Parser (Func Node) := do
  let first ← peek
  keyword .func "function declaration"
  match (← peek).kind with
  | .keyword .import_ => return .imported (← funcImport first)
  | .keyword .export_ =>
    advance
    return .exported (← funcDef first)
  | _ => return .plain (← funcDef first)

def memoryKind : Parser MemoryKind := do
  match (← peek).kind with
  | .keyword .export_ =>
    advance
    return .exported
  | .keyword .import_ => return .imported (← importPath)
  | _ => return .plain

/-- The size that a token stands for: an `i32` number that fits 32 bits. -/
def sizeOf? (t : Token) : Option UInt32 :=
  match t.kind with
  | .number digits .i32 => (Text.readBelow (Text.twoTo 32) digits.toList).map UInt32.ofNat
  | _ => none

def memorySize : Parser UInt32 := do
  match sizeOf? (← peek) with
  | some size =>
    advance
    return size
  | none => expecting .memorySize

def memory : Parser Memory := do
  let first ← peek
  keyword .memory "memory declaration"
  let kind ← memoryKind
  let name ← identifier "memory declaration"
  punct .leftParen "memory size"
  let size ← memorySize
  punct .rightParen "memory size"
  punct .semicolon "memory declaration"
  return ⟨← nodeFrom first, name, size, kind⟩

/-- The declarations up to the end, added behind those of `done`. -/
def declarationsWithin : Nat → Program Node → Parser (Program Node)
  | 0, _ => refuse .endless
  | bound + 1, done => do
    match (← peek).kind with
    | .endOfFile => return done
    | .keyword .func =>
      let func ← function
      declarationsWithin bound { done with funcs := done.funcs ++ [func] }
    | .keyword .memory =>
      if done.memories.isEmpty then
        let declared ← memory
        declarationsWithin bound { done with memories := done.memories ++ [declared] }
      else refuse .secondMemory
    | _ => expecting .declaration

def program : Parser (Program Node) := do
  declarationsWithin (← budget) ⟨[], []⟩

def wholeExpression : Parser (Expr Node) := do
  let value ← expression
  if ← next .endOfFile then return value
  else expecting .endOfExpression

end Parser

def parseProgram (tokens : List Token) : Except ParseError (Program Node) :=
  (Parser.program.run tokens).map Prod.fst

/-- Read an expression that all the tokens make up. -/
def parseExpression (tokens : List Token) : Except ParseError (Expr Node) :=
  (Parser.wholeExpression.run tokens).map Prod.fst

end Wattle
