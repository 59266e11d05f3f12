import Wattle.Check.Program
import Wattle.Diagnostic
import Wattle.Lower.Program
import Wattle.Parse.Program
import Wattle.Token.Lexer

/-!
# The compiler

From source text to tokens, from tokens to a program, from there to a checked program and to a
module. The first error ends the compilation.
-/

namespace Wattle

/-- The error that ended a compilation. -/
inductive CompileError where
  | lexical (error : LexError)
  | grammar (error : ParseError)
  | rules (error : CheckError)
  | lowering (error : LowerError)
deriving DecidableEq

def CompileError.diagnostic : CompileError → Diagnostic
  | lexical e => .inSource .lexical e.location e.fault.message
  | grammar e => .inSource .grammar e.location e.message
  | rules e => .inSource .rules e.location e.violation.message
  | lowering e => .internal e.message

namespace Compile

def tokens (source : String) : Except CompileError (List Token) :=
  (tokenize source).mapError .lexical

def program (source : String) : Except CompileError (Program Node) := do
  (parseProgram (← tokens source)).mapError .grammar

def typedProgram (source : String) : Except CompileError (Program TypedNode) := do
  (checkProgram (← program source)).mapError .rules

def wasmModule (source : String) : Except CompileError Wasm.Module := do
  (lowerProgram (← typedProgram source)).mapError .lowering

end Compile

/-- Compile a source text to the text format of WebAssembly. -/
def compile (source : String) : Except CompileError String :=
  (Compile.wasmModule source).map Wasm.Module.text

/-- What there is to tell about compiling a source text: nothing, or a diagnostic. -/
def diagnose (source fileName : String) : Option String :=
  match compile source with
  | .ok _ => none
  | .error e => some (e.diagnostic.render source fileName)

end Wattle
