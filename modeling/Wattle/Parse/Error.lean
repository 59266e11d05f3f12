import Wattle.Token.Basic

/-!
# Why reading fails

Every failure names the token that could not be accepted. The wording of messages is in this
module only.
-/

namespace Wattle

/-- What the grammar asks for at some place. The `context` of a mark or word names the construct
that asks for it. -/
inductive Expectation where
  | punct (mark : Punct) (context : String)
  | keyword (word : Keyword) (context : String)
  | identifier (context : String)
  | type
  | expression
  | numericLiteral
  | unaryOperator
  | argumentListEnd
  | parameterListEnd
  | blockEnd
  | initializer
  | memorySize
  | declaration
  | endOfExpression
deriving DecidableEq

namespace Expectation

def text : Expectation → String
  | punct mark context => s!"'{mark}' in {context}"
  | keyword word context => s!"'{word}' in {context}"
  | identifier context => s!"identifier in {context}"
  | type => "type"
  | expression => "expression"
  | numericLiteral => "numeric literal"
  | unaryOperator => "unary operator"
  | argumentListEnd => "',' or ')' in argument list"
  | parameterListEnd => "',' or ')' in parameter list"
  | blockEnd => "'\x7d' to close block"
  | initializer => "'=' and initializer in declaration"
  | memorySize => "memory size in bytes"
  | declaration => "'func' or 'memory' declaration"
  | endOfExpression => "end of expression"

instance : ToString Expectation := ⟨text⟩

end Expectation

/-- Why a token cannot be accepted. -/
inductive ParseCause where
  | expected (what : Expectation)
  | pointerToVoid
  | misplacedVoid
  | secondMemory
  /-- The tokens have no end mark, and reading on would never stop. -/
  | endless
deriving DecidableEq

/-- A failure to read, with the token that caused it. -/
structure ParseError where
  cause : ParseCause
  found : Token
deriving DecidableEq

namespace ParseError

def message (e : ParseError) : String :=
  match e.cause with
  | .expected what => s!"Expected {what}, found {e.found.kind}"
  | .pointerToVoid => "Pointer to void is not allowed"
  | .misplacedVoid => "'void' is only allowed as a function return type"
  | .secondMemory => "Only one memory declaration is allowed"
  | .endless => "The tokens have no end"

def location (e : ParseError) : Location :=
  e.found.span.start

end ParseError

end Wattle
