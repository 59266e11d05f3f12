import Wattle.Parse.Ty
import Wattle.Program.Expr

/-!
# Reading expressions

Binary operators are read level by level: the operands of a level are expressions of the next
tighter one, and they are joined from left to right. Below the tightest level stand operands with
their conversions, and below these the forms an operand can take, tried one after the other.
-/

namespace Wattle.Parser

/-- The operation of the level that a token stands for. -/
def levelOp? (level : List BinaryOp) (t : Token) : Option BinaryOp :=
  match t.kind with
  | .operator mark => (BinaryOp.ofOperator? mark).filter (level.contains ·)
  | _ => none

/-- Continue behind `left` with operators of the level and their right operands. -/
def chainWithin (level : List BinaryOp) (operand : Parser (Expr Node)) :
    Nat → Expr Node → Parser (Expr Node)
  | 0, _ => refuse .endless
  | bound + 1, left => do
    match levelOp? level (← peek) with
    | none => return left
    | some op =>
      advance
      let right ← operand
      let node ← newNode (left.span.through right.span)
      chainWithin level operand bound (.binary node op left right)

/-- At most `bound` operands joined by operators of one level. -/
def chain (bound : Nat) (level : List BinaryOp) (operand : Parser (Expr Node)) :
    Parser (Expr Node) := do
  let left ← operand
  chainWithin level operand bound left

/-- Continue behind `operand` with conversions. -/
def castsWithin : Nat → Expr Node → Parser (Expr Node)
  | 0, _ => refuse .endless
  | bound + 1, operand => do
    if ← next (.keyword .as_) then
      advance
      let target ← valueType
      let stop := (← get).cursor.endOr operand.span.stop
      let node ← newNode ⟨operand.span.start, stop⟩
      castsWithin bound (.cast node operand target)
    else return operand

/-- An operand with fewer than `bound` conversions. -/
def casts (bound : Nat) (operand : Parser (Expr Node)) : Parser (Expr Node) := do
  let first ← operand
  castsWithin bound first

/-- An expression, given how to read an operand without conversions; `bound` limits the length of
its parts. -/
def expressionOver (bound : Nat) (operand : Parser (Expr Node)) : Parser (Expr Node) :=
  BinaryOp.levels.foldr (chain bound) (casts bound operand)

def numeric : Parser (Expr Node) := do
  let first ← peek
  match first.kind with
  | .number digits type =>
    advance
    return .number (← newNode first.span) digits type
  | _ => expecting .numericLiteral

/-- A name, or a call of a function with fewer than `bound` arguments. -/
def nameOrCall (bound : Nat) (expression : Parser (Expr Node)) : Parser (Expr Node) := do
  let first ← peek
  let name ← identifier "expression"
  if ← next (.punct .leftParen) then
    advance
    let args ← commaListWithin expression .argumentListEnd bound
    return .call (← nodeFrom first) name args
  else
    return .name (← newNode first.span) name

def parenthesized (expression : Parser (Expr Node)) : Parser (Expr Node) := do
  let first ← peek
  punct .leftParen "parenthesized expression"
  let inner ← expression
  punct .rightParen "parenthesized expression"
  return .paren (← nodeFrom first) inner

def unary (operand : Parser (Expr Node)) : Parser (Expr Node) := do
  let first ← peek
  match first.kind with
  | .operator mark =>
    match UnaryOp.ofOperator? mark with
    | some op =>
      advance
      let inner ← operand
      return .unary (← newNode (first.span.through inner.span)) op inner
    | none => expecting .unaryOperator
  | _ => expecting .unaryOperator

/-- The first of the given forms that can start here. -/
def firstForm (forms : List (Parser (Expr Node))) : Parser (Expr Node) :=
  forms.foldr orElseHere (expecting .expression)

/-- An operand without conversions; `bound` limits its depth and the length of its parts. -/
def operandWithin : Nat → Parser (Expr Node)
  | 0 => refuse .endless
  | bound + 1 =>
    firstForm [
      numeric,
      nameOrCall bound (expressionOver bound (operandWithin bound)),
      parenthesized (expressionOver bound (operandWithin bound)),
      unary (operandWithin bound)]

def expression : Parser (Expr Node) := do
  let bound ← budget
  expressionOver bound (operandWithin bound)

end Wattle.Parser
