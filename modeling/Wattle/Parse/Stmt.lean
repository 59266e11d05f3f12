import Wattle.Parse.Expr
import Wattle.Program.Stmt

/-!
# Reading statements

The first token of a statement tells its form; anything that is not the start of another form is
read as an expression statement.
-/

namespace Wattle.Parser

def statementsWithin (statement : Parser (Stmt Node)) : Nat → Parser (List (Stmt Node))
  | 0 => refuse .endless
  | bound + 1 => do
    if ← next (.punct .rightBrace) then
      advance
      return []
    else if ← next .endOfFile then
      expecting .blockEnd
    else
      let first ← statement
      return first :: (← statementsWithin statement bound)

/-- Statements in braces, given how to read one. -/
def blockOver (statement : Parser (Stmt Node)) : Parser (List (Stmt Node)) := do
  punct .leftBrace "block"
  statementsWithin statement (← budget)

def condition (context : String) : Parser (Expr Node) := do
  punct .leftParen context
  let value ← expression
  punct .rightParen context
  return value

def arm (block : Parser (List (Stmt Node))) (word : Keyword) : Parser (Arm Node) := do
  let first ← peek
  keyword word "conditional"
  let guard ← condition s!"'{word}' condition"
  let body ← block
  return ⟨guard, body, ← spanFrom first⟩

def elifArmsWithin (block : Parser (List (Stmt Node))) : Nat → Parser (List (Arm Node))
  | 0 => refuse .endless
  | bound + 1 => do
    if ← next (.keyword .elif) then
      let first ← arm block .elif
      return first :: (← elifArmsWithin block bound)
    else return []

def elseBody (block : Parser (List (Stmt Node))) : Parser (Option (List (Stmt Node))) := do
  if ← next (.keyword .else_) then
    advance
    return some (← block)
  else return none

def conditional (block : Parser (List (Stmt Node))) : Parser (Stmt Node) := do
  let first ← peek
  let firstArm ← arm block .if_
  let arms ← elifArmsWithin block (← budget)
  let otherwise ← elseBody block
  return .cond (← nodeFrom first) (firstArm :: arms) otherwise

def loop (block : Parser (List (Stmt Node))) : Parser (Stmt Node) := do
  let first ← peek
  keyword .while_ "loop"
  let guard ← condition "'while' condition"
  let body ← block
  return .loop (← nodeFrom first) guard body

def returnValue : Parser (Option (Expr Node)) := do
  if ← next (.punct .semicolon) then return none
  else return some (← expression)

def returnStatement : Parser (Stmt Node) := do
  let first ← peek
  keyword .return_ "return statement"
  let value ← returnValue
  punct .semicolon "return statement"
  return .ret (← nodeFrom first) value

/-- The keyword that declares a name of the given kind. -/
def declarationWord : DeclKind → Keyword
  | .var => .var
  | .const => .const

def declaration (kind : DeclKind) : Parser (Stmt Node) := do
  let first ← peek
  keyword (declarationWord kind) "declaration"
  let name ← identifier "declaration"
  punct .colon "declaration"
  let type ← valueType
  if ← next (.operator .equal) then
    advance
    let initial ← expression
    punct .semicolon "declaration"
    return .declare (← nodeFrom first) kind name type initial
  else expecting .initializer

def expressionStatement : Parser (Stmt Node) := do
  let first ← peek
  let value ← expression
  punct .semicolon "expression statement"
  return .expr (← nodeFrom first) value

def statementOver (block : Parser (List (Stmt Node))) : Parser (Stmt Node) := do
  match (← peek).kind with
  | .keyword .if_ => conditional block
  | .keyword .while_ => loop block
  | .keyword .return_ => returnStatement
  | .keyword .var => declaration .var
  | .keyword .const => declaration .const
  | _ => expressionStatement

/-- A statement with blocks nested at most `bound` deep. -/
def statementWithin : Nat → Parser (Stmt Node)
  | 0 => refuse .endless
  | bound + 1 => statementOver (blockOver (statementWithin bound))

def statement : Parser (Stmt Node) := do
  statementWithin (← budget)

def block : Parser (List (Stmt Node)) := do
  blockOver (statementWithin (← budget))

end Wattle.Parser
