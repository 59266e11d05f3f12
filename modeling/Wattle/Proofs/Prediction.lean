import Wattle.Parse.Program
import Wattle.Proofs.OperandForm

/-!
# Reading by prediction

Operands are read by trying their forms one after the other. The kind of the next token could as
well choose the form, and then nothing would be tried. Here is the parser that reads so. What stands
above operands is the same for both parsers, and is written down for any way to read expressions.
-/

namespace Wattle.Parser

/-! ## Operands -/

/-- The form of an operand that starts with a token of the given kind, if `operand` reads the
operands inside it. -/
def formOver (bound : Nat) (operand : Parser (Expr Node)) : TokenKind → Parser (Expr Node)
  | .number _ _ => numeric
  | .identifier _ => nameOrCall bound (expressionOver bound operand)
  | .punct .leftParen => parenthesized (expressionOver bound operand)
  | .operator .minus | .operator .atSign | .operator .bang => unary operand
  | _ => expecting .expression

/-- An operand without conversions, its form chosen by the next token. -/
def predictedWithin : Nat → Parser (Expr Node)
  | 0 => refuse .endless
  | bound + 1 => do formOver bound (predictedWithin bound) (← peek).kind

/-- An expression, the forms of its operands chosen by their first tokens. -/
def predictedExpression : Parser (Expr Node) := do
  let bound ← budget
  expressionOver bound (predictedWithin bound)

theorem predictedWithin_succ (bound : Nat) (s : ParseState) :
    predictedWithin (bound + 1) s = formOver bound (predictedWithin bound) s.cursor.peek.kind s :=
  rfl

theorem formOver_operator {mark : Operator} {op : UnaryOp} (h : UnaryOp.ofOperator? mark = some op)
    (bound : Nat) (operand : Parser (Expr Node)) :
    formOver bound operand (.operator mark) = unary operand := by
  rw [← UnaryOp.operator_of_ofOperator? h]
  cases op <;> rfl

theorem operandForm_eq (bound : Nat) (kind : TokenKind) :
    operandForm bound kind = formOver bound (operandWithin bound) kind := by
  cases kind with
  | operator mark => cases mark <;> rfl
  | punct mark => cases mark <;> rfl
  | number | identifier | keyword | base | endOfFile => rfl

/-! ## Statements and programs -/

namespace Via

variable (expression : Parser (Expr Node))

def condition (context : String) : Parser (Expr Node) := do
  punct .leftParen context
  let value ← expression
  punct .rightParen context
  return value

def arm (block : Parser (List (Stmt Node))) (word : Keyword) : Parser (Arm Node) := do
  let first ← peek
  keyword word "conditional"
  let guard ← condition expression s!"'{word}' condition"
  let body ← block
  return ⟨guard, body, ← spanFrom first⟩

def elifArmsWithin (block : Parser (List (Stmt Node))) : Nat → Parser (List (Arm Node))
  | 0 => refuse .endless
  | bound + 1 => do
    if ← next (.keyword .elif) then
      let first ← arm expression block .elif
      return first :: (← elifArmsWithin block bound)
    else return []

def conditional (block : Parser (List (Stmt Node))) : Parser (Stmt Node) := do
  let first ← peek
  let firstArm ← arm expression block .if_
  let arms ← elifArmsWithin expression block (← budget)
  let otherwise ← elseBody block
  return .cond (← nodeFrom first) (firstArm :: arms) otherwise

def loop (block : Parser (List (Stmt Node))) : Parser (Stmt Node) := do
  let first ← peek
  keyword .while_ "loop"
  let guard ← condition expression "'while' condition"
  let body ← block
  return .loop (← nodeFrom first) guard body

def returnValue : Parser (Option (Expr Node)) := do
  if ← next (.punct .semicolon) then return none
  else return some (← expression)

def returnStatement : Parser (Stmt Node) := do
  let first ← peek
  keyword .return_ "return statement"
  let value ← returnValue expression
  punct .semicolon "return statement"
  return .ret (← nodeFrom first) value

def declaration (kind : DeclKind) : Parser (Stmt Node) := do
  let first ← peek
  keyword (declarationWord kind) "declaration"
  let name ← identifier "declaration"
  punct .colon "declaration"
  let type ← valueType
  if ← next (.operator .equal) then
    advance
    let initial ← expression
    punct .semicolon "declaration"
    return .declare (← nodeFrom first) kind name type initial
  else expecting .initializer

def expressionStatement : Parser (Stmt Node) := do
  let first ← peek
  let value ← expression
  punct .semicolon "expression statement"
  return .expr (← nodeFrom first) value

def statementOver (block : Parser (List (Stmt Node))) : Parser (Stmt Node) := do
  match (← peek).kind with
  | .keyword .if_ => conditional expression block
  | .keyword .while_ => loop expression block
  | .keyword .return_ => returnStatement expression
  | .keyword .var => declaration expression .var
  | .keyword .const => declaration expression .const
  | _ => expressionStatement expression

def statementWithin : Nat → Parser (Stmt Node)
  | 0 => refuse .endless
  | bound + 1 => statementOver expression (blockOver (statementWithin bound))

def statement : Parser (Stmt Node) := do
  statementWithin expression (← budget)

def block : Parser (List (Stmt Node)) := do
  blockOver (statementWithin expression (← budget))

def funcDef (first : Token) : Parser (FuncDef Node) := do
  let header ← signature
  let body ← block expression
  return ⟨← nodeFrom first, header, body⟩

def function : Parser (Func Node) := do
  let first ← peek
  keyword .func "function declaration"
  match (← peek).kind with
  | .keyword .import_ => return .imported (← funcImport first)
  | .keyword .export_ =>
    advance
    return .exported (← funcDef expression first)
  | _ => return .plain (← funcDef expression first)

def declarationsWithin : Nat → Program Node → Parser (Program Node)
  | 0, _ => refuse .endless
  | bound + 1, done => do
    match (← peek).kind with
    | .endOfFile => return done
    | .keyword .func =>
      let func ← function expression
      declarationsWithin bound { done with funcs := done.funcs ++ [func] }
    | .keyword .memory =>
      if done.memories.isEmpty then
        let declared ← memory
        declarationsWithin bound { done with memories := done.memories ++ [declared] }
      else refuse .secondMemory
    | _ => expecting .declaration

def program : Parser (Program Node) := do
  declarationsWithin expression (← budget) ⟨[], []⟩

/-! With the parser for expressions put in, these are the parsers of the language. -/

theorem elifArmsWithin_expression (block : Parser (List (Stmt Node))) (bound : Nat) :
    elifArmsWithin Parser.expression block bound = Parser.elifArmsWithin block bound := by
  induction bound with
  | zero => rfl
  | succ bound ih =>
      rw [elifArmsWithin, ih]
      rfl

theorem conditional_expression : conditional Parser.expression = Parser.conditional := by
  funext block
  simp only [conditional, elifArmsWithin_expression]
  rfl

theorem statementOver_expression : statementOver Parser.expression = Parser.statementOver := by
  funext block
  rw [statementOver, conditional_expression]
  rfl

theorem statementWithin_expression (bound : Nat) :
    statementWithin Parser.expression bound = Parser.statementWithin bound := by
  induction bound with
  | zero => rfl
  | succ bound ih => rw [statementWithin, ih, statementOver_expression, Parser.statementWithin]

theorem statement_expression : statement Parser.expression = Parser.statement := by
  simp only [statement, statementWithin_expression]
  rfl

theorem block_expression : block Parser.expression = Parser.block := by
  simp only [block, statementWithin_expression]
  rfl

theorem funcDef_expression : funcDef Parser.expression = Parser.funcDef := by
  funext first
  rw [funcDef, block_expression]
  rfl

theorem function_expression : function Parser.expression = Parser.function := by
  rw [function, funcDef_expression]
  rfl

theorem declarationsWithin_expression (bound : Nat) (done : Program Node) :
    declarationsWithin Parser.expression bound done = Parser.declarationsWithin bound done := by
  induction bound generalizing done with
  | zero => rfl
  | succ bound ih =>
      simp only [declarationsWithin, ih, function_expression]
      rfl

theorem program_expression : program Parser.expression = Parser.program := by
  simp only [program, declarationsWithin_expression]
  rfl

end Via

end Wattle.Parser
