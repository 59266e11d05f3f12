import Wattle.Check.Error
import Wattle.Scope

/-!
# Types of expressions

Every expression has one type, found from the leaves up. Types must match exactly: an argument
has the type of its parameter, both sides of an operator have the same type, and only a
conversion changes a type.
-/

namespace Wattle

/-- What is known about a visible name. -/
structure Symbol where
  type : Ty
  kind : SymbolKind
deriving DecidableEq

/-- The signatures of the functions of a program. -/
abbrev Signatures := List Signature

namespace Check

def findFunction? (table : Signatures) (name : String) : Option Signature :=
  table.find? (·.name = name)

/-- What the name of a variable means at `location`. -/
def resolve (scope : Scope Symbol) (name : String) (location : Location) :
    Except CheckError Symbol :=
  match scope.lookup? name with
  | some symbol => .ok symbol
  | none => .error ⟨location, .undefinedVariable name⟩

/-- Insist that a checked expression has the type asked for. -/
def require (expected : Ty) (use : Use) (e : Expr TypedNode) : Except CheckError Unit :=
  if e.type = expected then .ok ()
  else .error ⟨e.note.start, .typeMismatch use expected e.type⟩

/-- The type of a unary operation that starts at `location`. -/
def unaryType (op : UnaryOp) (operand : Expr TypedNode) (location : Location) :
    Except CheckError Ty :=
  match op with
  | .negate =>
    if operand.type.isVoid then .error ⟨location, .invalidOperand (.unary op) operand.type⟩
    else .ok operand.type
  | .deref =>
    match operand.type.pointee? with
    | some target => .ok target
    | none => .error ⟨location, .invalidOperand (.unary op) operand.type⟩
  | .logicalNot => do
    require .i32 (.operand op) operand
    return .i32

/-- The type of a binary operation other than assignment that starts at `location`. -/
def binaryType (op : BinaryOp) (left right : Expr TypedNode) (location : Location) :
    Except CheckError Ty :=
  if left.type.isVoid || (op.requiresInteger && !left.type.isInteger) then
    .error ⟨location, .invalidOperand (.binary op) left.type⟩
  else if right.type ≠ left.type then
    .error ⟨location, .operandMismatch op left.type right.type⟩
  else .ok (if op.isComparison then .i32 else left.type)

/-- Insist that an expression may stand left of an assignment: it names a variable that was
declared with `var`, or it reads through a pointer. -/
def assignable (scope : Scope Symbol) : Expr Node → Except CheckError Unit
  | .name node id => do
    let symbol ← resolve scope id node.start
    if symbol.kind.isMutable then .ok ()
    else .error ⟨node.start, .immutable symbol.kind id⟩
  | .unary _ .deref _ => .ok ()
  | e => .error ⟨e.note.start, .invalidTarget⟩

mutual

/-- Find the types of an expression and everything in it. -/
def expr (table : Signatures) (scope : Scope Symbol) :
    Expr Node → Except CheckError (Expr TypedNode)
  | .name node id => do
    let symbol ← resolve scope id node.start
    return .name ⟨node, symbol.type⟩ id
  | .number node digits type => return .number ⟨node, .base type⟩ digits type
  | .call node callee args =>
    match findFunction? table callee with
    | none => .error ⟨node.start, .undefinedFunction callee⟩
    | some signature =>
      if args.length = signature.parameters.length then do
        let args ← arguments table scope callee 1 args signature.parameters
        return .call ⟨node, signature.result⟩ callee args
      else
        .error ⟨node.start,
          .argumentCount callee signature.parameters.length args.length⟩
  | .unary node op operand => do
    let operand ← expr table scope operand
    let type ← unaryType op operand node.start
    return .unary ⟨node, type⟩ op operand
  | .binary node op left right =>
    if op = .assign then do
      assignable scope left
      let target ← expr table scope left
      let value ← expr table scope right
      require target.type .assignment value
      return .binary ⟨node, .void⟩ op target value
    else do
      let left ← expr table scope left
      let right ← expr table scope right
      let type ← binaryType op left right node.start
      return .binary ⟨node, type⟩ op left right
  | .paren node inner => do
    let inner ← expr table scope inner
    return .paren ⟨node, inner.type⟩ inner
  | .cast node operand target => do
    let operand ← expr table scope operand
    if operand.type.isVoid then .error ⟨node.start, .invalidOperand .cast operand.type⟩
    else return .cast ⟨node, target⟩ operand target

/-- Find the types of arguments, the first of which has number `index`, and compare them with the
parameters. -/
def arguments (table : Signatures) (scope : Scope Symbol) (callee : String) (index : Nat) :
    List (Expr Node) → List Parameter → Except CheckError (List (Expr TypedNode))
  | arg :: args, parameter :: parameters => do
    let first ← expr table scope arg
    require parameter.type (.argument index callee) first
    let rest ← arguments table scope callee (index + 1) args parameters
    return first :: rest
  | _, _ => return []

end

end Check

end Wattle
