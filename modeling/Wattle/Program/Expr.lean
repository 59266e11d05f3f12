import Wattle.Program.Node
import Wattle.Program.Operator

/-!
# Expressions

One tree serves before and after checking: every node carries a note of type `α`, which is a
`Node` as read and a `TypedNode` once checked. Replacing the notes leaves the form alone.
-/

namespace Wattle

/-- An expression whose nodes carry notes of type `α`. -/
inductive Expr (α : Type) where
  | name (note : α) (id : String)
  | number (note : α) (digits : String) (type : BaseType)
  | call (note : α) (callee : String) (args : List (Expr α))
  | unary (note : α) (op : UnaryOp) (operand : Expr α)
  | binary (note : α) (op : BinaryOp) (left right : Expr α)
  /-- An expression in parentheses. -/
  | paren (note : α) (inner : Expr α)
  | cast (note : α) (operand : Expr α) (target : Ty)

namespace Expr

variable {α β : Type}

def note : Expr α → α
  | name n _ | number n _ _ | call n _ _ | unary n _ _ | binary n _ _ _ | paren n _ | cast n _ _ => n

def span (e : Expr Node) : Span :=
  e.note.span

def type (e : Expr TypedNode) : Ty :=
  e.note.type

/-- Whether evaluating the expression yields a value. -/
def hasValue (e : Expr TypedNode) : Bool :=
  !e.type.isVoid

mutual

def map (f : α → β) : Expr α → Expr β
  | name n id => name (f n) id
  | number n digits type => number (f n) digits type
  | call n callee args => call (f n) callee (mapList f args)
  | unary n op operand => unary (f n) op (operand.map f)
  | binary n op left right => binary (f n) op (left.map f) (right.map f)
  | paren n inner => paren (f n) (inner.map f)
  | cast n operand target => cast (f n) (operand.map f) target

/-- Replace every note of a list of expressions. -/
def mapList (f : α → β) : List (Expr α) → List (Expr β)
  | [] => []
  | e :: es => e.map f :: mapList f es

end

def erase : Expr TypedNode → Expr Node :=
  map TypedNode.toNode

end Expr

end Wattle
