import Wattle.Program.Basic

/-!
# Broken rules

What a program can do wrong, once it can be read. Every complaint carries the place where the
offending node starts. The wording of messages is in this module only.
-/

namespace Wattle

/-- How a name was introduced. -/
inductive SymbolKind where
  | parameter | var | const
deriving DecidableEq

namespace SymbolKind

/-- The kind of a name that a declaration introduces. -/
def ofDecl : DeclKind → SymbolKind
  | .var => var
  | .const => const

/-- Whether the name may be assigned to. -/
def isMutable : SymbolKind → Bool
  | var => true
  | parameter | const => false

def text : SymbolKind → String
  | parameter => "parameter"
  | var => "variable"
  | const => "constant"

instance : ToString SymbolKind := ⟨text⟩

end SymbolKind

/-- What stands where a value of a certain type is asked for. -/
inductive Use where
  | assignment
  | initializer (name : String)
  /-- The argument number `index`, counted from one. -/
  | argument (index : Nat) (callee : String)
  | operand (op : UnaryOp)
  | returnValue
  /-- The condition behind `if`, `elif` or `while`. -/
  | condition (word : Keyword)
deriving DecidableEq

namespace Use

def text : Use → String
  | assignment => "assignment"
  | initializer name => s!"initializer of '{name}'"
  | argument index callee => s!"argument {index} of call to '{callee}'"
  | operand op => s!"operand of '{op}'"
  | returnValue => "return value"
  | condition word => s!"'{word}' condition"

instance : ToString Use := ⟨text⟩

end Use

/-- An operation on operands. -/
inductive Operation where
  | unary (op : UnaryOp)
  | binary (op : BinaryOp)
  | cast
deriving DecidableEq

def Operation.text : Operation → String
  | unary op => toString op
  | binary op => toString op
  | cast => Keyword.as_.spelling

instance : ToString Operation := ⟨Operation.text⟩

/-- The rule that a program breaks. -/
inductive Violation where
  | duplicateFunction (name : String)
  | secondMemory
  | exportCollision (name : String)
  | duplicateParameter (name : String)
  | voidParameter (name : String)
  | undefinedVariable (name : String)
  | undefinedFunction (name : String)
  | typeMismatch (use : Use) (expected found : Ty)
  | argumentCount (callee : String) (expected found : Nat)
  | invalidTarget
  | immutable (kind : SymbolKind) (name : String)
  | invalidOperand (operation : Operation) (type : Ty)
  | operandMismatch (op : BinaryOp) (left right : Ty)
  | missingValue (expected : Ty)
  | unexpectedValue
  | missingReturn (name : String)
  | unreachable
deriving DecidableEq

namespace Violation

def message : Violation → String
  | duplicateFunction name => s!"Function '{name}' is already defined"
  | secondMemory => "Only one memory declaration is allowed"
  | exportCollision name =>
    s!"Exported memory '{name}' collides with an exported function of the same name"
  | duplicateParameter name => s!"Duplicate parameter '{name}'"
  | voidParameter name => s!"Parameter '{name}' cannot have type void"
  | undefinedVariable name => s!"Undefined variable: {name}"
  | undefinedFunction name => s!"Undefined function: {name}"
  | typeMismatch use expected found =>
    s!"Type mismatch in {use}: expected {expected}, found {found}"
  | argumentCount callee expected found =>
    s!"Function '{callee}' expects {expected} arguments, found {found}"
  | invalidTarget => "Left side of assignment must be a variable or a dereferenced pointer"
  | immutable kind name => s!"Cannot assign to {kind} '{name}'"
  | invalidOperand operation type =>
    s!"Operator '{operation}' cannot be applied to type {type}"
  | operandMismatch op left right =>
    s!"Operands of '{op}' have different types: {left} and {right}"
  | missingValue expected => s!"Missing return value in function returning {expected}"
  | unexpectedValue => "Function returning void cannot return a value"
  | missingReturn name => s!"Function '{name}' must end with a return statement"
  | unreachable => "Unreachable statement after return"

end Violation

/-- A broken rule and where it was broken. -/
structure CheckError where
  location : Location
  violation : Violation
deriving DecidableEq

end Wattle
