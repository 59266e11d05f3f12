import Wattle.Check.Expr

/-!
# Rules of statements

Statements are checked in order, each in the scope that the ones before it leave. Conditions are
of type `i32`, every body has a scope of its own, a declared name is visible behind its
declaration but not in its own initial value, and nothing follows a `return` in the same list.
-/

namespace Wattle

abbrev Checker := EStateM CheckError (Scope Symbol)

namespace Check

variable (table : Signatures)

/-- Check an expression in the scope at this point. -/
def exprHere (e : Expr Node) : Checker (Expr TypedNode) :=
  Scope.asking fun scope => expr table scope e

def typedHere (expected : Ty) (use : Use) (e : Expr Node) : Checker (Expr TypedNode) :=
  Scope.asking fun scope => do
    let typed ← expr table scope e
    require expected use typed
    return typed

/-- Check the value of a `return` at `location` in a function with the given result. -/
def returned (result : Ty) (location : Location) :
    Option (Expr Node) → Checker (Option (Expr TypedNode))
  | none =>
    if result.isVoid then return none
    else throw ⟨location, .missingValue result⟩
  | some value =>
    if result.isVoid then throw ⟨location, .unexpectedValue⟩
    else return some (← typedHere table result .returnValue value)

mutual

/-- Check a statement of a function with the given result. -/
def stmt (result : Ty) : Stmt Node → Checker (Stmt TypedNode)
  | .cond node first otherwise => do
    let typed ← arms result .if_ first
    return .cond node typed (← elseBody result otherwise)
  | .loop node condition body => do
    let condition ← typedHere table .i32 (.condition .while_) condition
    let body ← Scope.within (stmts result false body)
    return .loop node condition body
  | .ret node value => do
    return .ret node (← returned table result node.start value)
  | .declare node kind name type initial => do
    let initial ← typedHere table type (.initializer name) initial
    Scope.bind name ⟨type, .ofDecl kind⟩
    return .declare node kind name type initial
  | .expr node value => do
    return .expr node (← exprHere table value)

/-- Check statements in order; `unreachable` says that a `return` came directly before. -/
def stmts (result : Ty) (unreachable : Bool) : List (Stmt Node) → Checker (List (Stmt TypedNode))
  | [] => return []
  | s :: rest =>
    if unreachable then throw ⟨s.start, .unreachable⟩
    else do
      let first ← stmt result s
      return first :: (← stmts result s.isReturn rest)

/-- Check an arm that opens with the given keyword. -/
def arm (result : Ty) (word : Keyword) : Arm Node → Checker (Arm TypedNode)
  | ⟨condition, body, span⟩ => do
    let condition ← typedHere table .i32 (.condition word) condition
    let body ← Scope.within (stmts result false body)
    return ⟨condition, body, span⟩

/-- Check arms in order; the first opens with the given keyword and the others with `elif`. -/
def arms (result : Ty) (word : Keyword) : List (Arm Node) → Checker (List (Arm TypedNode))
  | [] => return []
  | a :: rest => do
    let first ← arm result word a
    return first :: (← arms result .elif rest)

def elseBody (result : Ty) : Option (List (Stmt Node)) → Checker (Option (List (Stmt TypedNode)))
  | none => return none
  | some body => return some (← Scope.within (stmts result false body))

end

end Check

end Wattle
