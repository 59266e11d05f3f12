import Wattle.Program.Expr

/-!
# Statements

The notes of type `α` belong to the expressions inside; statements themselves always carry a
`Node`.
-/

namespace Wattle

/-- Whether a declared name may be assigned to later. -/
inductive DeclKind where
  | var | const
deriving DecidableEq

mutual

/-- A statement whose expressions carry notes of type `α`. -/
inductive Stmt (α : Type) where
  /-- The arms of `if` and every `elif`, and the body of `else`. -/
  | cond (node : Node) (arms : List (Arm α)) (otherwise : Option (List (Stmt α)))
  | loop (node : Node) (condition : Expr α) (body : List (Stmt α))
  | ret (node : Node) (value : Option (Expr α))
  | declare (node : Node) (kind : DeclKind) (name : String) (type : Ty) (initial : Expr α)
  | expr (node : Node) (value : Expr α)

/-- A condition with the body that it guards. -/
structure Arm (α : Type) where
  condition : Expr α
  body : List (Stmt α)
  span : Span

end

namespace Stmt

variable {α β : Type}

def node : Stmt α → Node
  | cond n _ _ | loop n _ _ | ret n _ | declare n _ _ _ _ | expr n _ => n

def start (s : Stmt α) : Location :=
  s.node.start

def isReturn : Stmt α → Bool
  | ret _ _ => true
  | _ => false

mutual

/-- Replace every note of the expressions inside. -/
def map (f : α → β) : Stmt α → Stmt β
  | cond n arms otherwise => cond n (mapArms f arms) (mapElse f otherwise)
  | loop n condition body => loop n (condition.map f) (mapList f body)
  | ret n value => ret n (value.map (Expr.map f))
  | declare n kind name type initial => declare n kind name type (initial.map f)
  | expr n value => expr n (value.map f)

def mapList (f : α → β) : List (Stmt α) → List (Stmt β)
  | [] => []
  | s :: rest => s.map f :: mapList f rest

def mapArm (f : α → β) : Arm α → Arm β
  | ⟨condition, body, span⟩ => ⟨condition.map f, mapList f body, span⟩

def mapArms (f : α → β) : List (Arm α) → List (Arm β)
  | [] => []
  | a :: rest => mapArm f a :: mapArms f rest

def mapElse (f : α → β) : Option (List (Stmt α)) → Option (List (Stmt β))
  | none => none
  | some body => some (mapList f body)

end

end Stmt

end Wattle
