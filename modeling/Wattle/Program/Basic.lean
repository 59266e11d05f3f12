import Wattle.Program.Stmt

/-!
# Programs

A source file is a list of functions and memories. Functions are private, exported to the host or
imported from it; so are memories.
-/

namespace Wattle

/-- A parameter of a function. -/
structure Parameter where
  name : String
  type : Ty
  span : Span
deriving DecidableEq

/-- The name of a function and the types of what it takes and gives. -/
structure Signature where
  name : String
  result : Ty
  parameters : List Parameter
deriving DecidableEq

/-- Where the host keeps an imported item. -/
structure ImportPath where
  nameSpace : String
  specifier : String
deriving DecidableEq

/-- A function with a body. -/
structure FuncDef (α : Type) where
  node : Node
  signature : Signature
  body : List (Stmt α)

/-- A function that the host provides. -/
structure FuncImport where
  node : Node
  signature : Signature
  path : ImportPath
deriving DecidableEq

/-- A function declaration. -/
inductive Func (α : Type) where
  | plain (definition : FuncDef α)
  | exported (definition : FuncDef α)
  | imported (declaration : FuncImport)

namespace Func

variable {α : Type}

def signature : Func α → Signature
  | plain d | exported d => d.signature
  | imported i => i.signature

def node : Func α → Node
  | plain d | exported d => d.node
  | imported i => i.node

def isExported : Func α → Bool
  | exported _ => true
  | _ => false

end Func

/-- Who can see a memory, or who provides it. -/
inductive MemoryKind where
  | plain
  | exported
  | imported (path : ImportPath)
deriving DecidableEq

/-- A linear memory of `size` bytes. -/
structure Memory where
  node : Node
  name : String
  size : UInt32
  kind : MemoryKind
deriving DecidableEq

/-- A whole source file; the expressions inside carry notes of type `α`. -/
structure Program (α : Type) where
  funcs : List (Func α)
  memories : List Memory

/-- Replace every note in a function definition. -/
def FuncDef.map {α β : Type} (f : α → β) (d : FuncDef α) : FuncDef β :=
  ⟨d.node, d.signature, Stmt.mapList f d.body⟩

/-- Replace every note in a function declaration. -/
def Func.map {α β : Type} (f : α → β) : Func α → Func β
  | plain d => plain (d.map f)
  | exported d => exported (d.map f)
  | imported i => imported i

def Program.map {α β : Type} (f : α → β) (p : Program α) : Program β :=
  ⟨p.funcs.map (Func.map f), p.memories⟩

def Program.erase : Program TypedNode → Program Node :=
  Program.map TypedNode.toNode

end Wattle
