import Wattle.Proofs.Typing

/-!
# The type system

The rules of the language as judgements on trees without types, independent of the order in which
a checker would look at them. What is visible at a place is a list of bindings; a body sees the
bindings around it, and those it adds itself end with it.
-/

namespace Wattle

/-- The bindings visible at a place, the nearest first. A binding hides those of the same name
behind it. -/
abbrev Context := List (String × Symbol)

namespace Expr

mutual

/-- `HasType table Γ e τ`: where the bindings of `Γ` are visible and the functions of `table` are
declared, `e` has type `τ`. -/
inductive HasType (table : Signatures) (Γ : Context) : Expr Node → Ty → Prop where
  | name {node : Node} {id : String} {symbol : Symbol} (visible : Γ.lookup id = some symbol) :
      HasType table Γ (.name node id) symbol.type
  | number {node : Node} {digits : String} {base : BaseType} :
      HasType table Γ (.number node digits base) (.base base)
  | call {node : Node} {callee : String} {args : List (Expr Node)} {signature : Signature}
      (declared : signature ∈ table) (called : signature.name = callee)
      (matched : ArgsHaveTypes table Γ args (signature.parameters.map Parameter.type)) :
      HasType table Γ (.call node callee args) signature.result
  | negate {node : Node} {operand : Expr Node} {τ : Ty} (typed : HasType table Γ operand τ)
      (value : τ ≠ .void) :
      HasType table Γ (.unary node .negate operand) τ
  | deref {node : Node} {operand : Expr Node} {τ : Ty}
      (typed : HasType table Γ operand (.pointer τ)) :
      HasType table Γ (.unary node .deref operand) τ
  | logicalNot {node : Node} {operand : Expr Node} (typed : HasType table Γ operand .i32) :
      HasType table Γ (.unary node .logicalNot operand) .i32
  | assignName {node target : Node} {id : String} {symbol : Symbol} {value : Expr Node}
      (visible : Γ.lookup id = some symbol) (assignable : symbol.kind = .var)
      (right : HasType table Γ value symbol.type) :
      HasType table Γ (.binary node .assign (.name target id) value) .void
  | assignDeref {node target : Node} {address value : Expr Node} {τ : Ty}
      (left : HasType table Γ (.unary target .deref address) τ)
      (right : HasType table Γ value τ) :
      HasType table Γ (.binary node .assign (.unary target .deref address) value) .void
  | arithmetic {node : Node} {op : BinaryOp} {left right : Expr Node} {τ : Ty}
      (noAssignment : op ≠ .assign) (noComparison : op.isComparison = false)
      (first : HasType table Γ left τ) (second : HasType table Γ right τ) (value : τ ≠ .void)
      (integer : op.requiresInteger = true → τ.isInteger = true) :
      HasType table Γ (.binary node op left right) τ
  | comparison {node : Node} {op : BinaryOp} {left right : Expr Node} {τ : Ty}
      (compares : op.isComparison = true) (first : HasType table Γ left τ)
      (second : HasType table Γ right τ) (value : τ ≠ .void) :
      HasType table Γ (.binary node op left right) .i32
  | paren {node : Node} {inner : Expr Node} {τ : Ty} (typed : HasType table Γ inner τ) :
      HasType table Γ (.paren node inner) τ
  | cast {node : Node} {operand : Expr Node} {σ τ : Ty} (typed : HasType table Γ operand σ)
      (value : σ ≠ .void) (target : τ ≠ .void) :
      HasType table Γ (.cast node operand τ) τ

/-- As many arguments as types, each of its type. -/
inductive ArgsHaveTypes (table : Signatures) (Γ : Context) : List (Expr Node) → List Ty → Prop where
  | nil : ArgsHaveTypes table Γ [] []
  | cons {arg : Expr Node} {args : List (Expr Node)} {τ : Ty} {τs : List Ty}
      (first : HasType table Γ arg τ) (rest : ArgsHaveTypes table Γ args τs) :
      ArgsHaveTypes table Γ (arg :: args) (τ :: τs)

end

end Expr

namespace Stmt

/-- The bindings visible behind a statement: a declaration adds one. -/
def contextAfter {α : Type} (Γ : Context) : Stmt α → Context
  | declare _ kind name type _ => (name, ⟨type, .ofDecl kind⟩) :: Γ
  | _ => Γ

mutual

/-- `WellTyped table result Γ s`: in a function with the given result, `s` may stand where the
bindings of `Γ` are visible. -/
inductive WellTyped (table : Signatures) (result : Ty) : Context → Stmt Node → Prop where
  | cond {Γ : Context} {node : Node} {arms : List (Arm Node)}
      {otherwise : Option (List (Stmt Node))} (branches : ArmsWellTyped table result Γ arms)
      (last : ElseWellTyped table result Γ otherwise) :
      WellTyped table result Γ (.cond node arms otherwise)
  | loop {Γ : Context} {node : Node} {condition : Expr Node} {body : List (Stmt Node)}
      (test : condition.HasType table Γ .i32) (inside : ListWellTyped table result Γ body) :
      WellTyped table result Γ (.loop node condition body)
  | retVoid {Γ : Context} {node : Node} (nothing : result = .void) :
      WellTyped table result Γ (.ret node none)
  | retValue {Γ : Context} {node : Node} {value : Expr Node} (something : result ≠ .void)
      (typed : value.HasType table Γ result) :
      WellTyped table result Γ (.ret node (some value))
  | declare {Γ : Context} {node : Node} {kind : DeclKind} {name : String} {type : Ty}
      {initial : Expr Node} (typed : initial.HasType table Γ type) :
      WellTyped table result Γ (.declare node kind name type initial)
  | expr {Γ : Context} {node : Node} {value : Expr Node} {τ : Ty}
      (typed : value.HasType table Γ τ) :
      WellTyped table result Γ (.expr node value)

/-- Every statement may stand where the bindings of those before it are visible as well; nothing
follows a `return`. -/
inductive ListWellTyped (table : Signatures) (result : Ty) : Context → List (Stmt Node) → Prop where
  | nil {Γ : Context} : ListWellTyped table result Γ []
  | cons {Γ : Context} {s : Stmt Node} {rest : List (Stmt Node)}
      (first : WellTyped table result Γ s) (last : s.isReturn = true → rest = [])
      (others : ListWellTyped table result (s.contextAfter Γ) rest) :
      ListWellTyped table result Γ (s :: rest)

inductive ArmsWellTyped (table : Signatures) (result : Ty) : Context → List (Arm Node) → Prop where
  | nil {Γ : Context} : ArmsWellTyped table result Γ []
  | cons {Γ : Context} {condition : Expr Node} {body : List (Stmt Node)} {span : Span}
      {rest : List (Arm Node)} (test : condition.HasType table Γ .i32)
      (inside : ListWellTyped table result Γ body) (others : ArmsWellTyped table result Γ rest) :
      ArmsWellTyped table result Γ (⟨condition, body, span⟩ :: rest)

inductive ElseWellTyped (table : Signatures) (result : Ty) :
    Context → Option (List (Stmt Node)) → Prop where
  | none {Γ : Context} : ElseWellTyped table result Γ none
  | some {Γ : Context} {body : List (Stmt Node)} (inside : ListWellTyped table result Γ body) :
      ElseWellTyped table result Γ (some body)

end

end Stmt

/-- The bindings visible at the start of a body. -/
def parameterContext (parameters : List Parameter) : Context :=
  (parameters.map fun p => (p.name, ⟨p.type, .parameter⟩)).reverse

structure FuncDef.WellTyped (table : Signatures) (d : FuncDef Node) : Prop where
  body : Stmt.ListWellTyped table d.signature.result (parameterContext d.signature.parameters)
    d.body
  ends : d.signature.result ≠ .void → ∃ node value, d.body.getLast? = some (.ret node value)

/-- A program obeys the rules. Every body sees the signatures of all functions. -/
structure Program.WellTyped (p : Program Node) : Prop where
  names : (p.funcs.map (·.signature.name)).Nodup
  parameterNames : ∀ f ∈ p.funcs, (f.signature.parameters.map Parameter.name).Nodup
  parameterValues : ∀ f ∈ p.funcs, ∀ q ∈ f.signature.parameters, q.type ≠ .void
  memory : p.memories.length ≤ 1
  exports : ∀ m ∈ p.memories, m.kind = .exported →
    ∀ f ∈ p.funcs, f.isExported = true → f.signature.name ≠ m.name
  bodies : ∀ d ∈ p.definitions, d.2.WellTyped p.signatures

/-! ## Where expressions stand -/

namespace Expr

variable {α : Type}

mutual

/-- The expression and every expression inside it. -/
def parts : Expr α → List (Expr α)
  | name n id => [name n id]
  | number n digits type => [number n digits type]
  | call n callee args => call n callee args :: listParts args
  | unary n op operand => unary n op operand :: operand.parts
  | binary n op left right => binary n op left right :: (left.parts ++ right.parts)
  | paren n inner => paren n inner :: inner.parts
  | cast n operand target => cast n operand target :: operand.parts

def listParts : List (Expr α) → List (Expr α)
  | [] => []
  | e :: rest => e.parts ++ listParts rest

end

/-- The expression and every expression inside it, with the bindings visible there. -/
def occurrences (Γ : Context) (e : Expr α) : List (Context × Expr α) :=
  e.parts.map fun part => (Γ, part)

end Expr

namespace Stmt

variable {α : Type}

mutual

/-- Every expression in the statement, with the bindings visible there. -/
def occurrences (Γ : Context) : Stmt α → List (Context × Expr α)
  | cond _ arms otherwise => armsOccurrences Γ arms ++ elseOccurrences Γ otherwise
  | loop _ condition body => condition.occurrences Γ ++ listOccurrences Γ body
  | ret _ value => value.elim [] (Expr.occurrences Γ)
  | declare _ _ _ _ initial => initial.occurrences Γ
  | expr _ value => value.occurrences Γ

def listOccurrences (Γ : Context) : List (Stmt α) → List (Context × Expr α)
  | [] => []
  | s :: rest => s.occurrences Γ ++ listOccurrences (s.contextAfter Γ) rest

def armsOccurrences (Γ : Context) : List (Arm α) → List (Context × Expr α)
  | [] => []
  | ⟨condition, body, _⟩ :: rest =>
    condition.occurrences Γ ++ listOccurrences Γ body ++ armsOccurrences Γ rest

def elseOccurrences (Γ : Context) : Option (List (Stmt α)) → List (Context × Expr α)
  | none => []
  | some body => listOccurrences Γ body

end

end Stmt

/-- Every expression in the program, with the bindings visible there. -/
def Program.occurrences {α : Type} (p : Program α) : List (Context × Expr α) :=
  p.definitions.flatMap fun d =>
    Stmt.listOccurrences (parameterContext d.2.signature.parameters) d.2.body

/-- Whether `void` is nowhere the type of a literal, of a conversion or of a declared name, and
nowhere below a pointer. It may still be the type of a parameter. -/
def Program.voidPlaced {α : Type} (p : Program α) : Bool :=
  p.funcs.all fun f =>
    f.signature.parameters.all (·.type.isResult) && f.signature.result.isResult &&
      f.definition?.all fun d => Stmt.listVoidFree d.2.body

end Wattle
