import Wattle.Check.Program
import Wattle.Proofs.VoidFree

/-!
# Well-typed trees

The rules of the language as a judgement on trees that carry their types: which type the note of
a node may give, in a scope that says what the visible names are. The judgement also asks that
`void` never is the type of a value.
-/

namespace Wattle

namespace Expr

mutual

/-- `Typed table scope e`: the notes in `e` give the types that the rules assign. -/
inductive Typed (table : Signatures) (scope : Scope Symbol) : Expr TypedNode → Prop where
  | name {note : TypedNode} {id : String} {symbol : Symbol}
      (found : scope.lookup? id = some symbol) (value : symbol.type.voidFree = true)
      (type : note.type = symbol.type) :
      Typed table scope (.name note id)
  | number {note : TypedNode} {digits : String} {base : BaseType}
      (value : base ≠ .void) (type : note.type = .base base) :
      Typed table scope (.number note digits base)
  | call {note : TypedNode} {callee : String} {args : List (Expr TypedNode)}
      {signature : Signature} (found : Check.findFunction? table callee = some signature)
      (result : signature.result.isResult = true)
      (matched : ArgsTyped table scope args signature.parameters)
      (type : note.type = signature.result) :
      Typed table scope (.call note callee args)
  | negate {note : TypedNode} {operand : Expr TypedNode} (typed : Typed table scope operand)
      (value : operand.type ≠ .void) (type : note.type = operand.type) :
      Typed table scope (.unary note .negate operand)
  | deref {note : TypedNode} {operand : Expr TypedNode} (typed : Typed table scope operand)
      (pointer : operand.type = .pointer note.type) :
      Typed table scope (.unary note .deref operand)
  | logicalNot {note : TypedNode} {operand : Expr TypedNode} (typed : Typed table scope operand)
      (truth : operand.type = .i32) (type : note.type = .i32) :
      Typed table scope (.unary note .logicalNot operand)
  | assignName {note target : TypedNode} {id : String} {symbol : Symbol}
      {value : Expr TypedNode} (found : scope.lookup? id = some symbol)
      (mutable : symbol.kind.isMutable = true) (left : Typed table scope (.name target id))
      (right : Typed table scope value) (same : value.type = target.type)
      (type : note.type = .void) :
      Typed table scope (.binary note .assign (.name target id) value)
  | assignDeref {note target : TypedNode} {address value : Expr TypedNode}
      (left : Typed table scope (.unary target .deref address))
      (right : Typed table scope value) (same : value.type = target.type)
      (type : note.type = .void) :
      Typed table scope (.binary note .assign (.unary target .deref address) value)
  | binary {note : TypedNode} {op : BinaryOp} {left right : Expr TypedNode}
      (operator : op ≠ .assign) (first : Typed table scope left)
      (second : Typed table scope right) (value : left.type ≠ .void)
      (integer : op.requiresInteger = true → left.type.isInteger = true)
      (same : right.type = left.type)
      (type : note.type = if op.isComparison then .i32 else left.type) :
      Typed table scope (.binary note op left right)
  | paren {note : TypedNode} {inner : Expr TypedNode} (typed : Typed table scope inner)
      (type : note.type = inner.type) :
      Typed table scope (.paren note inner)
  | cast {note : TypedNode} {operand : Expr TypedNode} {target : Ty}
      (typed : Typed table scope operand) (value : operand.type ≠ .void)
      (target_value : target.voidFree = true) (type : note.type = target) :
      Typed table scope (.cast note operand target)

inductive ArgsTyped (table : Signatures) (scope : Scope Symbol) :
    List (Expr TypedNode) → List Parameter → Prop where
  | nil : ArgsTyped table scope [] []
  | cons {arg : Expr TypedNode} {args : List (Expr TypedNode)} {parameter : Parameter}
      {parameters : List Parameter} (typed : Typed table scope arg)
      (same : arg.type = parameter.type) (rest : ArgsTyped table scope args parameters) :
      ArgsTyped table scope (arg :: args) (parameter :: parameters)

end

variable {table : Signatures} {scope : Scope Symbol}

theorem ArgsTyped.length_eq : {args : List (Expr TypedNode)} → {parameters : List Parameter} →
    ArgsTyped table scope args parameters → args.length = parameters.length
  | [], [], .nil => rfl
  | _ :: _, _ :: _, .cons _ _ rest => by rw [List.length_cons, List.length_cons, rest.length_eq]

/-- The type of a well-typed expression is `void`, or `void` is nowhere in it. -/
theorem Typed.isResult : {e : Expr TypedNode} → Typed table scope e → e.type.isResult = true
  | .name _ _, .name _ value type => by
      rw [Expr.type, note, type]
      exact Ty.isResult_of_voidFree value
  | .number _ _ _, .number value type => by
      rw [Expr.type, note, type]
      exact Ty.isResult_of_voidFree ((Ty.voidFree_base _).2 value)
  | .call _ _ _, .call _ result _ type => by
      rw [Expr.type, note, type]
      exact result
  | .unary _ _ operand, .negate typed _ type => by
      rw [Expr.type, note, type]
      exact typed.isResult
  | .unary _ _ operand, .deref typed pointer => by
      have h := Ty.voidFree_of_isResult typed.isResult (by simp [pointer])
      rw [pointer, Ty.voidFree_pointer] at h
      exact Ty.isResult_of_voidFree h
  | .unary _ _ _, .logicalNot _ _ type => by
      rw [Expr.type, note, type]
      rfl
  | .binary _ _ _ _, .assignName _ _ _ _ _ type | .binary _ _ _ _, .assignDeref _ _ _ type => by
      rw [Expr.type, note, type]
      rfl
  | .binary _ op left _, .binary _ first _ _ _ _ type => by
      rw [Expr.type, note, type]
      cases op.isComparison with
      | true => rfl
      | false => exact first.isResult
  | .paren _ inner, .paren typed type => by
      rw [Expr.type, note, type]
      exact typed.isResult
  | .cast _ _ _, .cast _ _ target type => by
      rw [Expr.type, note, type]
      exact Ty.isResult_of_voidFree target

theorem Typed.voidFree {e : Expr TypedNode} (h : Typed table scope e) (hv : e.type ≠ .void) :
    e.type.voidFree = true :=
  Ty.voidFree_of_isResult h.isResult hv

end Expr

namespace Stmt

/-- The scope behind a statement; only a declaration changes it. -/
def scopeAfter {α : Type} (scope : Scope Symbol) : Stmt α → Scope Symbol
  | declare _ kind name type _ => scope.insert name ⟨type, .ofDecl kind⟩
  | _ => scope

mutual

/-- `Typed table result scope s`: in a function with the given result, `s` may stand where the
names of `scope` are visible. -/
inductive Typed (table : Signatures) (result : Ty) : Scope Symbol → Stmt TypedNode → Prop where
  | cond {scope : Scope Symbol} {node : Node} {arms : List (Arm TypedNode)}
      {otherwise : Option (List (Stmt TypedNode))} (branches : ArmsTyped table result scope arms)
      (last : ElseTyped table result scope otherwise) :
      Typed table result scope (.cond node arms otherwise)
  | loop {scope : Scope Symbol} {node : Node} {condition : Expr TypedNode}
      {body : List (Stmt TypedNode)} (test : condition.Typed table scope)
      (truth : condition.type = .i32) (inside : ListTyped table result scope.push body) :
      Typed table result scope (.loop node condition body)
  | retVoid {scope : Scope Symbol} {node : Node} (nothing : result = .void) :
      Typed table result scope (.ret node none)
  | retValue {scope : Scope Symbol} {node : Node} {value : Expr TypedNode}
      (something : result ≠ .void) (typed : value.Typed table scope)
      (same : value.type = result) :
      Typed table result scope (.ret node (some value))
  | declare {scope : Scope Symbol} {node : Node} {kind : DeclKind} {name : String} {type : Ty}
      {initial : Expr TypedNode} (typed : initial.Typed table scope)
      (same : initial.type = type) (value : type.voidFree = true) :
      Typed table result scope (.declare node kind name type initial)
  | expr {scope : Scope Symbol} {node : Node} {value : Expr TypedNode}
      (typed : value.Typed table scope) :
      Typed table result scope (.expr node value)

/-- Statements in order, each in the scope that the ones before it leave; nothing follows a
`return`. -/
inductive ListTyped (table : Signatures) (result : Ty) :
    Scope Symbol → List (Stmt TypedNode) → Prop where
  | nil {scope : Scope Symbol} : ListTyped table result scope []
  | cons {scope : Scope Symbol} {s : Stmt TypedNode} {rest : List (Stmt TypedNode)}
      (first : Typed table result scope s) (last : s.isReturn = true → rest = [])
      (others : ListTyped table result (s.scopeAfter scope) rest) :
      ListTyped table result scope (s :: rest)

inductive ArmsTyped (table : Signatures) (result : Ty) :
    Scope Symbol → List (Arm TypedNode) → Prop where
  | nil {scope : Scope Symbol} : ArmsTyped table result scope []
  | cons {scope : Scope Symbol} {condition : Expr TypedNode} {body : List (Stmt TypedNode)}
      {span : Span} {rest : List (Arm TypedNode)} (test : condition.Typed table scope)
      (truth : condition.type = .i32) (inside : ListTyped table result scope.push body)
      (others : ArmsTyped table result scope rest) :
      ArmsTyped table result scope (⟨condition, body, span⟩ :: rest)

inductive ElseTyped (table : Signatures) (result : Ty) :
    Scope Symbol → Option (List (Stmt TypedNode)) → Prop where
  | none {scope : Scope Symbol} : ElseTyped table result scope none
  | some {scope : Scope Symbol} {body : List (Stmt TypedNode)}
      (inside : ListTyped table result scope.push body) :
      ElseTyped table result scope (some body)

end

end Stmt

/-- A function definition obeys the rules: its body does, among the parameters, and a function
that gives a value ends in a `return`. -/
structure FuncDef.Typed (table : Signatures) (d : FuncDef TypedNode) : Prop where
  body : Stmt.ListTyped table d.signature.result (Check.parameterScope d.signature.parameters)
    d.body
  ends : d.signature.result ≠ .void → Check.endsInReturn d.body = true

def Program.signatures {α : Type} (p : Program α) : Signatures :=
  (p.funcs.map Func.signature).reverse

/-- A program obeys the rules: function names are distinct, parameters are distinct and have
values, and every body may call every function. -/
structure Program.Typed (p : Program TypedNode) : Prop where
  names : (p.funcs.map (·.signature.name)).Nodup
  signatures : ∀ f ∈ p.funcs, f.signature.voidFree = true
  parameters : ∀ f ∈ p.funcs, (f.signature.parameters.map Parameter.name).Nodup
  bodies : ∀ d ∈ p.definitions, d.2.Typed p.signatures

end Wattle
