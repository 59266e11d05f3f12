import Wattle.Program.Basic
import Wattle.Proofs.Primitives
import Wattle.Scope

/-!
# What programs mean

A checked body is run on named variables and a memory. Operands and arguments are evaluated from
left to right; a declaration binds its name in the innermost frame, after its initial value was
found; an assignment changes the variable that its name means. A bound on the rounds of each
execution of a loop makes the runs finite.
-/

namespace Wattle

open Wasm

/-! ## Operators and conversions -/

/-- How integers of the type are read; addresses have no sign. -/
def Ty.sign? : Ty → Option Sign
  | base .i32 | base .i64 => some .signed
  | base .u32 | base .u64 | pointer _ => some .unsigned
  | base .f32 | base .f64 | base .void => none

/-- The operation of the machine that an operator stands for between operands of a type. Quotients,
remainders, shifts to the right and comparisons of size depend on how integers are read. -/
def BinaryOp.operation? (op : BinaryOp) (type : Ty) : Option (NumOp × Option Sign) :=
  match op with
  | add => some (.add, none)
  | sub => some (.sub, none)
  | mul => some (.mul, none)
  | div => some (.div, type.sign?)
  | rem => some (.rem, type.sign?)
  | bitAnd => some (.and, none)
  | bitOr => some (.or, none)
  | bitXor => some (.xor, none)
  | leftShift => some (.shl, none)
  | rightShift => some (.shr, type.sign?)
  | equal => some (.eq, none)
  | notEqual => some (.ne, none)
  | less => some (.lt, type.sign?)
  | greater => some (.gt, type.sign?)
  | lessEqual => some (.le, type.sign?)
  | greaterEqual => some (.ge, type.sign?)
  | assign => none

/-- The conversion of the machine between two types with different machine types. Integers grow by
the sign of their type, and numbers become integers of the sign that is asked for. -/
def Ty.conversion? (source target : Ty) : ValueType → ValueType → Option (ConvOp × Option Sign)
  | .i32, .i64 => some (.extend, source.sign?)
  | .i64, .i32 => some (.wrap, none)
  | .f32, .f64 => some (.promote, none)
  | .f64, .f32 => some (.demote, none)
  | .i32, .f32 | .i32, .f64 | .i64, .f32 | .i64, .f64 => some (.convert, source.sign?)
  | .f32, .i32 | .f32, .i64 | .f64, .i32 | .f64, .i64 => some (.trunc, target.sign?)
  | .i32, .i32 | .i64, .i64 | .f32, .f32 | .f64, .f64 => none

variable {V M : Type}

def Primitives.binary (P : Primitives V M) (op : BinaryOp) (type : Ty) (x y : V) :
    Except Stop V :=
  match ValueType.ofTy? type, op.operation? type with
  | some t, some (num, sign) => orTrap (P.numeric t num sign x y)
  | _, _ => .error .stuck

/-- A value of one type as a value of another. Types with the same machine type share their
values. -/
def Primitives.cast (P : Primitives V M) (source target : Ty) (x : V) : Except Stop V :=
  match ValueType.ofTy? source, ValueType.ofTy? target with
  | some s, some t =>
    match source.conversion? target s t with
    | some (op, sign) => orTrap (P.convert t op s sign x)
    | none => .ok x
  | _, _ => .error .stuck

/-! ## Variables -/

namespace Scope

variable {β : Type}

def assignFrame (name : String) (value : β) : Frame β → Frame β
  | [] => []
  | (other, old) :: rest =>
    if name = other then (other, value) :: rest else (other, old) :: assignFrame name value rest

/-- Change the binding of `name` in the first frame that has one. -/
def assignFrames (name : String) (value : β) : List (Frame β) → List (Frame β)
  | [] => []
  | frame :: others =>
    if (frame.lookup name).isSome then assignFrame name value frame :: others
    else frame :: assignFrames name value others

/-- Change what `name` means here. -/
def assign (name : String) (value : β) (s : Scope β) : Scope β :=
  if (s.inner.lookup name).isSome then ⟨assignFrame name value s.inner, s.outer⟩
  else ⟨s.inner, assignFrames name value s.outer⟩

end Scope

/-- What a run reads and changes: the variables and the memory. -/
structure Env (V M : Type) where
  vars : Scope V
  memory : M

inductive Signal (V : Type) where
  | next
  /-- The function returns, with a value or without. -/
  | returned (value : Option V)

/-! ## Expressions -/

/-- The value of an expression that must have one. -/
def needed (r : Except Stop (Option V × Env V M)) : Except Stop (V × Env V M) := do
  match ← r with
  | (some x, s) => .ok (x, s)
  | (none, _) => .error .stuck

def machineType (type : Ty) : Except Stop ValueType :=
  match ValueType.ofTy? type with
  | some t => .ok t
  | none => .error .stuck

namespace Expr

mutual

/-- Evaluate an expression: its value, if it has one, and what it leaves. -/
def eval (P : Primitives V M) : Expr TypedNode → Env V M → Except Stop (Option V × Env V M)
  | name _ id, s =>
    match s.vars.lookup? id with
    | some x => .ok (some x, s)
    | none => .error .stuck
  | number _ digits type, s => do
    let t ← machineType (.base type)
    return (some (P.const t digits), s)
  | call note callee args, s => do
    let (xs, s) ← evalList P args s
    let (x, memory) ← P.call callee xs s.memory
    return (if note.type.isVoid then none else some x, ⟨s.vars, memory⟩)
  | unary note op operand, s => do
    let (x, s) ← needed (eval P operand s)
    match op with
    | .negate =>
      let t ← machineType note.type
      let y ← P.binary .sub note.type (P.const t "0") x
      return (some y, s)
    | .deref =>
      let t ← machineType note.type
      let y ← orTrap (P.load t x s.memory)
      return (some y, s)
    | .logicalNot => return (some (P.eqz .i32 x), s)
  | binary _ op left right, s =>
    if op = .assign then
      match left with
      | name _ id => do
        let (x, s) ← needed (eval P right s)
        if (s.vars.lookup? id).isSome then return (none, ⟨s.vars.assign id x, s.memory⟩)
        else .error .stuck
      | unary note .deref address => do
        let (a, s) ← needed (eval P address s)
        let (x, s) ← needed (eval P right s)
        let t ← machineType note.type
        let memory ← orTrap (P.store t a x s.memory)
        return (none, ⟨s.vars, memory⟩)
      | _ => .error .stuck
    else do
      let (x, s) ← needed (eval P left s)
      let (y, s) ← needed (eval P right s)
      let z ← P.binary op left.type x y
      return (some z, s)
  | paren _ inner, s => eval P inner s
  | cast _ operand target, s => do
    let (x, s) ← needed (eval P operand s)
    let y ← P.cast operand.type target x
    return (some y, s)

def evalList (P : Primitives V M) : List (Expr TypedNode) → Env V M →
    Except Stop (List V × Env V M)
  | [], s => .ok ([], s)
  | e :: rest, s => do
    let (x, s) ← needed (eval P e s)
    let (xs, s) ← evalList P rest s
    return (x :: xs, s)

end

end Expr

/-! ## Statements -/

def Env.nested (run : Env V M → Except Stop (Signal V × Env V M)) (s : Env V M) :
    Except Stop (Signal V × Env V M) := do
  let (signal, s) ← run ⟨s.vars.push, s.memory⟩
  return (signal, ⟨s.vars.pop, s.memory⟩)

/-- Whether a condition holds: its value is not zero. -/
def Expr.holds (P : Primitives V M) (condition : Expr TypedNode) (s : Env V M) :
    Except Stop (Bool × Env V M) := do
  let (x, s) ← needed (condition.eval P s)
  return (!P.isZero x, s)

/-- Run a body as long as a condition holds, which is tested at most as often as the bound says. -/
def repeatWhile (test : Env V M → Except Stop (Bool × Env V M))
    (body : Env V M → Except Stop (Signal V × Env V M)) :
    Nat → Env V M → Except Stop (Signal V × Env V M)
  | 0, _ => .error .endless
  | bound + 1, s => do
    let (go, s) ← test s
    if go then
      let (signal, s) ← body s
      match signal with
      | .next => repeatWhile test body bound s
      | .returned x => return (.returned x, s)
    else return (.next, s)

namespace Stmt

mutual

def run (P : Primitives V M) (bound : Nat) :
    Stmt TypedNode → Env V M → Except Stop (Signal V × Env V M)
  | cond _ arms otherwise, s => runArms P bound arms (fun s => runElse P bound otherwise s) s
  | loop _ condition body, s =>
    repeatWhile (condition.holds P) (Env.nested fun s => runList P bound body s) bound s
  | ret _ none, s => .ok (.returned none, s)
  | ret _ (some value), s => do
    let (x, s) ← needed (value.eval P s)
    return (.returned (some x), s)
  | declare _ _ name _ initial, s => do
    let (x, s) ← needed (initial.eval P s)
    return (.next, ⟨s.vars.insert name x, s.memory⟩)
  | expr _ value, s => do
    let (_, s) ← value.eval P s
    return (.next, s)

/-- Run statements in order, up to the first that returns. -/
def runList (P : Primitives V M) (bound : Nat) :
    List (Stmt TypedNode) → Env V M → Except Stop (Signal V × Env V M)
  | [], s => .ok (.next, s)
  | first :: rest, s => do
    let (signal, s) ← run P bound first s
    match signal with
    | .next => runList P bound rest s
    | .returned x => return (.returned x, s)

/-- Run the first arm whose condition holds, or else go on otherwise. -/
def runArms (P : Primitives V M) (bound : Nat) : List (Arm TypedNode) →
    (Env V M → Except Stop (Signal V × Env V M)) → Env V M → Except Stop (Signal V × Env V M)
  | [], otherwise, s => otherwise s
  | ⟨condition, body, _⟩ :: rest, otherwise, s => do
    let (go, s) ← condition.holds P s
    if go then Env.nested (fun s => runList P bound body s) s
    else runArms P bound rest otherwise s

def runElse (P : Primitives V M) (bound : Nat) :
    Option (List (Stmt TypedNode)) → Env V M → Except Stop (Signal V × Env V M)
  | none, s => .ok (.next, s)
  | some body, s => Env.nested (fun s => runList P bound body s) s

end

end Stmt

/-! ## Functions -/

/-- The variables at the start of a body: the parameters with their arguments. -/
def argumentScope (parameters : List Parameter) (args : List V) : Scope V :=
  (parameters.zip args).foldl (fun scope (p, x) => scope.insert p.name x) .root

/-- Run a function: the value it returns, if any, and the memory it leaves. -/
def FuncDef.run (P : Primitives V M) (d : FuncDef TypedNode) (args : List V) (memory : M)
    (bound : Nat) : Except Stop (Option V × M) := do
  let (signal, s) ←
    Stmt.runList P bound d.body ⟨argumentScope d.signature.parameters args, memory⟩
  match signal with
  | .returned x => return (x, s.memory)
  | .next => if d.signature.result.isVoid then return (none, s.memory) else .error .stuck

end Wattle
