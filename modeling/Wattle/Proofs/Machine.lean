import Wattle.Proofs.Primitives
import Wattle.Proofs.StackTyping

/-!
# Running stack code

Stack code runs on an operand stack, numbered locals and a memory. A branch leaves as many blocks
as it says and the block that it names: behind a `block` the code goes on, while a `loop` starts
again. Operands that a block has on the stack are given up when it is left by a branch. The rounds
of each execution of a loop are bounded.
-/

namespace Wattle.Wasm

variable {V M : Type}

/-- What stack code reads and changes; the newest operand is the first of the stack. -/
structure Config (V M : Type) where
  stack : List V
  locals : List V
  memory : M

inductive Flow (V : Type) where
  | next
  /-- Leave this many blocks, and then the one around. -/
  | branch (depth : Nat)
  /-- The function returns, with a value or without. -/
  | returned (value : Option V)

/-- The result of a function that returns with the given operands. -/
def takeResult (result : Option ValueType) (stack : List V) : Except Stop (Option V) :=
  match result, stack with
  | none, _ => .ok none
  | some _, x :: _ => .ok (some x)
  | some _, [] => .error .stuck

/-- Go on behind code that ends in the usual way. -/
def andThen (k : Config V M → Except Stop (Flow V × Config V M)) :
    Flow V × Config V M → Except Stop (Flow V × Config V M)
  | (.next, c) => k c
  | (.branch depth, c) => .ok (.branch depth, c)
  | (.returned x, c) => .ok (.returned x, c)

/-- What happens behind a block around code with the given end; `below` are the operands under the
block. -/
def leaveBlock (below : List V) : Flow V × Config V M → Flow V × Config V M
  | (.next, c) => (.next, ⟨c.stack ++ below, c.locals, c.memory⟩)
  | (.branch 0, c) => (.next, ⟨below, c.locals, c.memory⟩)
  | (.branch (depth + 1), c) => (.branch depth, c)
  | (.returned x, c) => (.returned x, c)

/-- Run the body of a loop until it ends without a branch back, at most as often as the bound
says. -/
def repeatLoop (below : List V) (body : Config V M → Except Stop (Flow V × Config V M)) :
    Nat → Config V M → Except Stop (Flow V × Config V M)
  | 0, _ => .error .endless
  | bound + 1, c => do
    match ← body ⟨[], c.locals, c.memory⟩ with
    | (.branch 0, c) => repeatLoop below body bound c
    | (.next, c) => return (.next, ⟨c.stack ++ below, c.locals, c.memory⟩)
    | (.branch (depth + 1), c) => return (.branch depth, c)
    | (.returned x, c) => return (.returned x, c)

namespace Instr

mutual

def exec (P : Primitives V M) (b : BodyContext) (bound : Nat) :
    Instr → Config V M → Except Stop (Flow V × Config V M)
  | const t digits, ⟨stack, locals, memory⟩ =>
    .ok (.next, ⟨P.const t digits :: stack, locals, memory⟩)
  | localGet slot, ⟨stack, locals, memory⟩ =>
    match locals[slot]? with
    | some x => .ok (.next, ⟨x :: stack, locals, memory⟩)
    | none => .error .stuck
  | localSet slot, ⟨x :: stack, locals, memory⟩ =>
    if slot < locals.length then .ok (.next, ⟨stack, locals.set slot x, memory⟩)
    else .error .stuck
  | numeric t op sign, ⟨y :: x :: stack, locals, memory⟩ => do
    let z ← orTrap (P.numeric t op sign x y)
    return (.next, ⟨z :: stack, locals, memory⟩)
  | convert target op source sign, ⟨x :: stack, locals, memory⟩ => do
    let y ← orTrap (P.convert target op source sign x)
    return (.next, ⟨y :: stack, locals, memory⟩)
  | eqz t, ⟨x :: stack, locals, memory⟩ => .ok (.next, ⟨P.eqz t x :: stack, locals, memory⟩)
  | load t, ⟨address :: stack, locals, memory⟩ => do
    let x ← orTrap (P.load t address memory)
    return (.next, ⟨x :: stack, locals, memory⟩)
  | store t, ⟨x :: address :: stack, locals, memory⟩ => do
    let memory ← orTrap (P.store t address x memory)
    return (.next, ⟨stack, locals, memory⟩)
  | call name, ⟨stack, locals, memory⟩ =>
    match b.callee? name with
    | some type =>
      if type.params.length ≤ stack.length then do
        let (x, memory) ← P.call name (stack.take type.params.length).reverse memory
        let rest := stack.drop type.params.length
        return (.next, ⟨if type.result.isSome then x :: rest else rest, locals, memory⟩)
      else .error .stuck
    | none => .error .stuck
  | br depth, c => .ok (.branch depth, c)
  | brIf depth, ⟨x :: stack, locals, memory⟩ =>
    .ok (if P.isZero x then .next else .branch depth, ⟨stack, locals, memory⟩)
  | drop, ⟨_ :: stack, locals, memory⟩ => .ok (.next, ⟨stack, locals, memory⟩)
  | ret, c => do
    let x ← takeResult b.result c.stack
    return (.returned x, c)
  | block body, c => do
    let r ← execAll P b bound body ⟨[], c.locals, c.memory⟩
    return leaveBlock c.stack r
  | loop body, c => repeatLoop c.stack (fun c => execAll P b bound body c) bound c
  | _, _ => .error .stuck

/-- Run instructions in order, up to the first that branches or returns. -/
def execAll (P : Primitives V M) (b : BodyContext) (bound : Nat) :
    List Instr → Config V M → Except Stop (Flow V × Config V M)
  | [], c => .ok (.next, c)
  | i :: rest, c => do
    let r ← exec P b bound i c
    andThen (fun c => execAll P b bound rest c) r

end

variable {P : Primitives V M} {b : BodyContext} {bound : Nat}

@[simp] theorem execAll_nil (c : Config V M) : execAll P b bound [] c = .ok (.next, c) := by
  simp only [execAll]

theorem execAll_cons (i : Instr) (rest : List Instr) (c : Config V M) :
    execAll P b bound (i :: rest) c =
      exec P b bound i c >>= andThen (execAll P b bound rest) := by
  simp only [execAll]

theorem execAll_append (xs ys : List Instr) (c : Config V M) :
    execAll P b bound (xs ++ ys) c =
      execAll P b bound xs c >>= andThen (execAll P b bound ys) := by
  induction xs generalizing c with
  | nil =>
      simp only [List.nil_append, execAll_nil]
      rfl
  | cons i xs ih =>
      rw [List.cons_append, execAll_cons, execAll_cons, bind_assoc]
      congr 1
      funext ⟨flow, c⟩
      cases flow with
      | next => exact ih c
      | branch depth => rfl
      | returned x => rfl

end Instr

/-- Run a function: the value it returns, if any, and the memory it leaves. The locals are the
arguments and then zeros. A body that ends returns as well. -/
def Func.run (P : Primitives V M) (m : Module) (f : Func) (args : List V) (memory : M)
    (bound : Nat) : Except Stop (Option V × M) := do
  let (flow, c) ←
    Instr.execAll P (f.context m) bound f.body ⟨[], args ++ f.locals.map P.zero, memory⟩
  match flow with
  | .returned x => return (x, c.memory)
  | .next | .branch 0 =>
    let x ← takeResult f.type.result c.stack
    return (x, c.memory)
  | .branch (_ + 1) => .error .stuck

/-- Run a function from the given values of all its locals. -/
def Func.runFrom (P : Primitives V M) (m : Module) (f : Func) (locals : List V) (memory : M)
    (bound : Nat) : Except Stop (Option V × M) := do
  let (flow, c) ← Instr.execAll P (f.context m) bound f.body ⟨[], locals, memory⟩
  match flow with
  | .returned x => return (x, c.memory)
  | .next | .branch 0 =>
    let x ← takeResult f.type.result c.stack
    return (x, c.memory)
  | .branch (_ + 1) => .error .stuck

theorem Func.run_eq (P : Primitives V M) (m : Module) (f : Func) (args : List V) (memory : M)
    (bound : Nat) :
    f.run P m args memory bound = f.runFrom P m (args ++ f.locals.map P.zero) memory bound :=
  rfl

end Wattle.Wasm
