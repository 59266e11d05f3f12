import Wattle.Lower.Expr
import Wattle.Lower.Slots

/-!
# Code for statements

Control flow becomes blocks that are left early. A condition is followed by a branch out of the
enclosing block when it is zero:

* `if` alone is one block: test, body;
* `if` with other arms is an outer block with one block per arm: test, body, and a branch out of
  the outer block; the `else` body comes last;
* `while` is a loop around a block: test, body, and a branch back to the loop.
-/

namespace Wattle.Lower

open Wasm

/-- The production of code, which reads and extends the scope. -/
abbrev Emitter := EStateM LowerError (Scope Nat)

/-- The code of an expression in the scope at this point. -/
def exprHere (e : Expr TypedNode) : Emitter (List Instr) :=
  Scope.asking fun scope => expr scope e

/-- Leave the enclosing block if the condition is zero. -/
def exitUnless (condition : Expr TypedNode) : Emitter (List Instr) :=
  return (← exprHere condition) ++ [.eqz .i32, .brIf 0]

/-- The code of a conditional from the code of its arms and of its `else` body. -/
def joinArms (arms : List (List Instr)) (otherwise : Option (List Instr)) : Instr :=
  match arms, otherwise with
  | [arm], none => .block arm
  | _, _ => .block (arms.map (fun arm => .block (arm ++ [.br 1])) ++ otherwise.getD [])

def returned : Option (Expr TypedNode) → Emitter (List Instr)
  | none => return [.ret]
  | some value => return (← exprHere value) ++ [.ret]

mutual

def stmt (slots : SlotTable) : Stmt TypedNode → Emitter (List Instr)
  | .cond _ branches otherwise => do
    let branches ← arms slots branches
    return [joinArms branches (← elseBody slots otherwise)]
  | .loop _ condition body => do
    let test ← exitUnless condition
    let code ← Scope.within (stmts slots body)
    return [.loop [.block (test ++ code ++ [.br 1])]]
  | .ret _ value => returned value
  | .declare node _ name _ initial => do
    let code ← exprHere initial
    let slot ← ofExcept (slots.slotFor node.id)
    Scope.bind name slot
    return code ++ [.localSet slot]
  | .expr _ value => do
    let code ← exprHere value
    return if value.hasValue then code ++ [.drop] else code

def stmts (slots : SlotTable) : List (Stmt TypedNode) → Emitter (List Instr)
  | [] => return []
  | s :: rest => do
    let first ← stmt slots s
    return first ++ (← stmts slots rest)

def arm (slots : SlotTable) : Arm TypedNode → Emitter (List Instr)
  | ⟨condition, body, _⟩ => do
    let test ← exitUnless condition
    return test ++ (← Scope.within (stmts slots body))

def arms (slots : SlotTable) : List (Arm TypedNode) → Emitter (List (List Instr))
  | [] => return []
  | a :: rest => do
    let first ← arm slots a
    return first :: (← arms slots rest)

def elseBody (slots : SlotTable) :
    Option (List (Stmt TypedNode)) → Emitter (Option (List Instr))
  | none => return none
  | some body => return some (← Scope.within (stmts slots body))

end

end Wattle.Lower
