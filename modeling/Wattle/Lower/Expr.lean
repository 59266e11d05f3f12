import Wattle.Lower.Select
import Wattle.Program.Expr
import Wattle.Scope

/-!
# Code for expressions

An expression becomes stack code: the code of its operands, from left to right, and then one
instruction. Names stand for slots, as the scope says.
-/

namespace Wattle.Lower

open Wasm

def slotOf (scope : Scope Nat) (name : String) : Except LowerError Nat :=
  match scope.lookup? name with
  | some slot => .ok slot
  | none => .error (.unboundName name)

mutual

def expr (scope : Scope Nat) : Expr TypedNode → Except LowerError (List Instr)
  | .name _ id => return [.localGet (← slotOf scope id)]
  | .number _ digits type =>
    match ValueType.ofBase? type with
    | some value => .ok [.const value digits]
    | none => .error (.voidValue (.literal digits))
  | .call _ callee args => return (← exprs scope args) ++ [.call callee]
  | .unary note op operand =>
    match op with
    | .negate => do
      let value ← valueType note.type
      let code ← expr scope operand
      let sub ← binaryInstr .sub note.type
      return .const value "0" :: code ++ [sub]
    | .deref => do
      let code ← expr scope operand
      return code ++ [.load (← valueType note.type)]
    | .logicalNot => return (← expr scope operand) ++ [.eqz .i32]
  | .binary _ op left right =>
    if op = .assign then
      match left with
      | .name _ id => do
        let slot ← slotOf scope id
        return (← expr scope right) ++ [.localSet slot]
      | .unary note .deref address => do
        let place ← expr scope address
        let value ← expr scope right
        return place ++ value ++ [.store (← valueType note.type)]
      | _ => .error .invalidTarget
    else do
      let first ← expr scope left
      let second ← expr scope right
      return first ++ second ++ [← binaryInstr op left.type]
  | .paren _ inner => expr scope inner
  | .cast _ operand target => do
    let code ← expr scope operand
    return code ++ (← conversion operand.type target).toList

/-- The code that evaluates expressions from left to right. -/
def exprs (scope : Scope Nat) : List (Expr TypedNode) → Except LowerError (List Instr)
  | [] => .ok []
  | e :: rest => return (← expr scope e) ++ (← exprs scope rest)

end

end Wattle.Lower
