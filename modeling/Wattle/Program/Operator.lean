import Wattle.Token.Basic

/-!
# Operators of expressions

An operator mark means a binary operation, a unary one, or either: a minus sign stands for both.
-/

namespace Wattle

/-- Operations on two operands. Assignment is one of them. -/
inductive BinaryOp where
  | add | sub | mul | div | rem
  | bitAnd | bitOr | bitXor | leftShift | rightShift
  | equal | notEqual | less | greater | lessEqual | greaterEqual
  | assign
deriving DecidableEq

namespace BinaryOp

/-- What an operator mark means between two operands. -/
def ofOperator? : Operator → Option BinaryOp
  | .equal => some assign
  | .equalEqual => some equal
  | .bangEqual => some notEqual
  | .less => some less
  | .lessEqual => some lessEqual
  | .greater => some greater
  | .greaterEqual => some greaterEqual
  | .plus => some add
  | .minus => some sub
  | .star => some mul
  | .slash => some div
  | .percent => some rem
  | .ampersand => some bitAnd
  | .pipe => some bitOr
  | .caret => some bitXor
  | .leftShift => some leftShift
  | .rightShift => some rightShift
  | .bang | .atSign => none

def operator : BinaryOp → Operator
  | add => .plus
  | sub => .minus
  | mul => .star
  | div => .slash
  | rem => .percent
  | bitAnd => .ampersand
  | bitOr => .pipe
  | bitXor => .caret
  | leftShift => .leftShift
  | rightShift => .rightShift
  | equal => .equalEqual
  | notEqual => .bangEqual
  | less => .less
  | greater => .greater
  | lessEqual => .lessEqual
  | greaterEqual => .greaterEqual
  | assign => .equal

instance : ToString BinaryOp := ⟨fun op => op.operator.spelling⟩

/-- Whether the operation compares; a comparison yields an `i32`. -/
def isComparison : BinaryOp → Bool
  | equal | notEqual | less | greater | lessEqual | greaterEqual => true
  | _ => false

def requiresInteger : BinaryOp → Bool
  | rem | bitAnd | bitOr | bitXor | leftShift | rightShift => true
  | _ => false

/-- The levels of binding, the loosest first. Operators of one level associate to the left. -/
def levels : List (List BinaryOp) := [
  [assign],
  [less, lessEqual, greater, greaterEqual],
  [equal, notEqual],
  [bitAnd, bitOr, bitXor],
  [leftShift, rightShift],
  [add, sub],
  [mul, div, rem]]

theorem ofOperator?_operator (op : BinaryOp) : ofOperator? op.operator = some op := by
  cases op <;> rfl

theorem operator_of_ofOperator? {mark : Operator} {op : BinaryOp}
    (h : ofOperator? mark = some op) : op.operator = mark := by
  cases mark <;> simp [ofOperator?] at h <;> subst h <;> rfl

theorem operator_injective {op op' : BinaryOp} (h : op.operator = op'.operator) : op = op' := by
  have hsome := ofOperator?_operator op
  rw [h, ofOperator?_operator] at hsome
  exact (Option.some.inj hsome).symm

end BinaryOp

/-- Operations on one operand. -/
inductive UnaryOp where
  | negate
  /-- Read through a pointer. -/
  | deref
  | logicalNot
deriving DecidableEq

namespace UnaryOp

/-- What an operator mark means in front of an operand. -/
def ofOperator? : Operator → Option UnaryOp
  | .minus => some negate
  | .atSign => some deref
  | .bang => some logicalNot
  | _ => none

def operator : UnaryOp → Operator
  | negate => .minus
  | deref => .atSign
  | logicalNot => .bang

instance : ToString UnaryOp := ⟨fun op => op.operator.spelling⟩

theorem ofOperator?_operator (op : UnaryOp) : ofOperator? op.operator = some op := by
  cases op <;> rfl

theorem operator_of_ofOperator? {mark : Operator} {op : UnaryOp}
    (h : ofOperator? mark = some op) : op.operator = mark := by
  cases mark <;> simp [ofOperator?] at h <;> subst h <;> rfl

theorem operator_injective {op op' : UnaryOp} (h : op.operator = op'.operator) : op = op' := by
  have hsome := ofOperator?_operator op
  rw [h, ofOperator?_operator] at hsome
  exact (Option.some.inj hsome).symm

end UnaryOp

end Wattle
