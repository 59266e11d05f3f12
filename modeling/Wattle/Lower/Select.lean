import Wattle.Lower.Error
import Wattle.Wasm.Instr

/-!
# Choice of instructions

Which instruction carries out an operation depends on the width of its operands and, for some
operations, on whether they are read with a sign. Pointers are read without one.
-/

namespace Wattle.Lower

open Wasm

def valueType (type : Ty) : Except LowerError ValueType :=
  match ValueType.ofTy? type with
  | some value => .ok value
  | none => .error (.voidValue .valueType)

/-- How values of a type are read; floating values have their sign inside. -/
def signOf : Ty → Option Sign
  | .pointer _ => some .unsigned
  | .base b => if b.isFloat then none else if b.isSigned then some .signed else some .unsigned

/-- The machine operation of an operator, and whether it depends on the sign. -/
def numOp? : BinaryOp → Option (NumOp × Bool)
  | .add => some (.add, false)
  | .sub => some (.sub, false)
  | .mul => some (.mul, false)
  | .div => some (.div, true)
  | .rem => some (.rem, true)
  | .bitAnd => some (.and, false)
  | .bitOr => some (.or, false)
  | .bitXor => some (.xor, false)
  | .leftShift => some (.shl, false)
  | .rightShift => some (.shr, true)
  | .equal => some (.eq, false)
  | .notEqual => some (.ne, false)
  | .less => some (.lt, true)
  | .greater => some (.gt, true)
  | .lessEqual => some (.le, true)
  | .greaterEqual => some (.ge, true)
  | .assign => none

/-- The instruction for an operator on two operands of the given type. -/
def binaryInstr (op : BinaryOp) (type : Ty) : Except LowerError Instr := do
  let value ← valueType type
  match numOp? op with
  | none => .error (.unsupportedOperator op type)
  | some (num, signed) =>
    if value.isFloat && op.requiresInteger then .error (.unsupportedOperator op type)
    else return .numeric value num (if signed then signOf type else none)

/-- The instruction that converts between named types, if both have values: none is needed within
one machine type. -/
def baseConversion (source target : BaseType) : Except LowerError (Option Instr) :=
  match ValueType.ofBase? source, ValueType.ofBase? target with
  | some s, some t =>
    if s = t then .ok none
    else
      let instr (op : ConvOp) (sign : Option Sign) := Instr.convert t op s sign
      match s, t with
      | .i32, .i64 => .ok (instr .extend (signOf (.base source)))
      | .i64, .i32 => .ok (instr .wrap none)
      | .f32, .f64 => .ok (instr .promote none)
      | .f64, .f32 => .ok (instr .demote none)
      | _, _ =>
        if t.isFloat then .ok (instr .convert (signOf (.base source)))
        else .ok (instr .trunc (signOf (.base target)))
  | _, _ => .error (.noConversion (.base source) (.base target))

/-- The instruction that converts from one type to another. Pointers and 32-bit integers are the
same to the machine, and nothing else converts to or from a pointer. -/
def conversion (source target : Ty) : Except LowerError (Option Instr) :=
  match source, target with
  | .pointer _, .pointer _ => .ok none
  | .pointer _, .base b | .base b, .pointer _ =>
    if b = .i32 ∨ b = .u32 then .ok none else .error (.noConversion source target)
  | .base s, .base t => baseConversion s t

def pageSize : Nat := 65536

/-- The number of pages that hold the given number of bytes. -/
def pagesFor (bytes : UInt32) : Nat :=
  (bytes.toNat + (pageSize - 1)) / pageSize

end Wattle.Lower
