import Wattle.Ty

/-!
# Types of the machine

The machine has two integer types without a sign and two floating types. Signed and unsigned
integers of one width share a machine type, and pointers are 32-bit addresses.
-/

namespace Wattle.Wasm

/-- The type of a value on the operand stack. -/
inductive ValueType where
  | i32 | i64 | f32 | f64
deriving DecidableEq

namespace ValueType

def name : ValueType → String
  | i32 => "i32"
  | i64 => "i64"
  | f32 => "f32"
  | f64 => "f64"

instance : ToString ValueType := ⟨name⟩

def isFloat : ValueType → Bool
  | f32 | f64 => true
  | i32 | i64 => false

/-- The machine type of a named type; `void` has none. -/
def ofBase? : BaseType → Option ValueType
  | .i32 | .u32 => some i32
  | .i64 | .u64 => some i64
  | .f32 => some f32
  | .f64 => some f64
  | .void => none

/-- The machine type of a type; `void` has none. -/
def ofTy? : Ty → Option ValueType
  | .base b => ofBase? b
  | .pointer _ => some i32

end ValueType

end Wattle.Wasm
