/-!
# Types of the language

A type is one of the named types or a pointer to another type. Two types match only if they are
equal; nothing converts implicitly.
-/

namespace Wattle

/-- The types with a name of their own. `void` is the absence of a value. -/
inductive BaseType where
  | i32 | u32 | i64 | u64 | f32 | f64 | void
deriving DecidableEq

namespace BaseType

def all : List BaseType :=
  [i32, u32, i64, u64, f32, f64, void]

def name : BaseType → String
  | i32 => "i32"
  | u32 => "u32"
  | i64 => "i64"
  | u64 => "u64"
  | f32 => "f32"
  | f64 => "f64"
  | void => "void"

instance : ToString BaseType := ⟨name⟩

/-- The named type that a word is. -/
def ofName? : String → Option BaseType
  | "i32" => some i32
  | "u32" => some u32
  | "i64" => some i64
  | "u64" => some u64
  | "f32" => some f32
  | "f64" => some f64
  | "void" => some void
  | _ => none

/-- Whether the type is one of the four integer types. -/
def isInteger : BaseType → Bool
  | i32 | u32 | i64 | u64 => true
  | _ => false

def isFloat : BaseType → Bool
  | f32 | f64 => true
  | _ => false

/-- Whether the type is an integer type read in two's complement. -/
def isSigned : BaseType → Bool
  | i32 | i64 => true
  | _ => false

/-- A word is the type that has it for a name. -/
theorem ofName?_eq_some {word : String} {b : BaseType} :
    ofName? word = some b ↔ b.name = word := by
  constructor
  · intro h
    unfold ofName? at h
    split at h <;> cases h <;> rfl
  · rintro rfl
    cases b <;> rfl

end BaseType

/-- A named type or a pointer to a type. -/
inductive Ty where
  | base (name : BaseType)
  | pointer (target : Ty)
deriving DecidableEq

namespace Ty

/-- The type of conditions and comparisons. -/
abbrev i32 : Ty := base .i32

/-- The type of what yields no value. -/
abbrev void : Ty := base .void

/-- A type in source spelling: a star for each pointer, then the name. -/
def text : Ty → String
  | base b => b.name
  | pointer t => "*" ++ t.text

instance : ToString Ty := ⟨text⟩

/-- Whether values of the type do not exist. -/
def isVoid (t : Ty) : Bool :=
  t = void

/-- Whether the type is a named integer type; pointers are not. -/
def isInteger : Ty → Bool
  | base b => b.isInteger
  | pointer _ => false

def pointee? : Ty → Option Ty
  | base _ => none
  | pointer t => some t

end Ty

end Wattle
