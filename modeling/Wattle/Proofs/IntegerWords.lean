import Mathlib.Data.Int.ModEq
import Wattle.Proofs.Meaning

/-!
# Integers as bit patterns

The machine computes on bit patterns of 32 or 64 bits. A pattern stands for a number in two ways,
in two's complement or without a sign, and an instruction that depends on the difference says which
of them it means. What such an instruction does is stated on patterns; a type of the language says
how its patterns are read.
-/

namespace Wattle

namespace Wasm

/-- A bit pattern on the operand stack. -/
inductive Word where
  | i32 (bits : BitVec 32)
  | i64 (bits : BitVec 64)
deriving DecidableEq

namespace Word

def type : Word → ValueType
  | i32 _ => .i32
  | i64 _ => .i64

def width : Word → Nat
  | i32 _ => 32
  | i64 _ => 64

/-- The result of a comparison. -/
def ofBool (holds : Bool) : Word :=
  i32 (if holds then 1 else 0)

end Word

/-- The number that a bit pattern stands for. -/
def Sign.read {w : Nat} : Sign → BitVec w → Int
  | signed, x => x.toInt
  | unsigned, x => x.toNat

/-- What an instruction does with two patterns of one width, which `word` makes words of. Division
traps on a divisor of zero, and with a sign also on the one quotient that has no pattern. Shifts
look at as much of the amount as there are places in a pattern. -/
def NumOp.onBits {w : Nat} (word : BitVec w → Word) (x y : BitVec w) :
    NumOp → Option Sign → Except Stop Word
  | add, none => .ok (word (x + y))
  | sub, none => .ok (word (x - y))
  | mul, none => .ok (word (x * y))
  | div, some .signed =>
    if y = 0 ∨ x = BitVec.intMin w ∧ y = BitVec.allOnes w then .error .trap
    else .ok (word (x.sdiv y))
  | div, some .unsigned => if y = 0 then .error .trap else .ok (word (x.udiv y))
  | rem, some .signed => if y = 0 then .error .trap else .ok (word (x.srem y))
  | rem, some .unsigned => if y = 0 then .error .trap else .ok (word (x.umod y))
  | and, none => .ok (word (x &&& y))
  | or, none => .ok (word (x ||| y))
  | xor, none => .ok (word (x ^^^ y))
  | shl, none => .ok (word (x <<< (y.toNat % w)))
  | shr, some .signed => .ok (word (x.sshiftRight (y.toNat % w)))
  | shr, some .unsigned => .ok (word (x >>> (y.toNat % w)))
  | eq, none => .ok (.ofBool (x = y))
  | ne, none => .ok (.ofBool (x ≠ y))
  | lt, some .signed => .ok (.ofBool (x.slt y))
  | lt, some .unsigned => .ok (.ofBool (x.ult y))
  | gt, some .signed => .ok (.ofBool (y.slt x))
  | gt, some .unsigned => .ok (.ofBool (y.ult x))
  | le, some .signed => .ok (.ofBool (x.sle y))
  | le, some .unsigned => .ok (.ofBool (x.ule y))
  | ge, some .signed => .ok (.ofBool (y.sle x))
  | ge, some .unsigned => .ok (.ofBool (y.ule x))
  | _, _ => .error .stuck

/-- What an instruction does with the words on top of the stack, the newest of them first. Other
words than it takes, and instructions on other values, have no rule. -/
def Instr.onWords : Instr → List Word → Except Stop (List Word)
  | numeric .i32 op sign, .i32 y :: .i32 x :: stack =>
    (op.onBits .i32 x y sign).map (· :: stack)
  | numeric .i64 op sign, .i64 y :: .i64 x :: stack =>
    (op.onBits .i64 x y sign).map (· :: stack)
  | convert .i64 .extend .i32 (some .signed), .i32 x :: stack =>
    .ok (.i64 (x.signExtend 64) :: stack)
  | convert .i64 .extend .i32 (some .unsigned), .i32 x :: stack =>
    .ok (.i64 (x.setWidth 64) :: stack)
  | convert .i32 .wrap .i64 none, .i64 x :: stack => .ok (.i32 (x.setWidth 32) :: stack)
  | _, _ => .error .stuck

def Instr.allOnWords (code : List Instr) (stack : List Word) : Except Stop (List Word) :=
  code.foldlM (fun stack i => i.onWords stack) stack

end Wasm

open Wasm

namespace Ty

/-- The number that a word stands for in a type. Words of a type without a sign of its own are read
without one. -/
def read (t : Ty) : Word → Int
  | .i32 x => (t.sign?.getD .unsigned).read x
  | .i64 x => (t.sign?.getD .unsigned).read x

/-- The word is a bit pattern of the type. -/
def Admits (t : Ty) (x : Word) : Prop :=
  ValueType.ofTy? t = some x.type

/-- Code leaves one word of the type, which stands for the number, or both stop for one reason. -/
inductive Represents (t : Ty) : Except Stop (List Word) → Except Stop Int → Prop where
  | value {r : Word} (h : t.Admits r) : Represents t (.ok [r]) (.ok (t.read r))
  | stop (why : Stop) : Represents t (.error why) (.error why)

end Ty

end Wattle
