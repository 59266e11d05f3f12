import Wattle.Wasm.Instr

/-!
# What the machine computes

Programs and stack code are run on the same primitive operations: constants, operations on numbers,
conversions, loads and stores, and calls of other functions. What values and memories are, and what
the operations do to them, is left open.
-/

namespace Wattle

/-- Why a run gives no result. -/
inductive Stop where
  | trap
  /-- A loop takes more rounds than it may, or a callee does not come back. -/
  | endless
  /-- There is no rule for what comes next. -/
  | stuck
deriving DecidableEq

/-- A primitive operation that has no result traps. -/
def orTrap {α : Type} : Option α → Except Stop α
  | some a => .ok a
  | none => .error .trap

open Wasm

/-- The primitive operations on values `V` and memories `M`. -/
structure Primitives (V M : Type) where
  const : ValueType → String → V
  /-- What a local holds before it is set. -/
  zero : ValueType → V
  numeric : ValueType → NumOp → Option Sign → V → V → Option V
  /-- Conversions; the type of the result comes first. -/
  convert : ValueType → ConvOp → ValueType → Option Sign → V → Option V
  eqz : ValueType → V → V
  /-- Whether a value of type `i32` is zero. -/
  isZero : V → Bool
  load : ValueType → V → M → Option V
  /-- Stores; the address comes before the value. -/
  store : ValueType → V → V → M → Option M
  /-- Calls by name. Nobody looks at the value of a function that gives none. -/
  call : String → List V → M → Except Stop (V × M)
  isZero_eqz : ∀ x, isZero (eqz .i32 x) = !isZero x
  call_ne_stuck : ∀ name args memory, call name args memory ≠ .error .stuck

end Wattle
