import Wattle.Parse.Parser

/-!
# Reading types

A value type is a name behind any number of stars. `void` is the type of functions that give
nothing back, and stands nowhere else.
-/

namespace Wattle.Parser

/-- Read a value type of at most `bound` tokens. -/
def valueTypeWithin : Nat → Parser Ty
  | 0 => refuse .endless
  | bound + 1 => do
    match (← peek).kind with
    | .operator .star =>
      advance
      if ← next (.base .void) then refuse .pointerToVoid
      else return .pointer (← valueTypeWithin bound)
    | .base .void => refuse .misplacedVoid
    | .base b =>
      advance
      return .base b
    | _ => expecting .type

def valueType : Parser Ty := do
  valueTypeWithin (← budget)

/-- Read the type of a result: `void` or the type of a value. -/
def resultType : Parser Ty := do
  if ← next (.base .void) then
    advance
    return .void
  else valueType

end Wattle.Parser
