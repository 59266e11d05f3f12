/-!
# Decimal digits

Reading a run of ASCII digits as a natural number, or as a decimal number if a point stands among
them, and the powers that bound and scale such numbers.
-/

namespace Wattle.Text

/-- The value of a run of digits, the most significant first. -/
def decimalValue (digits : List Char) : Nat :=
  digits.foldl (fun value c => 10 * value + (c.toNat - '0'.toNat)) 0

def twoTo (exponent : Nat) : Nat :=
  Nat.pow 2 exponent

def tenTo (exponent : Nat) : Nat :=
  Nat.pow 10 exponent

/-- Read an unsigned number below `bound`: digits only, at least one, with an optional plus sign
in front. -/
def readBelow (bound : Nat) (text : List Char) : Option Nat :=
  let digits := match text with
    | '+' :: rest => rest
    | _ => text
  if digits ≠ [] ∧ digits.all Char.isDigit ∧ decimalValue digits < bound then
    some (decimalValue digits)
  else none

/-- Read an unsigned decimal number: digits, at least one, with at most one point among them. The
number is given by its digits without the point, and how many of them stand behind the point. -/
def readDecimal (text : List Char) : Option (Nat × Nat) :=
  let whole := text.takeWhile Char.isDigit
  match text.dropWhile Char.isDigit with
  | [] => if whole = [] then none else some (decimalValue whole, 0)
  | c :: decimals =>
    if c = '.' ∧ decimals.all Char.isDigit ∧ (whole ≠ [] ∨ decimals ≠ []) then
      some (decimalValue (whole ++ decimals), decimals.length)
    else none

end Wattle.Text
