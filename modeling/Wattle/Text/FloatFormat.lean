import Wattle.Text.Decimal

/-!
# Floating values

The values of a binary floating format are the multiples of a power of two that depends on their
size. A number is rounded to the nearest of them, and to the even multiple if two are equally near.
Rounding goes on as if there were no largest value; a result that is too large is infinite.
-/

namespace Wattle

/-- `numerator / denominator` as the nearest natural number; of two, the even one. -/
def nearestQuotient (numerator denominator : Nat) : Nat :=
  let down := numerator / denominator
  let rest := numerator % denominator
  if 2 * rest < denominator ∨ 2 * rest = denominator ∧ down % 2 = 0 then down else down + 1

/-- The exponent of the largest power of two that is not above `numerator / denominator`. -/
def quotientLog (numerator denominator : Nat) : Int :=
  let near : Int := numerator.log2 - denominator.log2
  if denominator * Text.twoTo near.toNat ≤ numerator * Text.twoTo (-near).toNat then near
  else near - 1

/-- A format of floating values: how many binary digits a value has, the exponent of the least
positive value, and the exponent of the power of two that is above all finite values. -/
structure FloatFormat where
  precision : Nat
  least : Int
  top : Int
  precision_pos : 0 < precision
  least_le : least + precision ≤ top

/-- What a number is rounded to: `mantissa * 2 ^ exponent`, or infinity. -/
inductive Rounded where
  | finite (mantissa : Nat) (exponent : Int)
  | infinite
deriving DecidableEq

def Rounded.isFinite : Rounded → Bool
  | finite _ _ => true
  | infinite => false

namespace FloatFormat

/-- The format of 32 bits. -/
def single : FloatFormat :=
  ⟨24, -149, 128, by decide, by decide⟩

/-- The format of 64 bits. -/
def double : FloatFormat :=
  ⟨53, -1074, 1024, by decide, by decide⟩

variable (f : FloatFormat)

/-- The exponent of the distance between the values of the size of `numerator / denominator`. -/
def unit (numerator denominator : Nat) : Int :=
  max (quotientLog numerator denominator + 1 - f.precision) f.least

/-- The value nearest to `numerator / denominator`. -/
def round (numerator denominator : Nat) : Rounded :=
  let exponent := f.unit numerator denominator
  let mantissa := nearestQuotient (numerator * Text.twoTo (-exponent).toNat)
    (denominator * Text.twoTo exponent.toNat)
  if mantissa < Text.twoTo (f.top - exponent).toNat then .finite mantissa exponent else .infinite

/-- The value of the format that an unsigned decimal number is read as. -/
def read (text : List Char) : Option Rounded :=
  (Text.readDecimal text).map fun (digits, decimals) => f.round digits (Text.tenTo decimals)

end FloatFormat

end Wattle
