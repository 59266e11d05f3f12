import Wattle.Text.CharLiteral
import Wattle.Text.FloatFormat
import Wattle.Token.Basic

/-!
# Words

A word is the text between two separators. A word that starts with a digit is a number; any other
is a keyword, the name of a type or an identifier.

A number is a run of digits, possibly a point and more digits, and suffixes: `u` for unsigned and
`l` for 64 bits. It is read character by character. The point makes it floating, and there is no
unsigned floating type. A number must fit its type; the 32-bit and 64-bit integer types take the
whole unsigned range.
-/

namespace Wattle

/-- Why a word is no token. -/
inductive WordFault where
  | malformedNumber (word : String)
  | invalidCharacter (character : Char) (word : String)
deriving DecidableEq

def WordFault.message : WordFault → String
  | malformedNumber word => s!"Malformed numeric literal: {word}"
  | invalidCharacter character word =>
    s!"Invalid character {Text.charLiteral character} in identifier '{word}'"

namespace Number

open Text

/-- What has been read of a number: the digits before the point and, behind a point, those after
it, and which suffixes. -/
structure Reading where
  whole : List Char
  fraction : Option (List Char)
  isUnsigned : Bool
  isLong : Bool

namespace Reading

def start : Reading :=
  ⟨[], none, false, false⟩

/-- Read one more character. Behind a suffix, neither a digit nor a point follows. -/
def step (r : Reading) (c : Char) : Option Reading :=
  if c.isDigit then
    if r.isUnsigned || r.isLong then none
    else match r.fraction with
      | some digits => some { r with fraction := some (digits ++ [c]) }
      | none => some { r with whole := r.whole ++ [c] }
  else if c = '.' then
    if r.isUnsigned || r.isLong || r.fraction.isSome then none
    else some { r with fraction := some [] }
  else if c = 'u' then
    if r.isUnsigned then none else some { r with isUnsigned := true }
  else if c = 'l' then
    if r.isLong then none else some { r with isLong := true }
  else none

/-- The type that the point and the suffixes select. -/
def type? (r : Reading) : Option BaseType :=
  match r.fraction.isSome, r.isLong, r.isUnsigned with
  | true, _, true => none
  | false, false, false => some .i32
  | false, false, true => some .u32
  | false, true, false => some .i64
  | false, true, true => some .u64
  | true, false, false => some .f32
  | true, true, false => some .f64

/-- The text of the number: its digits, with the point only if digits follow it. -/
def text (r : Reading) : List Char :=
  match r.fraction with
  | none | some [] => r.whole
  | some digits => r.whole ++ '.' :: digits

end Reading

def scan (word : List Char) : Option Reading :=
  word.foldlM Reading.step .start

/-- Whether the text of a number has a value of the type. A floating value must be finite. -/
def fits (text : List Char) : BaseType → Bool
  | .i32 | .u32 => (readBelow (twoTo 32) text).isSome
  | .i64 | .u64 => (readBelow (twoTo 64) text).isSome
  | .f32 => (FloatFormat.single.read text).any Rounded.isFinite
  | .f64 => (FloatFormat.double.read text).any Rounded.isFinite
  | .void => false

def read? (word : List Char) : Option (String × BaseType) := do
  let r ← scan word
  let type ← r.type?
  guard (fits r.text type)
  return (String.ofList r.text, type)

end Number

namespace Word

def isNameChar (c : Char) : Bool :=
  c.isAlphanum || c = '_'

def classify (word : List Char) : Except WordFault TokenKind :=
  let text := String.ofList word
  if (word.head?.map Char.isDigit).getD false then
    match Number.read? word with
    | some (digits, type) => .ok (.number digits type)
    | none => .error (.malformedNumber text)
  else
    match Keyword.ofWord? text, BaseType.ofName? text with
    | some k, _ => .ok (.keyword k)
    | none, some b => .ok (.base b)
    | none, none =>
      match word.find? (!isNameChar ·) with
      | some c => .error (.invalidCharacter c text)
      | none => .ok (.identifier text)

end Word

end Wattle
