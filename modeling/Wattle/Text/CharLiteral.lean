import Wattle.Text.Extending
import Wattle.Text.Ignorable
import Wattle.Text.Printable

/-!
# Characters in messages

A message shows a character between single quotes. Characters that would be invisible, or that
would merge with the quote, are written as escapes.
-/

namespace Wattle.Text

/-- A code point in braces, in lower-case hexadecimal without leading zeros. -/
def codePointEscape (c : Char) : String :=
  "\\u\x7b" ++ String.ofList (Nat.toDigits 16 c.toNat) ++ "\x7d"

/-- Whether `c` is seen when it is written by itself: it has a glyph of its own, does not merge
with what stands to its left, and is not left out. -/
def isVisible (c : Char) : Bool :=
  isPrintable c && !isExtending c && !isIgnorable c

/-- The text that stands for `c` between single quotes. -/
def charEscape (c : Char) : String :=
  match c with
  | '\x00' => "\\0"
  | '\t' => "\\t"
  | '\r' => "\\r"
  | '\n' => "\\n"
  | '\'' => "\\'"
  | '\\' => "\\\\"
  | _ => if isVisible c then c.toString else codePointEscape c

def charLiteral (c : Char) : String :=
  "'" ++ charEscape c ++ "'"

end Wattle.Text
