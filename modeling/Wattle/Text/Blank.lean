import Wattle.Text.CodeRange

/-!
# Blank characters

The characters that separate words and mean nothing else (Unicode property White_Space).
-/

namespace Wattle.Text

/-- The blank characters: tab to carriage return, space, next line, and the wider spaces. -/
def blanks : List CodeRange := [
  ⟨0x9, 0xd⟩, ⟨0x20, 0x20⟩, ⟨0x85, 0x85⟩, ⟨0xa0, 0xa0⟩, ⟨0x1680, 0x1680⟩, ⟨0x2000, 0x200a⟩,
  ⟨0x2028, 0x2029⟩, ⟨0x202f, 0x202f⟩, ⟨0x205f, 0x205f⟩, ⟨0x3000, 0x3000⟩]

def isBlank (c : Char) : Bool :=
  inTable blanks c

end Wattle.Text
