/-!
# Places in a source text

Lines and columns count from one, and columns count characters. Every token and every node of a
program remembers the stretch of text it was read from, so that an error can point at it. A place
keeps its line and its column in 32 bits: in a text with more lines, or with longer lines, counting
goes on at zero behind the largest number.
-/

namespace Wattle

/-- The number, counted from one, of the line or the character at an index. -/
def ordinal (index : Nat) : UInt32 :=
  .ofNat index + 1

/-- A place in a source text. -/
structure Location where
  line : UInt32
  column : UInt32
deriving DecidableEq

namespace Location

/-- A location as messages write it: line, colon, column. -/
def text (l : Location) : String :=
  s!"{l.line}:{l.column}"

instance : ToString Location := ⟨text⟩

/-- The same column, `count` lines further down. -/
def down (count : Nat) (l : Location) : Location :=
  ⟨l.line + .ofNat count, l.column⟩

end Location

/-- A stretch of source text; `stop` is the place just after its last character. -/
structure Span where
  start : Location
  stop : Location
deriving DecidableEq

namespace Span

def point (l : Location) : Span :=
  ⟨l, l⟩

def onLine (line startColumn stopColumn : UInt32) : Span :=
  ⟨⟨line, startColumn⟩, ⟨line, stopColumn⟩⟩

/-- The span of the characters of a line from the index `start` up to the index `stop`. -/
def ofIndices (line : UInt32) (start stop : Nat) : Span :=
  .onLine line (ordinal start) (ordinal stop)

/-- The span from the start of `a` through the end of `b`. -/
def through (a b : Span) : Span :=
  ⟨a.start, b.stop⟩

/-- A span as text. An empty span is written as a place, and one within a line names the line
once. -/
def text (s : Span) : String :=
  if s.start.line = s.stop.line then
    if s.start.column = s.stop.column then s.start.text
    else s!"{s.start}-{s.stop.column}"
  else s!"{s.start}-{s.stop}"

instance : ToString Span := ⟨text⟩

def down (count : Nat) (s : Span) : Span :=
  ⟨s.start.down count, s.stop.down count⟩

end Span

end Wattle
