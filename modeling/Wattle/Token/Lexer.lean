import Wattle.Source.Lines
import Wattle.Text.Blank
import Wattle.Token.Mark
import Wattle.Token.Word

/-!
# From text to tokens

A source text is read line by line. Two slashes cut the rest of their line off. What remains is
divided into blanks, marks and words: going from left to right, a blank or the longest mark is
taken wherever one stands, and the characters between them make up the words. Reading stops at
the first word that is no token.
-/

namespace Wattle

/-- A word that is no token, and where it starts. -/
structure LexError where
  location : Location
  fault : WordFault
deriving DecidableEq

namespace Lexer

def cutComment : List Char → List Char
  | [] => []
  | '/' :: '/' :: _ => []
  | c :: rest => c :: cutComment rest

/-- A piece of a line that makes a token, with the index of its first character. -/
inductive Piece where
  | word (start : Nat) (text : List Char)
  | mark (start : Nat) (mark : Mark)
deriving DecidableEq

/-- Put `c`, which stands at `index`, in front of the pieces that follow it. It joins a word that
starts at the next index, and otherwise is a word by itself. -/
def prependChar (index : Nat) (c : Char) : List Piece → List Piece
  | .word next text :: others =>
    if next = index + 1 then .word index (c :: text) :: others
    else .word index [c] :: .word next text :: others
  | others => .word index [c] :: others

/-- The pieces of a line without comment whose first character has the given index. -/
def pieces (index : Nat) : List Char → List Piece
  | [] => []
  | [c] =>
    if Text.isBlank c then []
    else match Mark.longest? [c] with
      | some m => [.mark index m]
      | none => [.word index [c]]
  | c :: d :: rest =>
    if Text.isBlank c then pieces (index + 1) (d :: rest)
    else match Mark.longest? (c :: d :: rest) with
      | some m =>
        .mark index m ::
          if m.spelling.length = 2 then pieces (index + 2) rest
          else pieces (index + 1) (d :: rest)
      | none => prependChar index c (pieces (index + 1) (d :: rest))

/-- The token that a piece of line `line` makes. -/
def tokenOf (line : UInt32) : Piece → Except LexError Token
  | .mark start m => .ok ⟨m.kind, .ofIndices line start (start + m.spelling.length)⟩
  | .word start text =>
    let span := Span.ofIndices line start (start + text.length)
    match Word.classify text with
    | .ok kind => .ok ⟨kind, span⟩
    | .error fault => .error ⟨span.start, fault⟩

def lexLine (line : UInt32) (row : List Char) : Except LexError (List Token) :=
  (pieces 0 (cutComment row)).mapM (tokenOf line)

/-- The tokens of consecutive lines, the first of which has the given index. -/
def lexLines (index : Nat) : List (List Char) → Except LexError (List Token)
  | [] => .ok []
  | row :: rows => do
    let here ← lexLine (ordinal index) row
    let below ← lexLines (index + 1) rows
    return here ++ below

/-- Where a text ends: behind the last character of its last line, comment included. -/
def endOf (rows : List (List Char)) : Location :=
  match rows.getLast? with
  | none => ⟨1, 1⟩
  | some row => ⟨ordinal (rows.length - 1), ordinal row.length⟩

end Lexer

/-- The tokens of a source text; the last one marks its end. -/
def tokenize (source : String) : Except LexError (List Token) := do
  let rows := lines source.toList
  let tokens ← Lexer.lexLines 0 rows
  return tokens ++ [.endAt (Lexer.endOf rows)]

end Wattle
