import Wattle.Source.Location
import Wattle.Ty

/-!
# Tokens

The words and marks of a source text: punctuation, keywords, operators, names of types, numbers
and identifiers, and one token for the end of the text.
-/

namespace Wattle

/-- Punctuation. -/
inductive Punct where
  | semicolon | comma | leftBrace | rightBrace | leftParen | rightParen | doubleColon | colon
deriving DecidableEq

namespace Punct

def all : List Punct :=
  [semicolon, comma, leftBrace, rightBrace, leftParen, rightParen, doubleColon, colon]

def spelling : Punct → String
  | semicolon => ";"
  | comma => ","
  | leftBrace => "\x7b"
  | rightBrace => "\x7d"
  | leftParen => "("
  | rightParen => ")"
  | doubleColon => "::"
  | colon => ":"

instance : ToString Punct := ⟨spelling⟩

end Punct

/-- Reserved words. -/
inductive Keyword where
  | func | var | const | if_ | elif | else_ | while_ | return_ | as_ | import_ | export_ | memory
deriving DecidableEq

namespace Keyword

def all : List Keyword :=
  [func, var, const, if_, elif, else_, while_, return_, as_, import_, export_, memory]

def spelling : Keyword → String
  | func => "func"
  | var => "var"
  | const => "const"
  | if_ => "if"
  | elif => "elif"
  | else_ => "else"
  | while_ => "while"
  | return_ => "return"
  | as_ => "as"
  | import_ => "import"
  | export_ => "export"
  | memory => "memory"

instance : ToString Keyword := ⟨spelling⟩

/-- The keyword that a word is. -/
def ofWord? : String → Option Keyword
  | "func" => some func
  | "var" => some var
  | "const" => some const
  | "if" => some if_
  | "elif" => some elif
  | "else" => some else_
  | "while" => some while_
  | "return" => some return_
  | "as" => some as_
  | "import" => some import_
  | "export" => some export_
  | "memory" => some memory
  | _ => none

/-- A word is the keyword that is spelled like it. -/
theorem ofWord?_eq_some {word : String} {k : Keyword} :
    ofWord? word = some k ↔ k.spelling = word := by
  constructor
  · intro h
    unfold ofWord? at h
    split at h <;> cases h <;> rfl
  · rintro rfl
    cases k <;> rfl

end Keyword

/-- Operator marks. The star is also the sign of a pointer type. -/
inductive Operator where
  | equal | equalEqual | bangEqual | less | lessEqual | greater | greaterEqual
  | plus | minus | star | slash | percent | ampersand | pipe | caret | leftShift | rightShift
  | bang | atSign
deriving DecidableEq

namespace Operator

def all : List Operator :=
  [equal, equalEqual, bangEqual, less, lessEqual, greater, greaterEqual, plus, minus, star, slash,
    percent, ampersand, pipe, caret, leftShift, rightShift, bang, atSign]

def spelling : Operator → String
  | equal => "="
  | equalEqual => "=="
  | bangEqual => "!="
  | less => "<"
  | lessEqual => "<="
  | greater => ">"
  | greaterEqual => ">="
  | plus => "+"
  | minus => "-"
  | star => "*"
  | slash => "/"
  | percent => "%"
  | ampersand => "&"
  | pipe => "|"
  | caret => "^"
  | leftShift => "<<"
  | rightShift => ">>"
  | bang => "!"
  | atSign => "@"

instance : ToString Operator := ⟨spelling⟩

end Operator

/-- What a token is, apart from where it stands. -/
inductive TokenKind where
  | punct (mark : Punct)
  | keyword (word : Keyword)
  | operator (mark : Operator)
  | base (type : BaseType)
  /-- A number: its digits, and the type that its point and suffixes select. -/
  | number (digits : String) (type : BaseType)
  | identifier (name : String)
  | endOfFile
deriving DecidableEq

namespace TokenKind

def text : TokenKind → String
  | punct p => s!"'{p}'"
  | keyword k => s!"'{k}'"
  | operator o => s!"'{o}'"
  | base b => s!"'{b}'"
  | number digits type => s!"{digits} ({type})"
  | identifier name => s!"identifier '{name}'"
  | endOfFile => "end of file"

instance : ToString TokenKind := ⟨text⟩

end TokenKind

/-- A token and where it stands. -/
structure Token where
  kind : TokenKind
  span : Span
deriving DecidableEq

namespace Token

/-- A token as text: what it is and where it starts. -/
def text (t : Token) : String :=
  s!"{t.kind} at {t.span.start}"

def endAt (l : Location) : Token :=
  ⟨.endOfFile, .point l⟩

def down (count : Nat) (t : Token) : Token :=
  { t with span := t.span.down count }

end Token

end Wattle
