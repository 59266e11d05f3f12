import Wattle.Token.Basic

/-!
# Marks

Punctuation and operators overlap: a colon may begin a double colon, and a less-than sign may
begin two longer operators. Where several marks could be read, the longest is.
-/

namespace Wattle

/-- A mark: it is a token of its own and ends the word before it. -/
inductive Mark where
  | punct (mark : Punct)
  | operator (mark : Operator)
deriving DecidableEq

namespace Mark

def spelling : Mark → List Char
  | punct p => p.spelling.toList
  | operator o => o.spelling.toList

def kind : Mark → TokenKind
  | punct p => .punct p
  | operator o => .operator o

/-- The characters that are read as marks. -/
def table : List (List Char × Mark) :=
  [([';'], .punct .semicolon),
    ([','], .punct .comma),
    (['\x7b'], .punct .leftBrace),
    (['\x7d'], .punct .rightBrace),
    (['('], .punct .leftParen),
    ([')'], .punct .rightParen),
    ([':', ':'], .punct .doubleColon),
    ([':'], .punct .colon),
    (['=', '='], .operator .equalEqual),
    (['!', '='], .operator .bangEqual),
    (['<', '='], .operator .lessEqual),
    (['>', '='], .operator .greaterEqual),
    (['<', '<'], .operator .leftShift),
    (['>', '>'], .operator .rightShift),
    (['='], .operator .equal),
    (['<'], .operator .less),
    (['>'], .operator .greater),
    (['+'], .operator .plus),
    (['-'], .operator .minus),
    (['*'], .operator .star),
    (['/'], .operator .slash),
    (['%'], .operator .percent),
    (['&'], .operator .ampersand),
    (['|'], .operator .pipe),
    (['^'], .operator .caret),
    (['!'], .operator .bang),
    (['@'], .operator .atSign)]

def ofSpelling? (text : List Char) : Option Mark :=
  table.lookup text

/-- The longest mark at the start of a text. Marks have one or two characters. -/
def longest? : List Char → Option Mark
  | [] => none
  | [c] => ofSpelling? [c]
  | c :: d :: _ => ofSpelling? [c, d] <|> ofSpelling? [c]

/-- The table has every mark, under the characters that spell it. -/
theorem ofSpelling?_spelling (m : Mark) : ofSpelling? m.spelling = some m := by
  cases m with
  | punct p => cases p <;> decide
  | operator o => cases o <;> decide

theorem spelling_of_mem_table : ∀ entry ∈ table, entry.2.spelling = entry.1 := by
  decide

end Mark

end Wattle
