import Wattle.Parse.Cursor
import Wattle.Program.Node

/-!
# Parsers

A parser moves a cursor and numbers the nodes it makes, or fails. Numbers are handed out in the
order in which nodes are completed, so a node has a larger number than anything inside it.

Repetition is bounded by the number of tokens to come: every round of every loop reads a token.
Only a list of tokens without an end mark can exhaust a bound.
-/

namespace Wattle

/-- Where a parser is, and the number of the next node. -/
structure ParseState where
  cursor : Cursor
  nextId : Nat
deriving DecidableEq

abbrev Parser := EStateM ParseError ParseState

namespace Parser

variable {α : Type}

/-- Run a parser from the start of a list of tokens; gives also the place it reached. -/
def run (p : Parser α) (tokens : List Token) : Except ParseError (α × Cursor) :=
  match p ⟨.start tokens, 0⟩ with
  | .ok a s => .ok (a, s.cursor)
  | .error e _ => .error e

/-- The token to read next. -/
def peek : Parser Token :=
  return (← get).cursor.peek

/-- Whether the token to read next is of the given kind. -/
def next (kind : TokenKind) : Parser Bool :=
  return (← peek).kind = kind

def advance : Parser Unit :=
  modify fun s => { s with cursor := s.cursor.advance }

/-- Refuse the next token. -/
def refuse (cause : ParseCause) : Parser α := do
  throw ⟨cause, ← peek⟩

/-- Refuse the next token, because something else is asked for. -/
def expecting (what : Expectation) : Parser α :=
  refuse (.expected what)

/-- Move the cursor by a reading function. -/
def reading (f : Cursor → Except ParseError (α × Cursor)) : Parser α := fun s =>
  match f s.cursor with
  | .ok (a, c) => .ok a { s with cursor := c }
  | .error e => .error e s

def punct (mark : Punct) (context : String) : Parser Unit := do
  let _ ← reading (·.expectPunct mark context)

def keyword (word : Keyword) (context : String) : Parser Unit := do
  let _ ← reading (·.expectKeyword word context)

def identifier (context : String) : Parser String :=
  reading (·.expectIdentifier context)

/-- Number a new node with the given span. -/
def newNode (span : Span) : Parser Node :=
  modifyGet fun s => (⟨s.nextId, span⟩, { s with nextId := s.nextId + 1 })

/-- The span from the token `first` through the token read last. -/
def spanFrom (first : Token) : Parser Span :=
  return (← get).cursor.spanFrom first

/-- Number a new node that starts with the token `first` and ends with the token read last. -/
def nodeFrom (first : Token) : Parser Node := do
  newNode (← spanFrom first)

/-- A bound for loops: one more than the number of tokens to come. -/
def budget : Parser Nat :=
  return (← get).cursor.rest.length + 1

/-- Try `p`. If it fails at the very token it started with, go back and continue with `other`;
if it fails further in, that is the failure. Numbers given out by a failed attempt stay used. -/
def orElseHere (p other : Parser α) : Parser α := fun s =>
  match p s with
  | .ok a t => .ok a t
  | .error e t =>
    if e.found.span = s.cursor.peek.span then other { s with nextId := t.nextId }
    else .error e t

/-- Items up to a closing parenthesis, with commas between them and possibly after the last.
`after` is what the complaint asks for when an item is followed by anything else. -/
def commaListWithin (item : Parser α) (after : Expectation) : Nat → Parser (List α)
  | 0 => refuse .endless
  | bound + 1 => do
    if ← next (.punct .rightParen) then
      advance
      return []
    else
      let first ← item
      if ← next (.punct .comma) then
        advance
        return first :: (← commaListWithin item after bound)
      else if ← next (.punct .rightParen) then
        return first :: (← commaListWithin item after bound)
      else
        expecting after

/-- A list of items in parentheses, from behind the opening one. -/
def commaList (item : Parser α) (after : Expectation) : Parser (List α) := do
  commaListWithin item after (← budget)

end Parser

end Wattle
