import Wattle.Parse.Error

/-!
# A place in a list of tokens

A cursor divides a list of tokens into those read and those to come. It never moves past the end
mark, and beyond the end of a list without one it keeps showing the last token.
-/

namespace Wattle

/-- A place in a list of tokens. -/
structure Cursor where
  /-- The tokens already read, the last one first. -/
  consumed : List Token
  /-- The tokens to come. -/
  rest : List Token
deriving DecidableEq

namespace Cursor

/-- The cursor before the first of the given tokens. -/
def start (tokens : List Token) : Cursor :=
  ⟨[], tokens⟩

def tokens (c : Cursor) : List Token :=
  c.consumed.reverse ++ c.rest

def position (c : Cursor) : Nat :=
  c.consumed.length

/-- The token shown when there is none at all. -/
def noToken : Token :=
  .endAt ⟨0, 0⟩

/-- The last token of the whole list. -/
def last (c : Cursor) : Token :=
  (c.rest.getLast?.or c.consumed.head?).getD noToken

/-- The token `offset` places ahead; past the end, the last one. -/
def peekAt (c : Cursor) (offset : Nat) : Token :=
  c.rest[offset]?.getD c.last

/-- The token to read next. -/
def peek (c : Cursor) : Token :=
  match c.rest with
  | t :: _ => t
  | [] => c.consumed.head?.getD noToken

def previous? (c : Cursor) : Option Token :=
  c.consumed.head?

/-- Step over the next token, unless it is the end mark. -/
def advance (c : Cursor) : Cursor :=
  match c.rest with
  | [] => c
  | t :: rest => if t.kind = .endOfFile then c else ⟨t :: c.consumed, rest⟩

def isAtEnd (c : Cursor) : Bool :=
  c.peek.kind = .endOfFile

/-- Where the token read last ends, or `fallback` if none was read. -/
def endOr (c : Cursor) (fallback : Location) : Location :=
  (c.previous?.map (·.span.stop)).getD fallback

/-- The span from the token `first` through the token read last. -/
def spanFrom (c : Cursor) (first : Token) : Span :=
  ⟨first.span.start, c.endOr first.span.stop⟩

/-- The complaint that something else should come next. -/
def unexpected (c : Cursor) (what : Expectation) : ParseError :=
  ⟨.expected what, c.peek⟩

def expectPunct (c : Cursor) (mark : Punct) (context : String) :
    Except ParseError (Token × Cursor) :=
  if c.peek.kind = .punct mark then .ok (c.peek, c.advance)
  else .error (c.unexpected (.punct mark context))

def expectKeyword (c : Cursor) (word : Keyword) (context : String) :
    Except ParseError (Token × Cursor) :=
  if c.peek.kind = .keyword word then .ok (c.peek, c.advance)
  else .error (c.unexpected (.keyword word context))

def expectIdentifier (c : Cursor) (context : String) : Except ParseError (String × Cursor) :=
  match c.peek.kind with
  | .identifier name => .ok (name, c.advance)
  | _ => .error (c.unexpected (.identifier context))

@[simp] theorem tokens_start (tokens : List Token) : (start tokens).tokens = tokens := rfl

@[simp] theorem tokens_advance (c : Cursor) : c.advance.tokens = c.tokens := by
  obtain ⟨consumed, rest⟩ := c
  cases rest with
  | nil => rfl
  | cons t rest =>
    simp only [advance]
    split <;> simp [tokens]

end Cursor

end Wattle
