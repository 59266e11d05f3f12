import Wattle.Parse.Cursor

/-!
# Runs of a cursor

The operations on a cursor as values, so that a whole run is a list of them. A run keeps a second
cursor, to which it can go back.
-/

namespace Wattle.Cursor

/-- An operation on a cursor. -/
inductive Action where
  | peek
  | peekAt (offset : Nat)
  | advance
  | previous
  | isAtEnd
  /-- Remember the place. -/
  | save
  /-- Go back to the place remembered last. -/
  | restore
  | spanFrom (first : Token)
  | expectPunct (mark : Punct) (context : String)
  | expectKeyword (word : Keyword) (context : String)
  | expectIdentifier (context : String)
deriving DecidableEq

/-- What an operation tells. -/
inductive Answer where
  | token (t : Token)
  | noToken
  | truth (value : Bool)
  | span (s : Span)
  | name (id : String)
  | done
  | refused (e : ParseError)
deriving DecidableEq

/-- A cursor and the place it can go back to. -/
structure Bookmarked where
  current : Cursor
  saved : Cursor
deriving DecidableEq

namespace Bookmarked

/-- Both places before the first of the given tokens. -/
def start (tokens : List Token) : Bookmarked :=
  ⟨.start tokens, .start tokens⟩

/-- The answer of a reading function, and the place after it. -/
def afterReading {α : Type} (b : Bookmarked) (answer : α → Answer) :
    Except ParseError (α × Cursor) → Answer × Bookmarked
  | .ok (a, c) => (answer a, { b with current := c })
  | .error e => (.refused e, b)

/-- What an action tells, and the places after it. -/
def step (b : Bookmarked) : Action → Answer × Bookmarked
  | .peek => (.token b.current.peek, b)
  | .peekAt offset => (.token (b.current.peekAt offset), b)
  | .advance => (.token b.current.peek, { b with current := b.current.advance })
  | .previous => ((b.current.previous?.map Answer.token).getD .noToken, b)
  | .isAtEnd => (.truth b.current.isAtEnd, b)
  | .save => (.done, { b with saved := b.current })
  | .restore => (.done, { b with current := b.saved })
  | .spanFrom first => (.span (b.current.spanFrom first), b)
  | .expectPunct mark context =>
    b.afterReading .token (b.current.expectPunct mark context)
  | .expectKeyword word context =>
    b.afterReading .token (b.current.expectKeyword word context)
  | .expectIdentifier context =>
    b.afterReading .name (b.current.expectIdentifier context)

def run (b : Bookmarked) (actions : List Action) : Bookmarked :=
  actions.foldl (fun b action => (b.step action).2) b

/-- The position after every action of a run, with what the action tells. -/
def trace (b : Bookmarked) : List Action → List (Nat × Answer)
  | [] => []
  | action :: rest =>
    let (answer, after) := b.step action
    (after.current.position, answer) :: trace after rest

end Bookmarked

end Wattle.Cursor
