import Wattle.Source.Location
import Wattle.Ty

/-!
# Notes on nodes

What is known about a node of a program besides its form: its number and its span after reading,
and for expressions the type of the result after checking.
-/

namespace Wattle

/-- The identity of a node: a number of its own, and where it was read. -/
structure Node where
  id : Nat
  span : Span
deriving DecidableEq

def Node.start (n : Node) : Location :=
  n.span.start

/-- A node of an expression with the type of its result. -/
structure TypedNode extends Node where
  type : Ty
deriving DecidableEq

end Wattle
