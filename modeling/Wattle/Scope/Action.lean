import Wattle.Scope

/-!
# Runs of a scope chain

The operations on a scope chain as values, so that a whole run is a list of them.
-/

namespace Wattle.Scope

variable {β : Type}

/-- An operation on a scope chain. -/
inductive Action (β : Type) where
  | push
  | pop
  | insert (name : String) (value : β)
  | lookup (name : String)
deriving DecidableEq

/-- The chain after an action. Looking a name up changes nothing. -/
def Action.apply (s : Scope β) : Action β → Scope β
  | push => s.push
  | pop => s.pop
  | insert name value => s.insert name value
  | lookup _ => s

/-- What an action finds: only looking a name up finds anything. -/
def Action.found? (s : Scope β) : Action β → Option β
  | lookup name => s.lookup? name
  | _ => none

def run (s : Scope β) (actions : List (Action β)) : Scope β :=
  actions.foldl Action.apply s

/-- The depth after every action of a run, with what the action found. -/
def trace (s : Scope β) : List (Action β) → List (Nat × Option β)
  | [] => []
  | action :: rest =>
    let t := action.apply s
    (t.depth, action.found? s) :: trace t rest

end Wattle.Scope
