/-!
# Scope chains

A scope chain is a stack of frames that bind names to values. The root frame belongs to the
function; every conditional arm, `else` body and loop body opens a frame of its own. A name means
its newest binding in the innermost frame that has one.
-/

namespace Wattle

/-- The bindings of one frame, the newest first. -/
abbrev Frame (β : Type) := List (String × β)

/-- A stack of frames that is never empty: the innermost frame, then the enclosing ones. -/
structure Scope (β : Type) where
  inner : Frame β
  outer : List (Frame β)
deriving DecidableEq

namespace Scope

variable {β : Type}

def root : Scope β :=
  ⟨[], []⟩

def frames (s : Scope β) : List (Frame β) :=
  s.inner :: s.outer

/-- The number of open frames, the root included. -/
def depth (s : Scope β) : Nat :=
  s.frames.length

def push (s : Scope β) : Scope β :=
  ⟨[], s.frames⟩

/-- Close the innermost frame; the root frame stays. -/
def pop (s : Scope β) : Scope β :=
  match s.outer with
  | [] => s
  | frame :: others => ⟨frame, others⟩

/-- Bind `name` in the innermost frame, hiding every earlier binding of it. -/
def insert (name : String) (value : β) (s : Scope β) : Scope β :=
  ⟨(name, value) :: s.inner, s.outer⟩

def lookup? (name : String) (s : Scope β) : Option β :=
  s.frames.findSome? (·.lookup name)

/-- Run `body` in a frame of its own, which is closed again whatever the outcome. -/
def within {ε α : Type} (body : EStateM ε (Scope β) α) : EStateM ε (Scope β) α := fun s =>
  match body s.push with
  | .ok a t => .ok a t.pop
  | .error e t => .error e t.pop

/-- Ask a question that looks at the scope and leaves it alone. -/
def asking {ε α : Type} (question : Scope β → Except ε α) : EStateM ε (Scope β) α := fun s =>
  match question s with
  | .ok a => .ok a s
  | .error e => .error e s

def bind {ε : Type} (name : String) (value : β) : EStateM ε (Scope β) Unit :=
  modify (insert name value)

@[simp] theorem pop_push (s : Scope β) : s.push.pop = s := rfl

@[simp] theorem depth_push (s : Scope β) : s.push.depth = s.depth + 1 := rfl

@[simp] theorem depth_insert (name : String) (value : β) (s : Scope β) :
    (s.insert name value).depth = s.depth := rfl

@[simp] theorem outer_insert (name : String) (value : β) (s : Scope β) :
    (s.insert name value).outer = s.outer := rfl

@[simp] theorem lookup?_push (name : String) (s : Scope β) :
    s.push.lookup? name = s.lookup? name := rfl

@[simp] theorem lookup?_insert_self (name : String) (value : β) (s : Scope β) :
    (s.insert name value).lookup? name = some value := by
  simp [lookup?, insert, frames]

end Scope

end Wattle
