import Wattle.Source.Lines
import Wattle.Source.Location

/-!
# Diagnostics

What a failed compilation tells its user. The first error ends the compilation, so there is at
most one diagnostic. An error in the source is shown with the offending line and a caret.
-/

namespace Wattle

/-- The phases that can find fault with a source text. -/
inductive Phase where
  | lexical | grammar | rules
deriving DecidableEq

/-- What went wrong, in words. -/
inductive Diagnostic where
  /-- The source breaks a rule at a place. -/
  | inSource (phase : Phase) (location : Location) (message : String)
  /-- A later phase was handed what an earlier one should have refused. -/
  | internal (message : String)
  /-- A file could not be read or written. -/
  | inputOutput (message : String)
deriving DecidableEq

namespace Diagnostic

def heading : Phase → String
  | .lexical => "Lexical error"
  | .grammar => "Parse error"
  | .rules => "Validation error"

def text : Diagnostic → String
  | inSource phase location message => s!"{heading phase} at {location}: {message}"
  | internal message => s!"Internal compiler error: {message}"
  | inputOutput message => s!"IO error: {message}"

instance : ToString Diagnostic := ⟨text⟩

/-- Where in the source the error lies, if it lies there. -/
def location? : Diagnostic → Option Location
  | inSource _ location _ => some location
  | internal _ | inputOutput _ => none

/-- The line `row` behind a gutter with its number, and under it a caret below `column`. -/
def excerpt (location : Location) (row : List Char) : String :=
  let gutter := toString location.line
  let padding := String.ofList (List.replicate gutter.length ' ')
  let offset := String.ofList (List.replicate (location.column.toNat - 1) ' ')
  s!"\n{gutter} | {String.ofList row}\n{padding} | {offset}^"

/-- The diagnostic with the name of the file and, if the place exists, the line it is about. -/
def render (d : Diagnostic) (source fileName : String) : String :=
  match d.location? with
  | none => s!"{fileName}: {d}"
  | some location =>
    let header := s!"{fileName}:{location}: {d}"
    match (lines source.toList)[location.line.toNat - 1]? with
    | none => header
    | some row => header ++ excerpt location row

end Diagnostic

end Wattle
