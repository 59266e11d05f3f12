/-!
# S-expressions and their layout

The text format of WebAssembly is made of s-expressions. An atom or a list takes one line; a
block puts its head on the opening line, every item of its body on a line of its own, two spaces
further in, and the closing parenthesis on the last line. A block inside a list is written on the
line of the list.
-/

namespace Wattle.Wasm

/-- A tree to be written as text. -/
inductive SExpr where
  /-- Text that is written as it is; an instruction with its operands is one atom. -/
  | atom (text : String)
  | list (items : List SExpr)
  | block (head body : List SExpr)

namespace SExpr

def quoted (text : String) : SExpr :=
  atom ("\"" ++ text ++ "\"")

/-- The indentation of a line at the given depth. -/
def indent (depth : Nat) : String :=
  String.ofList (List.replicate (2 * depth) ' ')

mutual

def inline : SExpr → String
  | atom text => text
  | list items => "(" ++ inlineAll items ++ ")"
  | block head body => "(" ++ inlineAll head ++ inlineEach body ++ ")"

def inlineAll : List SExpr → String
  | [] => ""
  | e :: rest => e.inline ++ inlineEach rest

def inlineEach : List SExpr → String
  | [] => ""
  | e :: rest => " " ++ e.inline ++ inlineEach rest

end

mutual

def layout (depth : Nat) : SExpr → String
  | block head body =>
    indent depth ++ "(" ++ inlineAll head ++ "\n" ++ layoutAll (depth + 1) body ++
      indent depth ++ ")\n"
  | e => indent depth ++ e.inline ++ "\n"

def layoutAll (depth : Nat) : List SExpr → String
  | [] => ""
  | e :: rest => e.layout depth ++ layoutAll depth rest

end

def render (e : SExpr) : String :=
  e.layout 0

end SExpr

end Wattle.Wasm
