/-!
# JSON values and their layout

Dumps of a program are JSON. The fields of an object keep the order they are given in, nested
values are indented by two spaces, and empty arrays and objects take no room.
-/

namespace Wattle

/-- A JSON value. All numbers in dumps are natural. -/
inductive Json where
  | null
  | number (value : Nat)
  | string (text : String)
  | array (items : List Json)
  | object (fields : List (String × Json))

namespace Json

/-- A value that may be missing; a missing one is `null`. -/
def ofOption {α : Type} (f : α → Json) : Option α → Json
  | none => null
  | some a => f a

/-- An object with one field, which names an alternative and holds its content. -/
def tagged (tag : String) (content : Json) : Json :=
  object [(tag, content)]

def fourDigits (value : Nat) : List Char :=
  let digits := Nat.toDigits 16 value
  List.replicate (4 - digits.length) '0' ++ digits

/-- A character inside a JSON string: quote, backslash and control characters are escaped. -/
def escapeChar (c : Char) : List Char :=
  match c with
  | '"' => ['\\', '"']
  | '\\' => ['\\', '\\']
  | '\n' => ['\\', 'n']
  | '\r' => ['\\', 'r']
  | '\t' => ['\\', 't']
  | '\x08' => ['\\', 'b']
  | '\x0c' => ['\\', 'f']
  | _ => if c.toNat < 0x20 then '\\' :: 'u' :: fourDigits c.toNat else [c]

def quote (text : String) : String :=
  String.ofList ('"' :: text.toList.flatMap escapeChar ++ ['"'])

/-- A line break and the indentation of the given depth. -/
def newLine (depth : Nat) : String :=
  String.ofList ('\n' :: List.replicate (2 * depth) ' ')

mutual

/-- The value at the given depth, without indentation before its first line. -/
def layout (depth : Nat) : Json → String
  | null => "null"
  | number value => toString value
  | string text => quote text
  | array [] => "[]"
  | array (first :: rest) =>
    "[" ++ newLine (depth + 1) ++ first.layout (depth + 1) ++ layoutItems (depth + 1) rest ++
      newLine depth ++ "]"
  | object [] => "\x7b\x7d"
  | object (first :: rest) =>
    "\x7b" ++ newLine (depth + 1) ++ layoutField (depth + 1) first ++
      layoutFields (depth + 1) rest ++ newLine depth ++ "\x7d"

/-- Further items of an array, each behind a comma. -/
def layoutItems (depth : Nat) : List Json → String
  | [] => ""
  | j :: rest => "," ++ newLine depth ++ j.layout depth ++ layoutItems depth rest

def layoutField (depth : Nat) : String × Json → String
  | (key, value) => quote key ++ ": " ++ value.layout depth

/-- Further fields of an object, each behind a comma. -/
def layoutFields (depth : Nat) : List (String × Json) → String
  | [] => ""
  | field :: rest => "," ++ newLine depth ++ layoutField depth field ++ layoutFields depth rest

end

def pretty (j : Json) : String :=
  j.layout 0

end Json

end Wattle
