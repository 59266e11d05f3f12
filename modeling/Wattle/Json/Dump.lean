import Wattle.Json.Basic
import Wattle.Program.Basic

/-!
# Dumps

Tokens, programs and checked programs as JSON. An alternative without content is a string, one
with content an object with a single field; a record is an object. A checked program has the same
shape as an unchecked one, with one more field on every expression.
-/

namespace Wattle.Dump

open Json

/-- The number of a line or a column is dumped as it is. -/
instance ordinalAsNumber : Coe UInt32 Nat := ⟨UInt32.toNat⟩

/-- A place can be read back from the numbers of a dump. -/
instance numberAsOrdinal : Coe Nat UInt32 := ⟨UInt32.ofNat⟩

def location (l : Location) : Json :=
  object [("line", number l.line), ("column", number l.column)]

def span (s : Span) : Json :=
  object [("start", location s.start), ("end", location s.stop)]

def baseType (b : BaseType) : Json :=
  string <| match b with
    | .i32 => "I32"
    | .u32 => "U32"
    | .i64 => "I64"
    | .u64 => "U64"
    | .f32 => "F32"
    | .f64 => "F64"
    | .void => "Void"

def type : Ty → Json
  | .base b => tagged "Basic" (baseType b)
  | .pointer t => tagged "Pointer" (type t)

def punct (p : Punct) : Json :=
  string <| match p with
    | .semicolon => "Semicolon"
    | .comma => "Comma"
    | .leftBrace => "LeftBrace"
    | .rightBrace => "RightBrace"
    | .leftParen => "LeftParen"
    | .rightParen => "RightParen"
    | .doubleColon => "DoubleColon"
    | .colon => "Colon"

def keyword (k : Keyword) : Json :=
  string <| match k with
    | .func => "Func"
    | .var => "Var"
    | .const => "Const"
    | .if_ => "If"
    | .elif => "Elif"
    | .else_ => "Else"
    | .while_ => "While"
    | .return_ => "Return"
    | .as_ => "As"
    | .import_ => "Import"
    | .export_ => "Export"
    | .memory => "Memory"

def operator (o : Operator) : Json :=
  string <| match o with
    | .equal => "Equal"
    | .equalEqual => "EqualEqual"
    | .bangEqual => "BangEqual"
    | .less => "Less"
    | .lessEqual => "LessEqual"
    | .greater => "Greater"
    | .greaterEqual => "GreaterEqual"
    | .plus => "Plus"
    | .minus => "Minus"
    | .star => "Star"
    | .slash => "Slash"
    | .percent => "Percent"
    | .ampersand => "Ampersand"
    | .pipe => "Pipe"
    | .caret => "Caret"
    | .leftShift => "LeftShift"
    | .rightShift => "RightShift"
    | .bang => "Bang"
    | .atSign => "At"

def numeral (digits : String) (type : BaseType) : Json :=
  object [("value", string digits), ("ty", baseType type)]

def tokenKind : TokenKind → Json
  | .punct p => tagged "Special" (punct p)
  | .keyword k => tagged "Keyword" (keyword k)
  | .operator o => tagged "Operator" (operator o)
  | .base b => tagged "BasicType" (baseType b)
  | .number digits type => tagged "Number" (numeral digits type)
  | .identifier name => tagged "Identifier" (string name)
  | .endOfFile => string "EndOfFile"

def token (t : Token) : Json :=
  object [("token_type", tokenKind t.kind), ("span", span t.span)]

def tokens (ts : List Token) : Json :=
  array (ts.map token)

def binaryOp (op : BinaryOp) : Json :=
  string <| match op with
    | .add => "Add"
    | .sub => "Sub"
    | .mul => "Mul"
    | .div => "Div"
    | .rem => "Rem"
    | .bitAnd => "BitAnd"
    | .bitOr => "BitOr"
    | .bitXor => "BitXor"
    | .leftShift => "LeftShift"
    | .rightShift => "RightShift"
    | .equal => "Equal"
    | .notEqual => "NotEqual"
    | .less => "Less"
    | .greater => "Greater"
    | .lessEqual => "LessEqual"
    | .greaterEqual => "GreaterEqual"
    | .assign => "Assign"

def unaryOp (op : UnaryOp) : Json :=
  string <| match op with
    | .negate => "Minus"
    | .deref => "Dereference"
    | .logicalNot => "LogicalNot"

/-- How the note on an expression is dumped around the form of the expression. -/
structure NoteFormat (α : Type) where
  node : α → Node
  type? : α → Option Ty

def untyped : NoteFormat Node :=
  ⟨id, fun _ => none⟩

def typed : NoteFormat TypedNode :=
  ⟨TypedNode.toNode, fun note => some note.type⟩

section

variable {α : Type} (format : NoteFormat α)

def expression (note : α) (kind : Json) : Json :=
  object ([("node_id", number (format.node note).id), ("kind", kind)] ++
    ((format.type? note).map fun t => ("result_type", type t)).toList ++
    [("span", span (format.node note).span)])

mutual

def expr : Expr α → Json
  | .name note id => expression format note (tagged "Identifier" (string id))
  | .number note digits type =>
    expression format note (tagged "Numeric" (numeral digits type))
  | .call note callee args =>
    expression format note (tagged "FunctionCall"
      (object [("name", string callee), ("arguments", array (exprs args))]))
  | .unary note op operand =>
    expression format note (tagged "Unary"
      (object [("op", unaryOp op), ("operand", expr operand)]))
  | .binary note op left right =>
    expression format note (tagged "Binary"
      (object [("op", binaryOp op), ("left", expr left), ("right", expr right)]))
  | .paren note inner => expression format note (tagged "Composite" (expr inner))
  | .cast note operand target =>
    expression format note (tagged "TypeConversion"
      (object [("operand", expr operand), ("target", type target)]))

def exprs : List (Expr α) → List Json
  | [] => []
  | e :: rest => expr e :: exprs rest

end

def statement (node : Node) (kind : Json) : Json :=
  object [("node_id", number node.id), ("kind", kind), ("span", span node.span)]

def declKind : DeclKind → Json
  | .var => string "Variable"
  | .const => string "Constant"

mutual

def stmt : Stmt α → Json
  | .cond node branches otherwise =>
    statement node (tagged "Conditional"
      (object [("arms", array (arms branches)), ("else_body", elseBody otherwise)]))
  | .loop node condition body =>
    statement node (tagged "Loop"
      (object [("condition", expr format condition), ("body", array (stmts body))]))
  | .ret node value => statement node (tagged "Return" (ofOption (expr format) value))
  | .declare node kind name declared initial =>
    statement node (tagged "VariableDeclaration"
      (object [("name", string name), ("declared_type", type declared), ("kind", declKind kind),
        ("initializer", expr format initial)]))
  | .expr node value => statement node (tagged "Expression" (expr format value))

def stmts : List (Stmt α) → List Json
  | [] => []
  | s :: rest => stmt s :: stmts rest

def arm : Arm α → Json
  | ⟨condition, body, armSpan⟩ =>
    object [("condition", expr format condition), ("body", array (stmts body)),
      ("span", span armSpan)]

def arms : List (Arm α) → List Json
  | [] => []
  | a :: rest => arm a :: arms rest

def elseBody : Option (List (Stmt α)) → Json
  | none => null
  | some body => array (stmts body)

end

def parameter (p : Parameter) : Json :=
  object [("name", string p.name), ("param_type", type p.type), ("span", span p.span)]

def signature (s : Signature) : Json :=
  object [("name", string s.name), ("return_type", type s.result),
    ("parameters", array (s.parameters.map parameter))]

def importPath (path : ImportPath) : Json :=
  object [("namespace", string path.nameSpace), ("specifier", string path.specifier)]

def funcDef (d : FuncDef α) : Json :=
  object [("node_id", number d.node.id), ("signature", signature d.signature),
    ("body", array (stmts format d.body)), ("span", span d.node.span)]

def funcImport (i : FuncImport) : Json :=
  object [("node_id", number i.node.id), ("signature", signature i.signature),
    ("location", importPath i.path), ("span", span i.node.span)]

def func : Func α → Json
  | .plain d => tagged "Plain" (funcDef format d)
  | .exported d => tagged "Export" (funcDef format d)
  | .imported i => tagged "Import" (funcImport i)

def memoryKind : MemoryKind → Json
  | .plain => string "Plain"
  | .exported => string "Export"
  | .imported path => tagged "Import" (importPath path)

def memory (m : Memory) : Json :=
  object [("node_id", number m.node.id), ("name", string m.name),
    ("size", number m.size.toNat), ("kind", memoryKind m.kind), ("span", span m.node.span)]

def program (p : Program α) : Json :=
  object [("funcs", array (p.funcs.map (func format))),
    ("memories", array (p.memories.map memory))]

end

end Wattle.Dump
