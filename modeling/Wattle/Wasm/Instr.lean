import Wattle.Wasm.SExpr
import Wattle.Wasm.ValueType

/-!
# Instructions

The part of the WebAssembly instruction set that programs are compiled to: stack instructions,
and `block` and `loop` with branches out of them.
-/

namespace Wattle.Wasm

/-- How an instruction reads integers, where that matters. -/
inductive Sign where
  | signed | unsigned
deriving DecidableEq

/-- The ending of the name of an instruction that depends on the sign. -/
def Sign.suffix : Option Sign → String
  | none => ""
  | some signed => "_s"
  | some unsigned => "_u"

/-- Instructions on two operands of one type. -/
inductive NumOp where
  | add | sub | mul | div | rem | and | or | xor | shl | shr | eq | ne | lt | gt | le | ge
deriving DecidableEq

def NumOp.name : NumOp → String
  | add => "add"
  | sub => "sub"
  | mul => "mul"
  | div => "div"
  | rem => "rem"
  | and => "and"
  | or => "or"
  | xor => "xor"
  | shl => "shl"
  | shr => "shr"
  | eq => "eq"
  | ne => "ne"
  | lt => "lt"
  | gt => "gt"
  | le => "le"
  | ge => "ge"

/-- Conversions between machine types. -/
inductive ConvOp where
  | extend | wrap | convert | trunc | promote | demote
deriving DecidableEq

def ConvOp.name : ConvOp → String
  | extend => "extend"
  | wrap => "wrap"
  | convert => "convert"
  | trunc => "trunc"
  | promote => "promote"
  | demote => "demote"

/-- An instruction. The bodies of `block` and `loop` are part of the instruction. -/
inductive Instr where
  /-- A constant; its digits are kept as they were written. -/
  | const (type : ValueType) (digits : String)
  | localGet (slot : Nat)
  | localSet (slot : Nat)
  | numeric (type : ValueType) (op : NumOp) (sign : Option Sign)
  | convert (target : ValueType) (op : ConvOp) (source : ValueType) (sign : Option Sign)
  | eqz (type : ValueType)
  | load (type : ValueType)
  | store (type : ValueType)
  | call (name : String)
  | br (depth : Nat)
  | brIf (depth : Nat)
  | drop
  | ret
  | block (body : List Instr)
  | loop (body : List Instr)

namespace Instr

mutual

/-- The instruction as a tree: one atom, or a block for structured control. -/
def toSExpr : Instr → SExpr
  | const type digits => .atom s!"{type}.const {digits}"
  | localGet slot => .atom s!"local.get {slot}"
  | localSet slot => .atom s!"local.set {slot}"
  | numeric type op sign => .atom s!"{type}.{op.name}{Sign.suffix sign}"
  | convert target op source sign =>
    .atom s!"{target}.{op.name}_{source}{Sign.suffix sign}"
  | eqz type => .atom s!"{type}.eqz"
  | load type => .atom s!"{type}.load"
  | store type => .atom s!"{type}.store"
  | call name => .atom s!"call ${name}"
  | br depth => .atom s!"br {depth}"
  | brIf depth => .atom s!"br_if {depth}"
  | drop => .atom "drop"
  | ret => .atom "return"
  | block body => .block [.atom "block"] (toSExprs body)
  | loop body => .block [.atom "loop"] (toSExprs body)

def toSExprs : List Instr → List SExpr
  | [] => []
  | i :: rest => i.toSExpr :: toSExprs rest

end

def text (i : Instr) : String :=
  i.toSExpr.inline

end Instr

end Wattle.Wasm
