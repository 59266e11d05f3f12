import Wattle.Lower.Select
import Wattle.Program.Basic

/-!
# Slots for local names

Parameters take the first slots, in order. Then every declaration gets the next slot, in the order
of the text and whatever the nesting; a name declared again gets another slot.
-/

namespace Wattle.Lower

/-- The slots of the declarations of a function, as far as they have been given out. -/
structure SlotTable where
  /-- The number of each declaration with its slot, the last declaration first. -/
  slots : List (Nat × Nat)
  /-- The machine types of the declared locals, in slot order. -/
  locals : List Wasm.ValueType
  /-- The slot that the next declaration gets. -/
  next : Nat
deriving DecidableEq

namespace SlotTable

/-- Give the next slot to the declaration with the given number. -/
def declare (table : SlotTable) (id : Nat) (type : Ty) : Except LowerError SlotTable := do
  let machineType ← valueType type
  return ⟨(id, table.next) :: table.slots, table.locals ++ [machineType], table.next + 1⟩

section

variable {α : Type}

mutual

/-- Give slots to the declarations in a statement. -/
def visit (table : SlotTable) : Stmt α → Except LowerError SlotTable
  | .cond _ arms otherwise => do
    let table ← visitArms table arms
    visitElse table otherwise
  | .loop _ _ body => visitBlock table body
  | .ret _ _ => return table
  | .declare node _ _ type _ => table.declare node.id type
  | .expr _ _ => return table

def visitBlock (table : SlotTable) : List (Stmt α) → Except LowerError SlotTable
  | [] => return table
  | s :: rest => do
    let table ← visit table s
    visitBlock table rest

def visitArms (table : SlotTable) : List (Arm α) → Except LowerError SlotTable
  | [] => return table
  | ⟨_, body, _⟩ :: rest => do
    let table ← visitBlock table body
    visitArms table rest

def visitElse (table : SlotTable) : Option (List (Stmt α)) → Except LowerError SlotTable
  | none => return table
  | some body => visitBlock table body

end

/-- Give slots to the declarations of a function, the first of them behind the parameters. -/
def allocate (d : FuncDef α) : Except LowerError SlotTable :=
  visitBlock ⟨[], [], d.signature.parameters.length⟩ d.body

end

/-- The slot of the declaration with the given number. -/
def slotFor (table : SlotTable) (id : Nat) : Except LowerError Nat :=
  match table.slots.lookup id with
  | some slot => .ok slot
  | none => .error (.missingSlot id)

end SlotTable

end Wattle.Lower
