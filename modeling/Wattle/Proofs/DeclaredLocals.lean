import Wattle.Lower.Slots
import Wattle.Proofs.Success

/-!
# The declarations of a body

Slots are given out in one pass over a body, which counts them. The pass meets the declarations in
the order of the text, so together they get the slots from its first count on, one after the other.
-/

namespace Wattle

/-- A declared local: the number of its declaration and its type. -/
structure LocalDecl where
  id : Nat
  type : Ty
deriving DecidableEq

namespace Stmt

variable {α : Type}

mutual

/-- The declarations in a statement, in the order of the text. -/
def locals : Stmt α → List LocalDecl
  | cond _ arms otherwise => armsLocals arms ++ elseLocals otherwise
  | loop _ _ body => listLocals body
  | ret _ _ => []
  | declare node _ _ type _ => [⟨node.id, type⟩]
  | expr _ _ => []

def listLocals : List (Stmt α) → List LocalDecl
  | [] => []
  | s :: rest => s.locals ++ listLocals rest

def armLocals : Arm α → List LocalDecl
  | ⟨_, body, _⟩ => listLocals body

def armsLocals : List (Arm α) → List LocalDecl
  | [] => []
  | a :: rest => armLocals a ++ armsLocals rest

def elseLocals : Option (List (Stmt α)) → List LocalDecl
  | none => []
  | some body => listLocals body

end

end Stmt

namespace Lower.SlotTable

/-- The table with the next slots for `locals`, which have the given machine types. -/
def extended (table : SlotTable) (locals : List LocalDecl) (types : List Wasm.ValueType) :
    SlotTable :=
  ⟨((locals.zipIdx table.next).map fun (l, slot) => (l.id, slot)).reverse ++ table.slots,
    table.locals ++ types, table.next + locals.length⟩

def declareAll (table : SlotTable) (locals : List LocalDecl) : Except LowerError SlotTable :=
  locals.foldlM (fun t l => t.declare l.id l.type) table

theorem declareAll_nil (table : SlotTable) : table.declareAll [] = .ok table := rfl

theorem declareAll_append (table : SlotTable) (xs ys : List LocalDecl) :
    table.declareAll (xs ++ ys) = table.declareAll xs >>= fun t => t.declareAll ys :=
  List.foldlM_append

theorem declareAll_singleton (table : SlotTable) (l : LocalDecl) :
    table.declareAll [l] = table.declare l.id l.type := by
  rw [declareAll, List.foldlM_cons]
  exact bind_pure _

/-- Counting while the declarations are met gives them consecutive slots. -/
theorem declareAll_eq (table : SlotTable) (locals : List LocalDecl) :
    table.declareAll locals = do
      let types ← locals.mapM fun l => valueType l.type
      return table.extended locals types := by
  induction locals generalizing table with
  | nil => simp [declareAll_nil, extended, pure, Except.pure, bind, Except.bind]
  | cons l rest ih =>
      rw [← List.singleton_append, declareAll_append, declareAll_singleton, declare,
        List.singleton_append, List.mapM_cons]
      simp only [bind_assoc, pure_bind, ih]
      congr 1
      funext first
      congr 1
      funext types
      simp [extended, List.zipIdx_cons, Nat.add_assoc, Nat.add_comm 1]

section

variable {α : Type}

mutual

theorem visit_eq : (table : SlotTable) → (s : Stmt α) →
    visit table s = table.declareAll s.locals
  | table, .cond _ arms otherwise => by
      rw [visit, Stmt.locals, declareAll_append, visitArms_eq table arms]
      congr 1
      funext t
      exact visitElse_eq t otherwise
  | table, .loop _ _ body => visitBlock_eq table body
  | table, .ret _ _ => rfl
  | table, .declare node _ _ type _ => (declareAll_singleton table ⟨node.id, type⟩).symm
  | table, .expr _ _ => rfl

theorem visitBlock_eq : (table : SlotTable) → (body : List (Stmt α)) →
    visitBlock table body = table.declareAll (Stmt.listLocals body)
  | table, [] => rfl
  | table, s :: rest => by
      rw [visitBlock, Stmt.listLocals, declareAll_append, visit_eq table s]
      congr 1
      funext t
      exact visitBlock_eq t rest

theorem visitArms_eq : (table : SlotTable) → (arms : List (Arm α)) →
    visitArms table arms = table.declareAll (Stmt.armsLocals arms)
  | table, [] => rfl
  | table, ⟨_, body, _⟩ :: rest => by
      rw [visitArms, Stmt.armsLocals, declareAll_append, visitBlock_eq table body]
      congr 1
      funext t
      exact visitArms_eq t rest

theorem visitElse_eq : (table : SlotTable) → (otherwise : Option (List (Stmt α))) →
    visitElse table otherwise = table.declareAll (Stmt.elseLocals otherwise)
  | table, none => rfl
  | table, some body => visitBlock_eq table body

end

/-- The declarations of a function get the slots behind its parameters. -/
theorem allocate_eq (d : FuncDef α) :
    allocate d = do
      let types ← (Stmt.listLocals d.body).mapM fun l => valueType l.type
      return extended ⟨[], [], d.signature.parameters.length⟩ (Stmt.listLocals d.body) types := by
  rw [allocate, visitBlock_eq, declareAll_eq]

end

end Lower.SlotTable

end Wattle
