import Wattle.Program.Basic

/-!
# Programs without `void` values

No literal, conversion, declaration or parameter of a program that was read has type `void`, and
no pointer points to `void`: the word stands only where a function gives nothing back. All later
stages rely on it.
-/

namespace Wattle

namespace Ty

/-- Whether `void` occurs nowhere in the type, so that it has values and what they point to has
values too. -/
def voidFree : Ty → Bool
  | base b => b ≠ .void
  | pointer t => t.voidFree

/-- Whether a function may have the type as its result. -/
def isResult (t : Ty) : Bool :=
  t.isVoid || t.voidFree

@[simp] theorem voidFree_base (b : BaseType) : (base b).voidFree = true ↔ b ≠ .void := by
  simp [voidFree]

@[simp] theorem voidFree_pointer (t : Ty) : (pointer t).voidFree = t.voidFree := rfl

theorem isVoid_iff {t : Ty} : t.isVoid = true ↔ t = void := by
  simp [isVoid]

theorem isVoid_eq_false {t : Ty} : t.isVoid = false ↔ t ≠ void := by
  simp [isVoid]

theorem ne_void_of_voidFree {t : Ty} (h : t.voidFree = true) : t ≠ void := by
  rintro rfl
  simp at h

theorem voidFree_of_isResult {t : Ty} (h : t.isResult = true) (hv : t ≠ void) :
    t.voidFree = true := by
  simpa [isResult, isVoid, hv] using h

theorem isResult_of_voidFree {t : Ty} (h : t.voidFree = true) : t.isResult = true := by
  simp [isResult, h]

end Ty

namespace Expr

variable {α β : Type}

mutual

/-- Whether no literal and no conversion in the expression has `void` in its type. -/
def voidFree : Expr α → Bool
  | name _ _ => true
  | number _ _ type => type ≠ .void
  | call _ _ args => listVoidFree args
  | unary _ _ operand => operand.voidFree
  | binary _ _ left right => left.voidFree && right.voidFree
  | paren _ inner => inner.voidFree
  | cast _ operand target => operand.voidFree && target.voidFree

def listVoidFree : List (Expr α) → Bool
  | [] => true
  | e :: rest => e.voidFree && listVoidFree rest

end

end Expr

namespace Stmt

variable {α β : Type}

mutual

/-- Whether no literal, conversion or declaration in the statement has `void` in its type. -/
def voidFree : Stmt α → Bool
  | cond _ arms otherwise => armsVoidFree arms && elseVoidFree otherwise
  | loop _ condition body => condition.voidFree && listVoidFree body
  | ret _ value => value.all Expr.voidFree
  | declare _ _ _ type initial => type.voidFree && initial.voidFree
  | expr _ value => value.voidFree

def listVoidFree : List (Stmt α) → Bool
  | [] => true
  | s :: rest => s.voidFree && listVoidFree rest

def armVoidFree : Arm α → Bool
  | ⟨condition, body, _⟩ => condition.voidFree && listVoidFree body

def armsVoidFree : List (Arm α) → Bool
  | [] => true
  | a :: rest => armVoidFree a && armsVoidFree rest

def elseVoidFree : Option (List (Stmt α)) → Bool
  | none => true
  | some body => listVoidFree body

end

end Stmt

/-- Whether the parameters have values, and the result has values or is `void`. -/
def Signature.voidFree (s : Signature) : Bool :=
  s.parameters.all (·.type.voidFree) && s.result.isResult

@[simp] theorem Func.map_signature {α β : Type} (f : α → β) (g : Func α) :
    (g.map f).signature = g.signature := by
  cases g <;> rfl

/-- The definition that a function declaration holds, and whether it is exported. -/
def Func.definition? {α : Type} : Func α → Option (Bool × FuncDef α)
  | plain d => some (false, d)
  | exported d => some (true, d)
  | imported _ => none

/-- The function definitions of a program, in order; each says whether it is exported. -/
def Program.definitions {α : Type} (p : Program α) : List (Bool × FuncDef α) :=
  p.funcs.filterMap Func.definition?

/-- Whether `void` occurs in the function only as the type of what gives no value. -/
def Func.voidFree {α : Type} (f : Func α) : Bool :=
  f.signature.voidFree && f.definition?.all fun d => Stmt.listVoidFree d.2.body

def Program.voidFree {α : Type} (p : Program α) : Bool :=
  p.funcs.all Func.voidFree

end Wattle
