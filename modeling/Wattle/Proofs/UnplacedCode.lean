import Wattle.Lower.Program
import Wattle.Proofs.DeclaredLocals
import Wattle.Proofs.Selection
import Wattle.Proofs.Unplaced

/-!
# Code does not depend on places

Lowering looks at the numbers and types of nodes and never at their places, so programs that
differ in their places only become the same module.
-/

namespace Wattle

namespace Lower

mutual

theorem expr_unplaced (scope : Scope Nat) : (e : Expr TypedNode) →
    expr scope (e.map TypedNode.unplaced) = expr scope e
  | .name _ _ => rfl
  | .number _ _ _ => rfl
  | .call _ callee args => by simp only [Expr.map, expr, exprs_unplaced scope args]
  | .unary _ .negate operand => by
      simp only [Expr.map, expr, expr_unplaced scope operand, TypedNode.unplaced]
  | .unary _ .deref operand => by
      simp only [Expr.map, expr, expr_unplaced scope operand, TypedNode.unplaced]
  | .unary _ .logicalNot operand => by simp only [Expr.map, expr, expr_unplaced scope operand]
  | .binary _ op left right => by
      by_cases hop : op = .assign
      · subst hop
        -- only names and reads through a pointer are targets
        match left with
        | .name _ _ => simp only [Expr.map, expr, if_true, expr_unplaced scope right]
        | .unary _ .deref address =>
            simp only [Expr.map, expr, if_true, expr_unplaced scope address,
              expr_unplaced scope right, TypedNode.unplaced]
        | .unary _ .negate _ | .unary _ .logicalNot _ | .number _ _ _ | .call _ _ _
        | .binary _ _ _ _ | .paren _ _ | .cast _ _ _ => simp only [Expr.map, expr, if_true]
      · simp only [Expr.map, expr_binary hop, expr_unplaced scope left, expr_unplaced scope right,
          Check.type_unplaced]
  | .paren _ inner => by simp only [Expr.map, expr, expr_unplaced scope inner]
  | .cast _ operand target => by
      simp only [Expr.map, expr, expr_unplaced scope operand, Check.type_unplaced]

theorem exprs_unplaced (scope : Scope Nat) : (es : List (Expr TypedNode)) →
    exprs scope (Expr.mapList TypedNode.unplaced es) = exprs scope es
  | [] => rfl
  | e :: rest => by
      simp only [Expr.mapList, exprs, expr_unplaced scope e, exprs_unplaced scope rest]

end

theorem exprHere_unplaced (e : Expr TypedNode) :
    exprHere (e.map TypedNode.unplaced) = exprHere e := by
  simp only [exprHere, expr_unplaced]

theorem returned_unplaced (value : Option (Expr TypedNode)) :
    returned (value.map (Expr.map TypedNode.unplaced)) = returned value := by
  cases value with
  | none => rfl
  | some value => simp only [Option.map_some, returned, exprHere_unplaced]

section Bodies

variable (slots : SlotTable)

mutual

theorem stmt_unplaced : (s : Stmt TypedNode) →
    stmt slots (s.unplaced TypedNode.unplaced) = stmt slots s
  | .cond _ branches otherwise => by
      simp only [Stmt.unplaced, stmt, arms_unplaced branches, elseBody_unplaced otherwise]
  | .loop _ condition body => by
      simp only [Stmt.unplaced, stmt, exitUnless, exprHere_unplaced, stmts_unplaced body]
  | .ret _ value => by simp only [Stmt.unplaced, stmt, returned_unplaced]
  | .declare node _ name _ initial => by
      simp only [Stmt.unplaced, stmt, exprHere_unplaced, Node.unplaced]
  | .expr _ value => by
      have hvalue : (value.map TypedNode.unplaced).hasValue = value.hasValue := by
        simp only [Expr.hasValue, Check.type_unplaced]
      simp only [Stmt.unplaced, stmt, exprHere_unplaced, hvalue]

theorem stmts_unplaced : (body : List (Stmt TypedNode)) →
    stmts slots (Stmt.listUnplaced TypedNode.unplaced body) = stmts slots body
  | [] => rfl
  | s :: rest => by simp only [Stmt.listUnplaced, stmts, stmt_unplaced s, stmts_unplaced rest]

theorem arm_unplaced : (a : Arm TypedNode) →
    arm slots (Stmt.armUnplaced TypedNode.unplaced a) = arm slots a
  | ⟨condition, body, _⟩ => by
      simp only [Stmt.armUnplaced, arm, exitUnless, exprHere_unplaced, stmts_unplaced body]

theorem arms_unplaced : (branches : List (Arm TypedNode)) →
    arms slots (Stmt.armsUnplaced TypedNode.unplaced branches) = arms slots branches
  | [] => rfl
  | a :: rest => by simp only [Stmt.armsUnplaced, arms, arm_unplaced a, arms_unplaced rest]

theorem elseBody_unplaced : (otherwise : Option (List (Stmt TypedNode))) →
    elseBody slots (Stmt.elseUnplaced TypedNode.unplaced otherwise) = elseBody slots otherwise
  | none => rfl
  | some body => by simp only [Stmt.elseUnplaced, elseBody, stmts_unplaced body]

end

end Bodies

section Locals

variable {α : Type} (f : α → α)

mutual

theorem locals_unplaced : (s : Stmt α) → (s.unplaced f).locals = s.locals
  | .cond _ branches otherwise => by
      simp only [Stmt.unplaced, Stmt.locals, armsLocals_unplaced branches,
        elseLocals_unplaced otherwise]
  | .loop _ _ body => by simp only [Stmt.unplaced, Stmt.locals, listLocals_unplaced body]
  | .ret _ _ => rfl
  | .declare _ _ _ _ _ => rfl
  | .expr _ _ => rfl

theorem listLocals_unplaced : (body : List (Stmt α)) →
    Stmt.listLocals (Stmt.listUnplaced f body) = Stmt.listLocals body
  | [] => rfl
  | s :: rest => by
      simp only [Stmt.listUnplaced, Stmt.listLocals, locals_unplaced s, listLocals_unplaced rest]

theorem armsLocals_unplaced : (branches : List (Arm α)) →
    Stmt.armsLocals (Stmt.armsUnplaced f branches) = Stmt.armsLocals branches
  | [] => rfl
  | ⟨_, body, _⟩ :: rest => by
      simp only [Stmt.armsUnplaced, Stmt.armUnplaced, Stmt.armsLocals, Stmt.armLocals,
        listLocals_unplaced body, armsLocals_unplaced rest]

theorem elseLocals_unplaced : (otherwise : Option (List (Stmt α))) →
    Stmt.elseLocals (Stmt.elseUnplaced f otherwise) = Stmt.elseLocals otherwise
  | none => rfl
  | some body => listLocals_unplaced body

end

end Locals

theorem funcType_unplaced (s : Signature) : funcType s.unplaced = funcType s := by
  simp only [funcType, Signature.unplaced, List.mapM_map]
  rfl

theorem lowerParameterScope_unplaced (ps : List Parameter) :
    parameterScope (ps.map Parameter.unplaced) = parameterScope ps := by
  rw [parameterScope, parameterScope, List.zipIdx_map, List.foldl_map]
  rfl

theorem allocate_unplaced (d : FuncDef TypedNode) :
    SlotTable.allocate (d.unplaced TypedNode.unplaced) = SlotTable.allocate d := by
  simp only [SlotTable.allocate_eq, FuncDef.unplaced, listLocals_unplaced, Signature.unplaced,
    List.length_map]

theorem func_unplaced (exported : Bool) (d : FuncDef TypedNode) :
    func exported (d.unplaced TypedNode.unplaced) = func exported d := by
  have hbody : ∀ slots, body slots (d.unplaced TypedNode.unplaced) = body slots d := by
    intro slots
    simp only [body, FuncDef.unplaced, Signature.unplaced, lowerParameterScope_unplaced,
      stmts_unplaced]
  have hsignature : (d.unplaced TypedNode.unplaced).signature = d.signature.unplaced := rfl
  simp only [func, allocate_unplaced, hbody, hsignature, funcType_unplaced]
  rfl

theorem func?_unplaced (g : Func TypedNode) :
    func? (g.unplaced TypedNode.unplaced) = func? g := by
  cases g with
  | plain d => simp only [Func.unplaced, func?, func_unplaced]
  | exported d => simp only [Func.unplaced, func?, func_unplaced]
  | imported i => rfl

theorem importedFunc?_unplaced (g : Func TypedNode) :
    importedFunc? (g.unplaced TypedNode.unplaced) = importedFunc? g := by
  cases g with
  | plain d => rfl
  | exported d => rfl
  | imported i =>
      simp only [Func.unplaced, importedFunc?, funcType_unplaced]
      rfl

end Lower

/-- Lowering does not look at places. -/
theorem lowerProgram_unplaced (p : Program TypedNode) :
    lowerProgram (p.unplaced TypedNode.unplaced) = lowerProgram p := by
  have himported : (Lower.importedMemory? ∘ Memory.unplaced) = Lower.importedMemory? := rfl
  have hdefined : (Lower.definedMemory? ∘ Memory.unplaced) = Lower.definedMemory? := rfl
  simp only [lowerProgram, Program.unplaced, List.mapM_map, List.filterMap_map, himported,
    hdefined, Function.comp_def, Lower.importedFunc?_unplaced, Lower.func?_unplaced]

end Wattle
