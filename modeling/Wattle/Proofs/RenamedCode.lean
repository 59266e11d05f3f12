import Wattle.Lower.Program
import Wattle.Proofs.DeclaredLocals
import Wattle.Proofs.Renaming
import Wattle.Proofs.Selection

/-!
# Local names do not reach the code

Lowering replaces local names by slots. The slot of a name does not depend on how the name is
spelled, so a renamed program has the code of the program, or fails for the same reason. Only the
error of a name without a slot tells a local name.
-/

namespace Wattle

def LowerError.renamed (r : String → String) : LowerError → LowerError
  | unboundName name => unboundName (r name)
  | e => e

namespace Lower

open Wasm

/-! ## Steps that find all their names -/

/-- The step does not fail for a name without a slot. -/
def Bound {α : Type} (x : Except LowerError α) : Prop :=
  ∀ name, x ≠ .error (.unboundName name)

section Bound

variable {α β : Type}

theorem bound_ok (a : α) : Bound (.ok a : Except LowerError α) := by simp [Bound]

theorem bound_pure (a : α) : Bound (pure a : Except LowerError α) := bound_ok a

theorem Bound.bind {x : Except LowerError α} {f : α → Except LowerError β} (hx : Bound x)
    (hf : ∀ a, x = .ok a → Bound (f a)) : Bound (x >>= f) := by
  intro name h
  rcases except_bind_eq_error.mp h with h | ⟨a, ha, h⟩
  · exact hx name h
  · exact hf a ha name h

theorem Bound.then_pure {x : Except LowerError α} (hx : Bound x) (f : α → β) :
    Bound (x >>= fun a => pure (f a)) :=
  hx.bind fun a _ => bound_pure (f a)

theorem valueType_bound (type : Ty) : Bound (valueType type) := by
  rw [valueType]
  split <;> simp [Bound]

theorem binaryInstr_bound (op : BinaryOp) (type : Ty) : Bound (binaryInstr op type) := by
  rw [binaryInstr]
  refine (valueType_bound type).bind fun value _ => ?_
  split
  · simp [Bound]
  · split
    · simp [Bound]
    · exact bound_pure _

theorem baseConversion_bound (source target : BaseType) : Bound (baseConversion source target) := by
  rw [baseConversion]
  split
  · split
    · exact bound_ok _
    · dsimp only
      split
      case h_5 => split <;> exact bound_ok _
      all_goals exact bound_ok _
  · simp [Bound]

theorem conversion_bound (source target : Ty) : Bound (conversion source target) := by
  unfold conversion
  split
  · exact bound_ok _
  · split <;> simp [Bound]
  · split <;> simp [Bound]
  · exact baseConversion_bound _ _

end Bound

/-! ## Lowering renamed trees -/

/-- The outcome of lowering the renamed tree. -/
abbrev renamedOutcome {α : Type} (r : String → String) :
    Except LowerError α → Except LowerError α :=
  recast (LowerError.renamed r) id

/-- `p'` lowers the renamed tree that `p` lowers, to the same code. -/
abbrev EmitsRenamed {α : Type} (r : String → String) (p p' : Emitter α) : Prop :=
  Recasts (Scope.renamed r) (LowerError.renamed r) id p p'

/-- Only the error of a name without a slot tells a local name. -/
theorem Bound.renamedOutcome_eq {α : Type} {x : Except LowerError α} (h : Bound x)
    (r : String → String) : renamedOutcome r x = x := by
  match x with
  | .ok a => rfl
  | .error (.unboundName name) => exact absurd rfl (h name)
  | .error (.noConversion _ _) | .error (.voidValue _) | .error (.unsupportedOperator _ _)
  | .error (.missingSlot _) | .error .invalidTarget => rfl

theorem Bound.bind_renamed {α β : Type} {x : Except LowerError α} (h : Bound x)
    {r : String → String} {f f' : α → Except LowerError β}
    (hf : ∀ a, f' a = renamedOutcome r (f a)) : x >>= f' = renamedOutcome r (x >>= f) := by
  calc x >>= f' = renamedOutcome r x >>= f' := by rw [h.renamedOutcome_eq r]
    _ = renamedOutcome r (x >>= f) := bind_recast hf

section Trees

variable {r : String → String}

theorem slotOf_renamed (hr : Function.Injective r) (scope : Scope Nat) (name : String) :
    slotOf (scope.renamed r) (r name) = renamedOutcome r (slotOf scope name) := by
  simp only [slotOf, Scope.lookup?_renamed hr]
  cases scope.lookup? name <;> rfl

mutual

theorem expr_renamed (hr : Function.Injective r) (scope : Scope Nat) : (e : Expr TypedNode) →
    expr (scope.renamed r) (e.renamed r) = renamedOutcome r (expr scope e)
  | .name _ id => by
      simp only [Expr.renamed, expr, slotOf_renamed hr]
      exact bind_recast fun _ => rfl
  | .number _ digits type => by
      simp only [Expr.renamed, expr]
      split <;> rfl
  | .call _ callee args => by
      simp only [Expr.renamed, expr, exprs_renamed hr scope args]
      exact bind_recast fun _ => rfl
  | .unary note .negate operand => by
      simp only [Expr.renamed, expr, expr_renamed hr scope operand]
      refine (valueType_bound note.type).bind_renamed fun value => ?_
      refine bind_recast fun code => ?_
      exact (binaryInstr_bound .sub note.type).bind_renamed fun _ => rfl
  | .unary note .deref operand => by
      simp only [Expr.renamed, expr, expr_renamed hr scope operand]
      refine bind_recast fun code => ?_
      exact (valueType_bound note.type).bind_renamed fun _ => rfl
  | .unary _ .logicalNot operand => by
      simp only [Expr.renamed, expr, expr_renamed hr scope operand]
      exact bind_recast fun _ => rfl
  | .binary _ op left right => by
      by_cases hop : op = .assign
      · subst hop
        -- only names and reads through a pointer are targets
        match left with
        | .name _ id =>
            simp only [Expr.renamed, expr, if_true, slotOf_renamed hr, expr_renamed hr scope right]
            refine bind_recast fun slot => ?_
            exact bind_recast fun _ => rfl
        | .unary note .deref address =>
            simp only [Expr.renamed, expr, if_true, expr_renamed hr scope address,
              expr_renamed hr scope right]
            refine bind_recast fun place => ?_
            refine bind_recast fun value => ?_
            exact (valueType_bound note.type).bind_renamed fun _ => rfl
        | .unary _ .negate _ | .unary _ .logicalNot _ | .number _ _ _ | .call _ _ _
        | .binary _ _ _ _ | .paren _ _ | .cast _ _ _ =>
            simp only [Expr.renamed, expr, if_true]
            rfl
      · simp only [Expr.renamed, expr_binary hop, expr_renamed hr scope left,
          expr_renamed hr scope right, Expr.type_renamed]
        refine bind_recast fun first => ?_
        refine bind_recast fun second => ?_
        exact (binaryInstr_bound op left.type).bind_renamed fun _ => rfl
  | .paren _ inner => by simp only [Expr.renamed, expr, expr_renamed hr scope inner]
  | .cast _ operand target => by
      simp only [Expr.renamed, expr, expr_renamed hr scope operand, Expr.type_renamed]
      refine bind_recast fun code => ?_
      exact (conversion_bound operand.type target).bind_renamed fun _ => rfl

theorem exprs_renamed (hr : Function.Injective r) (scope : Scope Nat) :
    (es : List (Expr TypedNode)) →
    exprs (scope.renamed r) (Expr.listRenamed r es) = renamedOutcome r (exprs scope es)
  | [] => rfl
  | e :: rest => by
      simp only [Expr.listRenamed, exprs, expr_renamed hr scope e, exprs_renamed hr scope rest]
      refine bind_recast fun code => ?_
      exact bind_recast fun _ => rfl

end

theorem exprHere_renamed (hr : Function.Injective r) (e : Expr TypedNode) :
    EmitsRenamed r (exprHere e) (exprHere (e.renamed r)) :=
  Scope.asking_renamed fun scope => expr_renamed hr scope e

theorem exitUnless_renamed (hr : Function.Injective r) (condition : Expr TypedNode) :
    EmitsRenamed r (exitUnless condition) (exitUnless (condition.renamed r)) :=
  .bind (exprHere_renamed hr condition) fun _ => .pure id _

theorem returned_renamed (hr : Function.Injective r) (value : Option (Expr TypedNode)) :
    EmitsRenamed r (returned value) (returned (value.map (Expr.renamed r))) := by
  cases value with
  | none => exact .pure id _
  | some value => exact .bind (exprHere_renamed hr value) fun _ => .pure id _

theorem slotFor_bound (slots : SlotTable) (id : Nat) : Bound (slots.slotFor id) := by
  rw [SlotTable.slotFor]
  split <;> simp [Bound]

variable (slots : SlotTable)

mutual

theorem stmt_renamed (hr : Function.Injective r) : (s : Stmt TypedNode) →
    EmitsRenamed r (stmt slots s) (stmt slots (s.renamed r))
  | .cond _ branches otherwise => by
      simp only [Stmt.renamed, stmt]
      refine .bind (arms_renamed hr branches) fun codes => ?_
      exact .bind (elseBody_renamed hr otherwise) fun _ => .pure id _
  | .loop _ condition body => by
      simp only [Stmt.renamed, stmt]
      refine .bind (exitUnless_renamed hr condition) fun test => ?_
      exact .bind (Scope.within_renamed (stmts_renamed hr body)) fun _ => .pure id _
  | .ret _ value => by
      simp only [Stmt.renamed, stmt]
      exact returned_renamed hr value
  | .declare node _ name _ initial => by
      simp only [Stmt.renamed, stmt]
      refine .bind (exprHere_renamed hr initial) fun code => ?_
      have hslot := ((slotFor_bound slots node.id).renamedOutcome_eq r).symm
      refine .bind (.lift hslot) fun slot => ?_
      exact .bind (Scope.bind_renamed name slot) fun _ => .pure id _
  | .expr _ value => by
      have hvalue : (value.renamed r).hasValue = value.hasValue := by
        simp only [Expr.hasValue, Expr.type_renamed]
      simp only [Stmt.renamed, stmt, hvalue]
      exact .bind (exprHere_renamed hr value) fun _ => .pure id _

theorem stmts_renamed (hr : Function.Injective r) : (body : List (Stmt TypedNode)) →
    EmitsRenamed r (stmts slots body) (stmts slots (Stmt.listRenamed r body))
  | [] => .pure id _
  | s :: rest => by
      simp only [Stmt.listRenamed, stmts]
      refine .bind (stmt_renamed hr s) fun first => ?_
      exact .bind (stmts_renamed hr rest) fun _ => .pure id _

theorem arm_renamed (hr : Function.Injective r) : (a : Arm TypedNode) →
    EmitsRenamed r (arm slots a) (arm slots (Stmt.armRenamed r a))
  | ⟨condition, body, _⟩ => by
      simp only [Stmt.armRenamed, arm]
      refine .bind (exitUnless_renamed hr condition) fun test => ?_
      exact .bind (Scope.within_renamed (stmts_renamed hr body)) fun _ => .pure id _

theorem arms_renamed (hr : Function.Injective r) : (branches : List (Arm TypedNode)) →
    EmitsRenamed r (arms slots branches) (arms slots (Stmt.armsRenamed r branches))
  | [] => .pure id _
  | a :: rest => by
      simp only [Stmt.armsRenamed, arms]
      refine .bind (arm_renamed hr a) fun first => ?_
      exact .bind (arms_renamed hr rest) fun _ => .pure id _

theorem elseBody_renamed (hr : Function.Injective r) :
    (otherwise : Option (List (Stmt TypedNode))) →
    EmitsRenamed r (elseBody slots otherwise) (elseBody slots (Stmt.elseRenamed r otherwise))
  | none => .pure id _
  | some body => by
      simp only [Stmt.elseRenamed, elseBody]
      exact .bind (Scope.within_renamed (stmts_renamed hr body)) fun _ => .pure id _

end

end Trees

section Locals

variable {α : Type} (r : String → String)

mutual

theorem locals_renamed : (s : Stmt α) → (s.renamed r).locals = s.locals
  | .cond _ branches otherwise => by
      simp only [Stmt.renamed, Stmt.locals, armsLocals_renamed branches,
        elseLocals_renamed otherwise]
  | .loop _ _ body => by simp only [Stmt.renamed, Stmt.locals, listLocals_renamed body]
  | .ret _ _ => rfl
  | .declare _ _ _ _ _ => rfl
  | .expr _ _ => rfl

theorem listLocals_renamed : (body : List (Stmt α)) →
    Stmt.listLocals (Stmt.listRenamed r body) = Stmt.listLocals body
  | [] => rfl
  | s :: rest => by
      simp only [Stmt.listRenamed, Stmt.listLocals, locals_renamed s, listLocals_renamed rest]

theorem armsLocals_renamed : (branches : List (Arm α)) →
    Stmt.armsLocals (Stmt.armsRenamed r branches) = Stmt.armsLocals branches
  | [] => rfl
  | ⟨_, body, _⟩ :: rest => by
      simp only [Stmt.armsRenamed, Stmt.armRenamed, Stmt.armsLocals, Stmt.armLocals,
        listLocals_renamed body, armsLocals_renamed rest]

theorem elseLocals_renamed : (otherwise : Option (List (Stmt α))) →
    Stmt.elseLocals (Stmt.elseRenamed r otherwise) = Stmt.elseLocals otherwise
  | none => rfl
  | some body => listLocals_renamed body

end

end Locals

section Programs

variable (r : String → String)

theorem bound_mapM {α β : Type} {f : α → Except LowerError β} {l : List α}
    (h : ∀ a ∈ l, Bound (f a)) : Bound (l.mapM f) := by
  intro name hname
  obtain ⟨before, a, behind, rfl, -, ha⟩ := except_mapM_eq_error.mp hname
  exact h a (List.mem_append_right _ List.mem_cons_self) name ha

theorem funcType_bound (s : Signature) : Bound (funcType s) := by
  rw [funcType]
  refine (bound_mapM fun p _ => valueType_bound p.type).bind fun params _ => ?_
  dsimp only
  split
  · exact (bound_pure none).then_pure _
  · rw [map_eq_pure_bind]
    exact ((valueType_bound s.result).then_pure some).then_pure _

theorem funcType_renamed (s : Signature) : funcType (s.renamed r) = funcType s := by
  simp only [funcType, Signature.renamed, List.mapM_map]
  rfl

theorem allocate_bound {α : Type} (d : FuncDef α) : Bound (SlotTable.allocate d) := by
  rw [SlotTable.allocate_eq]
  exact (bound_mapM fun l _ => valueType_bound l.type).then_pure _

theorem allocate_renamed {α : Type} (d : FuncDef α) :
    SlotTable.allocate (d.renamed r) = SlotTable.allocate d := by
  simp only [SlotTable.allocate_eq, FuncDef.renamed, listLocals_renamed, Signature.renamed,
    List.length_map]

theorem parameterScope_renamed (ps : List Parameter) :
    parameterScope (ps.map (Parameter.renamed r)) = (parameterScope ps).renamed r := by
  rw [parameterScope, parameterScope, List.zipIdx_map, List.foldl_map]
  exact Scope.foldl_insert_renamed r (fun q => q.1.name) Prod.snd ps.zipIdx Scope.root

variable {r}

theorem body_renamed (hr : Function.Injective r) (slots : SlotTable) (d : FuncDef TypedNode) :
    body slots (d.renamed r) = renamedOutcome r (body slots d) := by
  have hrun := stmts_renamed slots hr d.body (parameterScope d.signature.parameters)
  simp only [body, FuncDef.renamed, Signature.renamed, parameterScope_renamed, hrun]
  cases stmts slots d.body (parameterScope d.signature.parameters) <;> rfl

theorem func_renamed (hr : Function.Injective r) (exported : Bool) (d : FuncDef TypedNode) :
    func exported (d.renamed r) = renamedOutcome r (func exported d) := by
  have hsignature : (d.renamed r).signature = d.signature.renamed r := rfl
  simp only [func, allocate_renamed, body_renamed hr, hsignature, funcType_renamed]
  refine (allocate_bound d).bind_renamed fun slots => ?_
  refine bind_recast fun code => ?_
  exact (funcType_bound d.signature).bind_renamed fun _ => rfl

theorem func?_renamed (hr : Function.Injective r) (f : Func TypedNode) :
    func? (f.renamed r) = renamedOutcome r (func? f) := by
  cases f with
  | plain d =>
      simp only [Func.renamed, func?, func_renamed hr]
      exact bind_recast fun _ => rfl
  | exported d =>
      simp only [Func.renamed, func?, func_renamed hr]
      exact bind_recast fun _ => rfl
  | imported i => rfl

theorem importedFunc?_bound (f : Func TypedNode) : Bound (importedFunc? f) := by
  cases f with
  | plain d => exact bound_pure none
  | exported d => exact bound_pure none
  | imported i => exact (funcType_bound i.signature).then_pure _

theorem importedFunc?_renamed (r : String → String) (f : Func TypedNode) :
    importedFunc? (f.renamed r) = importedFunc? f := by
  cases f with
  | plain d => rfl
  | exported d => rfl
  | imported i =>
      simp only [Func.renamed, importedFunc?, funcType_renamed]
      rfl

end Programs

end Lower

/-- A renamed program has the code of the program. -/
theorem lowerProgram_renamed {r : String → String} (hr : Function.Injective r)
    (p : Program TypedNode) :
    lowerProgram (p.renamed r) = Lower.renamedOutcome r (lowerProgram p) := by
  have himports : (p.funcs.map (Func.renamed r)).mapM Lower.importedFunc? =
      p.funcs.mapM Lower.importedFunc? := by
    simp only [List.mapM_map, Function.comp_def, Lower.importedFunc?_renamed]
  have hfuncs : (p.funcs.map (Func.renamed r)).mapM Lower.func? =
      Lower.renamedOutcome r (p.funcs.mapM Lower.func?) := by
    rw [mapM_recast (Lower.func?_renamed hr), List.map_id_fun]
  simp only [lowerProgram, Program.renamed, himports, hfuncs]
  have hbound := Lower.bound_mapM (l := p.funcs) fun f _ => Lower.importedFunc?_bound f
  refine hbound.bind_renamed fun imports => ?_
  exact bind_recast fun _ => rfl

end Wattle
