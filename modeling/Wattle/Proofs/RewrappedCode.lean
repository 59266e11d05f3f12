import Wattle.Compile
import Wattle.Proofs.DeclaredLocals
import Wattle.Proofs.Rewrapping
import Wattle.Proofs.Selection

/-!
# Code does not depend on parentheses

The code of an expression in parentheses is the code of what they enclose, and parentheses that
have the type of what they enclose hide nothing that lowering asks for. So checked programs that
differ in parentheses become the same module, or cannot be lowered for the same reason.
-/

namespace Wattle

namespace Lower

mutual

theorem expr_rewrapped (scope : Scope Nat) {e e' : Expr TypedNode}
    (h : e.Rewrapped TypedNode.Wraps e') : expr scope e = expr scope e' := by
  match h with
  | .same h => exact expr_sameForm scope h
  | .wrapped _ h =>
      simp only [expr]
      exact expr_rewrapped scope h
  | .unwrapped _ h =>
      simp only [expr]
      exact expr_rewrapped scope h

theorem expr_sameForm (scope : Scope Nat) {e e' : Expr TypedNode}
    (h : e.SameForm TypedNode.Wraps e') : expr scope e = expr scope e' := by
  match h with
  | .name _ _ => rfl
  | .number _ _ _ => rfl
  | .call _ callee h => simp only [expr, exprs_rewrapped scope h]
  | .unary _ op h => cases op <;> simp only [expr, expr_rewrapped scope h]
  | .binary _ hop hleft hright =>
      simp only [expr_binary hop, expr_rewrapped scope hleft, expr_rewrapped scope hright,
        hleft.type_eq]
  | .assign _ htarget hvalue =>
      -- only names and reads through a pointer are targets
      match htarget with
      | .name _ _ => simp only [expr, if_true, expr_rewrapped scope hvalue]
      | .unary _ .deref haddress =>
          simp only [expr, if_true, expr_rewrapped scope haddress, expr_rewrapped scope hvalue]
      | .unary _ .negate _ | .unary _ .logicalNot _ | .number _ _ _ | .call _ _ _
      | .binary _ _ _ _ | .assign _ _ _ | .paren _ _ | .cast _ _ _ => simp only [expr, if_true]
  | .paren _ h =>
      simp only [expr]
      exact expr_rewrapped scope h
  | .cast _ target h => simp only [expr, expr_rewrapped scope h, h.type_eq]

theorem exprs_rewrapped (scope : Scope Nat) {es es' : List (Expr TypedNode)}
    (h : Expr.AllRewrapped TypedNode.Wraps es es') : exprs scope es = exprs scope es' := by
  match h with
  | .nil => rfl
  | .cons h hrest => simp only [exprs, expr_rewrapped scope h, exprs_rewrapped scope hrest]

end

theorem exprHere_rewrapped {e e' : Expr TypedNode} (h : e.Rewrapped TypedNode.Wraps e') :
    exprHere e = exprHere e' := by
  simp only [exprHere, expr_rewrapped _ h]

section Bodies

variable (slots : SlotTable)

mutual

theorem stmt_rewrapped {s s' : Stmt TypedNode} (h : s.Rewrapped TypedNode.Wraps s') :
    stmt slots s = stmt slots s' := by
  match h with
  | .cond _ harms hotherwise =>
      simp only [stmt, arms_rewrapped harms, elseBody_rewrapped hotherwise]
  | .loop _ hcondition hbody =>
      simp only [stmt, exitUnless, exprHere_rewrapped hcondition, stmts_rewrapped hbody]
  | .finish _ => rfl
  | .ret _ h => simp only [stmt, returned, exprHere_rewrapped h]
  | .declare _ _ _ _ h => simp only [stmt, exprHere_rewrapped h]
  | @Stmt.Rewrapped.expr _ _ _ value value' h =>
      have hvalue : value.hasValue = value'.hasValue := by
        rw [Expr.hasValue, Expr.hasValue, h.type_eq]
      simp only [stmt, exprHere_rewrapped h, hvalue]

theorem stmts_rewrapped {body body' : List (Stmt TypedNode)}
    (h : Stmt.ListRewrapped TypedNode.Wraps body body') : stmts slots body = stmts slots body' := by
  match h with
  | .nil => rfl
  | .cons h hrest => simp only [stmts, stmt_rewrapped h, stmts_rewrapped hrest]

theorem arms_rewrapped {branches branches' : List (Arm TypedNode)}
    (h : Stmt.ArmsRewrapped TypedNode.Wraps branches branches') :
    arms slots branches = arms slots branches' := by
  match h with
  | .nil => rfl
  | .cons _ hcondition hbody hrest =>
      simp only [arms, arm, exitUnless, exprHere_rewrapped hcondition, stmts_rewrapped hbody,
        arms_rewrapped hrest]

theorem elseBody_rewrapped {otherwise otherwise' : Option (List (Stmt TypedNode))}
    (h : Stmt.ElseRewrapped TypedNode.Wraps otherwise otherwise') :
    elseBody slots otherwise = elseBody slots otherwise' := by
  match h with
  | .none => rfl
  | .some h => simp only [elseBody, stmts_rewrapped h]

end

end Bodies

section Locals

variable {α : Type} {fits : α → Expr α → Prop}

mutual

theorem locals_rewrapped {s s' : Stmt α} (h : s.Rewrapped fits s') : s.locals = s'.locals := by
  match h with
  | .cond _ harms hotherwise =>
      simp only [Stmt.locals, armsLocals_rewrapped harms, elseLocals_rewrapped hotherwise]
  | .loop _ _ hbody => simp only [Stmt.locals, listLocals_rewrapped hbody]
  | .finish _ | .ret _ _ | .declare _ _ _ _ _ | .expr _ _ => rfl

theorem listLocals_rewrapped {body body' : List (Stmt α)} (h : Stmt.ListRewrapped fits body body') :
    Stmt.listLocals body = Stmt.listLocals body' := by
  match h with
  | .nil => rfl
  | .cons h hrest =>
      simp only [Stmt.listLocals, locals_rewrapped h, listLocals_rewrapped hrest]

theorem armsLocals_rewrapped {branches branches' : List (Arm α)}
    (h : Stmt.ArmsRewrapped fits branches branches') :
    Stmt.armsLocals branches = Stmt.armsLocals branches' := by
  match h with
  | .nil => rfl
  | .cons _ _ hbody hrest =>
      simp only [Stmt.armsLocals, Stmt.armLocals, listLocals_rewrapped hbody,
        armsLocals_rewrapped hrest]

theorem elseLocals_rewrapped {otherwise otherwise' : Option (List (Stmt α))}
    (h : Stmt.ElseRewrapped fits otherwise otherwise') :
    Stmt.elseLocals otherwise = Stmt.elseLocals otherwise' := by
  match h with
  | .none => rfl
  | .some h => exact listLocals_rewrapped h

end

end Locals

theorem func_rewrapped (exported : Bool) (node : Node) (signature : Signature)
    {code code' : List (Stmt TypedNode)} (h : Stmt.ListRewrapped TypedNode.Wraps code code') :
    func exported ⟨node, signature, code⟩ = func exported ⟨node, signature, code'⟩ := by
  simp only [func, SlotTable.allocate_eq, body, listLocals_rewrapped h, stmts_rewrapped _ h]

theorem func?_rewrapped {f f' : Func TypedNode} (h : f.Rewrapped TypedNode.Wraps f') :
    func? f = func? f' := by
  cases h with
  | plain node signature h => simp only [func?, func_rewrapped false node signature h]
  | exported node signature h => simp only [func?, func_rewrapped true node signature h]
  | imported declaration => rfl

theorem importedFunc?_rewrapped {f f' : Func TypedNode} (h : f.Rewrapped TypedNode.Wraps f') :
    importedFunc? f = importedFunc? f' := by
  cases h <;> rfl

theorem mapM_rewrapped {β : Type} {step : Func TypedNode → Except LowerError β}
    (hstep : ∀ f f', f.Rewrapped TypedNode.Wraps f' → step f = step f')
    {funcs funcs' : List (Func TypedNode)}
    (h : List.Forall₂ (Func.Rewrapped TypedNode.Wraps) funcs funcs') :
    funcs.mapM step = funcs'.mapM step := by
  induction h with
  | nil => rfl
  | cons h _ ih => rw [List.mapM_cons, List.mapM_cons, hstep _ _ h, ih]

end Lower

/-- Lowering does not look at parentheses. -/
theorem lowerProgram_rewrapped {p p' : Program TypedNode} (h : p.Rewrapped TypedNode.Wraps p') :
    lowerProgram p = lowerProgram p' := by
  simp only [lowerProgram, h.memories, Lower.mapM_rewrapped @Lower.importedFunc?_rewrapped h.funcs,
    Lower.mapM_rewrapped @Lower.func?_rewrapped h.funcs]

/-- Take two programs that differ only in parentheses, put around any expressions but the left sides
of assignments. Either the rules allow both, and then corresponding expressions get equal types and
both become the same text or cannot be lowered for the same reason, or both break the same rule. -/
theorem redundant_parentheses_do_not_matter {p p' : Program Node}
    (h : p.Rewrapped Node.Wraps p') :
    (∃ t t', checkProgram p = .ok t ∧ checkProgram p' = .ok t' ∧
      t.Rewrapped TypedNode.Wraps t' ∧
      (lowerProgram t).map Wasm.Module.text = (lowerProgram t').map Wasm.Module.text) ∨
    ∃ e e', checkProgram p = .error e ∧ checkProgram p' = .error e' ∧
      e.violation = e'.violation := by
  have hchecked := checkProgram_rewrapped h
  generalize checkProgram p = x, checkProgram p' = x' at hchecked
  cases hchecked with
  | @found t t' htyped =>
      exact .inl ⟨t, t', rfl, rfl, htyped, by rw [lowerProgram_rewrapped htyped]⟩
  | @broken e e' he => exact .inr ⟨e, e', rfl, rfl, he⟩

/-- A program with a function that has a parameter `x` and returns `value`. -/
def Program.returning (value : Expr Node) : Program Node :=
  let node : Node := ⟨0, .point ⟨1, 1⟩⟩
  ⟨[.exported ⟨node, ⟨"f", .i32, [⟨"x", .i32, node.span⟩]⟩, [.ret node (some value)]⟩], []⟩

/-- `-(x) + 1` and `(-x + (1))` are allowed and are compiled to the same text. -/
theorem parentheses_around_operands_do_not_matter :
    let node : Node := ⟨0, .point ⟨1, 1⟩⟩
    let x : Expr Node := .name node "x"
    let one : Expr Node := .number node "1" .i32
    let p := Program.returning (.binary node .add (.unary node .negate (.paren node x)) one)
    let p' := Program.returning
      (.paren node (.binary node .add (.unary node .negate x) (.paren node one)))
    let text := "(module\n  (func $f (export \"f\") (param i32) (result i32)\n    i32.const 0\n" ++
      "    local.get 0\n    i32.sub\n    i32.const 1\n    i32.add\n    return\n  )\n)\n"
    p.Rewrapped Node.Wraps p' ∧
      ∃ t t', checkProgram p = .ok t ∧ checkProgram p' = .ok t' ∧
        t.Rewrapped TypedNode.Wraps t' ∧
        (lowerProgram t).map Wasm.Module.text = .ok text ∧
        (lowerProgram t').map Wasm.Module.text = .ok text := by
  intro node x one p p' text
  have h : p.Rewrapped Node.Wraps p' := by
    refine ⟨.cons (.exported _ _ (.cons (.ret _ ?_) .nil)) .nil, rfl⟩
    have hx : (Expr.paren node x).Rewrapped Node.Wraps x :=
      .wrapped trivial (.same (.name node "x"))
    have hone : one.Rewrapped Node.Wraps (.paren node one) :=
      .unwrapped trivial (.same (.number node "1" .i32))
    have hsum := Expr.SameForm.binary node (by decide : BinaryOp.add ≠ .assign)
      (.same (.unary node .negate hx)) hone
    exact .unwrapped trivial (.same hsum)
  have hlowered : (checkProgram p).map (fun t => (lowerProgram t).map Wasm.Module.text) =
      .ok (.ok text) := by
    decide +kernel
  obtain ⟨t, ht, htext⟩ := except_map_eq_ok.mp hlowered
  rcases redundant_parentheses_do_not_matter h with ⟨u, t', hu, ht', hwraps, hsame⟩ | ⟨e, -, he, -⟩
  · obtain rfl := Except.ok.inj (ht.symm.trans hu)
    exact ⟨h, t, t', ht, ht', hwraps, htext, hsame.symm.trans htext⟩
  · exact nomatch ht.symm.trans he

end Wattle
