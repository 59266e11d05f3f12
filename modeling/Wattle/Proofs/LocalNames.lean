import Mathlib.Logic.Equiv.Basic
import Wattle.Proofs.LoweringErrors
import Wattle.Proofs.RenamedCode

/-!
# Local names are private

A checked program uses no name without a slot, whatever else lowering may refuse in it. So the
spelling of its local names is seen neither in its code nor in an error of lowering: under new
names, different ones for different ones, it becomes the same module.
-/

namespace Wattle

namespace Lower

open Wasm

/-! ## Expressions -/

theorem Bound.of_bind {α β : Type} {x : Except LowerError α} {f : α → Except LowerError β}
    (h : Bound (x >>= f)) : Bound x :=
  fun name hx => h name (except_bind_eq_error.mpr (.inl hx))

section Expressions

variable {table : Signatures} {scope : Scope Symbol} {slots : Scope Nat}

/-- An assignment evaluates what its target evaluates, and stores. -/
theorem assign_bound {note : TypedNode} {target value : Expr TypedNode}
    (htarget : Bound (expr slots target)) (hvalue : Bound (expr slots value)) :
    Bound (expr slots (.binary note .assign target value)) := by
  match target, htarget with
  | .name _ id, htarget =>
      simp only [expr, if_true] at htarget ⊢
      exact htarget.of_bind.bind fun slot _ => hvalue.then_pure _
  | .unary inner .deref address, htarget =>
      simp only [expr, if_true] at htarget ⊢
      refine htarget.of_bind.bind fun place _ => ?_
      refine hvalue.bind fun code _ => ?_
      exact (valueType_bound inner.type).then_pure _
  | .unary _ .negate _, _ | .unary _ .logicalNot _, _ | .number _ _ _, _ | .call _ _ _, _
  | .binary _ _ _ _, _ | .paren _ _, _ | .cast _ _ _, _ =>
      simp [expr, Bound]

mutual

/-- A checked expression uses no name without a slot. -/
theorem expr_bound (hknows : Knows scope slots) : (e : Expr Node) → {t : Expr TypedNode} →
    Check.expr table scope e = .ok t → Bound (expr slots t)
  | .name node id, t, h => by
      simp only [Check.expr, except_bind_eq_ok, except_pure_eq_ok, Check.resolve_eq_ok] at h
      obtain ⟨symbol, hfound, rfl⟩ := h
      obtain ⟨slot, hslot⟩ := exists_slotOf hknows hfound
      simp only [expr, hslot]
      exact bound_pure _
  | .number node digits type, t, h => by
      simp only [Check.expr, except_pure_eq_ok] at h
      subst h
      simp only [expr]
      split
      · exact bound_ok _
      · simp [Bound]
  | .call node callee args, t, h => by
      simp only [Check.expr] at h
      split at h
      · cases h
      · next signature _ =>
        split at h
        · simp only [except_bind_eq_ok, except_pure_eq_ok] at h
          obtain ⟨typed, hargs, rfl⟩ := h
          simp only [expr]
          exact (exprs_bound hknows args callee 1 signature.parameters hargs).then_pure _
        · cases h
  | .unary node op operand, t, h => by
      simp only [Check.expr, except_bind_eq_ok, except_pure_eq_ok] at h
      obtain ⟨inner, hinner, type, -, rfl⟩ := h
      have hoperand := expr_bound hknows operand hinner
      cases op with
      | negate =>
          simp only [expr]
          refine (valueType_bound type).bind fun value _ => ?_
          refine hoperand.bind fun code _ => ?_
          exact (binaryInstr_bound .sub type).then_pure _
      | deref =>
          simp only [expr]
          exact hoperand.bind fun code _ => (valueType_bound type).then_pure _
      | logicalNot =>
          simp only [expr]
          exact hoperand.then_pure _
  | .binary node op left right, t, h => by
      simp only [Check.expr] at h
      split at h
      · next hop =>
        subst hop
        simp only [except_bind_eq_ok, except_pure_eq_ok] at h
        obtain ⟨_, -, target, htarget, value, hvalue, _, -, rfl⟩ := h
        exact assign_bound (expr_bound hknows left htarget) (expr_bound hknows right hvalue)
      · next hop =>
        simp only [except_bind_eq_ok, except_pure_eq_ok] at h
        obtain ⟨first, hfirst, second, hsecond, type, -, rfl⟩ := h
        rw [expr_binary hop]
        refine (expr_bound hknows left hfirst).bind fun code _ => ?_
        refine (expr_bound hknows right hsecond).bind fun code' _ => ?_
        exact (binaryInstr_bound op first.type).then_pure _
  | .paren node inner, t, h => by
      simp only [Check.expr, except_bind_eq_ok, except_pure_eq_ok] at h
      obtain ⟨typed, htyped, rfl⟩ := h
      simp only [expr]
      exact expr_bound hknows inner htyped
  | .cast node operand target, t, h => by
      simp only [Check.expr, except_bind_eq_ok] at h
      obtain ⟨typed, htyped, h⟩ := h
      split at h
      · cases h
      · obtain rfl := except_pure_eq_ok.mp h
        simp only [expr]
        refine (expr_bound hknows operand htyped).bind fun code _ => ?_
        exact (conversion_bound typed.type target).then_pure _

theorem exprs_bound (hknows : Knows scope slots) : (args : List (Expr Node)) →
    (callee : String) → (index : Nat) → (parameters : List Parameter) →
    {ts : List (Expr TypedNode)} →
    Check.arguments table scope callee index args parameters = .ok ts → Bound (exprs slots ts)
  | [], _, _, _, ts, h => by
      simp only [Check.arguments, except_pure_eq_ok] at h
      subst h
      exact bound_ok []
  | _ :: _, _, _, [], ts, h => by
      simp only [Check.arguments, except_pure_eq_ok] at h
      subst h
      exact bound_ok []
  | arg :: args, callee, index, parameter :: parameters, ts, h => by
      simp only [Check.arguments, except_bind_eq_ok, except_pure_eq_ok] at h
      obtain ⟨first, hfirst, _, -, rest, hrest, rfl⟩ := h
      simp only [exprs]
      refine (expr_bound hknows arg hfirst).bind fun code _ => ?_
      exact (exprs_bound hknows args callee (index + 1) parameters hrest).then_pure _

end

end Expressions

/-! ## Statements -/

/-- The step does not fail for a name without a slot, and leaves slots for the names of `scope`. -/
def LeavesBound {α : Type} (x : Emitter α) (slots : Scope Nat) (scope : Scope Symbol) : Prop :=
  match x slots with
  | .ok _ t => Knows scope t
  | .error e _ => ∀ name, e ≠ .unboundName name

section LeavesBound

variable {α β : Type} {x : Emitter α} {f : α → Emitter β} {slots : Scope Nat}
  {scope scope' : Scope Symbol}

theorem leavesBound_pure (a : α) (h : Knows scope slots) :
    LeavesBound (pure a : Emitter α) slots scope :=
  h

theorem LeavesBound.bind (hx : LeavesBound x slots scope)
    (hf : ∀ a t, Knows scope t → LeavesBound (f a) t scope') :
    LeavesBound (x >>= f) slots scope' := by
  simp only [LeavesBound, Bind.bind, EStateM.bind] at hx ⊢
  revert hx
  cases x slots with
  | ok a t => exact hf a t
  | error e t => exact id

theorem LeavesBound.then_pure (hx : LeavesBound x slots scope) (g : α → β) :
    LeavesBound (x >>= fun a => pure (g a)) slots scope :=
  hx.bind fun a _ ht => leavesBound_pure (g a) ht

theorem LeavesBound.within (hx : LeavesBound x slots.push scope) :
    LeavesBound (Scope.within x) slots scope.pop := by
  simp only [LeavesBound, Scope.within] at hx ⊢
  revert hx
  cases x slots.push with
  | ok a t => exact fun ht => ht.pop
  | error e t => exact id

theorem leavesBound_lift {y : Except LowerError α} (hy : Bound y) (h : Knows scope slots) :
    LeavesBound (ofExcept y : Emitter α) slots scope := by
  cases y with
  | ok a => exact h
  | error e => exact fun name he => hy name (he ▸ rfl)

theorem leavesBound_asking {q : Scope Nat → Except LowerError α} (hq : Bound (q slots))
    (h : Knows scope slots) : LeavesBound (Scope.asking q) slots scope := by
  simp only [LeavesBound, Scope.asking]
  revert hq
  cases q slots with
  | ok a => exact fun _ => h
  | error e => exact fun hq name he => hq name (he ▸ rfl)

theorem leavesBound_bind {name : String} {slot : Nat} {symbol : Symbol} (h : Knows scope slots) :
    LeavesBound (Scope.bind name slot : Emitter Unit) slots (scope.insert name symbol) :=
  h.insert name trivial

end LeavesBound

section Statements

variable {table : Signatures} {result : Ty} (slotTable : SlotTable)

theorem exprHere_bound {scope : Scope Symbol} {slots : Scope Nat} {e : Expr Node}
    {t : Expr TypedNode} (hknows : Knows scope slots) (h : Check.expr table scope e = .ok t) :
    LeavesBound (exprHere t) slots scope :=
  leavesBound_asking (expr_bound hknows e h) hknows

theorem exitUnless_bound {scope : Scope Symbol} {slots : Scope Nat} {e : Expr Node}
    {t : Expr TypedNode} (hknows : Knows scope slots) (h : Check.expr table scope e = .ok t) :
    LeavesBound (exitUnless t) slots scope :=
  (exprHere_bound hknows h).then_pure _

theorem returned_bound {scope scope' : Scope Symbol} {slots : Scope Nat} {location : Location}
    {value : Option (Expr Node)} {t : Option (Expr TypedNode)} (hknows : Knows scope slots)
    (h : Check.returned table result location value scope = .ok t scope') :
    LeavesBound (returned t) slots scope' := by
  cases value with
  | none =>
      simp only [Check.returned] at h
      split at h
      · obtain ⟨rfl, rfl⟩ := state_pure_eq_ok.mp h
        exact hknows
      · exact absurd h state_throw_ne_ok
  | some value =>
      simp only [Check.returned] at h
      split at h
      · exact absurd h state_throw_ne_ok
      · simp only [state_bind_eq_ok, state_pure_eq_ok, Check.typedHere_eq_ok] at h
        obtain ⟨typed, _, ⟨hvalue, -, rfl⟩, rfl, rfl⟩ := h
        simp only [returned]
        exact (exprHere_bound hknows hvalue).then_pure _

mutual

/-- A checked statement uses no name without a slot, and leaves slots for the names that the
checker knows behind it. -/
theorem stmt_bound : (s : Stmt Node) → {t : Stmt TypedNode} → {scope scope' : Scope Symbol} →
    {slots : Scope Nat} → Knows scope slots → Check.stmt table result s scope = .ok t scope' →
    LeavesBound (stmt slotTable t) slots scope'
  | .cond node first otherwise, t, scope, scope', slots, hknows, h => by
      simp only [Check.stmt, state_bind_eq_ok, state_pure_eq_ok] at h
      obtain ⟨typed, _, harms, last, _, helse, rfl, rfl⟩ := h
      simp only [stmt]
      refine (arms_bound first hknows harms).bind fun codes u hu => ?_
      exact (elseBody_bound otherwise hu helse).then_pure _
  | .loop node condition body, t, scope, scope', slots, hknows, h => by
      simp only [Check.stmt, state_bind_eq_ok, state_pure_eq_ok, Check.typedHere_eq_ok,
        Scope.within_eq_ok] at h
      obtain ⟨test, _, ⟨htest, -, rfl⟩, inside, _, ⟨u, hbody, rfl⟩, rfl, rfl⟩ := h
      simp only [stmt]
      refine (exitUnless_bound hknows htest).bind fun code v hv => ?_
      exact (stmts_bound body hv.push hbody).within.then_pure _
  | .ret node value, t, scope, scope', slots, hknows, h => by
      simp only [Check.stmt, state_bind_eq_ok, state_pure_eq_ok] at h
      obtain ⟨typed, _, hreturned, rfl, rfl⟩ := h
      simp only [stmt]
      exact returned_bound hknows hreturned
  | .declare node kind name type initial, t, scope, scope', slots, hknows, h => by
      simp only [Check.stmt, state_bind_eq_ok, state_pure_eq_ok, Check.typedHere_eq_ok,
        Scope.bind_eq_ok] at h
      obtain ⟨typed, _, ⟨hinitial, -, rfl⟩, _, _, rfl, rfl, rfl⟩ := h
      simp only [stmt]
      refine (exprHere_bound hknows hinitial).bind fun code u hu => ?_
      refine (leavesBound_lift (slotFor_bound slotTable node.id) hu).bind fun slot v hv => ?_
      exact (leavesBound_bind hv).then_pure _
  | .expr node value, t, scope, scope', slots, hknows, h => by
      simp only [Check.stmt, state_bind_eq_ok, state_pure_eq_ok, Check.exprHere_eq_ok] at h
      obtain ⟨typed, _, ⟨hvalue, rfl⟩, rfl, rfl⟩ := h
      simp only [stmt]
      exact (exprHere_bound hknows hvalue).then_pure _

theorem stmts_bound {unreachable : Bool} : (body : List (Stmt Node)) →
    {ts : List (Stmt TypedNode)} → {scope scope' : Scope Symbol} → {slots : Scope Nat} →
    Knows scope slots → Check.stmts table result unreachable body scope = .ok ts scope' →
    LeavesBound (stmts slotTable ts) slots scope'
  | [], ts, scope, scope', slots, hknows, h => by
      simp only [Check.stmts, state_pure_eq_ok] at h
      obtain ⟨rfl, rfl⟩ := h
      exact hknows
  | s :: rest, ts, scope, scope', slots, hknows, h => by
      simp only [Check.stmts] at h
      split at h
      · exact absurd h state_throw_ne_ok
      · simp only [state_bind_eq_ok, state_pure_eq_ok] at h
        obtain ⟨first, _, hfirst, others, _, hothers, rfl, rfl⟩ := h
        simp only [stmts]
        refine (stmt_bound s hknows hfirst).bind fun code u hu => ?_
        exact (stmts_bound rest hu hothers).then_pure _

theorem arms_bound {word : Keyword} : (branches : List (Arm Node)) →
    {ts : List (Arm TypedNode)} → {scope scope' : Scope Symbol} → {slots : Scope Nat} →
    Knows scope slots → Check.arms table result word branches scope = .ok ts scope' →
    LeavesBound (arms slotTable ts) slots scope'
  | [], ts, scope, scope', slots, hknows, h => by
      simp only [Check.arms, state_pure_eq_ok] at h
      obtain ⟨rfl, rfl⟩ := h
      exact hknows
  | ⟨condition, body, span⟩ :: rest, ts, scope, scope', slots, hknows, h => by
      simp only [Check.arms, Check.arm, state_bind_eq_ok, state_pure_eq_ok, Check.typedHere_eq_ok,
        Scope.within_eq_ok] at h
      obtain ⟨_, _, ⟨test, _, ⟨htest, -, rfl⟩, inside, _, ⟨u, hbody, rfl⟩, rfl, rfl⟩, others, _,
        hothers, rfl, rfl⟩ := h
      have harm : LeavesBound (arm slotTable ⟨test, inside, span⟩) slots u.pop := by
        simp only [arm]
        refine (exitUnless_bound hknows htest).bind fun code v hv => ?_
        exact (stmts_bound body hv.push hbody).within.then_pure _
      simp only [arms]
      refine harm.bind fun code v hv => ?_
      exact (arms_bound rest hv hothers).then_pure _

theorem elseBody_bound : (otherwise : Option (List (Stmt Node))) →
    {t : Option (List (Stmt TypedNode))} → {scope scope' : Scope Symbol} → {slots : Scope Nat} →
    Knows scope slots → Check.elseBody table result otherwise scope = .ok t scope' →
    LeavesBound (elseBody slotTable t) slots scope'
  | none, t, scope, scope', slots, hknows, h => by
      simp only [Check.elseBody, state_pure_eq_ok] at h
      obtain ⟨rfl, rfl⟩ := h
      exact hknows
  | some body, t, scope, scope', slots, hknows, h => by
      simp only [Check.elseBody, state_bind_eq_ok, state_pure_eq_ok, Scope.within_eq_ok] at h
      obtain ⟨inside, _, ⟨u, hbody, rfl⟩, rfl, rfl⟩ := h
      simp only [elseBody]
      exact (stmts_bound body hknows.push hbody).within.then_pure _

end

end Statements

/-! ## Programs -/

theorem func_bound {table : Signatures} {d : FuncDef Node} {t : FuncDef TypedNode}
    (h : Check.funcDef table d = .ok t) (exported : Bool) : Bound (func exported t) := by
  simp only [Check.funcDef] at h
  split at h
  · cases h
  · next typed scope hstmts =>
    split at h
    · cases h
    · obtain rfl := Except.ok.inj h
      have hknows : Knows (Check.parameterScope d.signature.parameters)
          (parameterScope d.signature.parameters) := parameterScope_match fun _ _ _ => trivial
      simp only [func]
      refine (allocate_bound _).bind fun slots _ => ?_
      refine Bound.bind ?_ fun code _ => (funcType_bound d.signature).then_pure _
      have hbody := stmts_bound slots d.body hknows hstmts
      simp only [LeavesBound] at hbody
      simp only [body]
      revert hbody
      cases stmts slots typed (parameterScope d.signature.parameters) with
      | ok code u => exact fun _ => bound_ok code
      | error e u => exact fun he name hname => he name (Except.error.inj hname)

theorem func?_bound {table : Signatures} {f : Func Node} {t : Func TypedNode}
    (h : Check.func table f = .ok t) : Bound (func? t) := by
  cases f with
  | plain d =>
      simp only [Check.func, except_bind_eq_ok, except_pure_eq_ok] at h
      obtain ⟨typed, hd, rfl⟩ := h
      exact (func_bound hd false).then_pure _
  | exported d =>
      simp only [Check.func, except_bind_eq_ok, except_pure_eq_ok] at h
      obtain ⟨typed, hd, rfl⟩ := h
      exact (func_bound hd true).then_pure _
  | imported i =>
      obtain rfl := except_pure_eq_ok.mp h
      exact bound_pure none

end Lower

/-- A checked program uses no name without a slot. -/
theorem lowerProgram_bound {p : Program Node} {t : Program TypedNode}
    (h : checkProgram p = .ok t) : Lower.Bound (lowerProgram t) := by
  obtain ⟨table, -, -, hfuncs, -⟩ := checkProgram_eq_ok.mp h
  simp only [lowerProgram]
  refine (Lower.bound_mapM fun f _ => Lower.importedFunc?_bound f).bind fun imports _ => ?_
  refine (Lower.bound_mapM fun g hg => ?_).then_pure _
  obtain ⟨f, -, hf⟩ := forall₂_partner_left hfuncs hg
  exact Lower.func?_bound hf

/-- Under new local names, different ones for different ones, a program breaks the same rule at the
same place, or it has the same types and lowers to the same module or the same error. -/
theorem local_names_never_reach_the_output {r : String → String} (hr : Function.Injective r)
    (p : Program Node) :
    (∃ t, checkProgram p = .ok t ∧ checkProgram (p.renamed r) = .ok (t.renamed r) ∧
      lowerProgram (t.renamed r) = lowerProgram t) ∨
    ∃ location violation, checkProgram p = .error ⟨location, violation⟩ ∧
      checkProgram (p.renamed r) = .error ⟨location, violation.renamed r⟩ := by
  rw [checkProgram_renamed hr]
  cases hcheck : checkProgram p with
  | error e => exact .inr ⟨e.location, e.violation, rfl, rfl⟩
  | ok t =>
      refine .inl ⟨t, rfl, rfl, ?_⟩
      rw [lowerProgram_renamed hr]
      exact (lowerProgram_bound hcheck).renamedOutcome_eq r

/-- A function whose parameter gets the name of the function itself has the same code. -/
theorem parameter_named_like_its_function :
    ∃ p t m, Compile.program "func f(x: i32): i32 { if (x) { var x: i32 = f(x); } return x; }" =
        .ok p ∧
      (p.renamed (Equiv.swap "x" "f")).funcs.map
        (fun f => (f.signature.name, f.signature.parameters.map Parameter.name)) =
          [("f", ["f"])] ∧
      checkProgram p = .ok t ∧
      checkProgram (p.renamed (Equiv.swap "x" "f")) = .ok (t.renamed (Equiv.swap "x" "f")) ∧
      lowerProgram t = .ok m ∧ lowerProgram (t.renamed (Equiv.swap "x" "f")) = .ok m := by
  have hread : (Compile.program
      "func f(x: i32): i32 { if (x) { var x: i32 = f(x); } return x; }").map (fun p =>
        ((p.renamed (Equiv.swap "x" "f")).funcs.map
          (fun f => (f.signature.name, f.signature.parameters.map Parameter.name)),
        (checkProgram p).map fun t => (lowerProgram t).map fun _ => ())) =
      .ok ([("f", ["f"])], .ok (.ok ())) := by
    decide +kernel
  obtain ⟨p, hp, hfacts⟩ := except_map_eq_ok.mp hread
  obtain ⟨hnames, hchecked⟩ := Prod.mk.inj hfacts
  obtain ⟨t, ht, hlowered⟩ := except_map_eq_ok.mp hchecked
  obtain ⟨m, hm, -⟩ := except_map_eq_ok.mp hlowered
  rcases local_names_never_reach_the_output (Equiv.swap "x" "f").injective p with
    ⟨t', ht', hrenamed, hsame⟩ | ⟨_, _, herror, -⟩
  · obtain rfl : t = t' := Except.ok.inj (ht.symm.trans ht')
    exact ⟨p, t, m, hp, hnames, ht, hrenamed, hm, hsame.trans hm⟩
  · exact nomatch ht.symm.trans herror

end Wattle
