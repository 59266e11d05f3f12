import Wattle.Proofs.CheckerSound

/-!
# Redundant parentheses

Parentheses group operands when a program is read. In the tree that reading gives, an expression
in parentheses is a form of its own, and the rules look through it everywhere but in one place: the
left side of an assignment has to be a name or a read through a pointer, and the same in
parentheses is neither. So parentheses may be put around any expression but the left side of an
assignment, or taken away, and the same types are found or the same rule is broken.
-/

namespace Wattle

/-! ## Programs that differ in parentheses -/

namespace Expr

variable {α : Type} (fits : α → Expr α → Prop)

mutual

/-- The expressions differ only in parentheses around subexpressions or around the whole. Where one
of them has parentheses that the other one has not, `fits` holds of their note and of what they
enclose. -/
inductive Rewrapped : Expr α → Expr α → Prop where
  | same {e e' : Expr α} (h : SameForm e e') : Rewrapped e e'
  | wrapped {note : α} {e e' : Expr α} (hnote : fits note e) (h : Rewrapped e e') :
      Rewrapped (.paren note e) e'
  | unwrapped {note : α} {e e' : Expr α} (hnote : fits note e') (h : Rewrapped e e') :
      Rewrapped e (.paren note e')

/-- The expressions have the same outermost form and differ only in parentheses further inside. The
left side of an assignment keeps its own form. -/
inductive SameForm : Expr α → Expr α → Prop where
  | name (note : α) (id : String) : SameForm (.name note id) (.name note id)
  | number (note : α) (digits : String) (type : BaseType) :
      SameForm (.number note digits type) (.number note digits type)
  | call (note : α) (callee : String) {args args' : List (Expr α)} (h : AllRewrapped args args') :
      SameForm (.call note callee args) (.call note callee args')
  | unary (note : α) (op : UnaryOp) {e e' : Expr α} (h : Rewrapped e e') :
      SameForm (.unary note op e) (.unary note op e')
  | binary (note : α) {op : BinaryOp} {left left' right right' : Expr α} (hop : op ≠ .assign)
      (hleft : Rewrapped left left') (hright : Rewrapped right right') :
      SameForm (.binary note op left right) (.binary note op left' right')
  | assign (note : α) {target target' value value' : Expr α} (htarget : SameForm target target')
      (hvalue : Rewrapped value value') :
      SameForm (.binary note .assign target value) (.binary note .assign target' value')
  | paren (note : α) {e e' : Expr α} (h : Rewrapped e e') :
      SameForm (.paren note e) (.paren note e')
  | cast (note : α) {e e' : Expr α} (target : Ty) (h : Rewrapped e e') :
      SameForm (.cast note e target) (.cast note e' target)

inductive AllRewrapped : List (Expr α) → List (Expr α) → Prop where
  | nil : AllRewrapped [] []
  | cons {e e' : Expr α} {es es' : List (Expr α)} (h : Rewrapped e e')
      (hrest : AllRewrapped es es') : AllRewrapped (e :: es) (e' :: es')

end

end Expr

namespace Stmt

variable {α : Type} (fits : α → Expr α → Prop)

mutual

/-- The statements differ only in parentheses in their expressions. -/
inductive Rewrapped : Stmt α → Stmt α → Prop where
  | cond (node : Node) {arms arms' : List (Arm α)} {otherwise otherwise' : Option (List (Stmt α))}
      (harms : ArmsRewrapped arms arms') (hotherwise : ElseRewrapped otherwise otherwise') :
      Rewrapped (.cond node arms otherwise) (.cond node arms' otherwise')
  | loop (node : Node) {condition condition' : Expr α} {body body' : List (Stmt α)}
      (hcondition : condition.Rewrapped fits condition') (hbody : ListRewrapped body body') :
      Rewrapped (.loop node condition body) (.loop node condition' body')
  | finish (node : Node) : Rewrapped (.ret node none) (.ret node none)
  | ret (node : Node) {value value' : Expr α} (h : value.Rewrapped fits value') :
      Rewrapped (.ret node (some value)) (.ret node (some value'))
  | declare (node : Node) (kind : DeclKind) (name : String) (type : Ty) {initial initial' : Expr α}
      (h : initial.Rewrapped fits initial') :
      Rewrapped (.declare node kind name type initial) (.declare node kind name type initial')
  | expr (node : Node) {value value' : Expr α} (h : value.Rewrapped fits value') :
      Rewrapped (.expr node value) (.expr node value')

inductive ListRewrapped : List (Stmt α) → List (Stmt α) → Prop where
  | nil : ListRewrapped [] []
  | cons {s s' : Stmt α} {rest rest' : List (Stmt α)} (h : Rewrapped s s')
      (hrest : ListRewrapped rest rest') : ListRewrapped (s :: rest) (s' :: rest')

inductive ArmsRewrapped : List (Arm α) → List (Arm α) → Prop where
  | nil : ArmsRewrapped [] []
  | cons {condition condition' : Expr α} {body body' : List (Stmt α)} (span : Span)
      {rest rest' : List (Arm α)} (hcondition : condition.Rewrapped fits condition')
      (hbody : ListRewrapped body body') (hrest : ArmsRewrapped rest rest') :
      ArmsRewrapped (⟨condition, body, span⟩ :: rest) (⟨condition', body', span⟩ :: rest')

inductive ElseRewrapped : Option (List (Stmt α)) → Option (List (Stmt α)) → Prop where
  | none : ElseRewrapped none none
  | some {body body' : List (Stmt α)} (h : ListRewrapped body body') :
      ElseRewrapped (some body) (some body')

end

end Stmt

section Programs

variable {α : Type} (fits : α → Expr α → Prop)

inductive Func.Rewrapped : Func α → Func α → Prop where
  | plain (node : Node) (signature : Signature) {body body' : List (Stmt α)}
      (h : Stmt.ListRewrapped fits body body') :
      Func.Rewrapped (.plain ⟨node, signature, body⟩) (.plain ⟨node, signature, body'⟩)
  | exported (node : Node) (signature : Signature) {body body' : List (Stmt α)}
      (h : Stmt.ListRewrapped fits body body') :
      Func.Rewrapped (.exported ⟨node, signature, body⟩) (.exported ⟨node, signature, body'⟩)
  | imported (declaration : FuncImport) :
      Func.Rewrapped (.imported declaration) (.imported declaration)

/-- The programs differ only in parentheses. -/
structure Program.Rewrapped (p p' : Program α) : Prop where
  funcs : List.Forall₂ (Func.Rewrapped fits) p.funcs p'.funcs
  memories : p.memories = p'.memories

end Programs

/-- The parentheses have the type of what they enclose. -/
def TypedNode.Wraps (note : TypedNode) (e : Expr TypedNode) : Prop :=
  note.type = e.type

/-- Any parentheses may be put around any expression. -/
def Node.Wraps (_ : Node) (_ : Expr Node) : Prop :=
  True

namespace Expr

variable {α : Type} {fits : α → Expr α → Prop}

theorem SameForm.note_eq {e e' : Expr α} (h : SameForm fits e e') : e.note = e'.note := by
  cases h <;> rfl

theorem AllRewrapped.length_eq {es es' : List (Expr α)} (h : AllRewrapped fits es es') :
    es.length = es'.length := by
  match h with
  | .nil => rfl
  | .cons _ hrest => rw [List.length_cons, List.length_cons, hrest.length_eq]

/-- Corresponding expressions have the same type. -/
theorem Rewrapped.type_eq {e e' : Expr TypedNode} (h : Rewrapped TypedNode.Wraps e e') :
    e.type = e'.type := by
  match h with
  | .same h => exact congrArg TypedNode.type h.note_eq
  | .wrapped hnote h => exact hnote.trans h.type_eq
  | .unwrapped hnote h => exact h.type_eq.trans hnote.symm

end Expr

/-! ## Checking expressions -/

namespace Check

section Outcomes

variable {α β γ δ : Type}

/-- Both checks find something, and what they find stands in the relation, or both find the same
rule broken. -/
inductive Agrees (R : α → β → Prop) : Except CheckError α → Except CheckError β → Prop where
  | found {a : α} {b : β} (h : R a b) : Agrees R (.ok a) (.ok b)
  | broken {e e' : CheckError} (h : e.violation = e'.violation) : Agrees R (.error e) (.error e')

namespace Agrees

variable {R : α → β → Prop} {S : γ → δ → Prop} {x : Except CheckError α} {x' : Except CheckError β}

theorem refl (x : Except CheckError α) : Agrees Eq x x := by
  cases x with
  | error e => exact .broken rfl
  | ok a => exact .found rfl

theorem bind {k : α → Except CheckError γ} {k' : β → Except CheckError δ} (h : Agrees R x x')
    (hk : ∀ a b, R a b → Agrees S (k a) (k' b)) : Agrees S (x >>= k) (x' >>= k') := by
  cases h with
  | found h => exact hk _ _ h
  | broken h => exact .broken h

theorem bind_left {S : γ → β → Prop} {f : α → γ} (h : Agrees R x x')
    (hf : ∀ a b, R a b → S (f a) b) : Agrees S (x >>= fun a => pure (f a)) x' := by
  cases h with
  | found h => exact .found (hf _ _ h)
  | broken h => exact .broken h

theorem bind_right {S : α → δ → Prop} {f : β → δ} (h : Agrees R x x')
    (hf : ∀ a b, R a b → S a (f b)) : Agrees S x (x' >>= fun b => pure (f b)) := by
  cases h with
  | found h => exact .found (hf _ _ h)
  | broken h => exact .broken h

theorem imp {S : α → β → Prop} (h : Agrees R x x') (hRS : ∀ a b, R a b → S a b) :
    Agrees S x x' := by
  cases h with
  | found h => exact .found (hRS _ _ h)
  | broken h => exact .broken h

end Agrees

end Outcomes

/-- Checked expressions that differ in parentheses only, and those have the type of what they
enclose. -/
abbrev SameTypes : Expr TypedNode → Expr TypedNode → Prop :=
  Expr.Rewrapped TypedNode.Wraps

theorem require_agrees {e e' : Expr TypedNode} (h : e.type = e'.type) (expected : Ty) (use : Use) :
    Agrees Eq (require expected use e) (require expected use e') := by
  rw [require, require, h]
  split
  · exact .found rfl
  · exact .broken rfl

theorem unaryType_agrees {e e' : Expr TypedNode} (h : e.type = e'.type) (op : UnaryOp)
    (location : Location) :
    Agrees Eq (unaryType op e location) (unaryType op e' location) := by
  cases op with
  | negate =>
      simp only [unaryType, h]
      exact .refl _
  | deref =>
      simp only [unaryType, h]
      exact .refl _
  | logicalNot => exact (require_agrees h .i32 (.operand .logicalNot)).bind fun _ _ _ => .found rfl

theorem binaryType_eq {left left' right right' : Expr TypedNode} (hleft : left.type = left'.type)
    (hright : right.type = right'.type) (op : BinaryOp) (location : Location) :
    binaryType op left right location = binaryType op left' right' location := by
  rw [binaryType, binaryType, hleft, hright]

/-- Whether an expression may be assigned to depends on its outermost form. -/
theorem assignable_eq {fits : Node → Expr Node → Prop} {e e' : Expr Node}
    (h : Expr.SameForm fits e e') (scope : Scope Symbol) :
    assignable scope e = assignable scope e' := by
  cases h with
  | unary note op h => cases op <;> rfl
  | name | number | call | binary | assign | paren | cast => rfl

section Trees

variable (table : Signatures) (scope : Scope Symbol)

mutual

theorem expr_rewrapped {e e' : Expr Node} (h : e.Rewrapped Node.Wraps e') :
    Agrees SameTypes (expr table scope e) (expr table scope e') := by
  match h with
  | .same h => exact (expr_sameForm h).imp fun _ _ h => .same h
  | .wrapped _ h =>
      simp only [expr]
      exact (expr_rewrapped h).bind_left fun _ _ h => .wrapped rfl h
  | .unwrapped _ h =>
      simp only [expr]
      exact (expr_rewrapped h).bind_right fun _ _ h => .unwrapped rfl h

theorem expr_sameForm {e e' : Expr Node} (h : e.SameForm Node.Wraps e') :
    Agrees (Expr.SameForm TypedNode.Wraps) (expr table scope e) (expr table scope e') := by
  match h with
  | .name node id =>
      simp only [expr]
      refine (Agrees.refl _).bind ?_
      rintro symbol _ rfl
      exact .found (.name _ id)
  | .number node digits type => exact .found (.number _ digits type)
  | .call node callee h =>
      simp only [expr, h.length_eq]
      cases findFunction? table callee with
      | none => exact .broken rfl
      | some signature =>
          dsimp only
          split
          · exact (arguments_rewrapped h callee 1 signature.parameters).bind fun _ _ h =>
              .found (.call _ callee h)
          · exact .broken rfl
  | .unary node op h =>
      simp only [expr]
      refine (expr_rewrapped h).bind fun operand operand' h => ?_
      refine (unaryType_agrees h.type_eq op node.start).bind ?_
      rintro type _ rfl
      exact .found (.unary _ op h)
  | .binary node hop hleft hright =>
      simp only [expr, if_neg hop]
      refine (expr_rewrapped hleft).bind fun left left' hleft => ?_
      refine (expr_rewrapped hright).bind fun right right' hright => ?_
      rw [binaryType_eq hleft.type_eq hright.type_eq]
      refine (Agrees.refl _).bind ?_
      rintro type _ rfl
      exact .found (.binary _ hop hleft hright)
  | .assign node htarget hvalue =>
      simp only [expr, if_true, assignable_eq htarget]
      refine (Agrees.refl _).bind fun _ _ _ => ?_
      refine (expr_sameForm htarget).bind fun target target' htarget => ?_
      refine (expr_rewrapped hvalue).bind fun value value' hvalue => ?_
      rw [(Expr.Rewrapped.same htarget).type_eq]
      exact (require_agrees hvalue.type_eq _ _).bind fun _ _ _ =>
        .found (.assign _ htarget hvalue)
  | .paren node h =>
      simp only [expr]
      refine (expr_rewrapped h).bind fun inner inner' h => ?_
      rw [h.type_eq]
      exact .found (.paren _ h)
  | .cast node target h =>
      simp only [expr]
      refine (expr_rewrapped h).bind fun operand operand' h => ?_
      rw [h.type_eq]
      split
      · exact .broken rfl
      · exact .found (.cast _ target h)

theorem arguments_rewrapped {args args' : List (Expr Node)}
    (h : Expr.AllRewrapped Node.Wraps args args') (callee : String) (index : Nat)
    (parameters : List Parameter) :
    Agrees (Expr.AllRewrapped TypedNode.Wraps) (arguments table scope callee index args parameters)
      (arguments table scope callee index args' parameters) := by
  match h, parameters with
  | .nil, _ =>
      simp only [arguments]
      exact .found .nil
  | .cons _ _, [] =>
      simp only [arguments]
      exact .found .nil
  | .cons h hrest, parameter :: parameters =>
      simp only [arguments]
      refine (expr_rewrapped h).bind fun first first' h => ?_
      refine (require_agrees h.type_eq _ _).bind fun _ _ _ => ?_
      refine (arguments_rewrapped hrest callee (index + 1) parameters).bind fun _ _ hrest => ?_
      exact .found (.cons h hrest)

end

end Trees

/-! ## Checking statements -/

section Outcomes

variable {α β γ δ : Type}

/-- From every scope the two checks agree, and they leave the same scope when they find
something. -/
def AgreesHere (R : α → β → Prop) (p : Checker α) (p' : Checker β) : Prop :=
  ∀ s, (∃ a b t, p s = .ok a t ∧ p' s = .ok b t ∧ R a b) ∨
    ∃ e e' t t', p s = .error e t ∧ p' s = .error e' t' ∧ e.violation = e'.violation

namespace AgreesHere

variable {R : α → β → Prop} {S : γ → δ → Prop} {p : Checker α} {p' : Checker β}

theorem pure {a : α} {b : β} (h : R a b) : AgreesHere R (Pure.pure a) (Pure.pure b) :=
  fun s => .inl ⟨a, b, s, rfl, rfl, h⟩

theorem throw {e e' : CheckError} (h : e.violation = e'.violation) :
    AgreesHere R (MonadExcept.throw e) (MonadExcept.throw e') :=
  fun s => .inr ⟨e, e', s, s, rfl, rfl, h⟩

theorem bind {k : α → Checker γ} {k' : β → Checker δ} (hp : AgreesHere R p p')
    (hk : ∀ a b, R a b → AgreesHere S (k a) (k' b)) : AgreesHere S (p >>= k) (p' >>= k') := by
  intro s
  simp only [Bind.bind, EStateM.bind]
  obtain ⟨a, b, t, ha, hb, h⟩ | ⟨e, e', t, t', he, he', h⟩ := hp s
  · rw [ha, hb]
    exact hk a b h t
  · rw [he, he']
    exact .inr ⟨e, e', t, t', rfl, rfl, h⟩

theorem asking {q : Scope Symbol → Except CheckError α} {q' : Scope Symbol → Except CheckError β}
    (h : ∀ scope, Agrees R (q scope) (q' scope)) :
    AgreesHere R (Scope.asking q) (Scope.asking q') := by
  intro s
  have hs := h s
  simp only [Scope.asking]
  generalize q s = x, q' s = x' at hs ⊢
  cases hs with
  | found h => exact .inl ⟨_, _, s, rfl, rfl, h⟩
  | broken h => exact .inr ⟨_, _, s, s, rfl, rfl, h⟩

theorem within (h : AgreesHere R p p') : AgreesHere R (Scope.within p) (Scope.within p') := by
  intro s
  simp only [Scope.within]
  obtain ⟨a, b, t, ha, hb, h⟩ | ⟨e, e', t, t', he, he', h⟩ := h s.push
  · rw [ha, hb]
    exact .inl ⟨a, b, t.pop, rfl, rfl, h⟩
  · rw [he, he']
    exact .inr ⟨e, e', t.pop, t'.pop, rfl, rfl, h⟩

theorem refl (p : Checker α) : AgreesHere Eq p p := by
  intro s
  cases p s with
  | ok a t => exact .inl ⟨a, a, t, rfl, rfl, rfl⟩
  | error e t => exact .inr ⟨e, e, t, t, rfl, rfl, rfl⟩

end AgreesHere

end Outcomes

theorem typedHere_rewrapped (table : Signatures) {e e' : Expr Node} (h : e.Rewrapped Node.Wraps e')
    (expected : Ty) (use : Use) :
    AgreesHere SameTypes (typedHere table expected use e) (typedHere table expected use e') :=
  .asking fun scope => (expr_rewrapped table scope h).bind fun _ _ h =>
    (require_agrees h.type_eq expected use).bind fun _ _ _ => .found h

theorem exprHere_rewrapped (table : Signatures) {e e' : Expr Node}
    (h : e.Rewrapped Node.Wraps e') :
    AgreesHere SameTypes (exprHere table e) (exprHere table e') :=
  .asking fun scope => expr_rewrapped table scope h

theorem isReturn_rewrapped {α : Type} {fits : α → Expr α → Prop} {s s' : Stmt α}
    (h : s.Rewrapped fits s') : s.isReturn = s'.isReturn := by
  cases h <;> rfl

section Bodies

variable (table : Signatures) (result : Ty)

mutual

theorem stmt_rewrapped {s s' : Stmt Node} (h : s.Rewrapped Node.Wraps s') :
    AgreesHere (Stmt.Rewrapped TypedNode.Wraps) (stmt table result s) (stmt table result s') := by
  match h with
  | .cond node harms hotherwise =>
      simp only [stmt]
      refine (arms_rewrapped harms .if_).bind fun typed typed' harms => ?_
      exact (elseBody_rewrapped hotherwise).bind fun last last' hlast =>
        .pure (.cond node harms hlast)
  | .loop node hcondition hbody =>
      simp only [stmt]
      refine (typedHere_rewrapped table hcondition .i32 _).bind fun test test' htest => ?_
      exact (stmts_rewrapped hbody false).within.bind fun inside inside' hinside =>
        .pure (.loop node htest hinside)
  | .finish node =>
      simp only [stmt, returned]
      split
      · exact .pure (.finish node)
      · exact .throw rfl
  | .ret node h =>
      simp only [stmt, returned]
      split
      · exact .throw rfl
      · simp only [bind_assoc, pure_bind]
        exact (typedHere_rewrapped table h result .returnValue).bind fun value value' h =>
          .pure (.ret node h)
  | .declare node kind name type h =>
      simp only [stmt]
      refine (typedHere_rewrapped table h type (.initializer name)).bind fun value value' h => ?_
      exact (AgreesHere.refl _).bind fun _ _ _ => .pure (.declare node kind name type h)
  | .expr node h =>
      simp only [stmt]
      exact (exprHere_rewrapped table h).bind fun value value' h => .pure (.expr node h)

theorem stmts_rewrapped {body body' : List (Stmt Node)}
    (h : Stmt.ListRewrapped Node.Wraps body body') (unreachable : Bool) :
    AgreesHere (Stmt.ListRewrapped TypedNode.Wraps) (stmts table result unreachable body)
      (stmts table result unreachable body') := by
  match h with
  | .nil => exact .pure .nil
  | .cons h hrest =>
      simp only [stmts, isReturn_rewrapped h]
      split
      · exact .throw rfl
      · refine (stmt_rewrapped h).bind fun first first' hfirst => ?_
        exact (stmts_rewrapped hrest _).bind fun others others' hothers =>
          .pure (.cons hfirst hothers)

theorem arms_rewrapped {branches branches' : List (Arm Node)}
    (h : Stmt.ArmsRewrapped Node.Wraps branches branches') (word : Keyword) :
    AgreesHere (Stmt.ArmsRewrapped TypedNode.Wraps) (arms table result word branches)
      (arms table result word branches') := by
  match h with
  | .nil => exact .pure .nil
  | .cons span hcondition hbody hrest =>
      simp only [arms, arm, bind_assoc, pure_bind]
      refine (typedHere_rewrapped table hcondition .i32 _).bind fun test test' htest => ?_
      refine (stmts_rewrapped hbody false).within.bind fun inside inside' hinside => ?_
      exact (arms_rewrapped hrest .elif).bind fun others others' hothers =>
        .pure (.cons span htest hinside hothers)

theorem elseBody_rewrapped {otherwise otherwise' : Option (List (Stmt Node))}
    (h : Stmt.ElseRewrapped Node.Wraps otherwise otherwise') :
    AgreesHere (Stmt.ElseRewrapped TypedNode.Wraps) (elseBody table result otherwise)
      (elseBody table result otherwise') := by
  match h with
  | .none => exact .pure .none
  | .some h =>
      simp only [elseBody]
      exact (stmts_rewrapped h false).within.bind fun inside inside' h => .pure (.some h)

end

end Bodies

/-! ## Checking programs -/

theorem endsInReturn_rewrapped {α : Type} {fits : α → Expr α → Prop} {body body' : List (Stmt α)}
    (h : Stmt.ListRewrapped fits body body') : endsInReturn body = endsInReturn body' := by
  match h with
  | .nil => rfl
  | .cons h .nil => exact isReturn_rewrapped h
  | .cons _ (.cons h hrest) =>
      have hlast := endsInReturn_rewrapped (Stmt.ListRewrapped.cons h hrest)
      simpa only [endsInReturn, List.getLast?_cons_cons] using hlast

theorem funcDef_rewrapped (table : Signatures) (node : Node) (signature : Signature)
    {body body' : List (Stmt Node)} (h : Stmt.ListRewrapped Node.Wraps body body') :
    Agrees
      (fun d d' => ∃ typed typed', d = ⟨node, signature, typed⟩ ∧ d' = ⟨node, signature, typed'⟩ ∧
        Stmt.ListRewrapped TypedNode.Wraps typed typed')
      (funcDef table ⟨node, signature, body⟩) (funcDef table ⟨node, signature, body'⟩) := by
  simp only [funcDef, endsInReturn_rewrapped h]
  obtain ⟨typed, typed', t, hrun, hrun', htyped⟩ | ⟨e, e', t, t', hrun, hrun', he⟩ :=
    stmts_rewrapped table signature.result h false (parameterScope signature.parameters)
  · simp only [hrun, hrun']
    split
    · exact .broken rfl
    · exact .found ⟨typed, typed', rfl, rfl, htyped⟩
  · simp only [hrun, hrun']
    exact .broken he

theorem func_rewrapped (table : Signatures) {f f' : Func Node} (h : f.Rewrapped Node.Wraps f') :
    Agrees (Func.Rewrapped TypedNode.Wraps) (func table f) (func table f') := by
  cases h with
  | plain node signature h =>
      simp only [func]
      refine (funcDef_rewrapped table node signature h).bind ?_
      rintro _ _ ⟨typed, typed', rfl, rfl, h⟩
      exact .found (.plain node signature h)
  | exported node signature h =>
      simp only [func]
      refine (funcDef_rewrapped table node signature h).bind ?_
      rintro _ _ ⟨typed, typed', rfl, rfl, h⟩
      exact .found (.exported node signature h)
  | imported declaration => exact .found (.imported declaration)

theorem mapM_func_rewrapped (table : Signatures) {funcs funcs' : List (Func Node)}
    (h : List.Forall₂ (Func.Rewrapped Node.Wraps) funcs funcs') :
    Agrees (List.Forall₂ (Func.Rewrapped TypedNode.Wraps)) (funcs.mapM (func table))
      (funcs'.mapM (func table)) := by
  induction h with
  | nil => exact .found .nil
  | cons h _ ih =>
      rw [List.mapM_cons, List.mapM_cons]
      refine (func_rewrapped table h).bind fun first first' hfirst => ?_
      exact ih.bind fun rest rest' hrest => .found (.cons hfirst hrest)

theorem foldlM_declare_rewrapped {funcs funcs' : List (Func Node)}
    (h : List.Forall₂ (Func.Rewrapped Node.Wraps) funcs funcs') (table : Signatures) :
    funcs.foldlM declare table = funcs'.foldlM declare table := by
  induction h generalizing table with
  | nil => rfl
  | @cons f f' _ _ h _ ih =>
      have hdeclare : declare table f = declare table f' := by cases h <;> rfl
      rw [List.foldlM_cons, List.foldlM_cons, hdeclare]
      exact bind_congr fun table' => ih table'

theorem memories_rewrapped {funcs funcs' : List (Func Node)}
    (h : List.Forall₂ (Func.Rewrapped Node.Wraps) funcs funcs') (ms : List Memory) :
    memories funcs ms = memories funcs' ms := by
  have hexports (m : Memory) : funcs.any (fun f => f.isExported && f.signature.name = m.name) =
      funcs'.any (fun f => f.isExported && f.signature.name = m.name) := by
    induction h with
    | nil => rfl
    | cons h _ ih =>
        rw [List.any_cons, List.any_cons, ih]
        cases h <;> rfl
  match ms with
  | [] => rfl
  | [m] => simp only [memories, hexports]
  | _ :: _ :: _ => rfl

end Check

/-- Of programs that differ in parentheses, either both are checked, and then they get the same
types, or both break the same rule. -/
theorem checkProgram_rewrapped {p p' : Program Node} (h : p.Rewrapped Node.Wraps p') :
    Check.Agrees (Program.Rewrapped TypedNode.Wraps) (checkProgram p) (checkProgram p') := by
  obtain ⟨funcs, mems⟩ := p
  obtain ⟨funcs', mems'⟩ := p'
  obtain ⟨hfuncs, hmems⟩ := h
  subst hmems
  simp only [checkProgram_eq, Check.foldlM_declare_rewrapped hfuncs,
    Check.memories_rewrapped hfuncs]
  refine (Check.Agrees.refl _).bind ?_
  rintro table _ rfl
  refine (Check.Agrees.refl _).bind fun _ _ _ => ?_
  exact (Check.mapM_func_rewrapped table hfuncs).bind fun funcs funcs' h => .found ⟨h, rfl⟩

end Wattle
