import Wattle.Proofs.CheckerSound
import Wattle.Proofs.PostOrder

/-!
# The places that checking blames

Every complaint of the checker is about a node of the program or about a parameter, and carries
the place where it starts. So what holds of the starts of all nodes and parameters holds of the
place of the complaint.
-/

namespace Wattle

namespace Check

variable {α β : Type} {P : Location → Prop}

/-- If `x` succeeds, `Q` holds of its result; if it fails, `P` holds of the place it blames. -/
structure Blames (P : Location → Prop) (x : Except CheckError α) (Q : α → Prop) : Prop where
  of_ok : ∀ a, x = .ok a → Q a
  of_error : ∀ e, x = .error e → P e.location

namespace Blames

variable {x : Except CheckError α} {f : α → Except CheckError β} {Q Q' : α → Prop} {R : β → Prop}

theorem pure {a : α} (h : Q a) : Blames P (.ok a) Q := by
  constructor
  · rintro b ⟨⟩
    exact h
  · rintro e ⟨⟩

theorem fail {location : Location} (h : P location) (violation : Violation) :
    Blames P (.error ⟨location, violation⟩) Q := by
  constructor
  · rintro b ⟨⟩
  · rintro e ⟨⟩
    exact h

theorem bind (hx : Blames P x Q) (hf : ∀ a, Q a → Blames P (f a) R) : Blames P (x >>= f) R := by
  cases x with
  | error e =>
      constructor
      · rintro b ⟨⟩
      · rintro e' ⟨⟩
        exact hx.of_error e rfl
  | ok a => exact hf a (hx.of_ok a rfl)

theorem imp (h : Blames P x Q) (hQ : ∀ a, Q a → Q' a) : Blames P x Q' :=
  ⟨fun a ha => hQ a (h.of_ok a ha), h.of_error⟩

end Blames

/-! ## Expressions -/

theorem resolve_blames {scope : Scope Symbol} {name : String} {location : Location}
    (h : P location) : Blames P (resolve scope name location) fun _ => True := by
  rw [resolve]
  split
  · exact .pure trivial
  · exact .fail h _

theorem require_blames {expected : Ty} {use : Use} {e : Expr TypedNode} (h : P e.note.start) :
    Blames P (require expected use e) fun _ => True := by
  rw [require]
  split
  · exact .pure trivial
  · exact .fail h _

theorem unaryType_blames {op : UnaryOp} {operand : Expr TypedNode} {location : Location}
    (h : P location) (hoperand : P operand.note.start) :
    Blames P (unaryType op operand location) fun _ => True := by
  cases op with
  | negate =>
      simp only [unaryType]
      split
      · exact .fail h _
      · exact .pure trivial
  | deref =>
      simp only [unaryType]
      split
      · exact .pure trivial
      · exact .fail h _
  | logicalNot => exact .bind (require_blames hoperand) fun _ _ => .pure trivial

theorem binaryType_blames {op : BinaryOp} {left right : Expr TypedNode} {location : Location}
    (h : P location) : Blames P (binaryType op left right location) fun _ => True := by
  rw [binaryType]
  split
  · exact .fail h _
  · split
    · exact .fail h _
    · exact .pure trivial

theorem assignable_blames {scope : Scope Symbol} {e : Expr Node} (h : P e.note.start) :
    Blames P (assignable scope e) fun _ => True := by
  fun_cases assignable scope e with
  | case1 node id =>
      apply Blames.bind (resolve_blames h)
      intro symbol _
      split
      · exact .pure trivial
      · exact .fail h _
  | case2 => exact .pure trivial
  | case3 => exact .fail h _

section Trees

variable {table : Signatures} {scope : Scope Symbol}

mutual

/-- A checked expression starts where it did before, and a failure blames the start of one of its
nodes. -/
theorem expr_blames : (e : Expr Node) → (∀ n ∈ e.nodes, P n.start) →
    Blames P (expr table scope e) fun t => t.note.start = e.note.start
  | .name node id, h => by
      have hown := h node (by simp [Expr.nodes])
      exact .bind (resolve_blames hown) fun _ _ => .pure rfl
  | .number node digits type, _ => .pure rfl
  | .call node callee args, h => by
      simp only [Expr.nodes, List.forall_mem_append, List.forall_mem_singleton] at h
      obtain ⟨hargs, hown⟩ := h
      rw [expr]
      split
      · exact .fail hown _
      · split
        · exact .bind (arguments_blames args callee 1 _ hargs) fun _ _ => .pure rfl
        · exact .fail hown _
  | .unary node op operand, h => by
      simp only [Expr.nodes, List.forall_mem_append, List.forall_mem_singleton] at h
      obtain ⟨hoperand, hown⟩ := h
      apply Blames.bind (expr_blames operand hoperand)
      intro t ht
      have hstart : P t.note.start := ht ▸ hoperand _ operand.note_mem_nodes
      exact .bind (unaryType_blames hown hstart) fun _ _ => .pure rfl
  | .binary node op left right, h => by
      simp only [Expr.nodes, List.forall_mem_append, List.forall_mem_singleton] at h
      obtain ⟨⟨hleft, hright⟩, hown⟩ := h
      rw [expr]
      split
      · apply Blames.bind (assignable_blames (hleft _ left.note_mem_nodes))
        intro _ _
        apply Blames.bind (expr_blames left hleft)
        intro target _
        apply Blames.bind (expr_blames right hright)
        intro value hvalue
        have hstart : P value.note.start := hvalue ▸ hright _ right.note_mem_nodes
        exact .bind (require_blames hstart) fun _ _ => .pure rfl
      · apply Blames.bind (expr_blames left hleft)
        intro _ _
        apply Blames.bind (expr_blames right hright)
        intro _ _
        exact .bind (binaryType_blames hown) fun _ _ => .pure rfl
  | .paren node inner, h => by
      simp only [Expr.nodes, List.forall_mem_append] at h
      exact .bind (expr_blames inner h.1) fun _ _ => .pure rfl
  | .cast node operand target, h => by
      simp only [Expr.nodes, List.forall_mem_append, List.forall_mem_singleton] at h
      obtain ⟨hoperand, hown⟩ := h
      apply Blames.bind (expr_blames operand hoperand)
      intro _ _
      split
      · exact .fail hown _
      · exact .pure rfl

theorem arguments_blames : (args : List (Expr Node)) → (callee : String) → (index : Nat) →
    (parameters : List Parameter) → (∀ n ∈ Expr.listNodes args, P n.start) →
    Blames P (arguments table scope callee index args parameters) fun _ => True
  | [], _, _, [], _ | [], _, _, _ :: _, _ | _ :: _, _, _, [], _ => by
      rw [arguments]
      · exact .pure trivial
      · simp
  | arg :: args, callee, index, parameter :: parameters, h => by
      simp only [Expr.listNodes, List.forall_mem_append] at h
      obtain ⟨harg, hargs⟩ := h
      rw [arguments]
      apply Blames.bind (expr_blames arg harg)
      intro first hfirst
      have hstart : P first.note.start := hfirst ▸ harg _ arg.note_mem_nodes
      apply Blames.bind (require_blames hstart)
      intro _ _
      exact .bind (arguments_blames args callee (index + 1) parameters hargs) fun _ _ =>
        .pure trivial

end

end Trees

/-! ## Statements -/

/-- If `c` fails, `P` holds of the place it blames. -/
structure BlamesHere (P : Location → Prop) (c : Checker α) : Prop where
  of_error : ∀ s e t, c s = .error e t → P e.location

namespace BlamesHere

variable {c : Checker α} {f : α → Checker β}

theorem pure (a : α) : BlamesHere P (Pure.pure a : Checker α) :=
  ⟨fun _ _ _ h => nomatch h⟩

theorem fail {location : Location} (h : P location) (violation : Violation) :
    BlamesHere P (throw ⟨location, violation⟩ : Checker α) := by
  constructor
  intro s e t hrun
  obtain ⟨rfl, -⟩ := EStateM.Result.error.inj hrun
  exact h

theorem bind (hc : BlamesHere P c) (hf : ∀ a, BlamesHere P (f a)) : BlamesHere P (c >>= f) := by
  constructor
  intro s e u hrun
  change EStateM.bind c f s = .error e u at hrun
  rw [EStateM.bind] at hrun
  cases hfirst : c s with
  | error e' t =>
      rw [hfirst] at hrun
      obtain ⟨rfl, -⟩ := EStateM.Result.error.inj hrun
      exact hc.of_error s e' t hfirst
  | ok a t =>
      rw [hfirst] at hrun
      exact (hf a).of_error t e u hrun

theorem asking {question : Scope Symbol → Except CheckError α} {Q : α → Prop}
    (h : ∀ s, Blames P (question s) Q) : BlamesHere P (Scope.asking question) := by
  constructor
  intro s e t hrun
  rw [Scope.asking] at hrun
  cases hanswer : question s with
  | ok a => simp [hanswer] at hrun
  | error e' =>
      rw [hanswer] at hrun
      obtain ⟨rfl, -⟩ := EStateM.Result.error.inj hrun
      exact (h s).of_error e' hanswer

theorem within (hc : BlamesHere P c) : BlamesHere P (Scope.within c) := by
  constructor
  intro s e t hrun
  rw [Scope.within] at hrun
  cases hbody : c s.push with
  | ok a u => simp [hbody] at hrun
  | error e' u =>
      rw [hbody] at hrun
      obtain ⟨rfl, -⟩ := EStateM.Result.error.inj hrun
      exact hc.of_error _ e' u hbody

theorem scopeBind (name : String) (symbol : Symbol) :
    BlamesHere P (Scope.bind name symbol : Checker Unit) :=
  ⟨fun _ _ _ h => nomatch h⟩

end BlamesHere

section Statements

variable {table : Signatures} {result : Ty}

theorem exprHere_blames {e : Expr Node} (h : ∀ n ∈ e.nodes, P n.start) :
    BlamesHere P (exprHere table e) :=
  .asking fun _ => expr_blames e h

theorem typedHere_blames {expected : Ty} {use : Use} {e : Expr Node}
    (h : ∀ n ∈ e.nodes, P n.start) : BlamesHere P (typedHere table expected use e) := by
  apply BlamesHere.asking (Q := fun _ => True)
  intro scope
  apply Blames.bind (expr_blames e h)
  intro typed htyped
  have hstart : P typed.note.start := htyped ▸ h _ e.note_mem_nodes
  exact .bind (require_blames hstart) fun _ _ => .pure trivial

theorem returned_blames {location : Location} {value : Option (Expr Node)} (hown : P location)
    (h : ∀ n ∈ (value.map Expr.nodes).getD [], P n.start) :
    BlamesHere P (returned table result location value) := by
  cases value with
  | none =>
      rw [returned]
      split
      · exact .pure _
      · exact .fail hown _
  | some value =>
      rw [returned]
      split
      · exact .fail hown _
      · exact .bind (typedHere_blames h) fun _ => .pure _

mutual

theorem stmt_blames : (s : Stmt Node) → (∀ n ∈ s.nodes, P n.start) →
    BlamesHere P (stmt table result s)
  | .cond node first otherwise, h => by
      simp only [Stmt.nodes, List.forall_mem_append] at h
      apply BlamesHere.bind (arms_blames .if_ first h.1.1)
      intro _
      exact .bind (elseBody_blames otherwise h.1.2) fun _ => .pure _
  | .loop node condition body, h => by
      simp only [Stmt.nodes, List.forall_mem_append] at h
      apply BlamesHere.bind (typedHere_blames h.1.1)
      intro _
      exact .bind (.within (stmts_blames false body h.1.2)) fun _ => .pure _
  | .ret node value, h => by
      simp only [Stmt.nodes, List.forall_mem_append, List.forall_mem_singleton] at h
      exact .bind (returned_blames h.2 h.1) fun _ => .pure _
  | .declare node kind name type initial, h => by
      simp only [Stmt.nodes, List.forall_mem_append] at h
      apply BlamesHere.bind (typedHere_blames h.1)
      intro _
      exact .bind (.scopeBind _ _) fun _ => .pure _
  | .expr node value, h => by
      simp only [Stmt.nodes, List.forall_mem_append] at h
      exact .bind (exprHere_blames h.1) fun _ => .pure _

theorem stmts_blames (unreachable : Bool) : (body : List (Stmt Node)) →
    (∀ n ∈ Stmt.listNodes body, P n.start) → BlamesHere P (stmts table result unreachable body)
  | [], _ => .pure _
  | s :: rest, h => by
      simp only [Stmt.listNodes, List.forall_mem_append] at h
      rw [stmts]
      split
      · exact .fail (h.1 _ s.node_mem_nodes) _
      · apply BlamesHere.bind (stmt_blames s h.1)
        intro _
        exact .bind (stmts_blames s.isReturn rest h.2) fun _ => .pure _

theorem arms_blames (word : Keyword) : (arms : List (Arm Node)) →
    (∀ n ∈ Stmt.armsNodes arms, P n.start) → BlamesHere P (Check.arms table result word arms)
  | [], _ => .pure _
  | ⟨condition, body, span⟩ :: rest, h => by
      simp only [Stmt.armsNodes, List.forall_mem_append] at h
      rw [Check.arms]
      apply BlamesHere.bind
      · apply BlamesHere.bind (typedHere_blames h.1.1)
        intro _
        exact .bind (.within (stmts_blames false body h.1.2)) fun _ => .pure _
      · intro _
        exact .bind (arms_blames .elif rest h.2) fun _ => .pure _

theorem elseBody_blames : (otherwise : Option (List (Stmt Node))) →
    (∀ n ∈ Stmt.elseNodes otherwise, P n.start) → BlamesHere P (elseBody table result otherwise)
  | none, _ => .pure _
  | some body, h => .bind (.within (stmts_blames false body h)) fun _ => .pure _

end

end Statements

/-! ## Programs -/

theorem parameters_blames {ps : List Parameter} (seen : List String)
    (h : ∀ p ∈ ps, P p.span.start) : Blames P (parameters seen ps) fun _ => True := by
  induction ps generalizing seen with
  | nil => exact .pure trivial
  | cons p ps ih =>
      obtain ⟨hown, hrest⟩ := List.forall_mem_cons.mp h
      rw [parameters]
      split
      · exact .fail hown _
      · split
        · exact .fail hown _
        · exact ih _ hrest

theorem declare_blames {f : Func Node} (table : Signatures) (hown : P f.node.start)
    (h : ∀ p ∈ f.signature.parameters, P p.span.start) :
    Blames P (declare table f) fun _ => True := by
  apply Blames.bind (parameters_blames [] h)
  intro _ _
  split
  · exact .fail hown _
  · exact .pure trivial

theorem foldlM_declare_blames {funcs : List (Func Node)} (table : Signatures)
    (hown : ∀ f ∈ funcs, P f.node.start)
    (h : ∀ f ∈ funcs, ∀ p ∈ f.signature.parameters, P p.span.start) :
    Blames P (funcs.foldlM declare table) fun _ => True := by
  induction funcs generalizing table with
  | nil => exact .pure trivial
  | cons f funcs ih =>
      rw [List.forall_mem_cons] at hown h
      rw [List.foldlM_cons]
      apply Blames.bind (declare_blames table hown.1 h.1)
      exact fun table' _ => ih table' hown.2 h.2

theorem memories_blames {funcs : List (Func Node)} {ms : List Memory}
    (h : ∀ m ∈ ms, P m.node.start) : Blames P (memories funcs ms) fun _ => True := by
  fun_cases memories funcs ms with
  | case1 => exact .pure trivial
  | case2 m => exact .fail (h m List.mem_cons_self) _
  | case3 m => exact .pure trivial
  | case4 first m rest => exact .fail (h m (List.mem_cons_of_mem _ List.mem_cons_self)) _

theorem funcDef_blames {table : Signatures} {d : FuncDef Node} (hown : P d.node.start)
    (h : ∀ n ∈ Stmt.listNodes d.body, P n.start) : Blames P (funcDef table d) fun _ => True := by
  have hbody : BlamesHere P (stmts table d.signature.result false d.body) :=
    stmts_blames false d.body h
  have hlast : P ((d.body.getLast?.map Stmt.start).getD d.node.start) := by
    cases hbottom : d.body.getLast? with
    | none => exact hown
    | some s =>
        apply h
        rw [Stmt.listNodes_eq, List.mem_flatMap]
        exact ⟨.stmt s, List.mem_map_of_mem (List.mem_of_getLast? hbottom), s.node_mem_nodes⟩
  rw [funcDef]
  split
  · next e t hrun =>
    constructor
    · intro a ha
      cases ha
    · intro e' he
      rw [← Except.error.inj he]
      exact hbody.of_error _ e t hrun
  · split
    · exact .fail hlast _
    · exact .pure trivial

theorem func_blames {table : Signatures} {f : Func Node} (h : ∀ n ∈ f.nodes, P n.start) :
    Blames P (func table f) fun _ => True := by
  cases f with
  | imported i => exact .pure trivial
  | plain d | exported d =>
      simp only [Func.nodes, List.forall_mem_append, List.forall_mem_singleton] at h
      exact .bind (funcDef_blames h.2 h.1) fun _ _ => .pure trivial

end Check

/-- What holds of the starts of all nodes and parameters of a program holds of the place that a
failure of its check blames. -/
theorem checkProgram_blames {P : Location → Prop} {p : Program Node} {e : CheckError}
    (hfuncs : ∀ f ∈ p.funcs, ∀ n ∈ f.nodes, P n.start)
    (hparameters : ∀ f ∈ p.funcs, ∀ parameter ∈ f.signature.parameters, P parameter.span.start)
    (hmemories : ∀ m ∈ p.memories, P m.node.start) (h : checkProgram p = .error e) :
    P e.location := by
  rw [checkProgram_eq, except_bind_eq_error] at h
  have hown : ∀ f ∈ p.funcs, P f.node.start :=
    fun f hf => hfuncs f hf _ (Part.func f).node_mem_nodes
  rcases h with hdeclare | ⟨table, -, h⟩
  · exact (Check.foldlM_declare_blames [] hown hparameters).of_error e hdeclare
  · rw [except_bind_eq_error] at h
    rcases h with hmemory | ⟨_, -, h⟩
    · exact (Check.memories_blames hmemories).of_error e hmemory
    · rw [except_bind_eq_error] at h
      rcases h with hfunc | ⟨_, -, h⟩
      · obtain ⟨before, f, behind, hlist, -, hf⟩ := except_mapM_eq_error.mp hfunc
        apply (Check.func_blames (hfuncs f ?_)).of_error e hf
        rw [hlist]
        exact List.mem_append_right _ List.mem_cons_self
      · cases h

end Wattle
