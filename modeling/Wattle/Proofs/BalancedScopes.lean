import Mathlib.Order.Defs.Unbundled
import Wattle.Lower.Stmt
import Wattle.Proofs.CheckerSound

/-!
# Scopes are balanced

Both walks over a body carry one chain of scopes through all of its nesting and stop at the first
error, wherever they are. Whatever the outcome, a statement binds at most the name that it
declares, a list of statements changes the innermost frame at most, and what is nested in a
statement leaves no trace in the chain at all. Expressions bind nothing: in both walks they only
ask questions of the chain, so for them this is no more than the type of `Scope.asking`. All the
rest depends on where the walks open and close their frames.
-/

namespace Wattle

namespace Scope

variable {ε α γ β : Type}

/-- The chain that a step leaves, whether it succeeds or fails. -/
def after (x : EStateM ε (Scope β) α) (chain : Scope β) : Scope β :=
  match x chain with
  | .ok _ t | .error _ t => t

/-- Whatever the outcome, the chain that a step leaves is related to the one it found. -/
def Leaves (R : Scope β → Scope β → Prop) (x : EStateM ε (Scope β) α) : Prop :=
  ∀ chain, R chain (after x chain)

/-- The step leaves the chain as it was. -/
abbrev KeepsAll (x : EStateM ε (Scope β) α) : Prop :=
  Leaves Eq x

/-- The chains are equally deep and the same outside the innermost frame. -/
def SameOutside (s t : Scope β) : Prop :=
  t.outer = s.outer ∧ t.depth = s.depth

/-- The step leaves all frames but the innermost as they were, and opens and closes none. -/
abbrev KeepsOuter (x : EStateM ε (Scope β) α) : Prop :=
  Leaves SameOutside x

/-- The chain `t` is `s`, or `s` with a new binding of the name that there is to bind. -/
def Extends (name? : Option String) (s t : Scope β) : Prop :=
  s = t ∨ ∃ name ∈ name?, ∃ value, t = s.insert name value

instance : IsTrans (Scope β) SameOutside :=
  ⟨fun _ _ _ h h' => ⟨h'.1.trans h.1, h'.2.trans h.2⟩⟩

/-- Closing the frame that a nested body leaves leads back to the chain outside. -/
theorem SameOutside.pop_push {s t : Scope β} (h : s.push.SameOutside t) : s = t.pop :=
  (Check.pop_of_outer_push h.1).symm

theorem Extends.sameOutside {name? : Option String} {s t : Scope β} (h : Extends name? s t) :
    s.SameOutside t := by
  obtain rfl | ⟨name, -, value, rfl⟩ := h
  · exact ⟨rfl, rfl⟩
  · exact ⟨outer_insert name value s, depth_insert name value s⟩

theorem Extends.eq_of_none {s t : Scope β} (h : Extends none s t) : s = t := by
  obtain rfl | ⟨_, ⟨⟩, -⟩ := h
  rfl

theorem keepsAll_pure (a : α) : KeepsAll (pure a : EStateM ε (Scope β) α) :=
  fun _ => rfl

namespace Leaves

variable {Q R R' : Scope β → Scope β → Prop} {x : EStateM ε (Scope β) α}

theorem of_ok (h : Leaves R x) {s t : Scope β} {a : α} (hx : x s = .ok a t) : R s t := by
  have hs := h s
  simpa only [after, hx] using hs

theorem imp (hx : Leaves R x) (h : ∀ s t, R s t → R' s t) : Leaves R' x :=
  fun chain => h _ _ (hx chain)

/-- A step and the one behind it. The first may fail, which leaves what it left. -/
theorem seq {f : α → EStateM ε (Scope β) γ} (hx : Leaves R x) (hf : ∀ a, Leaves R' (f a))
    (hstop : ∀ s t, R s t → Q s t) (hgo : ∀ s t u, R s t → R' t u → Q s u) :
    Leaves Q (x >>= f) := by
  intro chain
  have hfirst := hx chain
  simp only [after, Bind.bind, EStateM.bind] at hfirst ⊢
  revert hfirst
  cases x chain with
  | error e t => exact hstop chain t
  | ok a t => exact fun hfirst => hgo chain t _ hfirst (hf a t)

theorem bind [IsTrans (Scope β) R] {f : α → EStateM ε (Scope β) γ} (hx : Leaves R x)
    (hf : ∀ a, Leaves R (f a)) : Leaves R (x >>= f) :=
  hx.seq hf (fun _ _ => id) fun _ _ _ => IsTrans.trans _ _ _

theorem then_pure (hx : Leaves R x) (g : α → γ) : Leaves R (x >>= fun a => pure (g a)) :=
  hx.seq (fun a => keepsAll_pure (g a)) (fun _ _ => id) fun _ _ _ h heq => heq ▸ h

end Leaves

section Steps

variable {x : EStateM ε (Scope β) α}

theorem keepsAll_throw (e : ε) : KeepsAll (throw e : EStateM ε (Scope β) α) :=
  fun _ => rfl

theorem keepsAll_ofExcept (y : Except ε α) : KeepsAll (ofExcept y : EStateM ε (Scope β) α) := by
  intro chain
  cases y <;> rfl

theorem keepsAll_asking (question : Scope β → Except ε α) : KeepsAll (asking question) := by
  intro chain
  simp only [after, asking]
  cases question chain <;> rfl

theorem KeepsAll.keepsOuter (hx : KeepsAll x) : KeepsOuter x :=
  hx.imp fun _ _ h => h ▸ ⟨rfl, rfl⟩

theorem KeepsAll.extends (hx : KeepsAll x) (name? : Option String) : Leaves (Extends name?) x :=
  hx.imp fun _ _ => Or.inl

/-- A body in a frame of its own leaves no trace, also if it fails halfway. -/
theorem KeepsOuter.within (hx : KeepsOuter x) : KeepsAll (Scope.within x) := by
  intro chain
  have hbody := hx chain.push
  simp only [after, Scope.within] at hbody ⊢
  revert hbody
  cases x chain.push <;> exact SameOutside.pop_push

/-- What comes behind a step that leaves the chain as it was may bind a name. -/
theorem KeepsAll.before {name? : Option String} {f : α → EStateM ε (Scope β) γ} (hx : KeepsAll x)
    (hf : ∀ a, Leaves (Extends name?) (f a)) : Leaves (Extends name?) (x >>= f) :=
  hx.seq hf (fun _ _ => Or.inl) fun _ _ _ h hext => h ▸ hext

theorem extends_bind (name : String) (value : β) :
    Leaves (Extends (some name)) (Scope.bind name value : EStateM ε (Scope β) Unit) :=
  fun _ => .inr ⟨name, rfl, value, rfl⟩

end Steps

end Scope

open Scope

/-- The name that the statement itself binds. -/
def Stmt.binds? {α : Type} : Stmt α → Option String
  | declare _ _ name _ _ => some name
  | _ => none

/-! ## Checking -/

namespace Check

variable (table : Signatures) (result : Ty)

theorem exprHere_keepsAll (e : Expr Node) : KeepsAll (exprHere table e) :=
  keepsAll_asking _

theorem typedHere_keepsAll (expected : Ty) (use : Use) (e : Expr Node) :
    KeepsAll (typedHere table expected use e) :=
  keepsAll_asking _

theorem returned_keepsAll (location : Location) (value : Option (Expr Node)) :
    KeepsAll (returned table result location value) := by
  cases value with
  | none =>
      simp only [returned]
      split
      · exact keepsAll_pure none
      · exact keepsAll_throw _
  | some value =>
      simp only [returned]
      split
      · exact keepsAll_throw _
      · exact (typedHere_keepsAll table result .returnValue value).then_pure _

mutual

/-- Checking a statement binds the name that it declares, if it comes to that. -/
theorem stmt_extends : (s : Stmt Node) → Leaves (Extends s.binds?) (stmt table result s)
  | .cond node branches otherwise => by
      simp only [stmt]
      refine KeepsAll.extends ?_ _
      exact (arms_keepsAll .if_ branches).bind fun typed =>
        (elseBody_keepsAll otherwise).then_pure _
  | .loop node condition body => by
      simp only [stmt]
      refine KeepsAll.extends ?_ _
      exact (typedHere_keepsAll table .i32 (.condition .while_) condition).bind fun test =>
        (stmts_keepsOuter false body).within.then_pure _
  | .ret node value => by
      simp only [stmt]
      exact KeepsAll.extends ((returned_keepsAll table result node.start value).then_pure _) _
  | .declare node kind name type initial => by
      simp only [stmt]
      exact (typedHere_keepsAll table type (.initializer name) initial).before fun typed =>
        (extends_bind name _).then_pure _
  | .expr node value => by
      simp only [stmt]
      exact KeepsAll.extends ((exprHere_keepsAll table value).then_pure _) _

/-- Checking a list of statements changes the innermost frame at most. -/
theorem stmts_keepsOuter (unreachable : Bool) :
    (body : List (Stmt Node)) → KeepsOuter (stmts table result unreachable body)
  | [] => by
      simp only [stmts]
      exact (keepsAll_pure []).keepsOuter
  | s :: rest => by
      simp only [stmts]
      split
      · exact (keepsAll_throw _).keepsOuter
      · refine ((stmt_extends s).imp fun _ _ => Extends.sameOutside).bind fun first => ?_
        exact (stmts_keepsOuter s.isReturn rest).then_pure _

theorem arms_keepsAll (word : Keyword) :
    (branches : List (Arm Node)) → KeepsAll (arms table result word branches)
  | [] => by
      simp only [arms]
      exact keepsAll_pure []
  | ⟨condition, body, span⟩ :: rest => by
      simp only [arms, arm]
      refine Leaves.bind ?_ fun first => (arms_keepsAll .elif rest).then_pure _
      exact (typedHere_keepsAll table .i32 (.condition word) condition).bind fun test =>
        (stmts_keepsOuter false body).within.then_pure _

theorem elseBody_keepsAll :
    (otherwise : Option (List (Stmt Node))) → KeepsAll (elseBody table result otherwise)
  | none => by
      simp only [elseBody]
      exact keepsAll_pure none
  | some body => by
      simp only [elseBody]
      exact (stmts_keepsOuter false body).within.then_pure _

end

/-- How checking in a function with the given result treats the chain of scopes, whatever the
chain and the outcome. The first three fields are about questions (`Scope.asking`), which cannot
change it; the others are about steps that can. -/
structure Balanced : Prop where
  expr : ∀ e, KeepsAll (exprHere table e)
  typed : ∀ expected use e, KeepsAll (typedHere table expected use e)
  value : ∀ location value, KeepsAll (returned table result location value)
  stmt : ∀ s, Leaves (Extends s.binds?) (stmt table result s)
  block : ∀ unreachable body, KeepsOuter (stmts table result unreachable body)
  nested : ∀ body, KeepsAll (Scope.within (stmts table result false body))
  arms : ∀ word branches, KeepsAll (arms table result word branches)
  otherwise : ∀ body, KeepsAll (elseBody table result body)

theorem balanced : Balanced table result where
  expr := exprHere_keepsAll table
  typed := typedHere_keepsAll table
  value := returned_keepsAll table result
  stmt := stmt_extends table result
  block := stmts_keepsOuter table result
  nested body := (stmts_keepsOuter table result false body).within
  arms := arms_keepsAll table result
  otherwise := elseBody_keepsAll table result

end Check

/-! ## Lowering -/

namespace Lower

open Wasm

theorem exprHere_keepsAll (e : Expr TypedNode) : KeepsAll (exprHere e) :=
  keepsAll_asking _

theorem exitUnless_keepsAll (condition : Expr TypedNode) : KeepsAll (exitUnless condition) :=
  (exprHere_keepsAll condition).then_pure _

theorem returned_keepsAll (value : Option (Expr TypedNode)) : KeepsAll (returned value) := by
  cases value with
  | none => exact keepsAll_pure [Instr.ret]
  | some value => exact (exprHere_keepsAll value).then_pure _

variable (slots : SlotTable)

mutual

/-- Lowering a statement binds the name that it declares, if it comes to that. -/
theorem stmt_extends : (s : Stmt TypedNode) → Leaves (Extends s.binds?) (stmt slots s)
  | .cond _ branches otherwise => by
      simp only [stmt]
      refine KeepsAll.extends ?_ _
      exact (arms_keepsAll branches).bind fun codes => (elseBody_keepsAll otherwise).then_pure _
  | .loop _ condition body => by
      simp only [stmt]
      refine KeepsAll.extends ?_ _
      exact (exitUnless_keepsAll condition).bind fun test =>
        (stmts_keepsOuter body).within.then_pure _
  | .ret _ value => by
      simp only [stmt]
      exact KeepsAll.extends (returned_keepsAll value) _
  | .declare node _ name _ initial => by
      simp only [stmt]
      refine (exprHere_keepsAll initial).before fun code => ?_
      exact (keepsAll_ofExcept (slots.slotFor node.id)).before fun slot =>
        (extends_bind name slot).then_pure _
  | .expr _ value => by
      simp only [stmt]
      exact KeepsAll.extends ((exprHere_keepsAll value).then_pure _) _

/-- Lowering a list of statements changes the innermost frame at most. -/
theorem stmts_keepsOuter : (body : List (Stmt TypedNode)) → KeepsOuter (stmts slots body)
  | [] => by
      simp only [stmts]
      exact (keepsAll_pure []).keepsOuter
  | s :: rest => by
      simp only [stmts]
      refine ((stmt_extends s).imp fun _ _ => Extends.sameOutside).bind fun first => ?_
      exact (stmts_keepsOuter rest).then_pure _

theorem arms_keepsAll : (branches : List (Arm TypedNode)) → KeepsAll (arms slots branches)
  | [] => by
      simp only [arms]
      exact keepsAll_pure []
  | ⟨condition, body, _⟩ :: rest => by
      simp only [arms, arm]
      refine Leaves.bind ?_ fun first => (arms_keepsAll rest).then_pure _
      exact (exitUnless_keepsAll condition).bind fun test =>
        (stmts_keepsOuter body).within.then_pure _

theorem elseBody_keepsAll :
    (otherwise : Option (List (Stmt TypedNode))) → KeepsAll (elseBody slots otherwise)
  | none => by
      simp only [elseBody]
      exact keepsAll_pure none
  | some body => by
      simp only [elseBody]
      exact (stmts_keepsOuter body).within.then_pure _

end

/-- How the production of code with the given slots treats the chain of scopes, whatever the chain
and the outcome. As in checking, the first three fields are about questions. -/
structure Balanced : Prop where
  expr : ∀ e, KeepsAll (exprHere e)
  condition : ∀ e, KeepsAll (exitUnless e)
  value : ∀ value, KeepsAll (returned value)
  stmt : ∀ s, Leaves (Extends s.binds?) (stmt slots s)
  block : ∀ body, KeepsOuter (stmts slots body)
  nested : ∀ body, KeepsAll (Scope.within (stmts slots body))
  arms : ∀ branches, KeepsAll (arms slots branches)
  otherwise : ∀ body, KeepsAll (elseBody slots body)

theorem balanced : Balanced slots where
  expr := exprHere_keepsAll
  condition := exitUnless_keepsAll
  value := returned_keepsAll
  stmt := stmt_extends slots
  block := stmts_keepsOuter slots
  nested body := (stmts_keepsOuter slots body).within
  arms := arms_keepsAll slots
  otherwise := elseBody_keepsAll slots

end Lower

end Wattle
