import Wattle.Compile
import Wattle.Proofs.CheckerSound
import Wattle.Proofs.TypeRules

/-!
# The checker decides the type system

A program is accepted exactly if it obeys the rules. Every type in the result is then the one type
that the rules give to the expression at its place, and the result without its types is the program
that was checked.
-/

namespace Wattle

/-- The bindings of all frames in one list, the innermost and newest first. -/
def Scope.context (scope : Scope Symbol) : Context :=
  scope.frames.flatten

namespace Scope

theorem lookup?_eq_lookup_context (scope : Scope Symbol) (name : String) :
    scope.lookup? name = scope.context.lookup name := by
  simp only [lookup?, context]
  induction scope.frames with
  | nil => rfl
  | cons frame frames ih =>
      rw [List.findSome?_cons, List.flatten_cons, List.lookup_append]
      cases hfound : frame.lookup name <;> simp [ih]

@[simp] theorem context_push (scope : Scope Symbol) : scope.push.context = scope.context := rfl

@[simp] theorem context_insert (scope : Scope Symbol) (name : String) (symbol : Symbol) :
    (scope.insert name symbol).context = (name, symbol) :: scope.context := rfl

theorem context_scopeAfter {α : Type} (scope : Scope Symbol) (s : Stmt α) :
    (s.scopeAfter scope).context = s.contextAfter scope.context := by
  cases s <;> rfl

end Scope

theorem Stmt.contextAfter_map {α β : Type} (f : α → β) (Γ : Context) (s : Stmt α) :
    (s.map f).contextAfter Γ = s.contextAfter Γ := by
  cases s <;> rfl

theorem Check.parameterScope_context (parameters : List Parameter) :
    (parameterScope parameters).context = parameterContext parameters := by
  have hfold : ∀ (ps : List Parameter) (scope : Scope Symbol),
      (ps.foldl (fun scope p => scope.insert p.name ⟨p.type, .parameter⟩) scope).context =
        parameterContext ps ++ scope.context := by
    intro ps
    induction ps with
    | nil => exact fun scope => rfl
    | cons p ps ih =>
        intro scope
        rw [List.foldl_cons, ih, Scope.context_insert]
        simp [parameterContext]
  rw [parameterScope, hfold]
  exact List.append_nil _

theorem SymbolKind.isMutable_iff {kind : SymbolKind} : kind.isMutable = true ↔ kind = .var := by
  cases kind <;> simp [isMutable]

/-! ## Checked trees follow the rules -/

namespace Expr

variable {table : Signatures} {scope : Scope Symbol}

mutual

/-- The type in the note of a well-typed expression is one that the rules give it. -/
theorem Typed.hasType : {t : Expr TypedNode} → t.Typed table scope →
    t.erase.HasType table scope.context t.type
  | .name _ _, .name found _ type => by
      rw [Expr.type, note, type]
      exact .name (scope.lookup?_eq_lookup_context _ ▸ found)
  | .number _ _ _, .number _ type => by
      rw [Expr.type, note, type]
      exact .number
  | .call _ _ _, .call found _ matched type => by
      rw [Expr.type, note, type]
      have hname := List.find?_some found
      exact .call (Check.findFunction?_mem found) (of_decide_eq_true hname) matched.haveTypes
  | .unary _ _ _, .negate typed value type => by
      rw [Expr.type, note, type]
      exact .negate typed.hasType value
  | .unary _ _ _, .deref typed pointer => by
      have hoperand := typed.hasType
      rw [pointer] at hoperand
      exact .deref hoperand
  | .unary _ _ _, .logicalNot typed truth type => by
      have hoperand := typed.hasType
      rw [truth] at hoperand
      rw [Expr.type, note, type]
      exact .logicalNot hoperand
  | .binary _ _ (.name _ _) value, .assignName found mutable left right same type => by
      have hvalue := right.hasType
      cases left with
      | name found' _ target =>
          obtain rfl := Option.some.inj (found.symm.trans found')
          rw [same, target] at hvalue
          rw [Expr.type, note, type]
          have hvisible := scope.lookup?_eq_lookup_context _ ▸ found
          exact .assignName hvisible (SymbolKind.isMutable_iff.mp mutable) hvalue
  | .binary _ _ (.unary _ _ _) _, .assignDeref left right same type => by
      have hvalue := right.hasType
      rw [same] at hvalue
      rw [Expr.type, note, type]
      exact .assignDeref left.hasType hvalue
  | .binary _ op left right, .binary operator first second value integer same type => by
      have hsecond := second.hasType
      rw [same] at hsecond
      rw [Expr.type, note, type]
      cases hcompares : op.isComparison with
      | true => exact .comparison hcompares first.hasType hsecond value
      | false => exact .arithmetic operator hcompares first.hasType hsecond value integer
  | .paren _ _, .paren typed type => by
      rw [Expr.type, note, type]
      exact .paren typed.hasType
  | .cast _ _ _, .cast typed value target type => by
      rw [Expr.type, note, type]
      exact .cast typed.hasType value (Ty.ne_void_of_voidFree target)

theorem ArgsTyped.haveTypes : {ts : List (Expr TypedNode)} → {parameters : List Parameter} →
    ArgsTyped table scope ts parameters →
    ArgsHaveTypes table scope.context (mapList TypedNode.toNode ts) (parameters.map Parameter.type)
  | [], [], .nil => .nil
  | _ :: _, _ :: _, .cons typed same rest => by
      have hfirst := typed.hasType
      rw [same] at hfirst
      exact .cons hfirst rest.haveTypes

end

mutual

theorem Typed.of_part {s : Expr TypedNode} : {t : Expr TypedNode} → t.Typed table scope →
    s ∈ t.parts → s.Typed table scope
  | .name _ _, typed, h => by
      obtain rfl := List.mem_singleton.mp h
      exact typed
  | .number _ _ _, typed, h => by
      obtain rfl := List.mem_singleton.mp h
      exact typed
  | .call _ _ _, .call found result matched type, h => by
      rcases List.mem_cons.mp h with rfl | h
      · exact .call found result matched type
      · exact matched.of_part h
  | .unary _ _ operand, typed, h => by
      rcases List.mem_cons.mp h with rfl | h
      · exact typed
      · have hoperand : operand.Typed table scope := by
          cases typed with
          | negate typed => exact typed
          | deref typed => exact typed
          | logicalNot typed => exact typed
        exact hoperand.of_part h
  | .binary _ _ left right, typed, h => by
      rcases List.mem_cons.mp h with rfl | h
      · exact typed
      · have hsides : left.Typed table scope ∧ right.Typed table scope := by
          cases typed with
          | assignName _ _ first second => exact ⟨first, second⟩
          | assignDeref first second => exact ⟨first, second⟩
          | binary _ first second => exact ⟨first, second⟩
        rcases List.mem_append.mp h with h | h
        · exact hsides.1.of_part h
        · exact hsides.2.of_part h
  | .paren _ _, .paren typed type, h => by
      rcases List.mem_cons.mp h with rfl | h
      · exact .paren typed type
      · exact typed.of_part h
  | .cast _ _ _, .cast typed value target type, h => by
      rcases List.mem_cons.mp h with rfl | h
      · exact .cast typed value target type
      · exact typed.of_part h

theorem ArgsTyped.of_part {s : Expr TypedNode} : {ts : List (Expr TypedNode)} →
    {parameters : List Parameter} → ArgsTyped table scope ts parameters → s ∈ listParts ts →
    s.Typed table scope
  | [], [], .nil, h => nomatch h
  | _ :: _, _ :: _, .cons typed _ rest, h => by
      rcases List.mem_append.mp h with h | h
      · exact typed.of_part h
      · exact rest.of_part h

end

end Expr

namespace Stmt

variable {table : Signatures} {result : Ty}

mutual

theorem Typed.wellTyped : {scope : Scope Symbol} → {t : Stmt TypedNode} →
    t.Typed table result scope →
    (t.map TypedNode.toNode).WellTyped table result scope.context
  | _, .cond _ _ _, .cond branches last => .cond branches.wellTyped last.wellTyped
  | _, .loop _ _ _, .loop test truth inside => by
      have htest := test.hasType
      rw [truth] at htest
      exact .loop htest inside.wellTyped
  | _, .ret _ none, .retVoid nothing => .retVoid nothing
  | _, .ret _ (some _), .retValue something typed same => by
      have hvalue := typed.hasType
      rw [same] at hvalue
      exact .retValue something hvalue
  | _, .declare _ _ _ _ _, .declare typed same _ => by
      have hinitial := typed.hasType
      rw [same] at hinitial
      exact .declare hinitial
  | _, .expr _ _, .expr typed => .expr typed.hasType

theorem ListTyped.wellTyped : {scope : Scope Symbol} → {ts : List (Stmt TypedNode)} →
    ListTyped table result scope ts →
    ListWellTyped table result scope.context (mapList TypedNode.toNode ts)
  | _, [], .nil => .nil
  | scope, t :: ts, .cons first last others => by
      have hothers := others.wellTyped
      rw [Scope.context_scopeAfter, ← contextAfter_map TypedNode.toNode] at hothers
      refine .cons first.wellTyped ?_ hothers
      intro hreturn
      rw [last (Check.isReturn_map _ t ▸ hreturn), mapList]

theorem ArmsTyped.wellTyped : {scope : Scope Symbol} → {ts : List (Arm TypedNode)} →
    ArmsTyped table result scope ts →
    ArmsWellTyped table result scope.context (mapArms TypedNode.toNode ts)
  | _, [], .nil => .nil
  | _, ⟨_, _, _⟩ :: _, .cons test truth inside others => by
      have htest := test.hasType
      rw [truth] at htest
      exact .cons htest inside.wellTyped others.wellTyped

theorem ElseTyped.wellTyped : {scope : Scope Symbol} → {t : Option (List (Stmt TypedNode))} →
    ElseTyped table result scope t →
    ElseWellTyped table result scope.context (mapElse TypedNode.toNode t)
  | _, none, .none => .none
  | _, some _, .some inside => .some inside.wellTyped

end

/-- What holds of an expression in a well-typed tree: it is well typed in a scope with the bindings
visible there. -/
def TypedIn (table : Signatures) (occurrence : Context × Expr TypedNode) : Prop :=
  ∃ scope : Scope Symbol, scope.context = occurrence.1 ∧ occurrence.2.Typed table scope

theorem typedIn_of_mem {scope : Scope Symbol} {t : Expr TypedNode}
    {o : Context × Expr TypedNode} (typed : t.Typed table scope)
    (h : o ∈ t.occurrences scope.context) : TypedIn table o := by
  obtain ⟨s, hs, rfl⟩ := List.mem_map.mp h
  exact ⟨scope, rfl, typed.of_part hs⟩

mutual

theorem Typed.typedIn {o : Context × Expr TypedNode} : {scope : Scope Symbol} →
    {t : Stmt TypedNode} → t.Typed table result scope → o ∈ t.occurrences scope.context →
    TypedIn table o
  | _, .cond _ _ _, .cond branches last, h => by
      rcases List.mem_append.mp h with h | h
      · exact branches.typedIn h
      · exact last.typedIn h
  | _, .loop _ _ _, .loop test _ inside, h => by
      rcases List.mem_append.mp h with h | h
      · exact typedIn_of_mem test h
      · exact inside.typedIn h
  | _, .ret _ none, _, h => nomatch h
  | _, .ret _ (some _), .retValue _ typed _, h => typedIn_of_mem typed h
  | _, .declare _ _ _ _ _, .declare typed _ _, h => typedIn_of_mem typed h
  | _, .expr _ _, .expr typed, h => typedIn_of_mem typed h

theorem ListTyped.typedIn {o : Context × Expr TypedNode} : {scope : Scope Symbol} →
    {ts : List (Stmt TypedNode)} → ListTyped table result scope ts →
    o ∈ listOccurrences scope.context ts → TypedIn table o
  | _, [], _, h => nomatch h
  | scope, t :: ts, .cons first _ others, h => by
      rcases List.mem_append.mp h with h | h
      · exact first.typedIn h
      · rw [← Scope.context_scopeAfter] at h
        exact others.typedIn h

theorem ArmsTyped.typedIn {o : Context × Expr TypedNode} : {scope : Scope Symbol} →
    {ts : List (Arm TypedNode)} → ArmsTyped table result scope ts →
    o ∈ armsOccurrences scope.context ts → TypedIn table o
  | _, [], _, h => nomatch h
  | _, ⟨_, _, _⟩ :: _, .cons test _ inside others, h => by
      rcases List.mem_append.mp h with h | h
      · rcases List.mem_append.mp h with h | h
        · exact typedIn_of_mem test h
        · exact inside.typedIn h
      · exact others.typedIn h

theorem ElseTyped.typedIn {o : Context × Expr TypedNode} : {scope : Scope Symbol} →
    {t : Option (List (Stmt TypedNode))} → ElseTyped table result scope t →
    o ∈ elseOccurrences scope.context t → TypedIn table o
  | _, none, _, h => nomatch h
  | _, some _, .some inside, h => inside.typedIn h

end

end Stmt

/-! ## What follows the rules is accepted -/

namespace Check

section Trees

variable {table : Signatures}

theorem findFunction?_eq_some {name : String} {signature : Signature}
    (hnames : (table.map Signature.name).Nodup) (hmem : signature ∈ table)
    (hname : signature.name = name) : findFunction? table name = some signature := by
  cases hfound : findFunction? table name with
  | none =>
      have hnone := List.find?_eq_none.mp hfound signature hmem
      exact absurd (decide_eq_true hname) hnone
  | some other =>
      have hother := findFunction?_mem hfound
      have hcalled := List.find?_some hfound
      have hsame : other.name = signature.name := by
        rw [hname]
        exact of_decide_eq_true hcalled
      rw [List.inj_on_of_nodup_map hnames hother hmem hsame]

theorem binaryType_eq_ok {op : BinaryOp} {left right : Expr TypedNode} {location : Location}
    (value : left.type ≠ .void) (integer : op.requiresInteger = true → left.type.isInteger = true)
    (same : right.type = left.type) :
    binaryType op left right location = .ok (if op.isComparison then .i32 else left.type) := by
  have hoperand : (left.type.isVoid || (op.requiresInteger && !left.type.isInteger)) = false := by
    rw [Ty.isVoid_eq_false.mpr value, Bool.false_or]
    cases hrequires : op.requiresInteger with
    | true => rw [integer hrequires, Bool.not_true, Bool.and_false]
    | false => rw [Bool.false_and]
  simp [binaryType, hoperand, same]

theorem requiresInteger_of_isComparison {op : BinaryOp} (h : op.isComparison = true) :
    op.requiresInteger = false := by
  cases op <;> first | rfl | cases h

theorem name_eq_ok {scope : Scope Symbol} {id : String} {symbol : Symbol} (node : Node)
    (hfound : scope.lookup? id = some symbol) :
    expr table scope (.name node id) = .ok (.name ⟨node, symbol.type⟩ id) := by
  simp only [expr, except_bind_eq_ok, except_pure_eq_ok, resolve_eq_ok]
  exact ⟨symbol, hfound, rfl⟩

theorem assign_eq_ok {scope : Scope Symbol} {left right : Expr Node} {l r : Expr TypedNode}
    (node : Node) (hassignable : assignable scope left = .ok ())
    (hleft : expr table scope left = .ok l) (hright : expr table scope right = .ok r)
    (hsame : r.type = l.type) :
    expr table scope (.binary node .assign left right) =
      .ok (.binary ⟨node, .void⟩ .assign l r) := by
  simp only [expr, if_true, except_bind_eq_ok, except_pure_eq_ok, require_eq_ok]
  exact ⟨(), hassignable, l, hleft, r, hright, (), hsame, rfl⟩

mutual

/-- An expression to which the rules give a type is checked, with that type. -/
theorem expr_complete (hnames : (table.map Signature.name).Nodup) {scope : Scope Symbol} :
    {e : Expr Node} → {τ : Ty} → e.HasType table scope.context τ →
    ∃ t, expr table scope e = .ok t ∧ t.type = τ
  | .name node id, _, .name visible =>
      ⟨_, name_eq_ok node ((Scope.lookup?_eq_lookup_context scope id).trans visible), rfl⟩
  | .number node digits base, _, .number => ⟨_, rfl, rfl⟩
  | .call node callee args, _, .call declared called matched => by
      obtain ⟨hlength, hchecked⟩ := arguments_complete hnames matched
      obtain ⟨ts, hts⟩ := hchecked callee 1
      refine ⟨.call ⟨node, _⟩ callee ts, ?_, rfl⟩
      simp only [expr, findFunction?_eq_some hnames declared called, hlength, if_true,
        except_bind_eq_ok, except_pure_eq_ok]
      exact ⟨ts, hts, rfl⟩
  | .unary node .negate operand, _, .negate typed value => by
      obtain ⟨t, ht, rfl⟩ := expr_complete hnames typed
      refine ⟨.unary ⟨node, t.type⟩ .negate t, ?_, rfl⟩
      simp only [expr, except_bind_eq_ok, except_pure_eq_ok]
      refine ⟨t, ht, t.type, ?_, rfl⟩
      simp [unaryType, Ty.isVoid_eq_false.mpr value]
  | .unary node .deref operand, τ, .deref typed => by
      obtain ⟨t, ht, htype⟩ := expr_complete hnames typed
      refine ⟨.unary ⟨node, τ⟩ .deref t, ?_, rfl⟩
      simp only [expr, except_bind_eq_ok, except_pure_eq_ok]
      refine ⟨t, ht, τ, ?_, rfl⟩
      simp only [unaryType, htype, Ty.pointee?]
  | .unary node .logicalNot operand, _, .logicalNot typed => by
      obtain ⟨t, ht, htype⟩ := expr_complete hnames typed
      refine ⟨.unary ⟨node, .i32⟩ .logicalNot t, ?_, rfl⟩
      simp only [expr, unaryType, except_bind_eq_ok, except_pure_eq_ok, require_eq_ok]
      exact ⟨t, ht, _, ⟨(), htype, rfl⟩, rfl⟩
  | .binary node .assign (.name target id) right, _, .assignName visible assigned value => by
      obtain ⟨r, hr, hsame⟩ := expr_complete hnames value
      have hfound := (Scope.lookup?_eq_lookup_context scope id).trans visible
      refine ⟨_, assign_eq_ok node ?_ (name_eq_ok target hfound) hr hsame, rfl⟩
      simp only [assignable, except_bind_eq_ok, resolve_eq_ok]
      exact ⟨_, hfound, by rw [if_pos (SymbolKind.isMutable_iff.mpr assigned)]⟩
  | .binary node .assign (.unary target .deref address) right, _, .assignDeref left value => by
      obtain ⟨l, hl, hltype⟩ := expr_complete hnames left
      obtain ⟨r, hr, hrtype⟩ := expr_complete hnames value
      exact ⟨_, assign_eq_ok node rfl hl hr (hrtype.trans hltype.symm), rfl⟩
  | .binary node op left right, _,
      .arithmetic noAssignment noComparison first second value integer => by
      obtain ⟨l, hl, rfl⟩ := expr_complete hnames first
      obtain ⟨r, hr, hsame⟩ := expr_complete hnames second
      refine ⟨.binary ⟨node, l.type⟩ op l r, ?_, rfl⟩
      simp only [expr, noAssignment, if_false, except_bind_eq_ok, except_pure_eq_ok]
      refine ⟨l, hl, r, hr, _, binaryType_eq_ok value integer hsame, ?_⟩
      rw [noComparison]
      rfl
  | .binary node op left right, _, .comparison compares first second value => by
      obtain ⟨l, hl, rfl⟩ := expr_complete hnames first
      obtain ⟨r, hr, hsame⟩ := expr_complete hnames second
      have hassign : op ≠ .assign := by
        rintro rfl
        cases compares
      have hinteger : op.requiresInteger = true → l.type.isInteger = true := by
        rw [requiresInteger_of_isComparison compares]
        exact fun h => nomatch h
      refine ⟨.binary ⟨node, .i32⟩ op l r, ?_, rfl⟩
      simp only [expr, hassign, if_false, except_bind_eq_ok, except_pure_eq_ok]
      refine ⟨l, hl, r, hr, _, binaryType_eq_ok value hinteger hsame, ?_⟩
      rw [compares]
      rfl
  | .paren node inner, _, .paren typed => by
      obtain ⟨t, ht, rfl⟩ := expr_complete hnames typed
      refine ⟨.paren ⟨node, t.type⟩ t, ?_, rfl⟩
      simp only [expr, except_bind_eq_ok, except_pure_eq_ok]
      exact ⟨t, ht, rfl⟩
  | .cast node operand target, _, .cast typed value _ => by
      obtain ⟨t, ht, rfl⟩ := expr_complete hnames typed
      refine ⟨.cast ⟨node, target⟩ t target, ?_, rfl⟩
      simp only [expr, except_bind_eq_ok]
      refine ⟨t, ht, ?_⟩
      simp [Ty.isVoid_eq_false.mpr value, pure, Except.pure]

theorem arguments_complete (hnames : (table.map Signature.name).Nodup) {scope : Scope Symbol} :
    {args : List (Expr Node)} → {ps : List Parameter} →
    Expr.ArgsHaveTypes table scope.context args (ps.map Parameter.type) →
    args.length = ps.length ∧
      ∀ callee index, ∃ ts, arguments table scope callee index args ps = .ok ts
  | [], [], .nil => ⟨rfl, fun _ _ => ⟨[], rfl⟩⟩
  | arg :: args, p :: ps, .cons first rest => by
      obtain ⟨t, ht, htype⟩ := expr_complete hnames first
      obtain ⟨hlength, hrest⟩ := arguments_complete hnames rest
      refine ⟨congrArg (· + 1) hlength, fun callee index => ?_⟩
      obtain ⟨ts, hts⟩ := hrest callee (index + 1)
      refine ⟨t :: ts, ?_⟩
      simp only [arguments, except_bind_eq_ok, except_pure_eq_ok, require_eq_ok]
      exact ⟨t, ht, (), htype, ts, hts, rfl⟩

end

/-- A body that is checked in a frame of its own leaves the scope as it was. -/
theorem within_stmts_eq_ok {result : Ty} {scope u : Scope Symbol} {body : List (Stmt Node)}
    {ts : List (Stmt TypedNode)} (h : stmts table result false body scope.push = .ok ts u)
    (houter : u.outer = scope.push.outer) :
    Scope.within (stmts table result false body) scope = .ok ts scope :=
  Scope.within_eq_ok.mpr ⟨u, h, (pop_of_outer_push houter).symm⟩

mutual

/-- A statement that obeys the rules is checked. -/
theorem stmt_complete (hnames : (table.map Signature.name).Nodup) {result : Ty} :
    {scope : Scope Symbol} → {s : Stmt Node} → s.WellTyped table result scope.context →
    ∃ t, stmt table result s scope = .ok t (s.scopeAfter scope)
  | scope, .cond node branches otherwise, .cond typed last => by
      obtain ⟨as, has⟩ := arms_complete hnames typed
      obtain ⟨b, hb⟩ := elseBody_complete hnames last
      refine ⟨.cond node as b, ?_⟩
      simp only [stmt, state_bind_eq_ok, state_pure_eq_ok]
      exact ⟨as, scope, has .if_, b, scope, hb, rfl, rfl⟩
  | scope, .loop node condition body, .loop test inside => by
      obtain ⟨c, hc, htruth⟩ := expr_complete hnames test
      obtain ⟨ts, u, hts, houter⟩ := stmts_complete hnames scope.push false inside nofun
      refine ⟨.loop node c ts, ?_⟩
      simp only [stmt, state_bind_eq_ok, state_pure_eq_ok, typedHere_eq_ok]
      exact ⟨c, scope, ⟨hc, htruth, rfl⟩, ts, scope, within_stmts_eq_ok hts houter, rfl, rfl⟩
  | scope, .ret node none, .retVoid nothing => by
      refine ⟨.ret node none, ?_⟩
      simp only [stmt, returned, Ty.isVoid_iff.mpr nothing, if_true, state_bind_eq_ok,
        state_pure_eq_ok]
      exact ⟨none, scope, ⟨rfl, rfl⟩, rfl, rfl⟩
  | scope, .ret node (some value), .retValue something typed => by
      obtain ⟨t, ht, htype⟩ := expr_complete hnames typed
      refine ⟨.ret node (some t), ?_⟩
      simp only [stmt, returned, Ty.isVoid_eq_false.mpr something, Bool.false_eq_true, if_false,
        state_bind_eq_ok, state_pure_eq_ok, typedHere_eq_ok]
      exact ⟨some t, scope, ⟨t, scope, ⟨ht, htype, rfl⟩, rfl, rfl⟩, rfl, rfl⟩
  | scope, .declare node kind name type initial, .declare typed => by
      obtain ⟨t, ht, htype⟩ := expr_complete hnames typed
      refine ⟨.declare node kind name type t, ?_⟩
      simp only [stmt, state_bind_eq_ok, state_pure_eq_ok, typedHere_eq_ok, Scope.bind_eq_ok]
      exact ⟨t, scope, ⟨ht, htype, rfl⟩, (), _, rfl, rfl, rfl⟩
  | scope, .expr node value, .expr typed => by
      obtain ⟨t, ht, -⟩ := expr_complete hnames typed
      refine ⟨.expr node t, ?_⟩
      simp only [stmt, state_bind_eq_ok, state_pure_eq_ok, exprHere_eq_ok]
      exact ⟨t, scope, ⟨ht, rfl⟩, rfl, rfl⟩

theorem stmts_complete (hnames : (table.map Signature.name).Nodup) {result : Ty} :
    (scope : Scope Symbol) → {body : List (Stmt Node)} → (unreachable : Bool) →
    Stmt.ListWellTyped table result scope.context body → (unreachable = true → body = []) →
    ∃ ts u, stmts table result unreachable body scope = .ok ts u ∧ u.outer = scope.outer
  | scope, [], _, .nil, _ => ⟨[], scope, rfl, rfl⟩
  | scope, s :: rest, unreachable, .cons first last others, hreach => by
      obtain ⟨t, ht⟩ := stmt_complete hnames first
      rw [← Scope.context_scopeAfter] at others
      obtain ⟨ts, u, hts, houter⟩ := stmts_complete hnames _ s.isReturn others last
      have hreach' : unreachable = false := by
        cases unreachable with
        | false => rfl
        | true => cases hreach rfl
      refine ⟨t :: ts, u, ?_, houter.trans (scopeAfter_outer s)⟩
      simp only [stmts, hreach', Bool.false_eq_true, if_false, state_bind_eq_ok, state_pure_eq_ok]
      exact ⟨t, _, ht, ts, u, hts, rfl, rfl⟩

theorem arms_complete (hnames : (table.map Signature.name).Nodup) {result : Ty} :
    {scope : Scope Symbol} → {branches : List (Arm Node)} →
    Stmt.ArmsWellTyped table result scope.context branches →
    ∃ ts, ∀ word, arms table result word branches scope = .ok ts scope
  | _, [], .nil => ⟨[], fun _ => rfl⟩
  | scope, ⟨condition, body, span⟩ :: rest, .cons test inside others => by
      obtain ⟨c, hc, htruth⟩ := expr_complete hnames test
      obtain ⟨ts, u, hts, houter⟩ := stmts_complete hnames scope.push false inside nofun
      obtain ⟨as, has⟩ := arms_complete hnames others
      refine ⟨⟨c, ts, span⟩ :: as, fun word => ?_⟩
      simp only [arms, arm, state_bind_eq_ok, state_pure_eq_ok, typedHere_eq_ok]
      exact ⟨_, scope, ⟨c, scope, ⟨hc, htruth, rfl⟩, ts, scope, within_stmts_eq_ok hts houter, rfl,
        rfl⟩, as, scope, has .elif, rfl, rfl⟩

theorem elseBody_complete (hnames : (table.map Signature.name).Nodup) {result : Ty} :
    {scope : Scope Symbol} → {otherwise : Option (List (Stmt Node))} →
    Stmt.ElseWellTyped table result scope.context otherwise →
    ∃ t, elseBody table result otherwise scope = .ok t scope
  | _, none, .none => ⟨none, rfl⟩
  | scope, some body, .some inside => by
      obtain ⟨ts, u, hts, houter⟩ := stmts_complete hnames scope.push false inside nofun
      refine ⟨some ts, ?_⟩
      simp only [elseBody, state_bind_eq_ok, state_pure_eq_ok]
      exact ⟨ts, scope, within_stmts_eq_ok hts houter, rfl, rfl⟩

end

end Trees

/-! ## Programs -/

theorem memories_eq_ok {funcs : List (Func Node)} {declared : List Memory} :
    memories funcs declared = .ok () ↔
      declared.length ≤ 1 ∧ ∀ m ∈ declared, m.kind = .exported →
        ∀ f ∈ funcs, f.isExported = true → f.signature.name ≠ m.name := by
  match declared with
  | [] => simp [memories]
  | [m] =>
      simp only [memories]
      split
      · next hclash =>
        obtain ⟨hkind, hany⟩ := hclash
        obtain ⟨f, hf, hsame⟩ := List.any_eq_true.mp hany
        rw [Bool.and_eq_true, decide_eq_true_eq] at hsame
        refine iff_of_false nofun ?_
        rintro ⟨-, hfree⟩
        exact hfree m List.mem_cons_self hkind f hf hsame.1 hsame.2
      · next hclash =>
        refine iff_of_true rfl ⟨Nat.le_refl 1, ?_⟩
        intro n hn hkind f hf hexported hname
        obtain rfl := List.mem_singleton.mp hn
        exact hclash ⟨hkind, List.any_eq_true.mpr ⟨f, hf, by simp [hexported, hname]⟩⟩
  | _ :: _ :: _ => simp [memories]

theorem endsInReturn_iff {body : List (Stmt Node)} :
    endsInReturn body = true ↔ ∃ node value, body.getLast? = some (.ret node value) := by
  cases hlast : body.getLast? with
  | none => simp [endsInReturn, hlast]
  | some s => cases s <;> simp [endsInReturn, hlast, Stmt.isReturn]

theorem funcDef_complete {table : Signatures} (hnames : (table.map Signature.name).Nodup)
    {d : FuncDef Node} (h : d.WellTyped table) : ∃ t, funcDef table d = .ok t := by
  have hbody := h.body
  rw [← parameterScope_context] at hbody
  obtain ⟨ts, u, hts, -⟩ := stmts_complete hnames _ false hbody nofun
  refine ⟨⟨d.node, d.signature, ts⟩, ?_⟩
  simp only [funcDef, hts]
  rw [if_neg]
  intro hmissing
  rw [Bool.and_eq_true, Bool.not_eq_true', Bool.not_eq_true', Ty.isVoid_eq_false] at hmissing
  have hends := endsInReturn_iff.mpr (h.ends hmissing.1)
  rw [hmissing.2] at hends
  cases hends

theorem func_complete {table : Signatures} (hnames : (table.map Signature.name).Nodup)
    {f : Func Node} (h : ∀ d ∈ f.definition?, d.2.WellTyped table) :
    ∃ g, func table f = .ok g := by
  cases f with
  | plain d =>
      obtain ⟨t, ht⟩ := funcDef_complete hnames (h _ rfl)
      exact ⟨.plain t, by rw [func, ht]; rfl⟩
  | exported d =>
      obtain ⟨t, ht⟩ := funcDef_complete hnames (h _ rfl)
      exact ⟨.exported t, by rw [func, ht]; rfl⟩
  | imported i => exact ⟨.imported i, rfl⟩

end Check

theorem FuncDef.Typed.wellTyped {table : Signatures} {t : FuncDef TypedNode} (h : t.Typed table) :
    (t.map TypedNode.toNode).WellTyped table := by
  have hbody := h.body.wellTyped
  rw [Check.parameterScope_context] at hbody
  refine ⟨hbody, ?_⟩
  intro hresult
  apply Check.endsInReturn_iff.mp
  rw [FuncDef.map, Check.endsInReturn_mapList]
  exact h.ends hresult

namespace Program

theorem signatures_erase (t : Program TypedNode) : t.erase.signatures = t.signatures := by
  simp [signatures, erase, map, Func.map_signature]

theorem definitions_erase {t : Program TypedNode} {d : Bool × FuncDef Node}
    (h : d ∈ t.erase.definitions) :
    ∃ e ∈ t.definitions, d = (e.1, e.2.map TypedNode.toNode) := by
  simp only [definitions, erase, map, List.mem_filterMap, List.mem_map] at h
  obtain ⟨_, ⟨g, hg, rfl⟩, hdef⟩ := h
  have hmem : ∀ e ∈ g.definition?, e ∈ t.definitions := fun e he =>
    List.mem_filterMap.mpr ⟨g, hg, he⟩
  cases g with
  | plain e => exact ⟨_, hmem _ rfl, (Option.some.inj hdef).symm⟩
  | exported e => exact ⟨_, hmem _ rfl, (Option.some.inj hdef).symm⟩
  | imported i => cases hdef

theorem signatures_nodup {p : Program Node} (h : (p.funcs.map (·.signature.name)).Nodup) :
    (p.signatures.map Signature.name).Nodup := by
  rw [signatures, List.map_reverse, List.nodup_reverse, List.map_map]
  exact h

/-- Parameters with values are all that a program of this kind needs to be free of `void`
values. -/
theorem voidFree_of_voidPlaced {p : Program Node} (h : p.voidPlaced = true)
    (hvalues : ∀ f ∈ p.funcs, ∀ q ∈ f.signature.parameters, q.type ≠ .void) :
    p.voidFree = true := by
  apply List.all_eq_true.mpr
  intro f hf
  have hplaced := List.all_eq_true.mp h f hf
  simp only [Bool.and_eq_true, List.all_eq_true] at hplaced
  obtain ⟨⟨hparameters, hresult⟩, hbody⟩ := hplaced
  simp only [Func.voidFree, Signature.voidFree, Bool.and_eq_true, List.all_eq_true]
  refine ⟨⟨?_, hresult⟩, hbody⟩
  intro q hq
  exact Ty.voidFree_of_isResult (hparameters q hq) (hvalues f hf q hq)

/-- A program that obeys the rules is checked. -/
theorem WellTyped.checked {p : Program Node} (h : p.WellTyped) : ∃ t, checkProgram p = .ok t := by
  have hdeclare : p.funcs.foldlM Check.declare [] = .ok p.signatures := by
    apply Check.foldlM_declare.mpr
    refine ⟨(List.append_nil _).symm, h.names, fun _ _ => List.not_mem_nil, ?_⟩
    intro f hf
    apply Check.parameters_eq_ok.mpr
    exact ⟨h.parameterNames f hf, fun _ _ => List.not_mem_nil, h.parameterValues f hf⟩
  have hfuncs : ∀ f ∈ p.funcs, ∃ g, Check.func p.signatures f = .ok g := by
    intro f hf
    apply Check.func_complete (signatures_nodup h.names)
    intro d hd
    exact h.bodies d (List.mem_filterMap.mpr ⟨f, hf, hd⟩)
  obtain ⟨funcs, hmap⟩ := except_exists_mapM hfuncs
  refine ⟨⟨funcs, p.memories⟩, checkProgram_eq_ok.mpr ⟨p.signatures, hdeclare, ?_, ?_, rfl⟩⟩
  · exact Check.memories_eq_ok.mpr ⟨h.memory, h.exports⟩
  · exact except_mapM_eq_ok.mp hmap

end Program

theorem wellTyped_of_checkProgram {p : Program Node} {t : Program TypedNode}
    (hvoid : p.voidPlaced = true) (h : checkProgram p = .ok t) :
    p.WellTyped ∧ t.Typed ∧ t.erase = p := by
  obtain ⟨table, hdeclare, hmemories, -, -⟩ := checkProgram_eq_ok.mp h
  obtain ⟨-, hnames, -, hparameters⟩ := Check.foldlM_declare.mp hdeclare
  obtain ⟨hmemory, hexports⟩ := Check.memories_eq_ok.mp hmemories
  have hvalues : ∀ f ∈ p.funcs, ∀ q ∈ f.signature.parameters, q.type ≠ .void :=
    fun f hf => (Check.parameters_eq_ok.mp (hparameters f hf)).2.2
  obtain ⟨htyped, herase⟩ := checkProgram_sound (Program.voidFree_of_voidPlaced hvoid hvalues) h
  refine ⟨⟨hnames, ?_, hvalues, hmemory, hexports, ?_⟩, htyped, herase⟩
  · exact fun f hf => (Check.parameters_eq_ok.mp (hparameters f hf)).1
  · intro d hd
    rw [← herase] at hd
    obtain ⟨e, he, rfl⟩ := Program.definitions_erase hd
    rw [← herase, Program.signatures_erase]
    exact (htyped.bodies e he).wellTyped

/-- The rules give an expression one type at most. -/
theorem Expr.HasType.unique {table : Signatures} (hnames : (table.map Signature.name).Nodup)
    {Γ : Context} {e : Expr Node} {σ τ : Ty} (h : e.HasType table Γ σ)
    (h' : e.HasType table Γ τ) : σ = τ := by
  have hcontext : (⟨Γ, []⟩ : Scope Symbol).context = Γ := List.append_nil Γ
  rw [← hcontext] at h h'
  -- the checker finds one type, and it finds whatever the rules give
  obtain ⟨t, ht, rfl⟩ := Check.expr_complete hnames h
  obtain ⟨u, hu, rfl⟩ := Check.expr_complete hnames h'
  rw [Except.ok.inj (ht.symm.trans hu)]

/-- Checking decides the type system: it accepts exactly the programs that obey the rules. The
result is the program itself with the type of every expression, which is the only one that the
rules give to it. -/
theorem checkProgram_decides_type_system {p : Program Node} (hvoid : p.voidPlaced = true) :
    ((∃ t, checkProgram p = .ok t) ↔ p.WellTyped) ∧
      ∀ t, checkProgram p = .ok t → t.erase = p ∧
        ∀ Γ e, (Γ, e) ∈ t.occurrences → ∀ τ, e.erase.HasType p.signatures Γ τ ↔ τ = e.type := by
  constructor
  · constructor
    · rintro ⟨t, ht⟩
      exact (wellTyped_of_checkProgram hvoid ht).1
    · exact Program.WellTyped.checked
  · intro t ht
    obtain ⟨hwell, htyped, herase⟩ := wellTyped_of_checkProgram hvoid ht
    refine ⟨herase, ?_⟩
    intro Γ e hmem τ
    obtain ⟨d, hd, hoccurs⟩ := List.mem_flatMap.mp hmem
    rw [← Check.parameterScope_context] at hoccurs
    obtain ⟨scope, hscope, hexpr⟩ := (htyped.bodies d hd).body.typedIn hoccurs
    have htype := hexpr.hasType
    rw [hscope, ← Program.signatures_erase, herase] at htype
    constructor
    · exact fun h => h.unique (Program.signatures_nodup hwell.names) htype
    · rintro rfl
      exact htype

/-- A name that is bound anew by a conversion of its old value obeys the rules. -/
theorem rebound_name_is_well_typed :
    ∃ p t, Compile.program "func f(x: i32): i64 { var x: i64 = x as i64; return x; }" = .ok p ∧
      checkProgram p = .ok t ∧ p.WellTyped ∧ t.erase = p ∧
      ∀ Γ e, (Γ, e) ∈ t.occurrences → ∀ τ, e.erase.HasType p.signatures Γ τ ↔ τ = e.type := by
  have hread : (Compile.program "func f(x: i32): i64 { var x: i64 = x as i64; return x; }").map
      (fun p => (p.voidPlaced, (checkProgram p).isOk)) = .ok (true, true) := by
    decide +kernel
  obtain ⟨p, hp, hfacts⟩ := except_map_eq_ok.mp hread
  obtain ⟨hvoid, hok⟩ := Prod.mk.inj hfacts
  obtain ⟨hdecides, hresult⟩ := checkProgram_decides_type_system hvoid
  cases ht : checkProgram p with
  | error e =>
      rw [ht] at hok
      cases hok
  | ok t =>
      obtain ⟨herase, htypes⟩ := hresult t ht
      exact ⟨p, t, hp, ht, hdecides.mp ⟨t, ht⟩, herase, htypes⟩

end Wattle
