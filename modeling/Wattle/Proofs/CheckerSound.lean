import Mathlib.Data.List.Nodup
import Wattle.Proofs.ScopeMatch
import Wattle.Proofs.Success
import Wattle.Proofs.Typing

/-!
# Checked programs obey the rules

What the checker returns is a well-typed tree, and forgetting its types gives back the tree that
was checked. The scopes that the checker passes through are those of the rules.
-/

namespace Wattle

namespace Check

/-! ## Expressions -/

theorem resolve_eq_ok {scope : Scope Symbol} {name : String} {location : Location}
    {symbol : Symbol} :
    resolve scope name location = .ok symbol ↔ scope.lookup? name = some symbol := by
  simp only [resolve]
  cases scope.lookup? name <;> simp

theorem require_eq_ok {expected : Ty} {use : Use} {e : Expr TypedNode} {u : Unit} :
    require expected use e = .ok u ↔ e.type = expected := by
  simp only [require]
  split <;> simp_all

theorem findFunction?_mem {table : Signatures} {name : String} {signature : Signature}
    (h : findFunction? table name = some signature) : signature ∈ table :=
  List.mem_of_find?_eq_some h

theorem unary_typed {table : Signatures} {scope : Scope Symbol} {op : UnaryOp}
    {operand : Expr TypedNode} {location : Location} {note : TypedNode}
    (typed : operand.Typed table scope) (h : unaryType op operand location = .ok note.type) :
    (Expr.unary note op operand).Typed table scope := by
  cases op with
  | negate =>
      simp only [unaryType] at h
      split at h
      · cases h
      · next hv =>
        simp only [Bool.not_eq_true, Ty.isVoid_eq_false] at hv
        exact .negate typed hv (Except.ok.inj h).symm
  | deref =>
      simp only [unaryType] at h
      cases hp : operand.type with
      | base b => simp [hp, Ty.pointee?] at h
      | pointer target =>
          simp only [hp, Ty.pointee?, Except.ok.injEq] at h
          exact .deref typed (by rw [hp, h])
  | logicalNot =>
      simp only [unaryType, except_bind_eq_ok, except_pure_eq_ok, require_eq_ok] at h
      obtain ⟨_, htruth, htype⟩ := h
      exact .logicalNot typed htruth htype.symm

theorem binaryType_allows {op : BinaryOp} {left right : Expr TypedNode} {location : Location}
    {result : Ty} (h : binaryType op left right location = .ok result) :
    left.type ≠ .void ∧ (op.requiresInteger = true → left.type.isInteger = true) ∧
      right.type = left.type ∧ result = if op.isComparison then .i32 else left.type := by
  simp only [binaryType] at h
  split at h
  · cases h
  · next hleft =>
    split at h
    · cases h
    · next hsame =>
      simp only [Bool.or_eq_true, Bool.and_eq_true, Ty.isVoid_iff, not_or, not_and,
        Bool.not_eq_true, Bool.not_eq_false'] at hleft
      exact ⟨hleft.1, by simpa using hleft.2, not_not.mp hsame, (Except.ok.inj h).symm⟩

theorem binary_typed {table : Signatures} {scope : Scope Symbol} {op : BinaryOp}
    {left right : Expr TypedNode} {location : Location} {note : TypedNode} (hop : op ≠ .assign)
    (first : left.Typed table scope) (second : right.Typed table scope)
    (h : binaryType op left right location = .ok note.type) :
    (Expr.binary note op left right).Typed table scope := by
  obtain ⟨hvoid, hint, hsame, hresult⟩ := binaryType_allows h
  exact .binary hop first second hvoid hint hsame hresult

/-- An assignment obeys its rule: the checker looked at the form of the target, the names in
scope and the types of both sides. -/
theorem assign_typed {table : Signatures} {scope : Scope Symbol} {left : Expr Node}
    {target value : Expr TypedNode} {note : TypedNode} (hassign : assignable scope left = .ok ())
    (herase : target.erase = left) (htarget : target.Typed table scope)
    (hvalue : value.Typed table scope) (hsame : value.type = target.type)
    (hnote : note.type = .void) :
    (Expr.binary note .assign target value).Typed table scope := by
  subst herase
  cases target with
  | name inner id =>
      simp only [Expr.erase, Expr.map, assignable, except_bind_eq_ok, resolve_eq_ok] at hassign
      obtain ⟨symbol, hfound, hmutable⟩ := hassign
      split at hmutable
      · next hkind => exact .assignName hfound hkind htarget hvalue hsame hnote
      · cases hmutable
  | unary inner op address =>
      cases op with
      | deref => exact .assignDeref htarget hvalue hsame hnote
      | negate => simp [Expr.erase, Expr.map, assignable] at hassign
      | logicalNot => simp [Expr.erase, Expr.map, assignable] at hassign
  | number inner digits base => simp [Expr.erase, Expr.map, assignable] at hassign
  | call inner callee args => simp [Expr.erase, Expr.map, assignable] at hassign
  | binary inner op first second => simp [Expr.erase, Expr.map, assignable] at hassign
  | paren inner e => simp [Expr.erase, Expr.map, assignable] at hassign
  | cast inner e type => simp [Expr.erase, Expr.map, assignable] at hassign

section Trees

variable {table : Signatures} {scope : Scope Symbol}

mutual

/-- A checked expression is well typed and keeps its form. -/
theorem expr_sound (htable : ∀ signature ∈ table, signature.voidFree = true)
    (hscope : scope.All fun symbol => symbol.type.voidFree = true) :
    (e : Expr Node) → {t : Expr TypedNode} → e.voidFree = true → expr table scope e = .ok t →
    t.Typed table scope ∧ t.erase = e
  | .name node id, t, _, h => by
      simp only [expr, except_bind_eq_ok, except_pure_eq_ok, resolve_eq_ok] at h
      obtain ⟨symbol, hfound, rfl⟩ := h
      exact ⟨.name hfound (hscope.of_lookup? hfound) rfl, rfl⟩
  | .number node digits base, t, hfree, h => by
      simp only [expr, except_pure_eq_ok] at h
      subst h
      exact ⟨.number (by simpa [Expr.voidFree] using hfree) rfl, rfl⟩
  | .call node callee args, t, hfree, h => by
      simp only [expr] at h
      split at h
      · cases h
      · next signature hfound =>
        split at h
        · next hcount =>
          simp only [except_bind_eq_ok, except_pure_eq_ok] at h
          obtain ⟨typed, hargs, rfl⟩ := h
          have hsig := htable _ (findFunction?_mem hfound)
          simp only [Signature.voidFree, Bool.and_eq_true] at hsig
          obtain ⟨hmatched, herase⟩ :=
            arguments_sound htable hscope args callee 1 signature.parameters hfree hcount hargs
          exact ⟨.call hfound hsig.2 hmatched rfl, by simp [Expr.erase, Expr.map, herase]⟩
        · cases h
  | .unary node op operand, t, hfree, h => by
      simp only [expr, except_bind_eq_ok, except_pure_eq_ok] at h
      obtain ⟨inner, hinner, type, htype, rfl⟩ := h
      obtain ⟨htyped, herase⟩ := expr_sound htable hscope operand hfree hinner
      refine ⟨unary_typed htyped htype, ?_⟩
      simpa [Expr.erase, Expr.map] using herase
  | .binary node op left right, t, hfree, h => by
      simp only [Expr.voidFree, Bool.and_eq_true] at hfree
      simp only [expr] at h
      split at h
      · next hop =>
        subst hop
        simp only [except_bind_eq_ok, except_pure_eq_ok, require_eq_ok] at h
        obtain ⟨_, hassign, target, htarget, value, hvalue, _, hsame, rfl⟩ := h
        obtain ⟨ht, het⟩ := expr_sound htable hscope left hfree.1 htarget
        obtain ⟨hv, hev⟩ := expr_sound htable hscope right hfree.2 hvalue
        refine ⟨assign_typed hassign het ht hv hsame rfl, ?_⟩
        simpa [Expr.erase, Expr.map] using ⟨het, hev⟩
      · next hop =>
        simp only [except_bind_eq_ok, except_pure_eq_ok] at h
        obtain ⟨first, hfirst, second, hsecond, type, htype, rfl⟩ := h
        obtain ⟨hl, hel⟩ := expr_sound htable hscope left hfree.1 hfirst
        obtain ⟨hr, her⟩ := expr_sound htable hscope right hfree.2 hsecond
        refine ⟨binary_typed hop hl hr htype, ?_⟩
        simpa [Expr.erase, Expr.map] using ⟨hel, her⟩
  | .paren node inner, t, hfree, h => by
      simp only [expr, except_bind_eq_ok, except_pure_eq_ok] at h
      obtain ⟨typed, htyped, rfl⟩ := h
      obtain ⟨hi, hei⟩ := expr_sound htable hscope inner hfree htyped
      exact ⟨.paren hi rfl, by simpa [Expr.erase, Expr.map] using hei⟩
  | .cast node operand target, t, hfree, h => by
      simp only [Expr.voidFree, Bool.and_eq_true] at hfree
      simp only [expr, except_bind_eq_ok] at h
      obtain ⟨typed, htyped, h⟩ := h
      split at h
      · cases h
      · next hv =>
        simp only [Bool.not_eq_true, Ty.isVoid_eq_false] at hv
        obtain ⟨ho, heo⟩ := expr_sound htable hscope operand hfree.1 htyped
        cases h
        exact ⟨.cast ho hv hfree.2 rfl, by simpa [Expr.erase, Expr.map] using heo⟩

theorem arguments_sound (htable : ∀ signature ∈ table, signature.voidFree = true)
    (hscope : scope.All fun symbol => symbol.type.voidFree = true) :
    (args : List (Expr Node)) → (callee : String) → (index : Nat) →
    (parameters : List Parameter) → {ts : List (Expr TypedNode)} →
    Expr.listVoidFree args = true → args.length = parameters.length →
    arguments table scope callee index args parameters = .ok ts →
    Expr.ArgsTyped table scope ts parameters ∧ Expr.mapList TypedNode.toNode ts = args
  | [], _, _, [], ts, _, _, h => by
      simp only [arguments, except_pure_eq_ok] at h
      subst h
      exact ⟨.nil, rfl⟩
  | arg :: args, callee, index, parameter :: parameters, ts, hfree, hcount, h => by
      simp only [Expr.listVoidFree, Bool.and_eq_true] at hfree
      simp only [arguments, except_bind_eq_ok, except_pure_eq_ok, require_eq_ok] at h
      obtain ⟨first, hfirst, _, hsame, rest, hrest, rfl⟩ := h
      obtain ⟨ht, het⟩ := expr_sound htable hscope arg hfree.1 hfirst
      obtain ⟨hts, hets⟩ := arguments_sound htable hscope args callee (index + 1) parameters hfree.2
        (by simpa using hcount) hrest
      exact ⟨.cons ht hsame hts, by simpa [Expr.mapList] using ⟨het, hets⟩⟩

end

/-! ## Statements -/

/-- The frame of a nested body is the only one that the body changes. -/
theorem pop_of_outer_push {β : Type} {s u : Scope β} (h : u.outer = s.push.outer) :
    u.pop = s := by
  obtain ⟨inner, outer⟩ := u
  subst h
  rfl

theorem typedHere_eq_ok {expected : Ty} {use : Use} {e : Expr Node} {t : Expr TypedNode}
    {scope' : Scope Symbol} :
    typedHere table expected use e scope = .ok t scope' ↔
      expr table scope e = .ok t ∧ t.type = expected ∧ scope = scope' := by
  simp only [typedHere, Scope.asking_eq_ok, except_bind_eq_ok, except_pure_eq_ok, require_eq_ok]
  constructor
  · rintro ⟨⟨_, he, _, htype, rfl⟩, hs⟩
    exact ⟨he, htype, hs⟩
  · rintro ⟨he, htype, hs⟩
    exact ⟨⟨t, he, (), htype, rfl⟩, hs⟩

theorem exprHere_eq_ok {e : Expr Node} {t : Expr TypedNode} {scope' : Scope Symbol} :
    exprHere table e scope = .ok t scope' ↔ expr table scope e = .ok t ∧ scope = scope' :=
  Scope.asking_eq_ok

theorem scopeAfter_outer {α : Type} (s : Stmt α) : (s.scopeAfter scope).outer = scope.outer := by
  cases s <;> rfl

theorem isReturn_map {α β : Type} (f : α → β) (s : Stmt α) : (s.map f).isReturn = s.isReturn := by
  cases s <;> rfl

theorem returned_sound (htable : ∀ signature ∈ table, signature.voidFree = true)
    (hscope : scope.All fun symbol => symbol.type.voidFree = true) {result : Ty} {node : Node}
    {value : Option (Expr Node)} {t : Option (Expr TypedNode)} {scope' : Scope Symbol}
    (hfree : value.all Expr.voidFree = true)
    (h : returned table result node.start value scope = .ok t scope') :
    (Stmt.ret node t).Typed table result scope ∧ t.map Expr.erase = value ∧ scope' = scope := by
  cases value with
  | none =>
      simp only [returned] at h
      split at h
      · next hv =>
        rw [state_pure_eq_ok] at h
        obtain ⟨rfl, rfl⟩ := h
        exact ⟨.retVoid (Ty.isVoid_iff.mp hv), rfl, rfl⟩
      · exact absurd h state_throw_ne_ok
  | some e =>
      simp only [returned] at h
      split at h
      · exact absurd h state_throw_ne_ok
      · next hv =>
        simp only [state_bind_eq_ok, state_pure_eq_ok, typedHere_eq_ok] at h
        obtain ⟨typed, _, ⟨he, htype, rfl⟩, rfl, rfl⟩ := h
        obtain ⟨ht, het⟩ := expr_sound htable hscope e (by simpa using hfree) he
        simp only [Bool.not_eq_true, Ty.isVoid_eq_false] at hv
        exact ⟨.retValue hv ht htype, congrArg some het, rfl⟩

mutual

/-- A checked statement obeys the rules, keeps its form and leaves the scope that the rules say. -/
theorem stmt_sound (htable : ∀ signature ∈ table, signature.voidFree = true) {result : Ty} :
    (s : Stmt Node) → {t : Stmt TypedNode} → {scope scope' : Scope Symbol} →
    (scope.All fun symbol => symbol.type.voidFree = true) → s.voidFree = true →
    stmt table result s scope = .ok t scope' →
    t.Typed table result scope ∧ t.map TypedNode.toNode = s ∧ scope' = t.scopeAfter scope
  | .cond node first otherwise, t, scope, scope', hscope, hfree, h => by
      simp only [Stmt.voidFree, Bool.and_eq_true] at hfree
      simp only [stmt, state_bind_eq_ok, state_pure_eq_ok] at h
      obtain ⟨typed, _, harms, last, _, helse, rfl, rfl⟩ := h
      obtain ⟨ha, hea, rfl⟩ := arms_sound htable first hscope hfree.1 harms
      obtain ⟨he, hee, rfl⟩ := elseBody_sound htable otherwise hscope hfree.2 helse
      exact ⟨.cond ha he, by simp [Stmt.map, hea, hee], rfl⟩
  | .loop node condition body, t, scope, scope', hscope, hfree, h => by
      simp only [Stmt.voidFree, Bool.and_eq_true] at hfree
      simp only [stmt, state_bind_eq_ok, state_pure_eq_ok, typedHere_eq_ok,
        Scope.within_eq_ok] at h
      obtain ⟨test, _, ⟨htest, htruth, rfl⟩, inside, _, ⟨u, hbody, rfl⟩, rfl, rfl⟩ := h
      obtain ⟨hc, hec⟩ := expr_sound htable hscope condition hfree.1 htest
      obtain ⟨hb, heb, _, houter⟩ := stmts_sound htable body hscope.push hfree.2 hbody
      refine ⟨.loop hc htruth hb, ?_, pop_of_outer_push houter⟩
      simpa [Stmt.map] using ⟨hec, heb⟩
  | .ret node value, t, scope, scope', hscope, hfree, h => by
      simp only [stmt, state_bind_eq_ok, state_pure_eq_ok] at h
      obtain ⟨typed, _, hreturned, rfl, rfl⟩ := h
      obtain ⟨hr, her, rfl⟩ := returned_sound htable hscope hfree hreturned
      exact ⟨hr, congrArg (Stmt.ret node) her, rfl⟩
  | .declare node kind name type initial, t, scope, scope', hscope, hfree, h => by
      simp only [Stmt.voidFree, Bool.and_eq_true] at hfree
      simp only [stmt, state_bind_eq_ok, state_pure_eq_ok, typedHere_eq_ok,
        Scope.bind_eq_ok] at h
      obtain ⟨typed, _, ⟨hinitial, hsame, rfl⟩, _, _, rfl, rfl, rfl⟩ := h
      obtain ⟨hi, hei⟩ := expr_sound htable hscope initial hfree.2 hinitial
      exact ⟨.declare hi hsame hfree.1, congrArg (Stmt.declare node kind name type) hei, rfl⟩
  | .expr node value, t, scope, scope', hscope, hfree, h => by
      simp only [stmt, state_bind_eq_ok, state_pure_eq_ok, exprHere_eq_ok] at h
      obtain ⟨typed, _, ⟨hvalue, rfl⟩, rfl, rfl⟩ := h
      obtain ⟨hv, hev⟩ := expr_sound htable hscope value hfree hvalue
      exact ⟨.expr hv, congrArg (Stmt.expr node) hev, rfl⟩

/-- Checked statements obey the rules and keep their form; they change the innermost frame only,
and directly behind a `return` there are none. -/
theorem stmts_sound (htable : ∀ signature ∈ table, signature.voidFree = true) {result : Ty}
    {unreachable : Bool} :
    (body : List (Stmt Node)) → {ts : List (Stmt TypedNode)} → {scope scope' : Scope Symbol} →
    (scope.All fun symbol => symbol.type.voidFree = true) → Stmt.listVoidFree body = true →
    stmts table result unreachable body scope = .ok ts scope' →
    Stmt.ListTyped table result scope ts ∧ Stmt.mapList TypedNode.toNode ts = body ∧
      (unreachable = true → ts = []) ∧ scope'.outer = scope.outer
  | [], ts, scope, scope', _, _, h => by
      simp only [stmts, state_pure_eq_ok] at h
      obtain ⟨rfl, rfl⟩ := h
      exact ⟨.nil, rfl, fun _ => rfl, rfl⟩
  | s :: rest, ts, scope, scope', hscope, hfree, h => by
      simp only [Stmt.listVoidFree, Bool.and_eq_true] at hfree
      simp only [stmts] at h
      split at h
      · exact absurd h state_throw_ne_ok
      · next hreach =>
        simp only [state_bind_eq_ok, state_pure_eq_ok] at h
        obtain ⟨first, _, hfirst, others, _, hothers, rfl, rfl⟩ := h
        obtain ⟨hs, hes, rfl⟩ := stmt_sound htable s hscope hfree.1 hfirst
        have hscope' : (first.scopeAfter scope).All fun symbol => symbol.type.voidFree = true := by
          cases hs with
          | declare _ _ hvalue => exact hscope.insert _ hvalue
          | _ => exact hscope
        obtain ⟨hr, her, hlast, houter⟩ := stmts_sound htable rest hscope' hfree.2 hothers
        have hreturn : first.isReturn = s.isReturn := by rw [← hes, isReturn_map]
        refine ⟨.cons hs (fun hret => hlast (hreturn ▸ hret)) hr, ?_, ?_, ?_⟩
        · simp [Stmt.mapList, hes, her]
        · exact fun hun => absurd hun hreach
        · rw [houter, scopeAfter_outer]

theorem arms_sound (htable : ∀ signature ∈ table, signature.voidFree = true) {result : Ty}
    {word : Keyword} :
    (branches : List (Arm Node)) → {ts : List (Arm TypedNode)} → {scope scope' : Scope Symbol} →
    (scope.All fun symbol => symbol.type.voidFree = true) → Stmt.armsVoidFree branches = true →
    arms table result word branches scope = .ok ts scope' →
    Stmt.ArmsTyped table result scope ts ∧ Stmt.mapArms TypedNode.toNode ts = branches ∧
      scope' = scope
  | [], ts, scope, scope', _, _, h => by
      simp only [arms, state_pure_eq_ok] at h
      obtain ⟨rfl, rfl⟩ := h
      exact ⟨.nil, rfl, rfl⟩
  | ⟨condition, body, span⟩ :: rest, ts, scope, scope', hscope, hfree, h => by
      simp only [Stmt.armsVoidFree, Stmt.armVoidFree, Bool.and_eq_true] at hfree
      simp only [arms, arm, state_bind_eq_ok, state_pure_eq_ok, typedHere_eq_ok,
        Scope.within_eq_ok] at h
      obtain ⟨_, _, ⟨test, _, ⟨htest, htruth, rfl⟩, inside, _, ⟨u, hbody, rfl⟩, rfl, rfl⟩,
        others, _, hothers, rfl, rfl⟩ := h
      obtain ⟨hc, hec⟩ := expr_sound htable hscope condition hfree.1.1 htest
      obtain ⟨hb, heb, _, houter⟩ := stmts_sound htable body hscope.push hfree.1.2 hbody
      rw [pop_of_outer_push houter] at hothers
      obtain ⟨hr, her, rfl⟩ := arms_sound htable rest hscope hfree.2 hothers
      refine ⟨.cons hc htruth hb hr, ?_, rfl⟩
      simpa [Stmt.mapArms, Stmt.mapArm] using ⟨⟨hec, heb⟩, her⟩

theorem elseBody_sound (htable : ∀ signature ∈ table, signature.voidFree = true) {result : Ty} :
    (otherwise : Option (List (Stmt Node))) → {t : Option (List (Stmt TypedNode))} →
    {scope scope' : Scope Symbol} → (scope.All fun symbol => symbol.type.voidFree = true) →
    Stmt.elseVoidFree otherwise = true → elseBody table result otherwise scope = .ok t scope' →
    Stmt.ElseTyped table result scope t ∧ Stmt.mapElse TypedNode.toNode t = otherwise ∧
      scope' = scope
  | none, t, scope, scope', _, _, h => by
      simp only [elseBody, state_pure_eq_ok] at h
      obtain ⟨rfl, rfl⟩ := h
      exact ⟨.none, rfl, rfl⟩
  | some body, t, scope, scope', hscope, hfree, h => by
      simp only [elseBody, state_bind_eq_ok, state_pure_eq_ok, Scope.within_eq_ok] at h
      obtain ⟨inside, _, ⟨u, hbody, rfl⟩, rfl, rfl⟩ := h
      obtain ⟨hb, heb, _, houter⟩ := stmts_sound htable body hscope.push hfree hbody
      exact ⟨.some hb, congrArg some heb, pop_of_outer_push houter⟩

end

end Trees

/-! ## Programs -/

theorem parameters_eq_ok {seen : List String} {ps : List Parameter} :
    parameters seen ps = .ok () ↔
      (ps.map Parameter.name).Nodup ∧ (∀ p ∈ ps, p.name ∉ seen) ∧ ∀ p ∈ ps, p.type ≠ .void := by
  induction ps generalizing seen with
  | nil => simp [parameters]
  | cons p rest ih =>
      simp only [parameters, List.map_cons, List.nodup_cons, List.forall_mem_cons]
      by_cases hvoid : p.type = .void
      · simp [hvoid, Ty.isVoid]
      · rw [if_neg (by simpa [Ty.isVoid] using hvoid)]
        by_cases hseen : p.name ∈ seen
        · simp [hseen]
        · rw [if_neg hseen, ih]
          constructor
          · rintro ⟨hnodup, hfresh, hvalues⟩
            refine ⟨⟨?_, hnodup⟩, ⟨hseen, ?_⟩, hvoid, hvalues⟩
            · intro hmem
              obtain ⟨q, hq, hname⟩ := List.mem_map.mp hmem
              exact hfresh q hq (by simp [hname])
            · exact fun q hq hold => hfresh q hq (List.mem_cons_of_mem _ hold)
          · rintro ⟨⟨hnew, hnodup⟩, ⟨-, hfresh⟩, -, hvalues⟩
            refine ⟨hnodup, ?_, hvalues⟩
            intro q hq hmem
            rcases List.mem_cons.mp hmem with hname | hold
            · exact hnew (hname ▸ List.mem_map_of_mem hq)
            · exact hfresh q hq hold

theorem declare_eq_ok {table table' : Signatures} {f : Func Node} :
    declare table f = .ok table' ↔
      parameters [] f.signature.parameters = .ok () ∧
        f.signature.name ∉ table.map Signature.name ∧ table' = f.signature :: table := by
  have hfound : (findFunction? table f.signature.name).isSome = true ↔
      f.signature.name ∈ table.map Signature.name := by
    simp [findFunction?, List.find?_isSome]
  simp only [declare, except_bind_eq_ok, hfound]
  constructor
  · rintro ⟨_, hparameters, h⟩
    split at h
    · cases h
    · next hnew => exact ⟨hparameters, hnew, (except_pure_eq_ok.mp h).symm⟩
  · rintro ⟨hparameters, hnew, rfl⟩
    exact ⟨(), hparameters, by rw [if_neg hnew]; rfl⟩

/-- Collecting the signatures keeps all of them, and succeeds exactly if names are distinct and
parameters are as they should be. -/
theorem foldlM_declare {funcs : List (Func Node)} {table table' : Signatures} :
    funcs.foldlM declare table = .ok table' ↔
      table' = (funcs.map Func.signature).reverse ++ table ∧
        (funcs.map (·.signature.name)).Nodup ∧
        (∀ f ∈ funcs, f.signature.name ∉ table.map Signature.name) ∧
        ∀ f ∈ funcs, parameters [] f.signature.parameters = .ok () := by
  induction funcs generalizing table with
  | nil =>
      rw [List.foldlM_nil, except_pure_eq_ok]
      simp [eq_comm]
  | cons f funcs ih =>
      simp only [List.foldlM_cons, except_bind_eq_ok, declare_eq_ok, ih, List.map_cons,
        List.reverse_cons, List.append_assoc, List.nodup_cons, List.forall_mem_cons]
      constructor
      · rintro ⟨_, ⟨hparameters, hnew, rfl⟩, htable, hnodup, hfresh, hothers⟩
        refine ⟨htable, ⟨?_, hnodup⟩, ⟨hnew, ?_⟩, hparameters, hothers⟩
        · intro hmem
          obtain ⟨g, hg, hname⟩ := List.mem_map.mp hmem
          exact hfresh g hg (by simp [hname])
        · exact fun g hg hold => hfresh g hg (List.mem_cons_of_mem _ hold)
      · rintro ⟨htable, ⟨hnew, hnodup⟩, ⟨hold, hfresh⟩, hparameters, hothers⟩
        refine ⟨_, ⟨hparameters, hold, rfl⟩, htable, hnodup, ?_, hothers⟩
        intro g hg hmem
        rcases List.mem_cons.mp hmem with hname | hmem
        · exact hnew (hname ▸ List.mem_map_of_mem hg)
        · exact hfresh g hg hmem

theorem parameterScope_all {ps : List Parameter} (h : ps.all (·.type.voidFree) = true) :
    (parameterScope ps).All fun symbol => symbol.type.voidFree = true := by
  have hfold : ∀ (qs : List Parameter) (s : Scope Symbol), qs.all (·.type.voidFree) = true →
      (s.All fun symbol => symbol.type.voidFree = true) →
      (qs.foldl (fun scope p => scope.insert p.name ⟨p.type, .parameter⟩) s).All
        fun symbol => symbol.type.voidFree = true := by
    intro qs
    induction qs with
    | nil => exact fun s _ hs => hs
    | cons q qs ih =>
        intro s hqs hs
        rw [List.all_cons, Bool.and_eq_true] at hqs
        exact ih _ hqs.2 (hs.insert _ hqs.1)
  exact hfold ps _ h (Scope.all_root _)

theorem endsInReturn_mapList {α β : Type} (f : α → β) (body : List (Stmt α)) :
    endsInReturn (Stmt.mapList f body) = endsInReturn body := by
  induction body with
  | nil => rfl
  | cons s rest ih =>
      cases rest with
      | nil => simp [endsInReturn, Stmt.mapList, isReturn_map]
      | cons r rest => simpa [endsInReturn, Stmt.mapList] using ih

theorem funcDef_sound {table : Signatures}
    (htable : ∀ signature ∈ table, signature.voidFree = true) {d : FuncDef Node}
    {t : FuncDef TypedNode} (hsig : d.signature.voidFree = true)
    (hbody : Stmt.listVoidFree d.body = true) (h : funcDef table d = .ok t) :
    t.Typed table ∧ t.map TypedNode.toNode = d := by
  simp only [Signature.voidFree, Bool.and_eq_true] at hsig
  simp only [funcDef] at h
  split at h
  · cases h
  · next body scope hstmts =>
    split at h
    · cases h
    · next hends =>
      obtain rfl := Except.ok.inj h
      obtain ⟨hb, heb, _, _⟩ := stmts_sound htable d.body (parameterScope_all hsig.1) hbody hstmts
      refine ⟨⟨hb, ?_⟩, by rw [FuncDef.map, heb]⟩
      intro hresult
      rw [← endsInReturn_mapList TypedNode.toNode, heb]
      simpa [Ty.isVoid, hresult] using hends

theorem func_sound {table : Signatures}
    (htable : ∀ signature ∈ table, signature.voidFree = true) {f : Func Node}
    {t : Func TypedNode} (hfree : f.voidFree = true) (h : func table f = .ok t) :
    t.map TypedNode.toNode = f ∧ t.signature = f.signature ∧
      ∀ d ∈ t.definition?, d.2.Typed table := by
  simp only [Func.voidFree, Bool.and_eq_true] at hfree
  cases f with
  | plain d =>
      simp only [func, except_bind_eq_ok, except_pure_eq_ok] at h
      obtain ⟨typed, hd, rfl⟩ := h
      obtain ⟨htyped, herase⟩ := funcDef_sound htable hfree.1 hfree.2 hd
      refine ⟨congrArg Func.plain herase, congrArg FuncDef.signature herase, ?_⟩
      simpa [Func.definition?] using htyped
  | exported d =>
      simp only [func, except_bind_eq_ok, except_pure_eq_ok] at h
      obtain ⟨typed, hd, rfl⟩ := h
      obtain ⟨htyped, herase⟩ := funcDef_sound htable hfree.1 hfree.2 hd
      refine ⟨congrArg Func.exported herase, congrArg FuncDef.signature herase, ?_⟩
      simpa [Func.definition?] using htyped
  | imported i =>
      simp only [func, except_pure_eq_ok] at h
      subst h
      exact ⟨rfl, rfl, by simp [Func.definition?]⟩

end Check

/-- The steps of checking a program. -/
theorem checkProgram_eq (p : Program Node) :
    checkProgram p = do
      let table ← p.funcs.foldlM Check.declare []
      Check.memories p.funcs p.memories
      let funcs ← p.funcs.mapM (Check.func table)
      return ⟨funcs, p.memories⟩ := by
  have hget : ∀ table, (get : EStateM CheckError Signatures Signatures) table = .ok table table :=
    fun _ => rfl
  have hset : ∀ table before, (set table : EStateM CheckError Signatures PUnit) before =
      .ok () table := fun _ _ => rfl
  simp only [checkProgram, Check.program, bind, EStateM.bind, Except.bind, hset, hget]
  cases p.funcs.foldlM Check.declare [] with
  | error e => rfl
  | ok table =>
      simp only [ofExcept, pure, EStateM.pure]
      cases Check.memories p.funcs p.memories with
      | error e => rfl
      | ok _ =>
          simp only [EStateM.pure]
          cases p.funcs.mapM (Check.func table) <;> rfl

theorem checkProgram_eq_ok {p : Program Node} {t : Program TypedNode} :
    checkProgram p = .ok t ↔
      ∃ table, p.funcs.foldlM Check.declare [] = .ok table ∧
        Check.memories p.funcs p.memories = .ok () ∧
        List.Forall₂ (fun f g => Check.func table f = .ok g) p.funcs t.funcs ∧
        t.memories = p.memories := by
  simp only [checkProgram_eq, except_bind_eq_ok, except_pure_eq_ok, except_mapM_eq_ok]
  constructor
  · rintro ⟨table, htable, _, hmemories, funcs, hfuncs, rfl⟩
    exact ⟨table, htable, hmemories, hfuncs, rfl⟩
  · rintro ⟨table, htable, hmemories, hfuncs, hsame⟩
    exact ⟨table, htable, (), hmemories, t.funcs, hfuncs, by rw [← hsame]⟩

/-- A checked program obeys the rules, and without its types it is the program that was
checked. -/
theorem checkProgram_sound {p : Program Node} {t : Program TypedNode} (hfree : p.voidFree = true)
    (h : checkProgram p = .ok t) : t.Typed ∧ t.erase = p := by
  obtain ⟨table, hdeclare, -, hfuncs, hmemories⟩ := checkProgram_eq_ok.mp h
  obtain ⟨htable, hnames, -, hparameters⟩ := Check.foldlM_declare.mp hdeclare
  rw [List.append_nil] at htable
  have hfree' : ∀ f ∈ p.funcs, f.voidFree = true := List.all_eq_true.mp hfree
  have hsigs : ∀ signature ∈ table, signature.voidFree = true := by
    intro signature hsig
    rw [htable, List.mem_reverse] at hsig
    obtain ⟨f, hf, rfl⟩ := List.mem_map.mp hsig
    have hff := hfree' f hf
    simp only [Func.voidFree, Bool.and_eq_true] at hff
    exact hff.1
  have hsound : List.Forall₂ (fun f g => g.map TypedNode.toNode = f ∧ g.signature = f.signature ∧
      ∀ d ∈ g.definition?, d.2.Typed table) p.funcs t.funcs := by
    refine List.forall₂_iff_get.mpr ⟨hfuncs.length_eq, ?_⟩
    intro i hi hi'
    exact Check.func_sound hsigs (hfree' _ (List.get_mem _ _)) (hfuncs.get hi hi')
  have herase : t.erase = p := by
    have hmap : p.funcs = t.funcs.map (Func.map TypedNode.toNode) := by
      rw [← List.forall₂_eq_eq_eq, List.forall₂_map_right_iff]
      exact hsound.imp fun f g hfg => hfg.1.symm
    obtain ⟨funcs, memories⟩ := p
    simp only [Program.erase, Program.map]
    rw [← hmap, hmemories]
  have hsignatures : t.signatures = table := by
    rw [htable, ← herase]
    simp [Program.signatures, Program.erase, Program.map, Func.map_signature]
  refine ⟨⟨?_, ?_, ?_, ?_⟩, herase⟩
  · have hsame : t.funcs.map (·.signature.name) = p.funcs.map (·.signature.name) := by
      rw [← herase]
      simp [Program.erase, Program.map, Func.map_signature]
    rwa [hsame]
  · intro g hg
    have hmem : g.signature ∈ table := by
      rw [← hsignatures, Program.signatures, List.mem_reverse]
      exact List.mem_map_of_mem hg
    exact hsigs _ hmem
  · intro g hg
    obtain ⟨f, hf, -, hsignature, -⟩ := forall₂_partner_left hsound hg
    rw [hsignature]
    exact (Check.parameters_eq_ok.mp (hparameters f hf)).1
  · intro d hd
    obtain ⟨g, hg, hdef⟩ := List.mem_filterMap.mp hd
    obtain ⟨f, -, -, -, htyped⟩ := forall₂_partner_left hsound hg
    rw [hsignatures]
    exact htyped d hdef

end Wattle
