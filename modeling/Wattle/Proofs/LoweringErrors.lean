import Wattle.Command
import Wattle.Proofs.Accepted
import Wattle.Proofs.ScopeMatch
import Wattle.Proofs.SlotAllocation

/-!
# When lowering fails

A checked program fails to lower exactly if it converts between a pointer and a type that is wider
or not an integer. The conversions of a program are listed in the order in which their code comes;
the error names the first one that does not exist.
-/

namespace Wattle

/-! ## The conversions of a program -/

namespace Expr

mutual

/-- The conversions in an expression, each from a type to a type, in the order of their code. -/
def casts : Expr TypedNode → List (Ty × Ty)
  | name _ _ => []
  | number _ _ _ => []
  | call _ _ args => listCasts args
  | unary _ _ operand => operand.casts
  | binary _ _ left right => left.casts ++ right.casts
  | paren _ inner => inner.casts
  | cast _ operand target => operand.casts ++ [(operand.type, target)]

def listCasts : List (Expr TypedNode) → List (Ty × Ty)
  | [] => []
  | e :: rest => e.casts ++ listCasts rest

end

end Expr

namespace Stmt

mutual

/-- The conversions in a statement. -/
def casts : Stmt TypedNode → List (Ty × Ty)
  | cond _ arms otherwise => armsCasts arms ++ elseCasts otherwise
  | loop _ condition body => condition.casts ++ listCasts body
  | ret _ none => []
  | ret _ (some value) => value.casts
  | declare _ _ _ _ initial => initial.casts
  | expr _ value => value.casts

def listCasts : List (Stmt TypedNode) → List (Ty × Ty)
  | [] => []
  | s :: rest => s.casts ++ listCasts rest

def armsCasts : List (Arm TypedNode) → List (Ty × Ty)
  | [] => []
  | ⟨condition, body, _⟩ :: rest => (condition.casts ++ listCasts body) ++ armsCasts rest

def elseCasts : Option (List (Stmt TypedNode)) → List (Ty × Ty)
  | none => []
  | some body => listCasts body

end

end Stmt

/-- The conversions in the body of a function; an import has none. -/
def Func.casts (f : Func TypedNode) : List (Ty × Ty) :=
  match f.definition? with
  | some (_, d) => Stmt.listCasts d.body
  | none => []

def Program.casts (p : Program TypedNode) : List (Ty × Ty) :=
  p.funcs.flatMap Func.casts

/-- The first conversion of a list that the machine does not have. -/
def firstMissing? (casts : List (Ty × Ty)) : Option (Ty × Ty) :=
  casts.find? fun c => c.1.crossesPointer c.2

theorem firstMissing?_append (xs ys : List (Ty × Ty)) :
    firstMissing? (xs ++ ys) = (firstMissing? xs).or (firstMissing? ys) :=
  List.find?_append

theorem firstMissing?_isSome {casts : List (Ty × Ty)} :
    (firstMissing? casts).isSome = true ↔ ∃ c ∈ casts, c.1.crossesPointer c.2 = true :=
  List.find?_isSome

namespace Lower

/-! ## Steps that fail at a missing conversion only -/

/-- `Reports casts r`: producing the code around these conversions gave `r`, which is an error
exactly if one of them is missing, and then names the first. -/
def Reports {α : Type} (casts : List (Ty × Ty)) (r : Except LowerError α) : Prop :=
  match firstMissing? casts with
  | none => ∃ a, r = .ok a
  | some c => r = .error (.noConversion c.1 c.2)

section Reports

variable {α β : Type} {xs ys : List (Ty × Ty)} {x : Except LowerError α}
  {f : α → Except LowerError β}

theorem reports_nil : Reports [] x ↔ ∃ a, x = .ok a := Iff.rfl

theorem reports_pure (a : α) : Reports [] (pure a : Except LowerError α) :=
  ⟨a, rfl⟩

/-- A sequence reports the conversions of its steps in order: a step that fails ends it. -/
theorem Reports.bind (hx : Reports xs x) (hf : ∀ a, x = .ok a → Reports ys (f a)) :
    Reports (xs ++ ys) (x >>= f) := by
  simp only [Reports, firstMissing?_append] at hx ⊢
  cases hfirst : firstMissing? xs with
  | some c =>
      rw [hfirst] at hx
      simp only [Option.some_or]
      rw [hx]
      rfl
  | none =>
      rw [hfirst] at hx
      obtain ⟨a, ha⟩ := hx
      rw [Option.none_or, ha]
      exact hf a ha

theorem Reports.after_ok (hx : ∃ a, x = .ok a) (hf : ∀ a, x = .ok a → Reports ys (f a)) :
    Reports ys (x >>= f) :=
  Reports.bind (reports_nil.mpr hx) hf

theorem Reports.then_ok (hx : Reports xs x) (hf : ∀ a, ∃ b, f a = .ok b) :
    Reports xs (x >>= f) := by
  have h := hx.bind fun a _ => reports_nil.mpr (hf a)
  rwa [List.append_nil] at h

theorem reports_mapM {γ : Type} {casts : γ → List (Ty × Ty)} {g : γ → Except LowerError β}
    {l : List γ} (h : ∀ c ∈ l, Reports (casts c) (g c)) :
    Reports (l.flatMap casts) (l.mapM g) := by
  induction l with
  | nil => exact reports_pure []
  | cons c l ih =>
      rw [List.mapM_cons, List.flatMap_cons]
      refine (h c List.mem_cons_self).bind fun b _ => ?_
      refine (ih fun c' hc' => h c' (List.mem_cons_of_mem _ hc')).then_ok fun bs => ?_
      exact ⟨b :: bs, rfl⟩

end Reports

/-! ## Expressions -/

theorem conversion_reports {s t : Ty} (hs : s ≠ .void) (ht : t ≠ .void) :
    Reports [(s, t)] (conversion s t) := by
  cases hcross : s.crossesPointer t with
  | true =>
      have hfirst : firstMissing? [(s, t)] = some (s, t) := by simp [firstMissing?, hcross]
      simp only [Reports, hfirst]
      exact conversion_eq_error hcross
  | false =>
      have hfirst : firstMissing? [(s, t)] = none := by simp [firstMissing?, hcross]
      simp only [Reports, hfirst]
      exact exists_conversion hs ht hcross

/-- Lowering knows every name that the rules know. -/
abbrev Knows (scope : Scope Symbol) (slots : Scope Nat) : Prop :=
  scope.Match (fun _ _ => True) slots

theorem exists_slotOf {scope : Scope Symbol} {slots : Scope Nat} (h : Knows scope slots)
    {name : String} {symbol : Symbol} (hfound : scope.lookup? name = some symbol) :
    ∃ slot, slotOf slots name = .ok slot := by
  obtain ⟨slot, hslot, -⟩ := h.lookup?_right hfound
  exact ⟨slot, by simp only [slotOf, hslot]⟩

section Expressions

variable {table : Signatures} {scope : Scope Symbol} {slots : Scope Nat}

mutual

/-- A well-typed expression fails to lower only at a missing conversion. -/
theorem expr_reports (hknows : Knows scope slots) :
    (e : Expr TypedNode) → e.Typed table scope → Reports e.casts (expr slots e)
  | .name note id, .name found _ _ => by
      obtain ⟨slot, hslot⟩ := exists_slotOf hknows found
      simp only [expr, hslot]
      exact reports_pure _
  | .number note digits base, .number value _ => by
      obtain ⟨v, hv⟩ := exists_valueType (t := .base base) (by simpa using value)
      rw [valueType_eq_ok, Wasm.ValueType.ofTy?] at hv
      simp only [expr, hv]
      exact reports_pure _
  | .call note callee args, .call _ _ matched _ => by
      simp only [expr]
      exact (exprs_reports hknows args _ matched).then_ok fun code => ⟨_, rfl⟩
  | .unary note .negate operand, .negate typed value type => by
      have hvoid : note.type ≠ .void := type ▸ value
      obtain ⟨sub, hsub⟩ : ∃ i, binaryInstr .sub note.type = .ok i :=
        exists_binaryInstr (by simp) hvoid (by simp [BinaryOp.requiresInteger])
      simp only [expr]
      refine .after_ok (exists_valueType hvoid) fun v _ => ?_
      refine (expr_reports hknows operand typed).then_ok fun code => ?_
      exact ⟨_, by rw [hsub]; rfl⟩
  | .unary note .deref operand, .deref typed pointer => by
      have hfree := typed.voidFree (by simp [pointer])
      rw [pointer, Ty.voidFree_pointer] at hfree
      obtain ⟨v, hv⟩ := exists_valueType (Ty.ne_void_of_voidFree hfree)
      simp only [expr]
      refine (expr_reports hknows operand typed).then_ok fun code => ?_
      exact ⟨_, by rw [hv]; rfl⟩
  | .unary note .logicalNot operand, .logicalNot typed _ _ => by
      simp only [expr]
      exact (expr_reports hknows operand typed).then_ok fun code => ⟨_, rfl⟩
  | .binary note .assign (.name target id) value, .assignName found _ _ right _ _ => by
      simp only [expr, if_true]
      refine .after_ok (exists_slotOf hknows found) fun slot _ => ?_
      exact (expr_reports hknows value right).then_ok fun code => ⟨_, rfl⟩
  | .binary note .assign (.unary target .deref address) value, .assignDeref left right _ _ => by
      cases left with
      | deref typed pointer =>
          have hfree := typed.voidFree (by simp [pointer])
          rw [pointer, Ty.voidFree_pointer] at hfree
          obtain ⟨v, hv⟩ := exists_valueType (Ty.ne_void_of_voidFree hfree)
          simp only [expr, if_true]
          refine (expr_reports hknows address typed).bind fun place _ => ?_
          refine (expr_reports hknows value right).then_ok fun code => ?_
          exact ⟨_, by rw [hv]; rfl⟩
  | .binary note op left right, .binary operator first second value integer _ _ => by
      obtain ⟨instr, hinstr⟩ := exists_binaryInstr operator value integer
      rw [expr_binary operator]
      refine (expr_reports hknows left first).bind fun code _ => ?_
      refine (expr_reports hknows right second).then_ok fun code' => ?_
      exact ⟨_, by rw [hinstr]; rfl⟩
  | .paren note inner, .paren typed _ => by
      simp only [expr]
      exact expr_reports hknows inner typed
  | .cast note operand target, .cast typed value target_value _ => by
      simp only [expr]
      refine (expr_reports hknows operand typed).bind fun code _ => ?_
      refine (conversion_reports value (Ty.ne_void_of_voidFree target_value)).then_ok fun i => ?_
      exact ⟨_, rfl⟩

theorem exprs_reports (hknows : Knows scope slots) :
    (args : List (Expr TypedNode)) → (parameters : List Parameter) →
    Expr.ArgsTyped table scope args parameters →
    Reports (Expr.listCasts args) (exprs slots args)
  | [], [], .nil => reports_pure []
  | arg :: args, _ :: parameters, .cons typed _ rest => by
      simp only [exprs]
      refine (expr_reports hknows arg typed).bind fun code _ => ?_
      exact (exprs_reports hknows args parameters rest).then_ok fun codes => ⟨_, rfl⟩

end

end Expressions

/-! ## Statements -/

/-- `EmitReports casts x slots Q`: the same for a step that starts in the scope `slots`; if no
conversion is missing, the scope it leaves satisfies `Q`. -/
def EmitReports {α : Type} (casts : List (Ty × Ty)) (x : Emitter α) (slots : Scope Nat)
    (Q : Scope Nat → Prop) : Prop :=
  match firstMissing? casts with
  | none => ∃ a t, x slots = .ok a t ∧ Q t
  | some c => ∃ t, x slots = .error (.noConversion c.1 c.2) t

section EmitReports

variable {α β : Type} {xs ys : List (Ty × Ty)} {x : Emitter α} {f : α → Emitter β}
  {slots : Scope Nat} {P Q : Scope Nat → Prop}

theorem emitReports_nil {a : α} {t : Scope Nat} (h : x slots = .ok a t) (hQ : Q t) :
    EmitReports [] x slots Q :=
  ⟨a, t, h, hQ⟩

theorem EmitReports.bind (hx : EmitReports xs x slots P)
    (hf : ∀ a t, P t → EmitReports ys (f a) t Q) : EmitReports (xs ++ ys) (x >>= f) slots Q := by
  simp only [EmitReports, firstMissing?_append] at hx ⊢
  cases hfirst : firstMissing? xs with
  | some c =>
      rw [hfirst] at hx
      obtain ⟨t, ht⟩ := hx
      refine ⟨t, ?_⟩
      simp only [Bind.bind, EStateM.bind, ht]
  | none =>
      rw [hfirst] at hx
      obtain ⟨a, t, ht, hP⟩ := hx
      have hrun : (x >>= f) slots = f a t := by simp only [Bind.bind, EStateM.bind, ht]
      rw [Option.none_or, hrun]
      exact hf a t hP

theorem EmitReports.map (hx : EmitReports xs x slots Q) (g : α → β) :
    EmitReports xs (x >>= fun a => pure (g a)) slots Q := by
  have h := hx.bind fun a t ht => emitReports_nil (x := (pure (g a) : Emitter β)) rfl ht
  rwa [List.append_nil] at h

theorem EmitReports.of_expr {e : Expr TypedNode} (h : Reports xs (expr slots e))
    (hQ : Q slots) : EmitReports xs (exprHere e) slots Q := by
  simp only [Reports, EmitReports] at h ⊢
  cases hfirst : firstMissing? xs with
  | some c =>
      rw [hfirst] at h
      exact ⟨slots, by simp only [exprHere, Scope.asking, h]⟩
  | none =>
      rw [hfirst] at h
      obtain ⟨code, hcode⟩ := h
      exact ⟨code, slots, by simp only [exprHere, Scope.asking, hcode], hQ⟩

theorem EmitReports.within (hx : EmitReports xs x slots.push P) (hQ : ∀ t, P t → Q t.pop) :
    EmitReports xs (Scope.within x) slots Q := by
  simp only [EmitReports] at hx ⊢
  cases hfirst : firstMissing? xs with
  | some c =>
      rw [hfirst] at hx
      obtain ⟨t, ht⟩ := hx
      exact ⟨t.pop, by simp only [Scope.within, ht]⟩
  | none =>
      rw [hfirst] at hx
      obtain ⟨a, t, ht, hP⟩ := hx
      exact ⟨a, t.pop, by simp only [Scope.within, ht], hQ t hP⟩

end EmitReports

section Statements

variable {table : Signatures} {result : Ty} {slotTable : SlotTable}

abbrev HasSlots (slotTable : SlotTable) (locals : List LocalDecl) : Prop :=
  ∀ l ∈ locals, ∃ slot, slotTable.slotFor l.id = .ok slot

theorem exitUnless_reports {scope : Scope Symbol} {slots : Scope Nat} {condition : Expr TypedNode}
    (hknows : Knows scope slots) (typed : condition.Typed table scope) :
    EmitReports condition.casts (exitUnless condition) slots (Knows scope) :=
  (EmitReports.of_expr (expr_reports hknows condition typed) hknows).map _

mutual

/-- A well-typed statement fails to lower only at a missing conversion, and leaves the names that
the rules say. -/
theorem stmt_reports : (s : Stmt TypedNode) → {scope : Scope Symbol} → {slots : Scope Nat} →
    s.Typed table result scope → Knows scope slots → HasSlots slotTable s.locals →
    EmitReports s.casts (stmt slotTable s) slots (Knows (s.scopeAfter scope))
  | .cond node branches otherwise, scope, slots, .cond armsTyped elseTyped, hknows, hslots => by
      have hleft : HasSlots slotTable (Stmt.armsLocals branches) := fun l hl =>
        hslots l (List.mem_append_left _ hl)
      have hright : HasSlots slotTable (Stmt.elseLocals otherwise) := fun l hl =>
        hslots l (List.mem_append_right _ hl)
      simp only [stmt]
      refine (arms_reports branches armsTyped hknows hleft).bind fun codes t ht => ?_
      exact (elseBody_reports otherwise elseTyped ht hright).map _
  | .loop node condition body, scope, slots, .loop test _ inside, hknows, hslots => by
      simp only [stmt]
      refine (exitUnless_reports hknows test).bind fun code t ht => ?_
      exact (nested_reports body inside ht hslots).map _
  | .ret node none, scope, slots, _, hknows, _ => by
      simp only [stmt, returned]
      exact emitReports_nil rfl hknows
  | .ret node (some value), scope, slots, .retValue _ typed _, hknows, _ => by
      simp only [stmt, returned]
      exact (EmitReports.of_expr (expr_reports hknows value typed) hknows).map _
  | .declare node kind name type initial, scope, slots, .declare typed _ _, hknows, hslots => by
      obtain ⟨slot, hslot⟩ := hslots ⟨node.id, type⟩ List.mem_cons_self
      simp only [stmt]
      have hinit := EmitReports.of_expr (Q := Knows scope) (expr_reports hknows initial typed) hknows
      have hrest := hinit.bind (f := fun code => do
          let slot ← ofExcept (slotTable.slotFor node.id)
          Scope.bind name slot
          return code ++ [.localSet slot])
        (Q := Knows (scope.insert name ⟨type, .ofDecl kind⟩)) fun code t ht => by
          refine emitReports_nil (a := code ++ [.localSet slot]) (t := t.insert name slot) ?_
            (ht.insert name trivial)
          rw [hslot]
          rfl
      rwa [List.append_nil] at hrest
  | .expr node value, scope, slots, .expr typed, hknows, _ => by
      simp only [stmt]
      exact (EmitReports.of_expr (expr_reports hknows value typed) hknows).map _

theorem stmts_reports : (body : List (Stmt TypedNode)) → {scope : Scope Symbol} →
    {slots : Scope Nat} → Stmt.ListTyped table result scope body → Knows scope slots →
    HasSlots slotTable (Stmt.listLocals body) →
    EmitReports (Stmt.listCasts body) (stmts slotTable body) slots
      fun t => ∃ scope', Knows scope' t ∧ scope'.outer = scope.outer
  | [], scope, slots, _, hknows, _ => by
      simp only [stmts]
      exact emitReports_nil rfl ⟨scope, hknows, rfl⟩
  | s :: rest, scope, slots, .cons first _ others, hknows, hslots => by
      have hleft : HasSlots slotTable s.locals := fun l hl => hslots l (List.mem_append_left _ hl)
      have hright : HasSlots slotTable (Stmt.listLocals rest) := fun l hl =>
        hslots l (List.mem_append_right _ hl)
      simp only [stmts]
      refine (stmt_reports s first hknows hleft).bind fun code t ht => ?_
      have hrest := stmts_reports rest others ht hright
      rw [Check.scopeAfter_outer] at hrest
      exact hrest.map _

theorem nested_reports (body : List (Stmt TypedNode)) {scope : Scope Symbol} {slots : Scope Nat}
    (inside : Stmt.ListTyped table result scope.push body) (hknows : Knows scope slots)
    (hslots : HasSlots slotTable (Stmt.listLocals body)) :
    EmitReports (Stmt.listCasts body) (Scope.within (stmts slotTable body)) slots (Knows scope) := by
  refine (stmts_reports body inside hknows.push hslots).within ?_
  rintro t ⟨scope', hmatch, houter⟩
  have hpop := hmatch.pop
  rwa [Check.pop_of_outer_push houter] at hpop

theorem arms_reports : (branches : List (Arm TypedNode)) → {scope : Scope Symbol} →
    {slots : Scope Nat} → Stmt.ArmsTyped table result scope branches → Knows scope slots →
    HasSlots slotTable (Stmt.armsLocals branches) →
    EmitReports (Stmt.armsCasts branches) (arms slotTable branches) slots (Knows scope)
  | [], scope, slots, _, hknows, _ => by
      simp only [arms]
      exact emitReports_nil rfl hknows
  | ⟨condition, body, span⟩ :: rest, scope, slots, .cons test _ inside others, hknows, hslots => by
      have hleft : HasSlots slotTable (Stmt.listLocals body) := fun l hl =>
        hslots l (List.mem_append_left _ hl)
      have hright : HasSlots slotTable (Stmt.armsLocals rest) := fun l hl =>
        hslots l (List.mem_append_right _ hl)
      have harm : EmitReports (condition.casts ++ Stmt.listCasts body)
          (arm slotTable ⟨condition, body, span⟩) slots (Knows scope) := by
        simp only [arm]
        refine (exitUnless_reports hknows test).bind fun code t ht => ?_
        exact (nested_reports body inside ht hleft).map _
      simp only [arms]
      refine harm.bind fun code t ht => ?_
      exact (arms_reports rest others ht hright).map _

theorem elseBody_reports : (otherwise : Option (List (Stmt TypedNode))) → {scope : Scope Symbol} →
    {slots : Scope Nat} → Stmt.ElseTyped table result scope otherwise → Knows scope slots →
    HasSlots slotTable (Stmt.elseLocals otherwise) →
    EmitReports (Stmt.elseCasts otherwise) (elseBody slotTable otherwise) slots (Knows scope)
  | none, scope, slots, _, hknows, _ => by
      simp only [elseBody]
      exact emitReports_nil rfl hknows
  | some body, scope, slots, .some inside, hknows, hslots => by
      simp only [elseBody]
      exact (nested_reports body inside hknows hslots).map _

end

end Statements

/-! ## Programs -/

theorem body_reports {table : Signatures} {slotTable : SlotTable} {d : FuncDef TypedNode}
    (typed : d.Typed table) (hslots : HasSlots slotTable (Stmt.listLocals d.body)) :
    Reports (Stmt.listCasts d.body) (body slotTable d) := by
  have hknows : Knows (Check.parameterScope d.signature.parameters)
      (parameterScope d.signature.parameters) := parameterScope_match fun _ _ _ => trivial
  have h := stmts_reports d.body typed.body hknows hslots
  simp only [EmitReports, Reports] at h ⊢
  cases hfirst : firstMissing? (Stmt.listCasts d.body) with
  | some c =>
      rw [hfirst] at h
      obtain ⟨t, ht⟩ := h
      simp only [body, ht]
  | none =>
      rw [hfirst] at h
      obtain ⟨code, t, ht, -⟩ := h
      exact ⟨code, by simp only [body, ht]⟩

theorem func_reports {table : Signatures} {exported : Bool} {d : FuncDef TypedNode}
    (typed : d.Typed table) (hsig : d.signature.voidFree = true)
    (hnodup : ((Stmt.listLocals d.body).map LocalDecl.id).Nodup) :
    Reports (Stmt.listCasts d.body) (func exported d) := by
  obtain ⟨type, htype⟩ := exists_funcType hsig
  have hlength : type.params.length = d.signature.parameters.length :=
    (funcType_eq_ok.mp htype).1.length_eq.symm
  simp only [func]
  refine .after_ok (exists_allocate typed.body.locals) fun slotTable halloc => ?_
  have hslots : HasSlots slotTable (Stmt.listLocals d.body) := by
    intro l hl
    obtain ⟨i, hi⟩ := List.mem_iff_getElem?.mp hl
    exact ⟨_, (allocate_room hnodup hlength halloc i l hi).1⟩
  refine (body_reports typed hslots).then_ok fun code => ?_
  exact ⟨_, by rw [htype]; rfl⟩

theorem func?_reports {table : Signatures} {f : Func TypedNode}
    (typed : ∀ d ∈ f.definition?, d.2.Typed table) (hsig : f.signature.voidFree = true)
    (hnodup : f.DistinctLocals) : Reports f.casts (func? f) := by
  cases f with
  | plain d =>
      exact (func_reports (typed _ rfl) hsig (hnodup _ rfl)).then_ok fun code => ⟨_, rfl⟩
  | exported d =>
      exact (func_reports (typed _ rfl) hsig (hnodup _ rfl)).then_ok fun code => ⟨_, rfl⟩
  | imported i => exact reports_pure _

theorem exists_importedFunc? {f : Func TypedNode} (hsig : f.signature.voidFree = true) :
    ∃ i, importedFunc? f = .ok i := by
  cases f with
  | plain d => exact ⟨none, rfl⟩
  | exported d => exact ⟨none, rfl⟩
  | imported i =>
      obtain ⟨type, htype⟩ : ∃ type, funcType i.signature = .ok type := exists_funcType hsig
      exact ⟨some _, by simp only [importedFunc?]; rw [htype]; rfl⟩

theorem program_reports {p : Program TypedNode} (typed : p.Typed)
    (hnodup : ∀ d ∈ p.definitions, ((Stmt.listLocals d.2.body).map LocalDecl.id).Nodup) :
    Reports p.casts (lowerProgram p) := by
  simp only [lowerProgram]
  refine .after_ok (except_exists_mapM fun f hf => exists_importedFunc? (typed.signatures f hf))
    fun imports _ => ?_
  have hfuncs : Reports p.casts (p.funcs.mapM func?) := by
    refine reports_mapM fun f hf => ?_
    have hmem : ∀ d ∈ f.definition?, d ∈ p.definitions := fun d hd =>
      List.mem_filterMap.mpr ⟨f, hf, hd⟩
    exact func?_reports (fun d hd => typed.bodies d (hmem d hd)) (typed.signatures f hf)
      fun d hd => hnodup d (hmem d hd)
  exact hfuncs.then_ok fun funcs => ⟨_, rfl⟩

end Lower

theorem lowerProgram_reports {source : String} {p : Program TypedNode}
    (h : Compile.typedProgram source = .ok p) : Lower.Reports p.casts (lowerProgram p) := by
  obtain ⟨typed, hnodup⟩ := typedProgram_sound h
  exact Lower.program_reports typed hnodup

namespace Lower.Reports

variable {α : Type} {casts : List (Ty × Ty)} {r : Except LowerError α}

theorem error_iff (h : Reports casts r) :
    (∃ e, r = .error e) ↔ ∃ c ∈ casts, c.1.crossesPointer c.2 = true := by
  rw [← firstMissing?_isSome]
  simp only [Reports] at h
  cases hfirst : firstMissing? casts with
  | none =>
      rw [hfirst] at h
      obtain ⟨a, rfl⟩ := h
      simp
  | some c =>
      rw [hfirst] at h
      simp [h]

theorem first_of_error (h : Reports casts r) {e : LowerError} (he : r = .error e) :
    ∃ c, firstMissing? casts = some c ∧ e = .noConversion c.1 c.2 := by
  simp only [Reports] at h
  cases hfirst : firstMissing? casts with
  | none =>
      rw [hfirst] at h
      obtain ⟨a, ha⟩ := h
      rw [ha] at he
      cases he
  | some c =>
      rw [hfirst, he] at h
      exact ⟨c, rfl, Except.error.inj h⟩

end Lower.Reports

/-! ## The two commands -/

def Folder.text? (f : Folder) (path : String) : Option String :=
  (f.content? path).bind String.fromUTF8?

theorem Folder.readText_run (f : Folder) (path : String) :
    ∃ fault, (Folder.asFiles.readText path).run f =
      (match f.text? path with
        | some source => .ok source
        | none => .error fault, f) := by
  simp only [Folder.text?, Files.readText, Folder.asFiles]
  cases hbytes : f.content? path with
  | none => exact ⟨.missing, by simp [hbytes]; rfl⟩
  | some bytes =>
      cases htext : String.fromUTF8? bytes with
      | none => exact ⟨.notText, by simp [hbytes, htext]; rfl⟩
      | some source => exact ⟨.missing, by simp [hbytes, htext]; rfl⟩

namespace Command

def statusIn (folder : Folder) (command : Command) : Nat :=
  ((run Folder.asFiles command).run folder).1.status

theorem withSource_status (folder : Folder) (input : String)
    (next : String → StateM Folder Outcome) :
    ((withSource Folder.asFiles input next).run folder).1.status =
      match folder.text? input with
      | some source => ((next source).run folder).1.status
      | none => 1 := by
  obtain ⟨fault, hread⟩ := folder.readText_run input
  simp only [withSource, StateT.run_bind, hread]
  cases folder.text? input <;> rfl

theorem statusIn_check (folder : Folder) (input : String) :
    statusIn folder (check input) =
      match (folder.text? input).map Compile.typedProgram with
      | some (.ok _) => 0
      | _ => 1 := by
  refine (withSource_status folder input _).trans ?_
  cases folder.text? input with
  | none => rfl
  | some source =>
      simp only [Option.map_some]
      cases Compile.typedProgram source <;> rfl

theorem statusIn_compile (folder : Folder) (input : String) :
    statusIn folder (compile input .wat none) =
      match (folder.text? input).map Wattle.compile with
      | some (.ok _) => 0
      | _ => 1 := by
  refine (withSource_status folder input _).trans ?_
  cases folder.text? input with
  | none => rfl
  | some source =>
      simp only [Option.map_some, Emit.text]
      cases Wattle.compile source <;> rfl

end Command

/-- A lowering error comes from a checked program: the stages before have errors of their own. -/
theorem compile_eq_lowering_error {source : String} {e : LowerError}
    (h : compile source = .error (.lowering e)) :
    ∃ p, Compile.typedProgram source = .ok p ∧ lowerProgram p = .error e := by
  simp only [compile, Compile.wasmModule, except_map_eq_error, except_bind_eq_error,
    except_mapError_eq_error, CompileError.lowering.injEq] at h
  rcases h with hstage | ⟨p, hp, e', he', rfl⟩
  · simp [Compile.typedProgram, Compile.program, Compile.tokens, except_bind_eq_error,
      except_mapError_eq_error] at hstage
  · exact ⟨p, hp, he'⟩

theorem compile_isOk_iff {source : String} {p : Program TypedNode}
    (h : Compile.typedProgram source = .ok p) :
    (∃ text, compile source = .ok text) ↔ ∃ m, lowerProgram p = .ok m := by
  simp [compile, Compile.wasmModule, h, except_map_eq_ok, bind, Except.bind, except_mapError_eq_ok]

theorem status_ne_iff (folder : Folder) (input : String) :
    Command.statusIn folder (.check input) ≠ Command.statusIn folder (.compile input .wat none) ↔
      ∃ source p, folder.text? input = some source ∧ Compile.typedProgram source = .ok p ∧
        ∃ c ∈ p.casts, c.1.crossesPointer c.2 = true := by
  rw [Command.statusIn_check, Command.statusIn_compile]
  cases folder.text? input with
  | none => simp
  | some source =>
      simp only [Option.map_some, Option.some.injEq, exists_and_left, exists_eq_left']
      cases hp : Compile.typedProgram source with
      | error e =>
          have herror : compile source = .error e := by
            rw [compile, Compile.wasmModule, hp]
            rfl
          simp [herror]
      | ok p =>
          have hreports := lowerProgram_reports hp
          have hok := compile_isOk_iff hp
          cases hm : lowerProgram p with
          | ok m =>
              obtain ⟨text, htext⟩ := hok.mpr ⟨m, hm⟩
              simpa [htext, hm] using hreports.error_iff
          | error e =>
              have hnone : ¬ ∃ text, compile source = .ok text := by simp [hok, hm]
              cases hc : compile source with
              | ok text => exact absurd ⟨text, hc⟩ hnone
              | error e' => simpa [hm] using hreports.error_iff

/-- Lowering an accepted program fails exactly if one of its conversions leads between a pointer
and a type that is no 32-bit integer, and names the first of these in the order of the code. No
other lowering error can come from a source text, and checking a file disagrees with compiling it
in just these cases. -/
theorem lowering_fails_exactly_at_pointer_conversions :
    (∀ source p, Compile.typedProgram source = .ok p →
      ((∃ e, lowerProgram p = .error e) ↔ ∃ c ∈ p.casts, c.1.crossesPointer c.2 = true) ∧
      ∀ e, lowerProgram p = .error e →
        ∃ c, firstMissing? p.casts = some c ∧ e = .noConversion c.1 c.2) ∧
    (∀ source e, compile source = .error (.lowering e) →
      ∃ s t, e = .noConversion s t ∧ s.crossesPointer t = true) ∧
    ∀ folder input,
      Command.statusIn folder (.check input) ≠
          Command.statusIn folder (.compile input .wat none) ↔
        ∃ source p, folder.text? input = some source ∧ Compile.typedProgram source = .ok p ∧
          ∃ c ∈ p.casts, c.1.crossesPointer c.2 = true := by
  refine ⟨fun source p hp => ?_, fun source e he => ?_, status_ne_iff⟩
  · have hreports := lowerProgram_reports hp
    exact ⟨hreports.error_iff, fun e he => hreports.first_of_error he⟩
  · obtain ⟨p, hp, hlower⟩ := compile_eq_lowering_error he
    obtain ⟨c, hfirst, rfl⟩ := (lowerProgram_reports hp).first_of_error hlower
    exact ⟨c.1, c.2, rfl, by simpa using List.find?_some hfirst⟩

/-- A pointer that becomes a 64-bit integer, behind one that becomes a 32-bit integer. -/
theorem lowering_fails_at_second_conversion :
    ∃ p, Compile.typedProgram
        "func f(p: *i32): i64 { var n: i32 = p as i32; return p as i64 + (n as f32) as i64; }" =
          .ok p ∧
      lowerProgram p = .error (.noConversion (.pointer .i32) (.base .i64)) := by
  have hcasts : (Compile.typedProgram
      "func f(p: *i32): i64 { var n: i32 = p as i32; return p as i64 + (n as f32) as i64; }").map
        Program.casts = .ok [(.pointer .i32, .i32), (.pointer .i32, .base .i64),
          (.i32, .base .f32), (.base .f32, .base .i64)] := by
    decide +kernel
  obtain ⟨p, hp, hcasts⟩ := except_map_eq_ok.mp hcasts
  obtain ⟨hiff, hfirst⟩ := lowering_fails_exactly_at_pointer_conversions.1 _ p hp
  obtain ⟨e, he⟩ := hiff.mpr ⟨(.pointer .i32, .base .i64), by simp [hcasts], rfl⟩
  obtain ⟨c, hc, rfl⟩ := hfirst e he
  rw [hcasts, firstMissing?] at hc
  obtain rfl : (.pointer .i32, .base .i64) = c := Option.some.inj (by rw [← hc]; rfl)
  exact ⟨p, hp, he⟩

end Wattle
