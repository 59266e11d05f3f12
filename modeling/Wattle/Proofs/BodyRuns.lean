import Wattle.Proofs.ControlFlow

/-!
# Bodies run in step

The code of a well-typed body follows the body statement by statement, and so a function of the
module gives what the definition gives that it was lowered from, for any bound on the rounds of
loops.
-/

namespace Wattle

namespace Lower

open Wasm

variable {V M : Type} {P : Primitives V M} {b : BodyContext} {bound : Nat}

/-! ## Statements -/

section Statements

variable {table : Signatures} {result : Ty} {slotTable : SlotTable} {types : List ValueType}
  {scope : Scope Symbol} {slots slots' : Scope Nat} {next width : Nat}

theorem declare_follows {initial : Expr TypedNode} {code : List Instr} {name : String}
    (hcode : Evaluates P b bound slots width initial code) (hvoid : initial.type ≠ .void)
    (hplaced : Placed slots next) (hnext : next < width) :
    Follows P b bound slots (slots.insert name next) width (fun s => do
        let (x, s) ← Wattle.needed (initial.eval P s)
        return (.next, ⟨s.vars.insert name x, s.memory⟩))
      (code ++ [.localSet next]) := by
  intro s c hagrees
  refine Tracks.append (hcode.needed hvoid hagrees) ?_
  intro x s' locals memory _ hagrees'
  have hlt : next < locals.length := by
    have hlength : locals.length = width := hagrees'.width
    omega
  have hdeclared : Holds (s'.vars.insert name x) (slots.insert name next) (locals.set next x) :=
    Holds.declare hagrees'.vars hplaced hlt name x
  rw [execAll_singleton]
  simp only [Instr.exec, hlt, if_true]
  refine .ok ⟨rfl, rfl, hdeclared, hagrees'.memory, ?_⟩
  rw [List.length_set]
  exact hagrees'.width

/-- A `return` takes the value on top of the stack, if the function gives one. -/
theorem return_follows {value : Expr TypedNode} {code : List Instr}
    (hcode : Evaluates P b bound slots width value code) (hvoid : value.type ≠ .void)
    (hresult : b.result = ValueType.ofTy? value.type) :
    Follows P b bound slots slots width (fun s => do
        let (x, s) ← Wattle.needed (value.eval P s)
        return (.returned (some x), s))
      (code ++ [.ret]) := by
  intro s c hagrees
  refine Tracks.append (hcode.needed hvoid hagrees) ?_
  intro x s' locals memory _ hagrees'
  obtain ⟨v, hv⟩ := exists_valueType hvoid
  rw [execAll_singleton]
  simp only [Instr.exec, hresult, valueType_eq_ok.mp hv, takeResult]
  exact .ok ⟨rfl, hagrees'.memory⟩

/-- An expression used as a statement leaves nothing on the stack. -/
theorem discard_follows {value : Expr TypedNode} {code : List Instr}
    (hcode : Evaluates P b bound slots width value code) :
    Follows P b bound slots slots width (fun s => do
        let (_, s) ← value.eval P s
        return (.next, s))
      (if value.hasValue then code ++ [.drop] else code) := by
  intro s c hagrees
  cases hvoid : value.type.isVoid with
  | true =>
      simp only [Expr.hasValue, hvoid, Bool.not_true, Bool.false_eq_true, if_false]
      refine (hcode s c hagrees).map ?_
      rintro ⟨x, s'⟩ o ⟨hnone, hreached⟩
      cases x with
      | none => exact hreached
      | some x => simp [hvoid] at hnone
  | false =>
      simp only [Expr.hasValue, hvoid, Bool.not_false, if_true]
      rw [Instr.execAll_append]
      refine (hcode s c hagrees).bind ?_
      rintro ⟨x, s'⟩ ⟨flow, stack, locals, memory⟩ - ⟨hsome, rfl, hstack, hagrees'⟩
      cases x with
      | none => simp [hvoid] at hsome
      | some x =>
          obtain rfl : stack = x :: c.stack := hstack
          change Tracks _ (Instr.execAll P b bound [.drop] ⟨x :: c.stack, locals, memory⟩) _
          rw [execAll_singleton]
          simp only [Instr.exec]
          exact .ok ⟨rfl, rfl, hagrees'.restack⟩

mutual

theorem stmt_follows (hcalls : Callable b table) (hresult : b.result = ValueType.ofTy? result)
    (hwidth : types.length = width) : (s : Stmt TypedNode) → {scope : Scope Symbol} →
    {slots slots' : Scope Nat} → {next : Nat} → {code : List Instr} →
    s.Typed table result scope → Placed slots next → Room slotTable types next s.locals →
    stmt slotTable s slots = .ok code slots' →
    Follows P b bound slots slots' width (s.run P bound) code
  | .cond _ branches otherwise, scope, slots, slots', next, code, .cond typed last, hplaced, hroom,
      h => by
      simp only [stmt, state_bind_eq_ok, state_pure_eq_ok] at h
      obtain ⟨codes, t, hcodes, lastCode, u, hlast, rfl, rfl⟩ := h
      obtain rfl := arms_slots branches hcodes
      obtain rfl := elseBody_slots otherwise hlast
      have harms := armList_follows hcalls hresult hwidth branches typed hplaced hroom.left hcodes
      have helse := elseBody_follows hcalls hresult hwidth otherwise last
        (hplaced.mono (Nat.le_add_right _ _)) hroom.right hlast
      intro s c hagrees
      simp only [Stmt.run]
      exact joinArms_follows harms helse s c hagrees
  | .loop _ condition body, scope, slots, slots', next, code, .loop test truth inside, hplaced,
      hroom, h => by
      simp only [stmt, state_bind_eq_ok, state_pure_eq_ok, exitUnless_eq_ok] at h
      obtain ⟨_, _, ⟨testCode, htest, rfl, rfl⟩, bodyCode, t, hbody, rfl, rfl⟩ := h
      obtain rfl := nested_slots body hbody
      have hinner := nested_follows hcalls hresult hwidth body inside hplaced hroom hbody
      intro s c hagrees
      simp only [Stmt.run]
      exact loop_follows (expr_evaluates hcalls hplaced condition test htest) truth hinner s c
        hagrees
  | .ret _ none, scope, slots, slots', next, code, .retVoid nothing, hplaced, hroom, h => by
      simp only [stmt, returned, state_pure_eq_ok] at h
      obtain ⟨rfl, rfl⟩ := h
      intro s c hagrees
      rw [execAll_singleton]
      simp only [Stmt.run, Instr.exec, hresult, ofTy?_eq_none.mpr nothing, takeResult]
      exact .ok ⟨rfl, hagrees.memory⟩
  | .ret _ (some value), scope, slots, slots', next, code, .retValue something typed same,
      hplaced, hroom, h => by
      simp only [stmt, returned, state_bind_eq_ok, state_pure_eq_ok, exprHere_eq_ok] at h
      obtain ⟨inner, t, ⟨hinner, rfl⟩, rfl, rfl⟩ := h
      have hvalue : Evaluates P b bound slots width value inner :=
        expr_evaluates hcalls hplaced value typed hinner
      intro s c hagrees
      simp only [Stmt.run]
      exact return_follows hvalue (same ▸ something) (same ▸ hresult) s c hagrees
  | .declare node _ name type initial, scope, slots, slots', next, code,
      .declare typed same value, hplaced, hroom, h => by
      simp only [stmt, state_bind_eq_ok, state_pure_eq_ok, exprHere_eq_ok, state_ofExcept_eq_ok,
        Scope.bind_eq_ok] at h
      obtain ⟨inner, _, ⟨hinner, rfl⟩, slot, _, ⟨hslot, rfl⟩, _, _, rfl, rfl, rfl⟩ := h
      obtain ⟨hnext, htype⟩ := Room.head hroom
      obtain rfl : next = slot := Except.ok.inj (hnext.symm.trans hslot)
      have hvoid : type ≠ .void := Ty.ne_void_of_voidFree value
      obtain ⟨v, hv⟩ := exists_valueType hvoid
      rw [valueType_eq_ok.mp hv] at htype
      obtain ⟨hlt, -⟩ := List.getElem?_eq_some_iff.mp htype
      have hinitial : Evaluates P b bound slots width initial inner :=
        expr_evaluates hcalls hplaced initial typed hinner
      intro s c hagrees
      simp only [Stmt.run]
      exact declare_follows hinitial (same ▸ hvoid) hplaced (hwidth ▸ hlt) s c hagrees
  | .expr _ value, scope, slots, slots', next, code, .expr typed, hplaced, hroom, h => by
      simp only [stmt, state_bind_eq_ok, state_pure_eq_ok, exprHere_eq_ok] at h
      obtain ⟨inner, t, ⟨hinner, rfl⟩, rfl, rfl⟩ := h
      have hvalue : Evaluates P b bound slots width value inner :=
        expr_evaluates hcalls hplaced value typed hinner
      intro s c hagrees
      simp only [Stmt.run]
      exact discard_follows hvalue s c hagrees

theorem stmts_follow (hcalls : Callable b table) (hresult : b.result = ValueType.ofTy? result)
    (hwidth : types.length = width) : (body : List (Stmt TypedNode)) → {scope : Scope Symbol} →
    {slots slots' : Scope Nat} → {next : Nat} → {code : List Instr} →
    Stmt.ListTyped table result scope body → Placed slots next →
    Room slotTable types next (Stmt.listLocals body) → stmts slotTable body slots = .ok code slots' →
    Follows P b bound slots slots' width (Stmt.runList P bound body) code
  | [], scope, slots, slots', next, code, _, hplaced, hroom, h => by
      simp only [stmts, state_pure_eq_ok] at h
      obtain ⟨rfl, rfl⟩ := h
      intro s c hagrees
      simp only [Stmt.runList, Instr.execAll_nil]
      exact .ok ⟨rfl, rfl, hagrees⟩
  | s :: rest, scope, slots, slots', next, code, .cons first _ others, hplaced, hroom, h => by
      simp only [stmts, state_bind_eq_ok, state_pure_eq_ok] at h
      obtain ⟨firstCode, t, hfirst, restCode, u, hrest, rfl, rfl⟩ := h
      have hs := stmt_follows hcalls hresult hwidth s first hplaced hroom.left hfirst
      have hplaced' := stmt_placed hplaced hroom.left hfirst
      have hr := stmts_follow hcalls hresult hwidth rest others hplaced' hroom.right hrest
      intro env c hagrees
      simp only [Stmt.runList]
      exact hs.append hr env c hagrees

theorem nested_follows (hcalls : Callable b table) (hresult : b.result = ValueType.ofTy? result)
    (hwidth : types.length = width) (body : List (Stmt TypedNode)) {scope : Scope Symbol}
    {slots slots' : Scope Nat} {next : Nat} {code : List Instr}
    (inside : Stmt.ListTyped table result scope.push body) (hplaced : Placed slots next)
    (hroom : Room slotTable types next (Stmt.listLocals body))
    (h : Scope.within (stmts slotTable body) slots = .ok code slots') :
    Follows P b bound slots slots width (Env.nested fun s => Stmt.runList P bound body s) code := by
  obtain ⟨u, hu, hpop⟩ := Scope.within_eq_ok.mp h
  have hbody := stmts_follow hcalls hresult hwidth body inside hplaced.push hroom hu
  exact hbody.nested (hpop ▸ nested_slots body h)

theorem armList_follows (hcalls : Callable b table) (hresult : b.result = ValueType.ofTy? result)
    (hwidth : types.length = width) : (branches : List (Arm TypedNode)) →
    {scope : Scope Symbol} → {slots slots' : Scope Nat} → {next : Nat} →
    {codes : List (List Instr)} → Stmt.ArmsTyped table result scope branches →
    Placed slots next → Room slotTable types next (Stmt.armsLocals branches) →
    arms slotTable branches slots = .ok codes slots' →
    List.Forall₂ (ArmFollows P b bound slots width) branches codes
  | [], scope, slots, slots', next, codes, _, hplaced, hroom, h => by
      simp only [arms, state_pure_eq_ok] at h
      obtain ⟨rfl, rfl⟩ := h
      exact .nil
  | ⟨condition, body, span⟩ :: rest, scope, slots, slots', next, codes,
      .cons test truth inside others, hplaced, hroom, h => by
      simp only [arms, arm, state_bind_eq_ok, state_pure_eq_ok, exitUnless_eq_ok] at h
      obtain ⟨_, t, ⟨_, _, ⟨testCode, htest, rfl, rfl⟩, bodyCode, u, hbody, rfl, rfl⟩, restCodes,
        v, hrest, rfl, rfl⟩ := h
      obtain rfl := nested_slots body hbody
      have hinner := nested_follows hcalls hresult hwidth body inside hplaced hroom.left hbody
      have hplaced' := hplaced.mono (Nat.le_add_right next (Stmt.listLocals body).length)
      have hothers := armList_follows hcalls hresult hwidth rest others hplaced' hroom.right hrest
      have hcondition : Evaluates P b bound u width condition testCode :=
        expr_evaluates hcalls hplaced condition test htest
      exact .cons ⟨testCode, bodyCode, rfl, hcondition, truth, hinner⟩ hothers

theorem elseBody_follows (hcalls : Callable b table) (hresult : b.result = ValueType.ofTy? result)
    (hwidth : types.length = width) : (otherwise : Option (List (Stmt TypedNode))) →
    {scope : Scope Symbol} → {slots slots' : Scope Nat} → {next : Nat} →
    {last : Option (List Instr)} → Stmt.ElseTyped table result scope otherwise →
    Placed slots next → Room slotTable types next (Stmt.elseLocals otherwise) →
    elseBody slotTable otherwise slots = .ok last slots' →
    ElseFollows P b bound slots width otherwise last
  | none, scope, slots, slots', next, last, _, hplaced, hroom, h => by
      simp only [elseBody, state_pure_eq_ok] at h
      obtain ⟨rfl, rfl⟩ := h
      exact .none
  | some body, scope, slots, slots', next, last, .some inside, hplaced, hroom, h => by
      simp only [elseBody, state_bind_eq_ok, state_pure_eq_ok] at h
      obtain ⟨inner, t, hinner, rfl, rfl⟩ := h
      exact .some (nested_follows hcalls hresult hwidth body inside hplaced hroom hinner)

end

end Statements

/-! ## Functions -/

/-- A body that ends in a `return` is left by a `return`. -/
theorem runList_returns {body : List (Stmt TypedNode)} (hends : Check.endsInReturn body = true)
    {s s' : Env V M} {signal : Signal V}
    (h : Stmt.runList P bound body s = .ok (signal, s')) : ∃ x, signal = .returned x := by
  induction body generalizing s with
  | nil => simp [Check.endsInReturn] at hends
  | cons first rest ih =>
      simp only [Stmt.runList, except_bind_eq_ok] at h
      obtain ⟨⟨signal', s''⟩, hfirst, hrest⟩ := h
      cases signal' with
      | returned x =>
          cases hrest
          exact ⟨x, rfl⟩
      | next =>
          cases rest with
          | cons second rest => exact ih (by simpa [Check.endsInReturn] using hends) hrest
          | nil =>
              -- the last statement is the `return`, and it does not end in `next`
              cases first with
              | ret node value =>
                  cases value with
                  | none => simp [Stmt.run] at hfirst
                  | some value =>
                      simp only [Stmt.run, except_bind_eq_ok, except_pure_eq_ok] at hfirst
                      obtain ⟨_, -, heq⟩ := hfirst
                      cases heq
              | _ => simp [Check.endsInReturn, Stmt.isReturn] at hends

/-- At the start of a body the arguments are in the slots of the parameters. -/
theorem argumentScope_holds {parameters : List Parameter} {args : List V}
    (hargs : args.length = parameters.length) (zeros : List V) :
    Holds (argumentScope parameters args) (parameterScope parameters) (args ++ zeros) := by
  simp only [argumentScope, parameterScope]
  refine Scope.Match.insertAll (n := fun q : Parameter × V => q.1.name)
    (m := fun q : Parameter × Nat => q.1.name) (u := Prod.snd) (v := Prod.snd) ?_ Scope.Match.root
  refine List.forall₂_iff_get.mpr ⟨by simp [hargs], fun i hi hi' => ?_⟩
  have hlt : i < args.length := by
    rw [List.length_zip] at hi
    omega
  have hget : (args ++ zeros)[i]? = some args[i] := by
    rw [List.getElem?_append_left hlt, List.getElem?_eq_getElem hlt]
  simpa using hget

/-- A function of the module gives what the definition gives, whatever the bound and whatever the
declared locals hold at the start. -/
theorem func_tracks_from {table : Signatures} {exported : Bool} {d : FuncDef TypedNode}
    {f : Wasm.Func} {m : Wasm.Module} (typed : d.Typed table)
    (hnodup : ((Stmt.listLocals d.body).map LocalDecl.id).Nodup)
    (hcalls : Callable (f.context m) table) (h : func exported d = .ok f) {args others : List V}
    (hargs : args.length = d.signature.parameters.length)
    (hothers : others.length = f.locals.length) (memory : M) :
    Tracks (d.run P args memory bound) (f.runFrom P m (args ++ others) memory bound) Eq := by
  obtain ⟨slotTable, slots, halloc, hcode, htype, hlocals, -, -⟩ := func_eq_ok h
  obtain ⟨hparams, hresult⟩ := funcType_eq_ok.mp htype
  have hroom := allocate_room hnodup hparams.length_eq.symm halloc
  have hbody : Follows P (f.context m) bound (parameterScope d.signature.parameters) slots
      (f.type.params ++ slotTable.locals).length (Stmt.runList P bound d.body) f.body :=
    stmts_follow hcalls hresult rfl d.body typed.body (parameterScope_placed _) hroom hcode
  have hstart : Agrees (parameterScope d.signature.parameters)
      (f.type.params ++ slotTable.locals).length
      (⟨argumentScope d.signature.parameters args, memory⟩ : Env V M)
      ⟨[], args ++ others, memory⟩ :=
    ⟨argumentScope_holds hargs _, rfl, by simp [hargs, hothers, hlocals, hparams.length_eq]⟩
  refine (hbody _ _ hstart).bind ?_
  rintro ⟨signal, s⟩ ⟨flow, stack, locals, memory'⟩ hrun hended
  cases signal with
  | returned x =>
      obtain ⟨rfl, rfl⟩ := hended
      exact .ok rfl
  | next =>
      obtain ⟨rfl, -, hagrees⟩ := hended
      -- only a function without a result may come to its end
      have hvoid : d.signature.result = .void := by
        by_contra hvalue
        obtain ⟨x, hx⟩ := runList_returns (typed.ends hvalue) hrun
        cases hx
      have hmemory : memory' = s.memory := hagrees.memory
      rw [hvoid] at hresult
      have hnone : f.type.result = none := hresult
      simp only [hvoid, hnone, takeResult]
      exact .ok (by rw [hmemory])

theorem func_tracks {table : Signatures} {exported : Bool} {d : FuncDef TypedNode}
    {f : Wasm.Func} {m : Wasm.Module} (typed : d.Typed table)
    (hnodup : ((Stmt.listLocals d.body).map LocalDecl.id).Nodup)
    (hcalls : Callable (f.context m) table) (h : func exported d = .ok f) {args : List V}
    (hargs : args.length = d.signature.parameters.length) (memory : M) :
    Tracks (d.run P args memory bound) (f.run P m args memory bound) Eq := by
  rw [Func.run_eq]
  exact func_tracks_from typed hnodup hcalls h hargs (List.length_map _) memory

end Lower

end Wattle
