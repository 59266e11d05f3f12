import Wattle.Proofs.BodiesTyped
import Wattle.Proofs.Machine
import Wattle.Proofs.VariableSlots

/-!
# Stack code follows expressions

The code of an expression runs in step with it: both stop for the same reason, or the code leaves
the value of the expression on the stack, over the operands that were there before. All the time
every variable in scope is in its slot, and the memories are the same.
-/

namespace Wattle

namespace Lower

open Wasm

variable {V M : Type}

/-! ## Two runs side by side -/

/-- `Tracks r q Q`: if the run `r` gives a result, so does `q`, and the results are related by `Q`;
otherwise both stop for the same reason. The run `r` is never stuck. -/
def Tracks {α β : Type} (r : Except Stop α) (q : Except Stop β) (Q : α → β → Prop) : Prop :=
  match r with
  | .ok a => ∃ b, q = .ok b ∧ Q a b
  | .error e => e ≠ .stuck ∧ q = .error e

namespace Tracks

variable {α β γ δ : Type} {r : Except Stop α} {q : Except Stop β} {Q : α → β → Prop}
  {Q' : γ → δ → Prop} {f : α → Except Stop γ} {g : β → Except Stop δ}

theorem ok {a : α} {b : β} (h : Q a b) : Tracks (.ok a) (.ok b) Q :=
  ⟨b, rfl, h⟩

theorem imp {Q' : α → β → Prop} (h : Tracks r q Q) (hQ : ∀ a b, Q a b → Q' a b) :
    Tracks r q Q' := by
  cases r with
  | error e => exact h
  | ok a =>
      obtain ⟨b, hb, hab⟩ := h
      exact ⟨b, hb, hQ a b hab⟩

theorem map {Q' : γ → β → Prop} {g : α → γ} (h : Tracks r q Q) (hg : ∀ a o, Q a o → Q' (g a) o) :
    Tracks (r >>= fun a => pure (g a)) q Q' := by
  cases r with
  | error e => exact h
  | ok a =>
      obtain ⟨o, ho, hQ⟩ := h
      exact ⟨o, ho, hg a o hQ⟩

theorem mapRight {Q' : α → δ → Prop} {g : β → δ} (h : Tracks r q Q)
    (hg : ∀ a o, Q a o → Q' a (g o)) : Tracks r (q >>= fun o => pure (g o)) Q' := by
  cases r with
  | error e =>
      obtain ⟨hne, rfl⟩ := h
      exact ⟨hne, rfl⟩
  | ok a =>
      obtain ⟨o, rfl, hQ⟩ := h
      exact ⟨g o, rfl, hg a o hQ⟩

theorem bind (h : Tracks r q Q) (hf : ∀ a b, r = .ok a → Q a b → Tracks (f a) (g b) Q') :
    Tracks (r >>= f) (q >>= g) Q' := by
  cases r with
  | error e =>
      obtain ⟨hne, rfl⟩ := h
      exact ⟨hne, rfl⟩
  | ok a =>
      obtain ⟨b, rfl, hab⟩ := h
      exact hf a b rfl hab

theorem orTrap {ε : Type} {o : Option ε} {f : ε → Except Stop γ} {g : ε → Except Stop δ}
    (h : ∀ x, Tracks (f x) (g x) Q') :
    Tracks (Wattle.orTrap o >>= f) (Wattle.orTrap o >>= g) Q' := by
  cases o with
  | none => exact ⟨by simp, rfl⟩
  | some x => exact h x

theorem eq_iff {q : Except Stop α} : Tracks r q Eq ↔ r = q ∧ r ≠ .error .stuck := by
  cases r with
  | error e => simp [Tracks, and_comm, eq_comm]
  | ok a => simp [Tracks, eq_comm]

end Tracks

/-! ## States side by side -/

variable {P : Primitives V M} {b : BodyContext} {bound : Nat}

/-- The machine holds the variables of the program in their slots, and the same memory. There are
`width` locals all the time. -/
structure Agrees (slots : Scope Nat) (width : Nat) (s : Env V M) (c : Config V M) : Prop where
  vars : Holds s.vars slots c.locals
  memory : c.memory = s.memory
  width : c.locals.length = width

/-- The code came to its end with the given operands on the stack. -/
def Reached (slots : Scope Nat) (width : Nat) (stack : List V) (s : Env V M)
    (o : Flow V × Config V M) : Prop :=
  o.1 = .next ∧ o.2.stack = stack ∧ Agrees slots width s o.2

/-- The code came to its end, and what it found is on the stack. -/
def Leaves {α : Type} (slots : Scope Nat) (width : Nat) (stack : α → List V) (a : α × Env V M)
    (o : Flow V × Config V M) : Prop :=
  Reached slots width (stack a.1) a.2 o

theorem execAll_singleton (i : Instr) (c : Config V M) :
    Instr.execAll P b bound [i] c = Instr.exec P b bound i c := by
  rw [Instr.execAll_cons]
  cases Instr.exec P b bound i c with
  | error e => rfl
  | ok r =>
      obtain ⟨flow, c'⟩ := r
      cases flow with
      | next => simp [andThen, bind, Except.bind]
      | branch depth => rfl
      | returned x => rfl

theorem Tracks.append {α γ : Type} {slots : Scope Nat} {width : Nat} {xs ys : List Instr}
    {c : Config V M} {r : Except Stop (α × Env V M)} {stack : α → List V}
    {f : α × Env V M → Except Stop γ} {Q : γ → Flow V × Config V M → Prop}
    (h : Tracks r (Instr.execAll P b bound xs c) (Leaves slots width stack))
    (hf : ∀ x s locals memory, r = .ok (x, s) → Agrees slots width s ⟨stack x, locals, memory⟩ →
      Tracks (f (x, s)) (Instr.execAll P b bound ys ⟨stack x, locals, memory⟩) Q) :
    Tracks (r >>= f) (Instr.execAll P b bound (xs ++ ys) c) Q := by
  rw [Instr.execAll_append]
  refine h.bind ?_
  rintro ⟨x, s⟩ ⟨flow, stack', locals, memory⟩ hr ⟨rfl, rfl, hagrees⟩
  exact hf x s locals memory hr hagrees

theorem Tracks.needed {slots : Scope Nat} {width : Nat} {stack : List V} {type : Ty}
    {r : Except Stop (Option V × Env V M)} {q : Except Stop (Flow V × Config V M)}
    (h : Tracks r q fun a o =>
      a.1.isSome = !type.isVoid ∧ Reached slots width (a.1.toList ++ stack) a.2 o)
    (htype : type ≠ .void) :
    Tracks (Wattle.needed r) q (Leaves slots width fun x => x :: stack) := by
  cases r with
  | error e => exact h
  | ok a =>
      obtain ⟨x, s⟩ := a
      obtain ⟨o, rfl, hsome, hreached⟩ := h
      cases x with
      | none => simp [Ty.isVoid, htype] at hsome
      | some x => exact ⟨o, rfl, hreached⟩

/-! ## Primitive operations -/

theorem signOf_eq (t : Ty) (h : t ≠ .void) : signOf t = t.sign? := by
  cases t with
  | base b =>
      cases b <;> simp_all [signOf, Ty.sign?, BaseType.isFloat, BaseType.isSigned]
  | pointer t => rfl

theorem binary_eq {op : BinaryOp} {t : Ty} {i : Instr} (h : binaryInstr op t = .ok i) :
    ∃ v num sign, i = .numeric v num sign ∧
      ∀ x y, P.binary op t x y = orTrap (P.numeric v num sign x y) := by
  obtain ⟨v, num, signed, hv, hnum, -, rfl⟩ := binaryInstr_eq_ok.mp h
  have hvoid : t ≠ .void := by
    rintro rfl
    cases hv
  refine ⟨v, num, _, rfl, fun x y => ?_⟩
  have hop : op.operation? t = some (num, if signed then signOf t else none) := by
    rw [signOf_eq t hvoid]
    cases op <;> simp_all [numOp?, BinaryOp.operation?]
  simp only [Primitives.binary, hv, hop]

theorem machineType_eq {t : Ty} {v : ValueType} (h : ValueType.ofTy? t = some v) :
    machineType t = .ok v := by
  simp only [machineType, h]

theorem cast_eq {s t : Ty} {i : Option Instr} (h : conversion s t = .ok i) :
    (i = none ∧ ∀ x, P.cast s t x = .ok x) ∨
      ∃ v op u sign, i = some (.convert v op u sign) ∧
        ∀ x, P.cast s t x = orTrap (P.convert v op u sign x) := by
  cases s with
  | base b =>
      cases t with
      | base b' =>
          cases b <;> cases b' <;>
            simp only [conversion, baseConversion, ValueType.ofBase?, ValueType.isFloat, if_true,
              if_false, Bool.false_eq_true, reduceCtorEq, Except.ok.injEq] at h <;>
            subst h <;>
            simp [Primitives.cast, ValueType.ofTy?, ValueType.ofBase?, Ty.conversion?, Ty.sign?,
              signOf, BaseType.isFloat, BaseType.isSigned]
      | pointer t =>
          cases b <;> simp [conversion] at h <;> subst h <;>
            simp [Primitives.cast, ValueType.ofTy?, ValueType.ofBase?, Ty.conversion?]
  | pointer s =>
      cases t with
      | base b =>
          cases b <;> simp [conversion] at h <;> subst h <;>
            simp [Primitives.cast, ValueType.ofTy?, ValueType.ofBase?, Ty.conversion?]
      | pointer t =>
          obtain rfl := Except.ok.inj h
          simp [Primitives.cast, ValueType.ofTy?, Ty.conversion?]

theorem ne_void_of_valueType {t : Ty} {v : ValueType} (h : valueType t = .ok v) : t ≠ .void := by
  rintro rfl
  cases h

/-! ## Expressions -/

section Expressions

variable {table : Signatures} {scope : Scope Symbol} {slots : Scope Nat} {width next : Nat}

/-- The code leaves the value of the expression on the stack, if it has one. -/
def Evaluates (P : Primitives V M) (b : BodyContext) (bound : Nat) (slots : Scope Nat)
    (width : Nat) (e : Expr TypedNode) (code : List Instr) : Prop :=
  ∀ s c, Agrees slots width s c → Tracks (e.eval P s) (Instr.execAll P b bound code c) fun a o =>
    a.1.isSome = !e.type.isVoid ∧ Reached slots width (a.1.toList ++ c.stack) a.2 o

theorem Evaluates.needed {e : Expr TypedNode} {code : List Instr}
    (h : Evaluates P b bound slots width e code) (htype : e.type ≠ .void) {s : Env V M}
    {c : Config V M} (hagrees : Agrees slots width s c) :
    Tracks (Wattle.needed (e.eval P s)) (Instr.execAll P b bound code c)
      (Leaves slots width fun x => x :: c.stack) :=
  (h s c hagrees).needed htype

theorem evaluated_some {type : Ty} (htype : type ≠ .void) {x : V} {stack : List V} {s : Env V M}
    {c : Config V M} (hagrees : Agrees slots width s c) (hstack : c.stack = x :: stack) :
    (some x).isSome = (!type.isVoid) ∧
      Reached slots width ((some x).toList ++ stack) s (.next, c) :=
  ⟨by simp [Ty.isVoid, htype], rfl, hstack, hagrees⟩

theorem evaluated_none {type : Ty} (htype : type = .void) {stack : List V} {s : Env V M}
    {c : Config V M} (hagrees : Agrees slots width s c) (hstack : c.stack = stack) :
    (none : Option V).isSome = (!type.isVoid) ∧
      Reached slots width ((none : Option V).toList ++ stack) s (.next, c) :=
  ⟨by simp [Ty.isVoid, htype], rfl, hstack, hagrees⟩

theorem Agrees.restack {s : Env V M} {stack stack' : List V} {locals : List V} {memory : M}
    (h : Agrees slots width s ⟨stack, locals, memory⟩) :
    Agrees slots width s ⟨stack', locals, memory⟩ :=
  ⟨h.vars, h.memory, h.width⟩

/-- A call takes as many operands as the rules counted arguments. -/
theorem call_tracks {signature : Signature} {type : FuncType} {callee : String} {note : TypedNode}
    (htype : funcType signature = .ok type) (hcallee : b.callee? callee = some type)
    (hnote : note.type = signature.result) {xs : List V} {stack : List V} {s : Env V M}
    {locals : List V} {memory : M} (hcount : xs.length = signature.parameters.length)
    (hagrees : Agrees slots width s ⟨xs.reverse ++ stack, locals, memory⟩) :
    Tracks (do
        let (x, memory) ← P.call callee xs s.memory
        return (if note.type.isVoid then none else some x, (⟨s.vars, memory⟩ : Env V M)))
      (Instr.execAll P b bound [.call callee] ⟨xs.reverse ++ stack, locals, memory⟩) fun a o =>
        a.1.isSome = (!note.type.isVoid) ∧ Reached slots width (a.1.toList ++ stack) a.2 o := by
  obtain ⟨hparams, hresult⟩ := funcType_eq_ok.mp htype
  have hlength : type.params.length = xs.reverse.length := by
    rw [List.length_reverse, hcount, hparams.length_eq]
  have hmemory : memory = s.memory := hagrees.memory
  rw [execAll_singleton]
  simp only [Instr.exec, hcallee]
  rw [if_pos (by rw [hlength, List.length_append]; omega), hlength, List.take_left,
    List.drop_left, List.reverse_reverse, hmemory]
  cases hcall : P.call callee xs s.memory with
  | error e =>
      refine ⟨?_, rfl⟩
      rintro rfl
      exact P.call_ne_stuck _ _ _ hcall
  | ok r =>
      obtain ⟨x, memory'⟩ := r
      have hstep : Agrees slots width (⟨s.vars, memory'⟩ : Env V M)
          ⟨x :: stack, locals, memory'⟩ := ⟨hagrees.vars, rfl, hagrees.width⟩
      by_cases hvoid : note.type = .void
      · have hnone : type.result = none := by
          rw [hresult, ← hnote, hvoid]
          rfl
        refine Tracks.ok ?_
        simp only [hnone, hvoid]
        exact evaluated_none rfl hstep.restack rfl
      · obtain ⟨v, hv⟩ := exists_valueType hvoid
        have hsome : type.result.isSome = true := by
          rw [hresult, ← hnote, valueType_eq_ok.mp hv]
          rfl
        refine Tracks.ok ?_
        simp only [hsome, Ty.isVoid_eq_false.mpr hvoid, if_true, Bool.false_eq_true, if_false]
        exact ⟨rfl, rfl, rfl, hstep⟩

theorem eval_binary {op : BinaryOp} (hop : op ≠ .assign) (note : TypedNode)
    (left right : Expr TypedNode) (s : Env V M) :
    Expr.eval P (.binary note op left right) s = do
      let (x, s) ← Wattle.needed (left.eval P s)
      let (y, s) ← Wattle.needed (right.eval P s)
      let z ← P.binary op left.type x y
      return (some z, s) := by
  rw [Expr.eval.eq_def]
  exact if_neg hop

theorem evalList_length {args : List (Expr TypedNode)} {s s' : Env V M} {xs : List V}
    (h : Expr.evalList P args s = .ok (xs, s')) : xs.length = args.length := by
  induction args generalizing s s' xs with
  | nil =>
      simp only [Expr.evalList, Except.ok.injEq, Prod.mk.injEq] at h
      rw [← h.1]
      rfl
  | cons e rest ih =>
      simp only [Expr.evalList, except_bind_eq_ok, except_pure_eq_ok] at h
      obtain ⟨x, -, ⟨ys, s''⟩, hys, heq⟩ := h
      rw [← (Prod.mk.inj heq).1, List.length_cons, List.length_cons, ih hys]

namespace Evaluates

variable {note target : TypedNode} {operand left right address value : Expr TypedNode}
  {code inner first second place : List Instr} {i : Instr} {v : ValueType}

/-- A number is negated by taking it from zero, which is put on the stack below it. -/
theorem negate (h : Evaluates P b bound slots width operand inner) (hoperand : operand.type ≠ .void)
    (hnote : note.type ≠ .void) (hv : valueType note.type = .ok v)
    (hsub : binaryInstr .sub note.type = .ok i) :
    Evaluates P b bound slots width (.unary note .negate operand)
      (.const v "0" :: inner ++ [i]) := by
  obtain ⟨v', num, sign, rfl, hbinary⟩ := binary_eq (P := P) hsub
  rintro s ⟨stack, locals, memory⟩ hagrees
  have hzero : Instr.execAll P b bound (.const v "0" :: inner ++ [.numeric v' num sign])
      ⟨stack, locals, memory⟩ =
        Instr.execAll P b bound (inner ++ [.numeric v' num sign])
          ⟨P.const v "0" :: stack, locals, memory⟩ := by
    rw [List.cons_append, Instr.execAll_cons]
    simp only [Instr.exec]
    rfl
  rw [hzero]
  simp only [Expr.eval]
  refine Tracks.append (h.needed hoperand hagrees.restack) ?_
  intro x s' locals' memory' _ hagrees'
  rw [execAll_singleton]
  simp only [Instr.exec]
  rw [machineType_eq (valueType_eq_ok.mp hv)]
  change Tracks (P.binary .sub note.type (P.const v "0") x >>= _) _ _
  rw [hbinary]
  exact Tracks.orTrap fun y => .ok (evaluated_some hnote hagrees'.restack rfl)

theorem deref (h : Evaluates P b bound slots width operand inner) (hoperand : operand.type ≠ .void)
    (hnote : note.type ≠ .void) (hv : valueType note.type = .ok v) :
    Evaluates P b bound slots width (.unary note .deref operand) (inner ++ [.load v]) := by
  intro s c hagrees
  simp only [Expr.eval]
  refine Tracks.append (h.needed hoperand hagrees) ?_
  intro x s' locals memory _ hagrees'
  have hmemory : memory = s'.memory := hagrees'.memory
  rw [execAll_singleton]
  simp only [Instr.exec]
  rw [machineType_eq (valueType_eq_ok.mp hv), hmemory]
  refine Tracks.orTrap fun y => .ok (evaluated_some hnote ?_ rfl)
  exact hmemory ▸ hagrees'.restack

/-- The value goes to the slot of the name, and nothing stays on the stack. -/
theorem assignName {id : String} {slot : Nat}
    (h : Evaluates P b bound slots width value inner) (hplaced : Placed slots next)
    (hslot : slots.lookup? id = some slot) (hvalue : value.type ≠ .void)
    (hnote : note.type = .void) :
    Evaluates P b bound slots width (.binary note .assign (.name target id) value)
      (inner ++ [.localSet slot]) := by
  intro s c hagrees
  simp only [Expr.eval, if_true]
  refine Tracks.append (h.needed hvalue hagrees) ?_
  intro x s' locals memory _ hagrees'
  obtain ⟨old, hold, hlocal⟩ := hagrees'.vars.lookup?_left hslot
  obtain ⟨hlt, -⟩ := List.getElem?_eq_some_iff.mp hlocal
  have hassigned : Agrees slots width (⟨s'.vars.assign id x, s'.memory⟩ : Env V M)
      ⟨c.stack, locals.set slot x, memory⟩ :=
    ⟨Holds.assign hagrees'.vars hplaced hslot x, hagrees'.memory, by
      rw [List.length_set]
      exact hagrees'.width⟩
  rw [execAll_singleton]
  simp only [Instr.exec, hold, hlt, if_true, Option.isSome_some]
  exact .ok (evaluated_none hnote hassigned rfl)

/-- The address is computed before the value, which is then stored there. -/
theorem assignDeref (haddress : Evaluates P b bound slots width address place)
    (h : Evaluates P b bound slots width value inner) (hpointer : address.type ≠ .void)
    (hvalue : value.type ≠ .void) (hnote : note.type = .void)
    (hv : valueType target.type = .ok v) :
    Evaluates P b bound slots width (.binary note .assign (.unary target .deref address) value)
      (place ++ inner ++ [.store v]) := by
  intro s c hagrees
  simp only [Expr.eval, if_true]
  rw [List.append_assoc]
  refine Tracks.append (haddress.needed hpointer hagrees) ?_
  intro a s' locals memory _ hagrees'
  refine Tracks.append (h.needed hvalue hagrees') ?_
  intro x s'' locals' memory' _ hagrees''
  have hmemory : memory' = s''.memory := hagrees''.memory
  rw [execAll_singleton]
  simp only [Instr.exec]
  rw [machineType_eq (valueType_eq_ok.mp hv), hmemory]
  refine Tracks.orTrap fun stored => .ok (evaluated_none hnote ?_ rfl)
  exact ⟨hagrees''.vars, rfl, hagrees''.width⟩

theorem binary {op : BinaryOp} (hop : op ≠ .assign)
    (hfirst : Evaluates P b bound slots width left first)
    (hsecond : Evaluates P b bound slots width right second) (hleft : left.type ≠ .void)
    (hright : right.type ≠ .void) (hnote : note.type ≠ .void)
    (hinstr : binaryInstr op left.type = .ok i) :
    Evaluates P b bound slots width (.binary note op left right) (first ++ second ++ [i]) := by
  obtain ⟨v, num, sign, rfl, hbinary⟩ := binary_eq (P := P) hinstr
  intro s c hagrees
  rw [eval_binary hop, List.append_assoc]
  refine Tracks.append (hfirst.needed hleft hagrees) ?_
  intro x s' locals memory _ hagrees'
  refine Tracks.append (hsecond.needed hright hagrees') ?_
  intro y s'' locals' memory' _ hagrees''
  rw [execAll_singleton]
  simp only [Instr.exec]
  rw [hbinary]
  exact Tracks.orTrap fun z => .ok (evaluated_some hnote hagrees''.restack rfl)

/-- A conversion is one instruction, or none where the machine type stays the same. -/
theorem cast {type : Ty} {instr : Option Instr} (h : Evaluates P b bound slots width operand inner)
    (hoperand : operand.type ≠ .void) (hnote : note.type ≠ .void)
    (hinstr : conversion operand.type type = .ok instr) :
    Evaluates P b bound slots width (.cast note operand type) (inner ++ instr.toList) := by
  intro s c hagrees
  simp only [Expr.eval]
  refine Tracks.append (h.needed hoperand hagrees) ?_
  intro x s' locals memory _ hagrees'
  rcases cast_eq (P := P) hinstr with ⟨rfl, hcast⟩ | ⟨v, op, u, sign, rfl, hcast⟩
  · simp only [hcast, Option.toList_none, Instr.execAll_nil]
    exact .ok (evaluated_some hnote hagrees' rfl)
  · simp only [hcast, Option.toList_some, execAll_singleton, Instr.exec]
    exact Tracks.orTrap fun y => .ok (evaluated_some hnote hagrees'.restack rfl)

end Evaluates

mutual

/-- The code of a well-typed expression evaluates it. -/
theorem expr_evaluates (hcalls : Callable b table) (hplaced : Placed slots next) :
    (e : Expr TypedNode) → {code : List Instr} → e.Typed table scope →
    expr slots e = .ok code → Evaluates P b bound slots width e code
  | .name note id, code, .name _ value type, h => by
      simp only [expr, except_bind_eq_ok, except_pure_eq_ok, slotOf_eq_ok] at h
      obtain ⟨slot, hslot, rfl⟩ := h
      rintro s ⟨stack, locals, memory⟩ hagrees
      obtain ⟨x, hx, hlocal⟩ := hagrees.vars.lookup?_left hslot
      have hvoid : note.type ≠ .void := type ▸ Ty.ne_void_of_voidFree value
      rw [execAll_singleton]
      simp only [Expr.eval, hx, Instr.exec, hlocal]
      exact .ok (evaluated_some hvoid hagrees.restack rfl)
  | .number note digits base, code, .number value type, h => by
      simp only [expr] at h
      split at h
      · next v hv =>
        obtain rfl := Except.ok.inj h
        rintro s ⟨stack, locals, memory⟩ hagrees
        have hvoid : note.type ≠ .void := by
          rw [type]
          simpa using value
        rw [execAll_singleton]
        simp only [Expr.eval, Instr.exec]
        rw [machineType_eq (t := .base base) hv]
        exact .ok (evaluated_some hvoid hagrees.restack rfl)
      · cases h
  | .call note callee args, code, .call found _ matched type, h => by
      simp only [expr, except_bind_eq_ok, except_pure_eq_ok] at h
      obtain ⟨argCode, hargs, rfl⟩ := h
      obtain ⟨funcType, htype, hcallee⟩ := hcalls callee _ found
      intro s c hagrees
      simp only [Expr.eval]
      have hparams := (funcType_eq_ok.mp htype).1
      have ih := exprs_evaluate hcalls hplaced args _ hparams matched hargs s c hagrees
      refine Tracks.append ih ?_
      intro xs s' locals memory hxs hagrees'
      have hcount := (evalList_length hxs).trans matched.length_eq
      exact call_tracks htype hcallee type hcount hagrees'
  | .unary note .negate operand, code, .negate typed value type, h => by
      simp only [expr, except_bind_eq_ok, except_pure_eq_ok] at h
      obtain ⟨v, hv, inner, hinner, sub, hsub, rfl⟩ := h
      have ih := expr_evaluates hcalls hplaced operand typed hinner
      exact ih.negate value (type ▸ value) hv hsub
  | .unary note .deref operand, code, .deref typed pointer, h => by
      simp only [expr, except_bind_eq_ok, except_pure_eq_ok] at h
      obtain ⟨inner, hinner, v, hv, rfl⟩ := h
      have ih := expr_evaluates hcalls hplaced operand typed hinner
      exact ih.deref (by simp [pointer]) (ne_void_of_valueType hv) hv
  | .unary note .logicalNot operand, code, .logicalNot typed truth type, h => by
      simp only [expr, except_bind_eq_ok, except_pure_eq_ok] at h
      obtain ⟨inner, hinner, rfl⟩ := h
      have ih := expr_evaluates hcalls hplaced operand typed hinner
      intro s c hagrees
      simp only [Expr.eval]
      refine Tracks.append (ih.needed (by simp [truth]) hagrees) ?_
      intro x s' locals memory _ hagrees'
      rw [execAll_singleton]
      simp only [Instr.exec]
      exact .ok (evaluated_some (by simp [Expr.type, Expr.note, type]) hagrees'.restack rfl)
  | .binary note .assign (.name target id) value, code, .assignName _ _ left right same type,
      h => by
      simp only [expr, if_true, except_bind_eq_ok, except_pure_eq_ok, slotOf_eq_ok] at h
      obtain ⟨slot, hslot, inner, hinner, rfl⟩ := h
      have ih := expr_evaluates hcalls hplaced value right hinner
      have hvoid : value.type ≠ .void := by
        cases left with
        | name _ hvalue htarget =>
            rw [same, htarget]
            exact Ty.ne_void_of_voidFree hvalue
      exact ih.assignName hplaced hslot hvoid type
  | .binary note .assign (.unary target .deref address) value, code, .assignDeref left right same
      type, h => by
      simp only [expr, if_true, except_bind_eq_ok, except_pure_eq_ok] at h
      obtain ⟨place, hplace, inner, hinner, v, hv, rfl⟩ := h
      have hvoid : value.type ≠ .void := same ▸ ne_void_of_valueType hv
      cases left with
      | deref typed pointer =>
          have ihplace := expr_evaluates hcalls hplaced address typed hplace
          have ih := expr_evaluates hcalls hplaced value right hinner
          exact ihplace.assignDeref ih (by simp [pointer]) hvoid type hv
  | .binary note op left right, code, .binary operator first second value integer same type, h => by
      rw [expr_binary operator] at h
      simp only [except_bind_eq_ok, except_pure_eq_ok] at h
      obtain ⟨firstCode, hfirst, secondCode, hsecond, instr, hinstr, rfl⟩ := h
      have ihfirst := expr_evaluates hcalls hplaced left first hfirst
      have ihsecond := expr_evaluates hcalls hplaced right second hsecond
      have hvoid : note.type ≠ .void := by
        rw [type]
        cases op.isComparison with
        | true => simp
        | false => simpa using value
      exact ihfirst.binary operator ihsecond value (same ▸ value) hvoid hinstr
  | .paren note inner, code, .paren typed type, h => by
      simp only [expr] at h
      have ih := expr_evaluates hcalls hplaced inner typed h
      intro s c hagrees
      simp only [Expr.eval, Expr.type, Expr.note, type]
      exact ih s c hagrees
  | .cast note operand target, code, .cast typed value target_value type, h => by
      simp only [expr, except_bind_eq_ok, except_pure_eq_ok] at h
      obtain ⟨inner, hinner, instr, hinstr, rfl⟩ := h
      have ih := expr_evaluates hcalls hplaced operand typed hinner
      exact ih.cast value (type ▸ Ty.ne_void_of_voidFree target_value) hinstr

theorem exprs_evaluate (hcalls : Callable b table) (hplaced : Placed slots next) :
    (args : List (Expr TypedNode)) → (parameters : List Parameter) → {types : List ValueType} →
    {code : List Instr} →
    List.Forall₂ (fun (p : Parameter) v => ValueType.ofTy? p.type = some v) parameters types →
    Expr.ArgsTyped table scope args parameters → exprs slots args = .ok code →
    ∀ (s : Env V M) (c : Config V M), Agrees slots width s c →
      Tracks (Expr.evalList P args s) (Instr.execAll P b bound code c)
        (Leaves slots width fun xs => xs.reverse ++ c.stack)
  | [], [], [], code, .nil, .nil, h, s, c, hagrees => by
      simp only [exprs, Except.ok.injEq] at h
      subst h
      simp only [Expr.evalList, Instr.execAll_nil]
      exact .ok ⟨rfl, rfl, hagrees⟩
  | arg :: args, parameter :: parameters, v :: types, code, .cons hv htypes,
      .cons typed same rest, h, s, c, hagrees => by
      simp only [exprs, except_bind_eq_ok, except_pure_eq_ok] at h
      obtain ⟨first, hfirst, others, hothers, rfl⟩ := h
      have ih := expr_evaluates hcalls hplaced arg typed hfirst
      have hvoid : arg.type ≠ .void := by
        rw [same]
        intro hvoid
        rw [hvoid] at hv
        cases hv
      simp only [Expr.evalList]
      refine Tracks.append (ih.needed hvoid hagrees) ?_
      intro x s' locals memory _ hagrees'
      have ihrest := exprs_evaluate hcalls hplaced args parameters htypes rest hothers s' _ hagrees'
      refine ihrest.map fun a o hleft => ?_
      simpa [Leaves] using hleft

end

end Expressions

end Lower

end Wattle
