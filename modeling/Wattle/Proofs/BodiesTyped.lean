import Wattle.Proofs.EmittedModule
import Wattle.Proofs.StackTyping

/-!
# Emitted bodies are well typed

Every body that lowering produces passes validation. The code of an expression leaves one operand
of its machine type, or none if it has no value; the code of a statement leaves the operands as
they are, or what follows is never reached. The names in scope have slots of their machine types.
-/

namespace Wattle

namespace Lower

open Wasm

variable {c : BodyContext}

/-! ## Code that leaves operands -/

/-- `Yields c code out`: whatever operands and blocks there are, the code puts the operands `out`
on top of them. -/
def Yields (c : BodyContext) (code : List Instr) (out : List (Option ValueType)) : Prop :=
  ∀ (values : List (Option ValueType)) (frame : ControlFrame) (others : List ControlFrame),
    frame.height ≤ values.length →
      Instr.validateAll c code ⟨values, frame :: others⟩ = some ⟨out ++ values, frame :: others⟩

namespace Yields

variable {xs ys : List Instr} {out out' : List (Option ValueType)}

theorem nil : Yields c [] [] := by
  intro values frame others _
  simp

theorem append (hx : Yields c xs out) (hy : Yields c ys out') :
    Yields c (xs ++ ys) (out' ++ out) := by
  intro values frame others h
  have hlength : frame.height ≤ (out ++ values).length := by
    rw [List.length_append]
    omega
  rw [Instr.validateAll_append, hx values frame others h, List.append_assoc]
  exact hy _ frame others hlength

theorem snoc {i : Instr} (hx : Yields c xs out)
    (hi : ∀ (values : List (Option ValueType)) (frame : ControlFrame) (others : List ControlFrame),
      frame.height ≤ values.length →
        i.validate c ⟨out ++ values, frame :: others⟩ = some ⟨out' ++ values, frame :: others⟩) :
    Yields c (xs ++ [i]) out' := by
  intro values frame others h
  rw [Instr.validateAll_append, hx values frame others h, Option.bind_some,
    Instr.validateAll_cons, hi values frame others h]
  simp

theorem one {i : Instr}
    (hi : ∀ (values : List (Option ValueType)) (frame : ControlFrame) (others : List ControlFrame),
      frame.height ≤ values.length →
        i.validate c ⟨values, frame :: others⟩ = some ⟨out ++ values, frame :: others⟩) :
    Yields c [i] out :=
  nil.snoc hi

end Yields

/-! ## Instructions -/

def operands (t : Ty) : List (Option ValueType) :=
  (ValueType.ofTy? t).toList.map some

theorem operands_eq {t : Ty} {v : ValueType} (h : ValueType.ofTy? t = some v) :
    operands t = [some v] := by
  simp [operands, h]

@[simp] theorem operands_void : operands .void = [] := rfl

@[simp] theorem operands_i32 : operands .i32 = [some .i32] := rfl

/-- The sign is stated for integers and for them only. -/
theorem signOf_isSome {t : Ty} {v : ValueType} (h : ValueType.ofTy? t = some v) :
    (signOf t).isSome = !v.isFloat := by
  cases t with
  | base b =>
      cases b <;> simp [ValueType.ofTy?, ValueType.ofBase?] at h <;> subst h <;> rfl
  | pointer t =>
      simp only [ValueType.ofTy?, Option.some.injEq] at h
      subst h
      rfl

theorem admits_of_numOp? {op : BinaryOp} {t : Ty} {v : ValueType} {num : NumOp} {signed : Bool}
    (hv : ValueType.ofTy? t = some v) (hnum : numOp? op = some (num, signed))
    (hfloat : (v.isFloat && op.requiresInteger) = false) :
    num.admits v (if signed then signOf t else none) = true ∧
      num.result v = if op.isComparison then .i32 else v := by
  have hsign := signOf_isSome hv
  cases op <;> simp only [numOp?, Option.some.injEq, Prod.mk.injEq, reduceCtorEq] at hnum <;>
    obtain ⟨rfl, rfl⟩ := hnum <;>
    simp_all [NumOp.admits, NumOp.result, BinaryOp.isComparison, BinaryOp.requiresInteger]

theorem binaryInstr_validates {op : BinaryOp} {t : Ty} {i : Instr}
    (h : binaryInstr op t = .ok i) (values : List (Option ValueType)) (frame : ControlFrame)
    (others : List ControlFrame) (hheight : frame.height ≤ values.length) :
    i.validate c ⟨operands t ++ (operands t ++ values), frame :: others⟩ =
      some ⟨operands (if op.isComparison then .i32 else t) ++ values, frame :: others⟩ := by
  obtain ⟨v, num, signed, hv, hnum, hfloat, rfl⟩ := binaryInstr_eq_ok.mp h
  obtain ⟨hadmits, hresult⟩ := admits_of_numOp? hv hnum hfloat
  have hpop := @Operands.popAll_append values frame others [v, v] hheight
  have hout : operands (if op.isComparison then .i32 else t) = [some (num.result v)] := by
    rw [hresult]
    cases op.isComparison with
    | true => rfl
    | false => exact operands_eq hv
  rw [hout, operands_eq hv]
  simp only [Instr.validate, hadmits, if_true]
  simp only [List.reverse_cons, List.reverse_nil, List.nil_append, List.cons_append,
    List.map_cons, List.map_nil] at hpop ⊢
  rw [hpop]
  rfl

theorem baseConversion_yields {s t : BaseType} {i : Option Instr}
    (h : baseConversion s t = .ok i) (values : List (Option ValueType)) (frame : ControlFrame)
    (others : List ControlFrame) (hheight : frame.height ≤ values.length) :
    Instr.validateAll c i.toList ⟨operands (.base s) ++ values, frame :: others⟩ =
      some ⟨operands (.base t) ++ values, frame :: others⟩ := by
  cases s <;> cases t <;>
    simp only [baseConversion, ValueType.ofBase?, ValueType.isFloat, if_true, if_false,
      Bool.false_eq_true, reduceCtorEq, Except.ok.injEq] at h <;>
    subst h <;>
    simp [Instr.validateAll_cons, Instr.validate, ConvOp.admits, ValueType.isFloat, signOf,
      BaseType.isFloat, BaseType.isSigned, operands, ValueType.ofTy?, ValueType.ofBase?, hheight]

theorem conversion_yields {s t : Ty} {i : Option Instr} (h : conversion s t = .ok i)
    (values : List (Option ValueType)) (frame : ControlFrame) (others : List ControlFrame)
    (hheight : frame.height ≤ values.length) :
    Instr.validateAll c i.toList ⟨operands s ++ values, frame :: others⟩ =
      some ⟨operands t ++ values, frame :: others⟩ := by
  cases s with
  | base b =>
      cases t with
      | base b' => exact baseConversion_yields h values frame others hheight
      | pointer t =>
          cases b <;> simp [conversion] at h <;> subst h <;>
            simp [operands, ValueType.ofTy?, ValueType.ofBase?]
  | pointer s =>
      cases t with
      | base b =>
          cases b <;> simp [conversion] at h <;> subst h <;>
            simp [operands, ValueType.ofTy?, ValueType.ofBase?]
      | pointer t =>
          obtain rfl := Except.ok.inj h
          simp [operands, ValueType.ofTy?]

/-! ## Expressions -/

/-- Every name in scope has a slot of its machine type. -/
abbrev Fits (c : BodyContext) (scope : Scope Symbol) (slots : Scope Nat) : Prop :=
  scope.Match (fun symbol slot => c.slots[slot]? = ValueType.ofTy? symbol.type) slots

/-- Every function of the table can be called with its machine types. -/
def Callable (c : BodyContext) (table : Signatures) : Prop :=
  ∀ name signature, Check.findFunction? table name = some signature →
    ∃ type, funcType signature = .ok type ∧ c.callee? name = some type

section Expressions

variable {table : Signatures} {scope : Scope Symbol} {slots : Scope Nat}

theorem Fits.slot (hfits : Fits c scope slots) {id : String} {symbol : Symbol} {slot : Nat}
    (found : scope.lookup? id = some symbol) (hslot : slotOf slots id = .ok slot) :
    c.slots[slot]? = ValueType.ofTy? symbol.type := by
  obtain ⟨slot', hslot', hfit⟩ := hfits.lookup?_right found
  rw [slotOf_eq_ok, hslot', Option.some.injEq] at hslot
  exact hslot ▸ hfit

theorem call_yields {signature : Signature} {callee : String} {type : FuncType}
    {code : List Instr} (htype : funcType signature = .ok type)
    (hcallee : c.callee? callee = some type)
    (hcode : Yields c code (type.params.reverse.map some)) :
    Yields c (code ++ [.call callee]) (operands signature.result) := by
  refine hcode.snoc fun values frame others hheight => ?_
  have hpop := @Operands.popAll_append values frame others type.params hheight
  have hresult := (funcType_eq_ok.mp htype).2
  simp only [Instr.validate, hcallee, Option.bind_eq_bind, Option.bind_some, hpop, operands,
    hresult, Option.pure_def, Option.some.injEq]
  cases ValueType.ofTy? signature.result <;> rfl

mutual

/-- The code of a well-typed expression leaves an operand of its machine type. -/
theorem expr_yields (hcalls : Callable c table) (hfits : Fits c scope slots) :
    (e : Expr TypedNode) → {code : List Instr} → e.Typed table scope →
    expr slots e = .ok code → Yields c code (operands e.type)
  | .name note id, code, .name found value type, h => by
      simp only [expr, except_bind_eq_ok, except_pure_eq_ok] at h
      obtain ⟨slot, hslot, rfl⟩ := h
      obtain ⟨v, hv⟩ := exists_valueType (Ty.ne_void_of_voidFree value)
      rw [valueType_eq_ok] at hv
      have htype : operands (Expr.name note id).type = [some v] :=
        operands_eq (by rw [Expr.type, Expr.note, type, hv])
      rw [htype]
      refine .one fun values frame others _ => ?_
      simp [Instr.validate, hfits.slot found hslot, hv]
  | .number note digits base, code, .number value type, h => by
      simp only [expr] at h
      split at h
      · next v hv =>
        obtain rfl := Except.ok.inj h
        have htype : operands (Expr.number note digits base).type = [some v] :=
          operands_eq (by rw [Expr.type, Expr.note, type, ValueType.ofTy?, hv])
        rw [htype]
        refine .one fun values frame others _ => ?_
        simp [Instr.validate]
      · cases h
  | .call note callee args, code, .call found _ matched type, h => by
      simp only [expr, except_bind_eq_ok, except_pure_eq_ok] at h
      obtain ⟨argCode, hargs, rfl⟩ := h
      obtain ⟨funcType, htype, hcallee⟩ := hcalls callee _ found
      have hparams := (funcType_eq_ok.mp htype).1
      rw [Expr.type, Expr.note, type]
      exact call_yields htype hcallee (exprs_yield hcalls hfits args _ hparams matched hargs)
  | .unary note .negate operand, code, .negate typed value type, h => by
      simp only [expr, except_bind_eq_ok, except_pure_eq_ok] at h
      obtain ⟨v, hv, inner, hinner, sub, hsub, rfl⟩ := h
      have ih := expr_yields hcalls hfits operand typed hinner
      have hzero : Yields c [.const v "0"] (operands note.type) := by
        rw [operands_eq (valueType_eq_ok.mp hv)]
        exact .one fun values frame others _ => by simp [Instr.validate]
      rw [← type] at ih
      refine (hzero.append ih).snoc fun values frame others hheight => ?_
      have hinstr := binaryInstr_validates (c := c) hsub values frame others hheight
      simpa [BinaryOp.isComparison, Expr.type, Expr.note] using hinstr
  | .unary note .deref operand, code, .deref typed pointer, h => by
      simp only [expr, except_bind_eq_ok, except_pure_eq_ok] at h
      obtain ⟨inner, hinner, v, hv, rfl⟩ := h
      have ih := expr_yields hcalls hfits operand typed hinner
      rw [pointer] at ih
      have htype : operands (Expr.unary note .deref operand).type = [some v] :=
        operands_eq (valueType_eq_ok.mp hv)
      rw [htype]
      refine ih.snoc fun values frame others hheight => ?_
      simp [Instr.validate, operands, ValueType.ofTy?, hheight]
  | .unary note .logicalNot operand, code, .logicalNot typed truth type, h => by
      simp only [expr, except_bind_eq_ok, except_pure_eq_ok] at h
      obtain ⟨inner, hinner, rfl⟩ := h
      have ih := expr_yields hcalls hfits operand typed hinner
      rw [truth, operands_i32] at ih
      rw [Expr.type, Expr.note, type, operands_i32]
      refine ih.snoc fun values frame others hheight => ?_
      simp [Instr.validate, ValueType.isFloat, hheight]
  | .binary note .assign (.name target id) value, code, .assignName found _ left right same type,
      h => by
      simp only [expr, if_true, except_bind_eq_ok, except_pure_eq_ok] at h
      obtain ⟨slot, hslot, inner, hinner, rfl⟩ := h
      have ih := expr_yields hcalls hfits value right hinner
      cases left with
      | name found' hvalue htarget =>
          rw [found, Option.some.injEq] at found'
          subst found'
          obtain ⟨v, hv⟩ := exists_valueType (Ty.ne_void_of_voidFree hvalue)
          rw [valueType_eq_ok] at hv
          rw [same, htarget, operands_eq hv] at ih
          rw [Expr.type, Expr.note, type, operands_void]
          refine ih.snoc fun values frame others hheight => ?_
          simp [Instr.validate, hfits.slot found hslot, hv, hheight]
  | .binary note .assign (.unary target .deref address) value, code, .assignDeref left right same
      type, h => by
      simp only [expr, if_true, except_bind_eq_ok, except_pure_eq_ok] at h
      obtain ⟨place, hplace, inner, hinner, v, hv, rfl⟩ := h
      rw [valueType_eq_ok] at hv
      cases left with
      | deref typed pointer =>
          have ihplace := expr_yields hcalls hfits address typed hplace
          have ih := expr_yields hcalls hfits value right hinner
          rw [pointer, operands, ValueType.ofTy?] at ihplace
          rw [same, operands_eq hv] at ih
          rw [Expr.type, Expr.note, type, operands_void]
          refine (ihplace.append ih).snoc fun values frame others hheight => ?_
          have hpop := @Operands.popAll_append values frame others [.i32, v] hheight
          simpa [Instr.validate] using hpop
  | .binary note op left right, code, .binary operator first second value integer same type, h => by
      rw [expr_binary operator] at h
      simp only [except_bind_eq_ok, except_pure_eq_ok] at h
      obtain ⟨firstCode, hfirst, secondCode, hsecond, instr, hinstr, rfl⟩ := h
      have ihfirst := expr_yields hcalls hfits left first hfirst
      have ihsecond := expr_yields hcalls hfits right second hsecond
      rw [same] at ihsecond
      rw [Expr.type, Expr.note, type]
      refine (ihfirst.append ihsecond).snoc fun values frame others hheight => ?_
      rw [List.append_assoc]
      exact binaryInstr_validates hinstr values frame others hheight
  | .paren note inner, code, .paren typed type, h => by
      simp only [expr] at h
      rw [Expr.type, Expr.note, type]
      exact expr_yields hcalls hfits inner typed h
  | .cast note operand target, code, .cast typed value _ type, h => by
      simp only [expr, except_bind_eq_ok, except_pure_eq_ok] at h
      obtain ⟨inner, hinner, instr, hinstr, rfl⟩ := h
      have ih := expr_yields hcalls hfits operand typed hinner
      rw [Expr.type, Expr.note, type]
      intro values frame others hheight
      rw [Instr.validateAll_append, ih values frame others hheight, Option.bind_some]
      exact conversion_yields hinstr values frame others hheight

theorem exprs_yield (hcalls : Callable c table) (hfits : Fits c scope slots) :
    (args : List (Expr TypedNode)) → (parameters : List Parameter) → {types : List ValueType} →
    {code : List Instr} →
    List.Forall₂ (fun (p : Parameter) v => ValueType.ofTy? p.type = some v) parameters types →
    Expr.ArgsTyped table scope args parameters → exprs slots args = .ok code →
    Yields c code (types.reverse.map some)
  | [], [], [], code, .nil, .nil, h => by
      simp only [exprs, Except.ok.injEq] at h
      subst h
      exact .nil
  | arg :: args, parameter :: parameters, v :: types, code, .cons hv htypes,
      .cons typed same rest, h => by
      simp only [exprs, except_bind_eq_ok, except_pure_eq_ok] at h
      obtain ⟨first, hfirst, others, hothers, rfl⟩ := h
      have ihfirst := expr_yields hcalls hfits arg typed hfirst
      have ihrest := exprs_yield hcalls hfits args parameters htypes rest hothers
      rw [same, operands_eq hv] at ihfirst
      have hall := ihfirst.append ihrest
      rwa [List.reverse_cons, List.map_append]

end

end Expressions

/-! ## Code that leaves no operands -/

/-- The labels of the `n` innermost blocks take nothing. -/
def Inside (n : Nat) (frames : List ControlFrame) : Prop :=
  ∀ i < n, ∃ frame, frames[i]? = some frame ∧ frame.label = []

theorem Inside.mark {n : Nat} {frame : ControlFrame} {others : List ControlFrame}
    (h : Inside n (frame :: others)) (u : Bool) : Inside n (frame.mark u :: others) := by
  intro i hi
  obtain ⟨f, hf, hlabel⟩ := h i hi
  cases i with
  | zero =>
      rw [List.getElem?_cons_zero, Option.some.injEq] at hf
      subst hf
      exact ⟨frame.mark u, rfl, hlabel⟩
  | succ i => exact ⟨f, hf, hlabel⟩

theorem Inside.enter {n : Nat} {frames : List ControlFrame} {frame : ControlFrame}
    (h : Inside n frames) (hlabel : frame.label = []) : Inside (n + 1) (frame :: frames) := by
  intro i hi
  cases i with
  | zero => exact ⟨frame, rfl, hlabel⟩
  | succ i => exact h i (by omega)

/-- `Rests c n ends code`: inside `n` blocks, and where the innermost block has no operands yet, the
code leaves none. If `ends` is set, what follows the code is never reached. -/
def Rests (c : BodyContext) (n : Nat) (ends : Bool) (code : List Instr) : Prop :=
  ∀ (values : List (Option ValueType)) (frame : ControlFrame) (others : List ControlFrame),
    values.length = frame.height → Inside n (frame :: others) →
      ∃ u, Instr.validateAll c code ⟨values, frame :: others⟩ =
          some ⟨values, frame.mark u :: others⟩ ∧ (ends = true → u = true)

namespace Rests

variable {n : Nat} {ends : Bool} {xs ys : List Instr}

theorem of_yields (h : Yields c xs []) : Rests c n false xs := by
  intro values frame others hheight _
  refine ⟨frame.unreachable, ?_, by simp⟩
  simpa using h values frame others (by omega)

theorem widen {m : Nat} (h : Rests c m ends xs) (hmn : m ≤ n) : Rests c n ends xs := by
  intro values frame others hheight hinside
  exact h values frame others hheight fun i hi => hinside i (by omega)

theorem forget (h : Rests c n ends xs) : Rests c n false xs := by
  intro values frame others hheight hinside
  obtain ⟨u, hu, -⟩ := h values frame others hheight hinside
  exact ⟨u, hu, by simp⟩

theorem append (hx : Rests c n false xs) (hy : Rests c n ends ys) : Rests c n ends (xs ++ ys) := by
  intro values frame others hheight hinside
  obtain ⟨u, hu, -⟩ := hx values frame others hheight hinside
  obtain ⟨v, hv, hends⟩ := hy values (frame.mark u) others hheight (hinside.mark u)
  refine ⟨v, ?_, hends⟩
  rw [Instr.validateAll_append, hu, Option.bind_some, hv, ControlFrame.mark_mark]

/-- A block around code gives back the operands as they were, and the code in it may branch to it. -/
theorem entered (h : Rests c (n + 1) false xs) (values : List (Option ValueType))
    (frames : List ControlFrame) (hinside : Inside n frames) :
    (Instr.validateAll c xs (Operands.enter [] [] ⟨values, frames⟩)).bind Operands.leave =
      some ⟨values, frames⟩ := by
  obtain ⟨u, hu, -⟩ := h values ⟨[], [], values.length, false⟩ frames rfl (hinside.enter rfl)
  rw [Operands.enter, hu, Option.bind_some]
  exact Operands.leave_mk rfl rfl

theorem block (h : Rests c (n + 1) false xs) : Rests c n false [.block xs] := by
  intro values frame others _ hinside
  refine ⟨frame.unreachable, ?_, by simp⟩
  have hentered := h.entered values (frame :: others) hinside
  simp only [Instr.validateAll_cons, Instr.validate, Option.bind_eq_bind, hentered]
  simp

theorem loop (h : Rests c (n + 1) false xs) : Rests c n false [.loop xs] := by
  intro values frame others _ hinside
  refine ⟨frame.unreachable, ?_, by simp⟩
  have hentered := h.entered values (frame :: others) hinside
  simp only [Instr.validateAll_cons, Instr.validate, Option.bind_eq_bind, hentered]
  simp

theorem br {depth : Nat} (hdepth : depth < n) : Rests c n false [.br depth] := by
  intro values frame others hheight hinside
  obtain ⟨target, htarget, hlabel⟩ := hinside depth hdepth
  refine ⟨true, ?_, by simp⟩
  simp [Instr.validateAll_cons, Instr.validate, htarget, hlabel, Operands.popAll,
    Operands.diverge_mk hheight]

theorem exitUnless {code : List Instr} (h : Yields c code [some .i32]) :
    Rests c (n + 1) false (code ++ [.eqz .i32, .brIf 0]) := by
  intro values frame others hheight hinside
  obtain ⟨target, htarget, hlabel⟩ := hinside 0 (Nat.succ_pos n)
  refine ⟨frame.unreachable, ?_, by simp⟩
  have hle : frame.height ≤ values.length := by omega
  rw [Instr.validateAll_append, h values frame others hle]
  rw [List.getElem?_cons_zero, Option.some.injEq] at htarget
  subst htarget
  simp [Instr.validateAll_cons, Instr.validate, ValueType.isFloat, hle, hlabel, Operands.popAll]

theorem ret {code : List Instr} (h : Yields c code (c.result.toList.map some)) :
    Rests c n true (code ++ [.ret]) := by
  intro values frame others hheight _
  refine ⟨true, ?_, fun _ => rfl⟩
  have hle : frame.height ≤ values.length := by omega
  have hpop := @Operands.popAll_append values frame others c.result.toList hle
  have hreverse : c.result.toList.reverse = c.result.toList := by cases c.result <;> rfl
  rw [hreverse] at hpop
  rw [Instr.validateAll_append, h values frame others hle]
  simp [Instr.validateAll_cons, Instr.validate, hpop, Operands.diverge_mk hheight]

end Rests

/-! ## Statements -/

theorem joinArms_rests {codes : List (List Instr)} {last : Option (List Instr)}
    (hcodes : ∀ code ∈ codes, Rests c 1 false code) (hlast : ∀ code ∈ last, Rests c 0 false code) :
    Rests c 0 false [joinArms codes last] := by
  have hmany : Rests c 1 false (codes.map fun code => Instr.block (code ++ [.br 1])) := by
    induction codes with
    | nil => exact .of_yields .nil
    | cons code codes ih =>
        have hcode := (hcodes code List.mem_cons_self).widen (Nat.le_succ 1)
        have hblock := (hcode.append (.br Nat.one_lt_two)).block
        exact hblock.append (ih fun code' h => hcodes code' (List.mem_cons_of_mem _ h))
  have hrest : Rests c 1 false (last.getD []) := by
    cases last with
    | none => exact .of_yields .nil
    | some code => exact (hlast code rfl).widen (Nat.zero_le 1)
  simp only [joinArms]
  split
  · exact (hcodes _ List.mem_cons_self).block
  · exact (hmany.append hrest).block

section Statements

variable {table : Signatures} {result : Ty} {slotTable : SlotTable}

mutual

/-- The code of a well-typed statement leaves no operands, nothing behind a `return` is reached,
and the names in scope still have slots of their types. -/
theorem stmt_rests (hcalls : Callable c table) (hresult : c.result = ValueType.ofTy? result) :
    (s : Stmt TypedNode) → {scope : Scope Symbol} → {slots slots' : Scope Nat} → {next : Nat} →
    {code : List Instr} → s.Typed table result scope → Fits c scope slots →
    Room slotTable c.slots next s.locals → stmt slotTable s slots = .ok code slots' →
    Rests c 0 s.isReturn code ∧ Fits c (s.scopeAfter scope) slots'
  | .cond node branches otherwise, scope, slots, slots', next, code, .cond armsTyped elseTyped,
      hfits, hroom, h => by
      simp only [stmt, state_bind_eq_ok, state_pure_eq_ok] at h
      obtain ⟨codes, t, hcodes, last, u, hlast, rfl, rfl⟩ := h
      obtain ⟨harms, hfits⟩ := arms_rest hcalls hresult branches armsTyped hfits hroom.left hcodes
      obtain ⟨helse, hfits⟩ :=
        elseBody_rests hcalls hresult otherwise elseTyped hfits hroom.right hlast
      exact ⟨joinArms_rests harms helse, hfits⟩
  | .loop node condition body, scope, slots, slots', next, code, .loop test truth inside, hfits,
      hroom, h => by
      simp only [stmt, state_bind_eq_ok, state_pure_eq_ok, exitUnless_eq_ok] at h
      obtain ⟨_, _, ⟨testCode, htest, rfl, rfl⟩, inner, t, hinner, rfl, rfl⟩ := h
      obtain ⟨hbody, hfits'⟩ := nested_rests hcalls hresult body inside hfits hroom hinner
      have hcondition := expr_yields hcalls hfits condition test htest
      rw [truth, operands_i32] at hcondition
      refine ⟨?_, hfits'⟩
      have hround := (Rests.exitUnless hcondition).append (hbody.widen (Nat.zero_le 2))
      exact ((hround.append (.br Nat.one_lt_two)).block).loop
  | .ret node none, scope, slots, slots', next, code, .retVoid nothing, hfits, hroom, h => by
      simp only [stmt, returned, state_pure_eq_ok] at h
      obtain ⟨rfl, rfl⟩ := h
      refine ⟨?_, hfits⟩
      have hnothing : Yields c [] (c.result.toList.map some) := by
        rw [hresult, nothing]
        exact .nil
      exact .ret hnothing
  | .ret node (some value), scope, slots, slots', next, code, .retValue _ typed same, hfits,
      hroom, h => by
      simp only [stmt, returned, state_bind_eq_ok, state_pure_eq_ok, exprHere_eq_ok] at h
      obtain ⟨inner, t, ⟨hinner, rfl⟩, rfl, rfl⟩ := h
      refine ⟨?_, hfits⟩
      have hvalue := expr_yields hcalls hfits value typed hinner
      rw [same, operands, ← hresult] at hvalue
      exact .ret hvalue
  | .declare node kind name type initial, scope, slots, slots', next, code,
      .declare typed same value, hfits, hroom, h => by
      simp only [stmt, state_bind_eq_ok, state_pure_eq_ok, exprHere_eq_ok, state_ofExcept_eq_ok,
        Scope.bind_eq_ok] at h
      obtain ⟨inner, _, ⟨hinner, rfl⟩, slot, _, ⟨hslot, rfl⟩, _, _, rfl, rfl, rfl⟩ := h
      obtain ⟨hslot', hfit⟩ := Room.head hroom
      rw [hslot', Except.ok.injEq] at hslot
      subst hslot
      obtain ⟨v, hv⟩ := exists_valueType (Ty.ne_void_of_voidFree value)
      rw [valueType_eq_ok] at hv
      have hinitial := expr_yields hcalls hfits initial typed hinner
      rw [same, operands_eq hv] at hinitial
      refine ⟨.of_yields (hinitial.snoc fun values frame others hheight => ?_),
        hfits.insert name hfit⟩
      simp [Instr.validate, hfit, hv, hheight]
  | .expr node value, scope, slots, slots', next, code, .expr typed, hfits, hroom, h => by
      simp only [stmt, state_bind_eq_ok, state_pure_eq_ok, exprHere_eq_ok] at h
      obtain ⟨inner, t, ⟨hinner, rfl⟩, rfl, rfl⟩ := h
      refine ⟨.of_yields ?_, hfits⟩
      have hvalue := expr_yields hcalls hfits value typed hinner
      by_cases hvoid : value.type = .void
      · simpa [Expr.hasValue, Ty.isVoid, hvoid] using hvalue
      · obtain ⟨v, hv⟩ := exists_valueType hvoid
        rw [operands_eq (valueType_eq_ok.mp hv)] at hvalue
        have hdrop : Yields c (inner ++ [.drop]) [] :=
          hvalue.snoc fun values frame others hheight => by simp [Instr.validate, hheight]
        simpa [Expr.hasValue, Ty.isVoid, hvoid] using hdrop

theorem stmts_rest (hcalls : Callable c table) (hresult : c.result = ValueType.ofTy? result) :
    (body : List (Stmt TypedNode)) → {scope : Scope Symbol} → {slots slots' : Scope Nat} →
    {next : Nat} → {code : List Instr} → Stmt.ListTyped table result scope body →
    Fits c scope slots → Room slotTable c.slots next (Stmt.listLocals body) →
    stmts slotTable body slots = .ok code slots' →
    Rests c 0 (Check.endsInReturn body) code ∧
      ∃ scope', Fits c scope' slots' ∧ scope'.outer = scope.outer
  | [], scope, slots, slots', next, code, _, hfits, _, h => by
      simp only [stmts, state_pure_eq_ok] at h
      obtain ⟨rfl, rfl⟩ := h
      exact ⟨.of_yields .nil, scope, hfits, rfl⟩
  | s :: rest, scope, slots, slots', next, code, .cons first _ others, hfits, hroom, h => by
      simp only [stmts, state_bind_eq_ok, state_pure_eq_ok] at h
      obtain ⟨firstCode, t, hfirst, restCode, u, hrest, rfl, rfl⟩ := h
      obtain ⟨hs, hfits'⟩ := stmt_rests hcalls hresult s first hfits hroom.left hfirst
      obtain ⟨hr, scope', hscope', houter⟩ :=
        stmts_rest hcalls hresult rest others hfits' hroom.right hrest
      rw [Check.scopeAfter_outer] at houter
      refine ⟨?_, scope', hscope', houter⟩
      cases rest with
      | nil =>
          simp only [stmts, state_pure_eq_ok] at hrest
          rw [← hrest.1, List.append_nil]
          simpa [Check.endsInReturn] using hs
      | cons r rest => simpa [Check.endsInReturn] using hs.forget.append hr

theorem nested_rests (hcalls : Callable c table) (hresult : c.result = ValueType.ofTy? result)
    (body : List (Stmt TypedNode)) {scope : Scope Symbol} {slots slots' : Scope Nat} {next : Nat}
    {code : List Instr} (inside : Stmt.ListTyped table result scope.push body)
    (hfits : Fits c scope slots) (hroom : Room slotTable c.slots next (Stmt.listLocals body))
    (h : Scope.within (stmts slotTable body) slots = .ok code slots') :
    Rests c 0 false code ∧ Fits c scope slots' := by
  obtain ⟨u, hu, rfl⟩ := Scope.within_eq_ok.mp h
  obtain ⟨hcode, scope', hscope', houter⟩ :=
    stmts_rest hcalls hresult body inside hfits.push hroom hu
  have hpop := hscope'.pop
  rw [Check.pop_of_outer_push houter] at hpop
  exact ⟨hcode.forget, hpop⟩

theorem arms_rest (hcalls : Callable c table) (hresult : c.result = ValueType.ofTy? result) :
    (branches : List (Arm TypedNode)) → {scope : Scope Symbol} → {slots slots' : Scope Nat} →
    {next : Nat} → {codes : List (List Instr)} → Stmt.ArmsTyped table result scope branches →
    Fits c scope slots → Room slotTable c.slots next (Stmt.armsLocals branches) →
    arms slotTable branches slots = .ok codes slots' →
    (∀ code ∈ codes, Rests c 1 false code) ∧ Fits c scope slots'
  | [], scope, slots, slots', next, codes, _, hfits, _, h => by
      simp only [arms, state_pure_eq_ok] at h
      obtain ⟨rfl, rfl⟩ := h
      exact ⟨by simp, hfits⟩
  | ⟨condition, body, span⟩ :: rest, scope, slots, slots', next, codes,
      .cons test truth inside others, hfits, hroom, h => by
      simp only [arms, arm, state_bind_eq_ok, state_pure_eq_ok, exitUnless_eq_ok] at h
      obtain ⟨_, t, ⟨_, _, ⟨testCode, htest, rfl, rfl⟩, bodyCode, u, hbody, rfl, rfl⟩, restCodes,
        v, hrest, rfl, rfl⟩ := h
      obtain ⟨hinner, hfits'⟩ := nested_rests hcalls hresult body inside hfits hroom.left hbody
      obtain ⟨hothers, hfits''⟩ := arms_rest hcalls hresult rest others hfits' hroom.right hrest
      have hcondition := expr_yields hcalls hfits condition test htest
      rw [truth, operands_i32] at hcondition
      refine ⟨?_, hfits''⟩
      rintro code hcode
      rcases List.mem_cons.mp hcode with rfl | hcode
      · exact (Rests.exitUnless hcondition).append (hinner.widen (Nat.zero_le 1))
      · exact hothers code hcode

theorem elseBody_rests (hcalls : Callable c table) (hresult : c.result = ValueType.ofTy? result) :
    (otherwise : Option (List (Stmt TypedNode))) → {scope : Scope Symbol} →
    {slots slots' : Scope Nat} → {next : Nat} → {last : Option (List Instr)} →
    Stmt.ElseTyped table result scope otherwise → Fits c scope slots →
    Room slotTable c.slots next (Stmt.elseLocals otherwise) →
    elseBody slotTable otherwise slots = .ok last slots' →
    (∀ code ∈ last, Rests c 0 false code) ∧ Fits c scope slots'
  | none, scope, slots, slots', next, last, _, hfits, _, h => by
      simp only [elseBody, state_pure_eq_ok] at h
      obtain ⟨rfl, rfl⟩ := h
      exact ⟨by simp, hfits⟩
  | some body, scope, slots, slots', next, last, .some inside, hfits, hroom, h => by
      simp only [elseBody, state_bind_eq_ok, state_pure_eq_ok] at h
      obtain ⟨inner, t, hinner, rfl, rfl⟩ := h
      obtain ⟨hcode, hfits'⟩ := nested_rests hcalls hresult body inside hfits hroom hinner
      exact ⟨by simpa using hcode, hfits'⟩

end

end Statements

/-! ## Programs -/

/-- The body of a well-typed function is valid wherever its callees have their types. -/
theorem func_isValid {table : Signatures} {exported : Bool} {d : FuncDef TypedNode}
    {f : Wasm.Func} {m : Wasm.Module} (typed : d.Typed table)
    (hnodup : ((Stmt.listLocals d.body).map LocalDecl.id).Nodup)
    (hcalls : Callable (f.context m) table) (h : func exported d = .ok f) :
    f.isValid m = true := by
  obtain ⟨slotTable, slots, halloc, hcode, htype, hlocals, -, -⟩ := func_eq_ok h
  obtain ⟨hparams, hresult⟩ := funcType_eq_ok.mp htype
  have hroom := allocate_room hnodup hparams.length_eq.symm halloc
  have hfits : Fits (f.context m) (Check.parameterScope d.signature.parameters)
      (parameterScope d.signature.parameters) := by
    refine parameterScope_match fun i p hp => ?_
    obtain ⟨v, hv, hpv⟩ := forall₂_getElem? hparams hp
    obtain ⟨hi, -⟩ := List.getElem?_eq_some_iff.mp hv
    simp only [Func.context]
    rw [List.getElem?_append_left hi, hv, hpv]
  have hslots : (f.context m).slots = f.type.params ++ slotTable.locals := by
    rw [Func.context, hlocals]
  rw [← hslots] at hroom
  obtain ⟨hrests, -⟩ := stmts_rest hcalls hresult d.body typed.body hfits hroom hcode
  -- the function itself is the outermost block, whose label takes the result
  obtain ⟨u, hu, hends⟩ := hrests [] ⟨f.type.result.toList, f.type.result.toList, 0, false⟩ [] rfl
    fun i hi => absurd hi (Nat.not_lt_zero i)
  have hstart : Operands.enter f.type.result.toList f.type.result.toList ⟨[], []⟩ =
      ⟨[], [⟨f.type.result.toList, f.type.result.toList, 0, false⟩]⟩ := rfl
  simp only [Func.isValid, hstart, hu, Option.bind_some]
  cases hvoid : f.type.result with
  | none => rfl
  | some v =>
      have hvalue : d.signature.result ≠ .void := by
        intro hv
        rw [hresult, hv] at hvoid
        cases hvoid
      obtain rfl := hends (typed.ends hvalue)
      rfl

end Lower

open Lower

theorem callables_declared {p : Program TypedNode} {m : Wasm.Module} (h : lowerProgram p = .ok m)
    {name : String} {type : Wasm.FuncType} (hmem : (name, type) ∈ m.callables) :
    ∃ f ∈ p.funcs, f.signature.name = name ∧ funcType f.signature = .ok type := by
  obtain ⟨imports, funcs, himports, -, hm, -, -, -⟩ := lowerProgram_eq_ok h
  rcases List.mem_append.mp hmem with hmem | hmem
  · obtain ⟨i, hi, heq⟩ := List.mem_map.mp hmem
    cases heq
    rw [hm] at hi
    obtain ⟨o, ho, hid⟩ := List.mem_filterMap.mp hi
    obtain rfl : o = some i := hid
    obtain ⟨f, hf, hfi⟩ := forall₂_partner_left himports ho
    cases f with
    | plain d => cases hfi
    | exported d => cases hfi
    | imported j =>
        simp only [importedFunc?, except_bind_eq_ok, except_pure_eq_ok, Option.some.injEq] at hfi
        obtain ⟨type, htype, rfl⟩ := hfi
        exact ⟨_, hf, rfl, htype⟩
  · obtain ⟨g, hg, heq⟩ := List.mem_map.mp hmem
    cases heq
    obtain ⟨d, hd, hfunc⟩ := forall₂_partner_left (lowerProgram_funcs h) hg
    obtain ⟨f, hf, hdef⟩ := List.mem_filterMap.mp hd
    obtain ⟨_, _, _, _, htype, _, hname, _⟩ := func_eq_ok hfunc
    have hsig := Func.signature_of_definition? hdef
    exact ⟨f, hf, by rw [hsig, hname], by rw [hsig, htype]⟩

theorem declared_callable {p : Program TypedNode} {m : Wasm.Module} (h : lowerProgram p = .ok m)
    {f : Func TypedNode} (hf : f ∈ p.funcs) : ∃ type, (f.signature.name, type) ∈ m.callables := by
  obtain ⟨imports, funcs, himports, -, hm, -, -, -⟩ := lowerProgram_eq_ok h
  cases hdef : f.definition? with
  | some d =>
      have hd : d ∈ p.definitions := List.mem_filterMap.mpr ⟨f, hf, hdef⟩
      obtain ⟨g, hg, hfunc⟩ := forall₂_partner_right (lowerProgram_funcs h) hd
      obtain ⟨_, _, _, _, _, _, hname, _⟩ := func_eq_ok hfunc
      refine ⟨g.type, List.mem_append_right _ (List.mem_map.mpr ⟨g, hg, ?_⟩)⟩
      rw [hname, Func.signature_of_definition? hdef]
  | none =>
      obtain ⟨o, ho, hfo⟩ := forall₂_partner_right himports hf
      cases f with
      | plain d => cases hdef
      | exported d => cases hdef
      | imported i =>
          simp only [importedFunc?, except_bind_eq_ok, except_pure_eq_ok] at hfo
          obtain ⟨type, -, rfl⟩ := hfo
          refine ⟨type, List.mem_append_left _ (List.mem_map.mpr
            ⟨⟨importName i.path, i.signature.name, type⟩, ?_, rfl⟩)⟩
          rw [hm]
          exact List.mem_filterMap.mpr ⟨_, ho, rfl⟩

/-- A call finds in the module the function that the rules found in the program. -/
theorem callable_in_module {p : Program TypedNode} {m : Wasm.Module} (typed : p.Typed)
    (h : lowerProgram p = .ok m) (g : Wasm.Func) : Callable (g.context m) p.signatures := by
  intro name signature hfound
  have hname : signature.name = name := by simpa using List.find?_some hfound
  obtain ⟨f, hf, rfl⟩ : ∃ f ∈ p.funcs, f.signature = signature := by
    simpa [Program.signatures] using Check.findFunction?_mem hfound
  obtain ⟨type, hmem⟩ := declared_callable h hf
  have hsome : (m.callables.lookup name).isSome = true := by
    rw [List.lookup_isSome_iff]
    exact ⟨_, hmem, by simp [hname]⟩
  obtain ⟨type', htype'⟩ := Option.isSome_iff_exists.mp hsome
  obtain ⟨f', hf', hname', hfound'⟩ := callables_declared h (Scope.mem_of_lookup htype')
  -- names are distinct, so the function found is the one declared
  have hsame : f' = f :=
    List.inj_on_of_nodup_map typed.names hf' hf (hname'.trans hname.symm)
  subst hsame
  exact ⟨type', hfound', htype'⟩

end Wattle
