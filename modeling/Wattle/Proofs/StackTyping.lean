import Mathlib.Data.List.Basic
import Wattle.Wasm.Module

/-!
# Validation of stack code

The algorithm by which WebAssembly decides whether the body of a function is well typed. It keeps
the types of the operands and, for every open block, the types its label takes, the types it ends
with and the number of operands below it. Behind a branch or a return nothing is known about the
operands of the block: any type may be taken from them. That the module has a memory is granted.
-/

namespace Wattle.Wasm

/-! ## The instruction set -/

/-- Whether there is an instruction for the operation on operands of type `t`. Where integers with
and without a sign differ, the instruction for integers says which it means. -/
def NumOp.admits (op : NumOp) (t : ValueType) (sign : Option Sign) : Bool :=
  match op with
  | add | sub | mul | eq | ne => sign = none
  | div | lt | gt | le | ge => sign.isSome = !t.isFloat
  | and | or | xor | shl => sign = none && !t.isFloat
  | rem | shr => sign.isSome && !t.isFloat

def NumOp.result (op : NumOp) (t : ValueType) : ValueType :=
  match op with
  | eq | ne | lt | gt | le | ge => .i32
  | _ => t

def ConvOp.admits (op : ConvOp) (source target : ValueType) (sign : Option Sign) : Bool :=
  match op with
  | extend => source = .i32 && target = .i64 && sign.isSome
  | wrap => source = .i64 && target = .i32 && sign = none
  | convert => !source.isFloat && target.isFloat && sign.isSome
  | trunc => source.isFloat && !target.isFloat && sign.isSome
  | promote => source = .f32 && target = .f64 && sign = none
  | demote => source = .f64 && target = .f32 && sign = none

/-! ## Operands and blocks -/

structure ControlFrame where
  /-- The types that a branch to the label of the block takes. -/
  label : List ValueType
  /-- The types that the block leaves. -/
  ends : List ValueType
  /-- The number of operands that belong to the blocks around it. -/
  height : Nat
  unreachable : Bool
deriving DecidableEq

/-- The block with another answer to whether its rest is reached. -/
def ControlFrame.mark (frame : ControlFrame) (unreachable : Bool) : ControlFrame :=
  ⟨frame.label, frame.ends, frame.height, unreachable⟩

/-- The operands, the newest first, and the open blocks, the innermost first. An operand of no type
comes from code that is never reached and fits everywhere. -/
structure Operands where
  values : List (Option ValueType)
  frames : List ControlFrame
deriving DecidableEq

namespace Operands

def push (t : ValueType) (s : Operands) : Operands :=
  ⟨some t :: s.values, s.frames⟩

/-- Take the newest operand of the innermost block, whatever its type. -/
def popAny : Operands → Option (Option ValueType × Operands)
  | ⟨_, []⟩ => none
  | ⟨values, frame :: others⟩ =>
    if values.length = frame.height then
      if frame.unreachable then some (none, ⟨values, frame :: others⟩) else none
    else
      match values with
      | [] => none
      | value :: rest => some (value, ⟨rest, frame :: others⟩)

/-- Take an operand of the given type. -/
def pop (t : ValueType) (s : Operands) : Option Operands :=
  match s.popAny with
  | some (none, rest) => some rest
  | some (some u, rest) => if u = t then some rest else none
  | none => none

def pushAll (types : List ValueType) (s : Operands) : Operands :=
  types.foldl (fun s t => s.push t) s

/-- Take operands of the given types, the last of them from the top. -/
def popAll : List ValueType → Operands → Option Operands
  | [], s => some s
  | t :: rest, s => (popAll rest s).bind (pop t)

def enter (label ends : List ValueType) (s : Operands) : Operands :=
  ⟨s.values, ⟨label, ends, s.values.length, false⟩ :: s.frames⟩

/-- Close the innermost block, which must leave what it says and nothing else. -/
def leave (s : Operands) : Option Operands :=
  match s.frames with
  | [] => none
  | frame :: _ =>
    match s.popAll frame.ends with
    | some ⟨values, _ :: others⟩ =>
      if values.length = frame.height then some (pushAll frame.ends ⟨values, others⟩) else none
    | _ => none

/-- Nothing behind this point of the innermost block is reached. -/
def diverge : Operands → Option Operands
  | ⟨_, []⟩ => none
  | ⟨values, frame :: others⟩ =>
    some ⟨values.drop (values.length - frame.height), frame.mark true :: others⟩

end Operands

/-! ## Instructions -/

/-- What the types of a body depend on: the slots, the result, and the functions by name. -/
structure BodyContext where
  slots : List ValueType
  result : Option ValueType
  callee? : String → Option FuncType

namespace Instr

mutual

/-- The operands after an instruction, if it finds the operands that it needs. -/
def validate (c : BodyContext) : Instr → Operands → Option Operands
  | const t _, s => some (s.push t)
  | localGet slot, s => do
    let t ← c.slots[slot]?
    return s.push t
  | localSet slot, s => do
    let t ← c.slots[slot]?
    s.pop t
  | numeric t op sign, s =>
    if op.admits t sign then do
      let s ← s.popAll [t, t]
      return s.push (op.result t)
    else none
  | convert target op source sign, s =>
    if op.admits source target sign then do
      let s ← s.pop source
      return s.push target
    else none
  | eqz t, s =>
    if t.isFloat then none
    else do
      let s ← s.pop t
      return s.push .i32
  | load t, s => do
    let s ← s.pop .i32
    return s.push t
  | store t, s => s.popAll [.i32, t]
  | call name, s => do
    let type ← c.callee? name
    let s ← s.popAll type.params
    return s.pushAll type.result.toList
  | br depth, s => do
    let frame ← s.frames[depth]?
    let s ← s.popAll frame.label
    s.diverge
  | brIf depth, s => do
    let s ← s.pop .i32
    let frame ← s.frames[depth]?
    let s ← s.popAll frame.label
    return s.pushAll frame.label
  | drop, s => do
    let (_, s) ← s.popAny
    return s
  | ret, s => do
    let s ← s.popAll c.result.toList
    s.diverge
  | block body, s => do
    let s ← validateAll c body (s.enter [] [])
    s.leave
  | loop body, s => do
    let s ← validateAll c body (s.enter [] [])
    s.leave

def validateAll (c : BodyContext) : List Instr → Operands → Option Operands
  | [], s => some s
  | i :: rest, s => do
    let s ← i.validate c s
    validateAll c rest s

end

end Instr

/-- The functions that code in a module can call: imports and functions of the module itself. -/
def Module.callables (m : Module) : List (String × FuncType) :=
  m.importedFuncs.map (fun f => (f.name, f.type)) ++ m.funcs.map fun f => (f.name, f.type)

/-- The context of the body of a function in a module. Parameters have the first slots. -/
def Func.context (f : Func) (m : Module) : BodyContext :=
  ⟨f.type.params ++ f.locals, f.type.result, fun name => m.callables.lookup name⟩

/-- Whether the body of a function is well typed in a module: it starts without operands, and it
ends in code that is never reached or with just the result. -/
def Func.isValid (f : Func) (m : Module) : Bool :=
  let start : Operands := (Operands.mk [] []).enter f.type.result.toList f.type.result.toList
  ((Instr.validateAll (f.context m) f.body start).bind Operands.leave).isSome

-- an operand of the wrong type, and an operand too many in a block
example : Func.isValid ⟨"f", false, ⟨[.i32], some .i32⟩, [],
    [.localGet 0, .const .f64 "1", .numeric .i32 .add none]⟩ ⟨[], [], [], []⟩ = false := by
  decide

example : Func.isValid ⟨"f", false, ⟨[], none⟩, [], [.block [.const .i32 "1", .br 0, .ret],
    .block [.const .i32 "1"]]⟩ ⟨[], [], [], []⟩ = false := by
  decide

/-! ## Laws of the algorithm -/

namespace ControlFrame

@[simp] theorem label_mark (frame : ControlFrame) (u : Bool) : (frame.mark u).label = frame.label :=
  rfl

@[simp] theorem ends_mark (frame : ControlFrame) (u : Bool) : (frame.mark u).ends = frame.ends :=
  rfl

@[simp] theorem height_mark (frame : ControlFrame) (u : Bool) :
    (frame.mark u).height = frame.height := rfl

@[simp] theorem unreachable_mark (frame : ControlFrame) (u : Bool) :
    (frame.mark u).unreachable = u := rfl

@[simp] theorem mark_mark (frame : ControlFrame) (u v : Bool) :
    (frame.mark u).mark v = frame.mark v := rfl

@[simp] theorem mark_unreachable (frame : ControlFrame) :
    frame.mark frame.unreachable = frame := rfl

end ControlFrame

namespace Operands

variable {values : List (Option ValueType)} {frame : ControlFrame} {others : List ControlFrame}

@[simp] theorem push_mk (t : ValueType) (values : List (Option ValueType))
    (frames : List ControlFrame) : push t ⟨values, frames⟩ = ⟨some t :: values, frames⟩ := rfl

@[simp] theorem popAny_cons {value : Option ValueType} (h : frame.height ≤ values.length) :
    popAny ⟨value :: values, frame :: others⟩ = some (value, ⟨values, frame :: others⟩) := by
  have hne : ¬ (value :: values).length = frame.height := by
    simp only [List.length_cons]
    omega
  simp only [popAny, hne, if_false]

@[simp] theorem pop_cons {t : ValueType} (h : frame.height ≤ values.length) :
    pop t ⟨some t :: values, frame :: others⟩ = some ⟨values, frame :: others⟩ := by
  simp [pop, h]

/-- Operands that were put on the stack can be taken back. -/
theorem popAll_append (types : List ValueType) (h : frame.height ≤ values.length) :
    popAll types ⟨types.reverse.map some ++ values, frame :: others⟩ =
      some ⟨values, frame :: others⟩ := by
  induction types generalizing values with
  | nil => rfl
  | cons t rest ih =>
      have hrest := @ih (some t :: values) (by simp only [List.length_cons]; omega)
      simp only [popAll, List.reverse_cons, List.map_append, List.map_cons, List.map_nil,
        List.append_assoc, List.singleton_append, hrest]
      exact pop_cons h

@[simp] theorem pushAll_nil (s : Operands) : pushAll [] s = s := rfl

theorem diverge_mk (h : values.length = frame.height) :
    diverge ⟨values, frame :: others⟩ = some ⟨values, frame.mark true :: others⟩ := by
  simp [diverge, h]

theorem leave_mk (hends : frame.ends = []) (h : values.length = frame.height) :
    leave ⟨values, frame :: others⟩ = some ⟨values, others⟩ := by
  simp [leave, hends, popAll, h]

end Operands

@[simp] theorem Instr.validateAll_nil (c : BodyContext) (s : Operands) :
    validateAll c [] s = some s := by
  simp only [validateAll]

theorem Instr.validateAll_cons (c : BodyContext) (i : Instr) (code : List Instr) (s : Operands) :
    validateAll c (i :: code) s = (i.validate c s).bind (validateAll c code) := by
  simp only [validateAll]
  rfl

theorem Instr.validateAll_append (c : BodyContext) (xs ys : List Instr) (s : Operands) :
    validateAll c (xs ++ ys) s = (validateAll c xs s).bind (validateAll c ys) := by
  induction xs generalizing s with
  | nil => simp
  | cons i xs ih =>
      rw [List.cons_append, validateAll_cons, validateAll_cons, Option.bind_assoc]
      exact congrArg _ (funext ih)

end Wattle.Wasm
