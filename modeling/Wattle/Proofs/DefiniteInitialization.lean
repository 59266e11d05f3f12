import Wattle.Proofs.DeclarationSlots
import Wattle.Proofs.Preservation

/-!
# Locals are set before they are read

The machine starts every declared local at zero, which no program may notice. A walk through code
takes each conditional branch or does not take it, goes round each loop as often as it likes and may
stop anywhere. On every walk through the code of a body, what is read from the slot of a declaration
was set before: a name is in scope only behind its declaration, and on the way from the declaration
to any place of its scope the code of the declaration is passed.
-/

namespace Wattle

/-! ## Walks through code -/

namespace Wasm

/-- How code is left on a walk: at its end, by a branch, by a return, or the walk stops in it. -/
inductive Exit where
  | next
  | branch (depth : Nat)
  | returned
  | stopped
deriving DecidableEq

/-- How a block is left when the code in it is left in the given way. -/
def Exit.behindBlock : Exit → Exit
  | branch 0 => next
  | branch (depth + 1) => branch depth
  | next => next
  | returned => returned
  | stopped => stopped

namespace Instr

/-- Whether the instruction is always followed by the one behind it. -/
def isPlain : Instr → Bool
  | br _ | brIf _ | ret | block _ | loop _ => false
  | _ => true

/-- Whether the instruction has no other instructions inside. -/
def isFlat : Instr → Bool
  | block _ | loop _ => false
  | _ => true

end Instr

mutual

/-- A walk through an instruction, with the instructions that are executed on it. -/
inductive Walk : Instr → List Instr → Exit → Prop where
  | plain {i : Instr} (h : i.isPlain = true) : Walk i [i] .next
  | br (depth : Nat) : Walk (.br depth) [.br depth] (.branch depth)
  | taken (depth : Nat) : Walk (.brIf depth) [.brIf depth] (.branch depth)
  | passed (depth : Nat) : Walk (.brIf depth) [.brIf depth] .next
  | ret : Walk .ret [.ret] .returned
  | block {body trace : List Instr} {exit : Exit} (inside : WalkAll body trace exit) :
      Walk (.block body) trace exit.behindBlock
  | leave {body trace : List Instr} {exit : Exit} (round : WalkAll body trace exit)
      (h : exit ≠ .branch 0) : Walk (.loop body) trace exit.behindBlock
  | again {body trace others : List Instr} {exit : Exit} (round : WalkAll body trace (.branch 0))
      (rest : Walk (.loop body) others exit) : Walk (.loop body) (trace ++ others) exit

/-- A walk through code from its start. -/
inductive WalkAll : List Instr → List Instr → Exit → Prop where
  | nil : WalkAll [] [] .next
  | stop (code : List Instr) : WalkAll code [] .stopped
  | cons {i : Instr} {code trace others : List Instr} {exit : Exit} (first : Walk i trace .next)
      (rest : WalkAll code others exit) : WalkAll (i :: code) (trace ++ others) exit
  | exit {i : Instr} {code trace : List Instr} {exit : Exit} (first : Walk i trace exit)
      (h : exit ≠ .next) : WalkAll (i :: code) trace exit

end

theorem Walk.trace_eq {i : Instr} {trace : List Instr} {exit : Exit} (h : Walk i trace exit)
    (hflat : i.isFlat = true) : trace = [i] := by
  cases h with
  | block | leave | again => cases hflat
  | _ => rfl

theorem WalkAll.append_cases {xs ys trace : List Instr} {exit : Exit}
    (h : WalkAll (xs ++ ys) trace exit) :
    WalkAll xs trace exit ∧ exit ≠ .next ∨ ∃ before after, WalkAll xs before .next ∧
      WalkAll ys after exit ∧ trace = before ++ after := by
  induction xs generalizing trace with
  | nil => exact .inr ⟨[], trace, .nil, h, rfl⟩
  | cons i xs ih =>
      cases h with
      | stop => exact .inl ⟨.stop _, nofun⟩
      | exit first h => exact .inl ⟨.exit first h, h⟩
      | cons first rest =>
          rcases ih rest with ⟨hleft, hexit⟩ | ⟨before, after, hbefore, hafter, rfl⟩
          · exact .inl ⟨.cons first hleft, hexit⟩
          · exact .inr ⟨_, after, .cons first hbefore, hafter, (List.append_assoc _ _ _).symm⟩

/-- A walk that comes to the end of code passes its last instruction. -/
theorem WalkAll.last_mem {code trace : List Instr} {i : Instr} (hflat : i.isFlat = true)
    (h : WalkAll (code ++ [i]) trace .next) : i ∈ trace := by
  rcases h.append_cases with ⟨-, hexit⟩ | ⟨before, after, -, hlast, rfl⟩
  · exact absurd rfl hexit
  · cases hlast with
    | exit _ hexit => exact absurd rfl hexit
    | cons first _ =>
        rw [first.trace_eq hflat]
        simp

/-! ## Reading what was set -/

/-- What is read on a walk is in a known slot, or in one that was set on it before. -/
def ReadsSet (known : Nat → Prop) (trace : List Instr) : Prop :=
  ∀ before slot after, trace = before ++ .localGet slot :: after →
    known slot ∨ .localSet slot ∈ before

namespace ReadsSet

variable {known : Nat → Prop} {trace others : List Instr}

theorem nil : ReadsSet known [] := by
  intro before slot after h
  simp at h

theorem single {i : Instr} (h : ∀ slot, i = .localGet slot → known slot) : ReadsSet known [i] := by
  intro before slot after heq
  cases before with
  | nil => exact .inl (h slot (List.cons.inj heq).1)
  | cons j before => simp at heq

theorem append (h : ReadsSet known trace)
    (h' : ReadsSet (fun slot => known slot ∨ .localSet slot ∈ trace) others) :
    ReadsSet known (trace ++ others) := by
  intro before slot after heq
  rcases List.append_eq_append_iff.mp heq with ⟨between, rfl, hothers⟩ | ⟨between, rfl, hrest⟩
  · rcases h' between slot after hothers with (hknown | hset) | hset
    · exact .inl hknown
    · exact .inr (List.mem_append_left _ hset)
    · exact .inr (List.mem_append_right _ hset)
  · cases between with
    | nil =>
        rcases h' [] slot after hrest.symm with (hknown | hset) | hset
        · exact .inl hknown
        · exact .inr (by simpa using hset)
        · cases hset
    | cons i between =>
        obtain ⟨rfl, -⟩ := List.cons.inj hrest
        exact h before slot between rfl

theorem mono {known' : Nat → Prop} (h : ReadsSet known trace)
    (hle : ∀ slot, known slot → known' slot) : ReadsSet known' trace :=
  fun before slot after heq => (h before slot after heq).imp_left (hle slot)

end ReadsSet

/-- On every walk through the code, what is read is in a known slot or was set before. -/
def Safe (known : Nat → Prop) (code : List Instr) : Prop :=
  ∀ trace exit, WalkAll code trace exit → ReadsSet known trace

namespace Safe

variable {known known' : Nat → Prop} {code rest : List Instr}

theorem mono (h : Safe known code) (hle : ∀ slot, known slot → known' slot) : Safe known' code :=
  fun trace exit hwalk => (h trace exit hwalk).mono hle

theorem append (h : Safe known code)
    (h' : ∀ trace, WalkAll code trace .next →
      Safe (fun slot => known slot ∨ .localSet slot ∈ trace) rest) :
    Safe known (code ++ rest) := by
  intro trace exit hwalk
  rcases hwalk.append_cases with ⟨hfirst, -⟩ | ⟨before, after, hbefore, hafter, rfl⟩
  · exact h trace exit hfirst
  · exact (h before .next hbefore).append (h' before hbefore after exit hafter)

theorem and_then (h : Safe known code) (h' : Safe known rest) : Safe known (code ++ rest) :=
  h.append fun _ _ => h'.mono fun _ => .inl

/-- Code is safe that consists of one instruction whose walks are safe. -/
theorem of_walk {i : Instr} (h : ∀ trace exit, Walk i trace exit → ReadsSet known trace) :
    Safe known [i] := by
  intro trace exit hwalk
  cases hwalk with
  | stop => exact .nil
  | exit first _ => exact h _ _ first
  | cons first rest =>
      cases rest with
      | nil => exact (List.append_nil _).symm ▸ h _ _ first
      | stop => exact (List.append_nil _).symm ▸ h _ _ first

theorem flat (h : ∀ i ∈ code, i.isFlat = true ∧ ∀ slot, i = .localGet slot → known slot) :
    Safe known code := by
  induction code with
  | nil =>
      intro trace exit hwalk
      cases hwalk <;> exact .nil
  | cons i code ih =>
      obtain ⟨hflat, hread⟩ := h i List.mem_cons_self
      have hfirst : Safe known [i] := of_walk fun trace exit hwalk =>
        hwalk.trace_eq hflat ▸ .single hread
      exact hfirst.and_then (ih fun j hj => h j (List.mem_cons_of_mem _ hj))

theorem block (h : Safe known code) : Safe known [.block code] := by
  refine of_walk fun trace exit hwalk => ?_
  cases hwalk with
  | plain hi => cases hi
  | block inside => exact h _ _ inside

/-- A round of a loop starts with what was known before the loop, and maybe more. -/
theorem loop_walk (h : Safe known code) : {i : Instr} → {trace : List Instr} → {exit : Exit} →
    Walk i trace exit → i = .loop code → ReadsSet known trace
  | _, _, _, .plain hplain, heq => by
      subst heq
      cases hplain
  | _, _, _, .leave round _, rfl => h _ _ round
  | _, _, _, .again round rest, rfl =>
      (h _ _ round).append ((loop_walk h rest rfl).mono fun _ => .inl)

theorem loop (h : Safe known code) : Safe known [.loop code] :=
  of_walk fun _ _ hwalk => loop_walk h hwalk rfl

end Safe

end Wasm

/-! ## Reading names in scope -/

namespace Lower

open Wasm

/-- The slots in scope are known. -/
def AllKnown (known : Nat → Prop) (slots : Scope Nat) : Prop :=
  ∀ slot ∈ slotsOf slots.frames, known slot

theorem AllKnown.push {known : Nat → Prop} {slots : Scope Nat} (h : AllKnown known slots) :
    AllKnown known slots.push :=
  h

/-- The instruction stands alone, and if it reads a local, then one in scope. -/
def ReadsScope (slots : Scope Nat) (i : Instr) : Prop :=
  i.isFlat = true ∧ ∀ slot, i = .localGet slot → slot ∈ slotsOf slots.frames

theorem binaryInstr_reads {slots : Scope Nat} {op : BinaryOp} {t : Ty} {i : Instr}
    (h : binaryInstr op t = .ok i) : ReadsScope slots i := by
  obtain ⟨v, num, signed, -, -, -, rfl⟩ := binaryInstr_eq_ok.mp h
  exact ⟨rfl, nofun⟩

theorem conversion_reads {slots : Scope Nat} {s t : Ty} {i : Option Instr}
    (h : conversion s t = .ok i) : ∀ j ∈ i.toList, ReadsScope slots j := by
  rcases conversion_form h with rfl | ⟨target, op, source, sign, rfl⟩
  · simp
  · simp [ReadsScope, Instr.isFlat]

section Expressions

variable {slots : Scope Nat}

mutual

theorem expr_reads : (e : Expr TypedNode) → {code : List Instr} → expr slots e = .ok code →
    ∀ i ∈ code, ReadsScope slots i
  | .name _ id, code, h => by
      simp only [expr, except_bind_eq_ok, except_pure_eq_ok, slotOf_eq_ok] at h
      obtain ⟨slot, hslot, rfl⟩ := h
      rw [List.forall_mem_singleton]
      refine ⟨rfl, fun slot' heq => ?_⟩
      cases heq
      exact mem_slotsOf hslot
  | .number _ digits base, code, h => by
      simp only [expr] at h
      split at h
      · obtain rfl := Except.ok.inj h
        exact List.forall_mem_singleton.mpr ⟨rfl, nofun⟩
      · cases h
  | .call _ callee args, code, h => by
      simp only [expr, except_bind_eq_ok, except_pure_eq_ok] at h
      obtain ⟨inner, hinner, rfl⟩ := h
      simp only [List.forall_mem_append, List.forall_mem_singleton]
      exact ⟨exprs_reads args hinner, rfl, nofun⟩
  | .unary _ .negate operand, code, h => by
      simp only [expr, except_bind_eq_ok, except_pure_eq_ok] at h
      obtain ⟨v, -, inner, hinner, sub, hsub, rfl⟩ := h
      simp only [List.cons_append, List.forall_mem_cons, List.forall_mem_append]
      exact ⟨⟨rfl, nofun⟩, expr_reads operand hinner, binaryInstr_reads hsub, nofun⟩
  | .unary _ .deref operand, code, h => by
      simp only [expr, except_bind_eq_ok, except_pure_eq_ok] at h
      obtain ⟨inner, hinner, v, -, rfl⟩ := h
      simp only [List.forall_mem_append, List.forall_mem_singleton]
      exact ⟨expr_reads operand hinner, rfl, nofun⟩
  | .unary _ .logicalNot operand, code, h => by
      simp only [expr, except_bind_eq_ok, except_pure_eq_ok] at h
      obtain ⟨inner, hinner, rfl⟩ := h
      simp only [List.forall_mem_append, List.forall_mem_singleton]
      exact ⟨expr_reads operand hinner, rfl, nofun⟩
  | .binary note op left right, code, h => by
      by_cases hop : op = .assign
      · subst hop
        rcases expr_assign h with ⟨_, id, slot, inner, rfl, -, hinner, rfl⟩ |
          ⟨place, v, inner, -, hplace, hinner, rfl⟩
        · simp only [List.forall_mem_append, List.forall_mem_singleton]
          exact ⟨expr_reads right hinner, rfl, nofun⟩
        · have ihplace := (List.forall_mem_append.mp (expr_reads left hplace)).1
          simp only [List.forall_mem_append, List.forall_mem_singleton]
          exact ⟨⟨ihplace, expr_reads right hinner⟩, rfl, nofun⟩
      · rw [expr_binary hop] at h
        simp only [except_bind_eq_ok, except_pure_eq_ok] at h
        obtain ⟨first, hfirst, second, hsecond, i, hi, rfl⟩ := h
        simp only [List.forall_mem_append, List.forall_mem_singleton]
        exact ⟨⟨expr_reads left hfirst, expr_reads right hsecond⟩, binaryInstr_reads hi⟩
  | .paren _ inner, code, h => by
      simp only [expr] at h
      exact expr_reads inner h
  | .cast _ operand target, code, h => by
      simp only [expr, except_bind_eq_ok, except_pure_eq_ok] at h
      obtain ⟨inner, hinner, i, hi, rfl⟩ := h
      exact List.forall_mem_append.mpr ⟨expr_reads operand hinner, conversion_reads hi⟩

theorem exprs_reads : (args : List (Expr TypedNode)) → {code : List Instr} →
    exprs slots args = .ok code → ∀ i ∈ code, ReadsScope slots i
  | [], code, h => by
      simp only [exprs, Except.ok.injEq] at h
      simp [← h]
  | e :: rest, code, h => by
      simp only [exprs, except_bind_eq_ok, except_pure_eq_ok] at h
      obtain ⟨first, hfirst, others, hothers, rfl⟩ := h
      exact List.forall_mem_append.mpr ⟨expr_reads e hfirst, exprs_reads rest hothers⟩

end

variable {known : Nat → Prop} (hknown : AllKnown known slots)
include hknown

theorem safe_of_reads {code : List Instr} (h : ∀ i ∈ code, ReadsScope slots i) : Safe known code :=
  .flat fun i hi => ⟨(h i hi).1, fun slot heq => hknown slot ((h i hi).2 slot heq)⟩

theorem expr_safe {e : Expr TypedNode} {code : List Instr} (h : expr slots e = .ok code) :
    Safe known code :=
  safe_of_reads hknown (expr_reads e h)

theorem exitUnless_safe {condition : Expr TypedNode} {slots' : Scope Nat} {code : List Instr}
    (h : exitUnless condition slots = .ok code slots') : slots' = slots ∧ Safe known code := by
  obtain ⟨test, htest, rfl, rfl⟩ := exitUnless_eq_ok.mp h
  refine ⟨rfl, (expr_safe hknown htest).and_then (safe_of_reads hknown ?_)⟩
  simp [ReadsScope, Instr.isFlat]

end Expressions

theorem joinArms_safe {known : Nat → Prop} {codes : List (List Instr)} {last : Option (List Instr)}
    (hcodes : ∀ code ∈ codes, Safe known code) (hlast : ∀ code ∈ last, Safe known code) :
    Safe known [joinArms codes last] := by
  have hbr : Safe known [.br 1] := .flat (by simp [Instr.isFlat])
  have hmany : Safe known (codes.map fun code => Instr.block (code ++ [.br 1])) := by
    induction codes with
    | nil => exact .flat (by simp)
    | cons code codes ih =>
        rw [List.forall_mem_cons] at hcodes
        exact ((hcodes.1.and_then hbr).block).and_then (ih hcodes.2)
  have hrest : Safe known (last.getD []) := by
    cases last with
    | none => exact .flat (by simp)
    | some code => exact hlast code rfl
  simp only [joinArms]
  split
  · exact (hcodes _ List.mem_cons_self).block
  · exact (hmany.and_then hrest).block

/-! ## Statements -/

section Statements

variable {slotTable : SlotTable}

/-- Behind a statement, the slots in scope are those from before and the one that the statement has
set on the way. -/
theorem stmt_sets_declared {s : Stmt TypedNode} {slots slots' : Scope Nat} {code trace : List Instr}
    (h : stmt slotTable s slots = .ok code slots') (hwalk : WalkAll code trace .next) :
    ∀ slot ∈ slotsOf slots'.frames, slot ∈ slotsOf slots.frames ∨ .localSet slot ∈ trace := by
  intro slot hslot
  rcases stmt_slots s h with rfl | ⟨node, kind, name, type, initial, rfl, own, hown, rfl⟩
  · exact .inl hslot
  · rw [slotsOf_insert, List.mem_cons] at hslot
    rcases hslot with rfl | hslot
    · right
      simp only [stmt, state_bind_eq_ok, state_pure_eq_ok, exprHere_eq_ok, state_ofExcept_eq_ok,
        Scope.bind_eq_ok] at h
      obtain ⟨inner, _, ⟨hinner, rfl⟩, slot', _, ⟨hslot', rfl⟩, _, _, rfl, rfl, -⟩ := h
      obtain rfl : slot' = slot := Except.ok.inj (hslot'.symm.trans hown)
      exact hwalk.last_mem rfl
    · exact .inl hslot

mutual

theorem stmt_safe : (s : Stmt TypedNode) → {slots slots' : Scope Nat} → {known : Nat → Prop} →
    {code : List Instr} → AllKnown known slots →
    stmt slotTable s slots = .ok code slots' → Safe known code
  | .cond _ branches otherwise, slots, slots', known, code, hknown, h => by
      simp only [stmt, state_bind_eq_ok, state_pure_eq_ok] at h
      obtain ⟨codes, t, hcodes, last, u, hlast, rfl, rfl⟩ := h
      obtain rfl := arms_slots branches hcodes
      exact joinArms_safe (arms_safe branches hknown hcodes) (elseBody_safe otherwise hknown hlast)
  | .loop _ condition body, slots, slots', known, code, hknown, h => by
      simp only [stmt, state_bind_eq_ok, state_pure_eq_ok] at h
      obtain ⟨test, t, htest, inner, u, hinner, rfl, rfl⟩ := h
      obtain ⟨rfl, ihtest⟩ := exitUnless_safe hknown htest
      obtain ⟨v, hv, -⟩ := Scope.within_eq_ok.mp hinner
      have hback : Safe known [.br 1] := .flat (by simp [Instr.isFlat])
      exact ((ihtest.and_then (stmts_safe body hknown.push hv)).and_then hback).block.loop
  | .ret _ none, slots, slots', known, code, hknown, h => by
      simp only [stmt, returned, state_pure_eq_ok] at h
      obtain ⟨rfl, rfl⟩ := h
      exact .flat (by simp [Instr.isFlat])
  | .ret _ (some value), slots, slots', known, code, hknown, h => by
      simp only [stmt, returned, state_bind_eq_ok, state_pure_eq_ok, exprHere_eq_ok] at h
      obtain ⟨inner, t, ⟨hinner, rfl⟩, rfl, rfl⟩ := h
      exact (expr_safe hknown hinner).and_then (.flat (by simp [Instr.isFlat]))
  | .declare node kind name type initial, slots, slots', known, code, hknown, h => by
      simp only [stmt, state_bind_eq_ok, state_pure_eq_ok, exprHere_eq_ok, state_ofExcept_eq_ok,
        Scope.bind_eq_ok] at h
      obtain ⟨inner, _, ⟨hinner, rfl⟩, slot, _, ⟨hslot, rfl⟩, _, _, rfl, rfl, rfl⟩ := h
      exact (expr_safe hknown hinner).and_then (.flat (by simp [Instr.isFlat]))
  | .expr _ value, slots, slots', known, code, hknown, h => by
      simp only [stmt, state_bind_eq_ok, state_pure_eq_ok, exprHere_eq_ok] at h
      obtain ⟨inner, t, ⟨hinner, rfl⟩, rfl, rfl⟩ := h
      split
      · exact (expr_safe hknown hinner).and_then (.flat (by simp [Instr.isFlat]))
      · exact expr_safe hknown hinner

theorem stmts_safe : (body : List (Stmt TypedNode)) → {slots slots' : Scope Nat} →
    {known : Nat → Prop} → {code : List Instr} → AllKnown known slots →
    stmts slotTable body slots = .ok code slots' → Safe known code
  | [], slots, slots', known, code, _, h => by
      simp only [stmts, state_pure_eq_ok] at h
      obtain ⟨rfl, rfl⟩ := h
      exact .flat (by simp)
  | s :: rest, slots, slots', known, code, hknown, h => by
      simp only [stmts, state_bind_eq_ok, state_pure_eq_ok] at h
      obtain ⟨first, t, hfirst, others, u, hothers, rfl, rfl⟩ := h
      refine (stmt_safe s hknown hfirst).append fun trace hwalk => ?_
      -- what comes into scope behind the first statement was set on the walk through it
      refine stmts_safe rest (fun slot hslot => ?_) hothers
      exact (stmt_sets_declared hfirst hwalk slot hslot).imp_left (hknown slot)

theorem arms_safe : (branches : List (Arm TypedNode)) → {slots slots' : Scope Nat} →
    {known : Nat → Prop} → {codes : List (List Instr)} →
    AllKnown known slots → arms slotTable branches slots = .ok codes slots' →
    ∀ code ∈ codes, Safe known code
  | [], slots, slots', known, codes, _, h => by
      simp only [arms, state_pure_eq_ok] at h
      obtain ⟨rfl, rfl⟩ := h
      simp
  | ⟨condition, body, span⟩ :: rest, slots, slots', known, codes, hknown, h => by
      simp only [arms, arm, state_bind_eq_ok, state_pure_eq_ok] at h
      obtain ⟨_, t, ⟨test, _, htest, inner, u, hinner, rfl, rfl⟩, others, v, hothers, rfl, rfl⟩ := h
      obtain ⟨rfl, ihtest⟩ := exitUnless_safe hknown htest
      obtain rfl := nested_slots body hinner
      obtain ⟨w, hw, -⟩ := Scope.within_eq_ok.mp hinner
      exact List.forall_mem_cons.mpr
        ⟨ihtest.and_then (stmts_safe body hknown.push hw), arms_safe rest hknown hothers⟩

theorem elseBody_safe : (otherwise : Option (List (Stmt TypedNode))) → {slots slots' : Scope Nat} →
    {known : Nat → Prop} → {last : Option (List Instr)} →
    AllKnown known slots →
    elseBody slotTable otherwise slots = .ok last slots' → ∀ code ∈ last, Safe known code
  | none, slots, slots', known, last, _, h => by
      simp only [elseBody, state_pure_eq_ok] at h
      obtain ⟨rfl, rfl⟩ := h
      simp
  | some body, slots, slots', known, last, hknown, h => by
      simp only [elseBody, state_bind_eq_ok, state_pure_eq_ok] at h
      obtain ⟨inner, t, hinner, rfl, rfl⟩ := h
      obtain ⟨u, hu, -⟩ := Scope.within_eq_ok.mp hinner
      rintro code ⟨⟩
      exact stmts_safe body hknown.push hu

end

end Statements

/-! ## Functions -/

section Functions

variable {exported : Bool} {d : FuncDef TypedNode} {f : Wasm.Func} (h : func exported d = .ok f)
include h

theorem func_params_length : f.type.params.length = d.signature.parameters.length := by
  obtain ⟨_, _, -, -, htype, -, -, -⟩ := func_eq_ok h
  exact (funcType_eq_ok.mp htype).1.length_eq.symm

theorem func_safe : Safe (· < f.type.params.length) f.body := by
  obtain ⟨slotTable, slots, -, hcode, -, -, -, -⟩ := func_eq_ok h
  refine stmts_safe d.body (fun slot hslot => ?_) hcode
  rw [func_params_length h]
  exact (parameterScope_placed d.signature.parameters).below slot hslot

theorem func_runFrom {V M : Type} {P : Primitives V M} {table : Signatures} {m : Wasm.Module}
    (typed : d.Typed table) (hnodup : ((Stmt.listLocals d.body).map LocalDecl.id).Nodup)
    (hcalls : Callable (f.context m) table) {args others : List V}
    (hargs : args.length = f.type.params.length) (hothers : others.length = f.locals.length)
    (memory : M) (bound : Nat) :
    f.runFrom P m (args ++ others) memory bound = f.run P m args memory bound := by
  rw [func_params_length h] at hargs
  have hgiven : d.run P args memory bound = f.runFrom P m (args ++ others) memory bound :=
    (Tracks.eq_iff.mp (func_tracks_from typed hnodup hcalls h hargs hothers memory)).1
  have hzeros : d.run P args memory bound = f.run P m args memory bound :=
    (Tracks.eq_iff.mp (func_tracks typed hnodup hcalls h hargs memory)).1
  rw [← hgiven, hzeros]

end Functions

end Lower

open Lower Wasm

/-- In an accepted source, on every walk through the code of a function, whatever its branches do
and however often its loops go round, a local that is not a parameter is set before it is read. So
no run of the function depends on what these locals hold at the start. -/
theorem locals_are_set_before_they_are_read {source text : String}
    (h : compile source = .ok text) :
    ∃ p m, Compile.typedProgram source = .ok p ∧ lowerProgram p = .ok m ∧ text = m.text ∧
      ∀ f ∈ m.funcs,
        (∀ trace exit, WalkAll f.body trace exit →
          ∀ before slot after, trace = before ++ .localGet slot :: after →
            f.type.params.length ≤ slot → .localSet slot ∈ before) ∧
        ∀ (V M : Type) (P : Primitives V M) (args others : List V) (memory : M) (bound : Nat),
          args.length = f.type.params.length → others.length = f.locals.length →
          f.runFrom P m (args ++ others) memory bound = f.run P m args memory bound := by
  obtain ⟨p, m, hp, hm, rfl⟩ := compile_eq_ok.mp h
  obtain ⟨typed, hnodup⟩ := typedProgram_sound hp
  refine ⟨p, m, hp, hm, rfl, fun f hf => ?_⟩
  obtain ⟨d, hd, hfunc⟩ := forall₂_partner_left (lowerProgram_funcs hm) hf
  refine ⟨fun trace exit hwalk before slot after heq hslot => ?_,
    fun V M P args others memory bound hargs hothers => ?_⟩
  · rcases func_safe hfunc trace exit hwalk before slot after heq with hparam | hset
    · exact absurd hparam (Nat.not_lt.mpr hslot)
    · exact hset
  · exact func_runFrom hfunc (typed.bodies d hd) (hnodup d hd) (callable_in_module typed hm f)
      hargs hothers memory bound

/-- A loop with a conditional in it and three locals. It counts up to the argument, also if the
locals do not start at zero. -/
theorem counting_sets_locals_before_reading :
    let source := "func f(n: i32): i32 \x7b var x: i32 = 0; while (n - x) \x7b " ++
      "var y: i32 = x + 1; if (y) \x7b var z: i32 = y; x = z; \x7d else \x7b x = n; \x7d \x7d " ++
      "return x; \x7d"
    ∃ p m f, Compile.typedProgram source = .ok p ∧ lowerProgram p = .ok m ∧ f ∈ m.funcs ∧
      f.runFrom words m [2, 5, 9, 7] () 3 = .ok (some 2, ()) ∧
      ∀ trace exit, WalkAll f.body trace exit → ∀ before slot after,
        trace = before ++ .localGet slot :: after → 1 ≤ slot → .localSet slot ∈ before := by
  intro source
  have hrun : (Compile.typedProgram source).map (fun p => (lowerProgram p).map fun m =>
      m.funcs.map fun f => (f.type.params.length, f.locals.length,
        decide (f.run words m [2] () 3 = .ok (some 2, ())))) = .ok (.ok [(1, 3, true)]) := by
    decide +kernel
  obtain ⟨p, hp, hlower⟩ := except_map_eq_ok.mp hrun
  obtain ⟨m, hm, hfuncs⟩ := except_map_eq_ok.mp hlower
  obtain ⟨f, rest, hf, hfacts, -⟩ := List.map_eq_cons_iff.mp hfuncs
  simp only [Prod.mk.injEq, decide_eq_true_eq] at hfacts
  obtain ⟨hparams, hlocals, hreturns⟩ := hfacts
  have hmem : f ∈ m.funcs := hf ▸ List.mem_cons_self
  obtain ⟨p', m', hp', hm', -, hsafe⟩ :=
    locals_are_set_before_they_are_read (compile_eq_ok.mpr ⟨p, m, hp, hm, rfl⟩)
  obtain rfl : p = p' := Except.ok.inj (hp.symm.trans hp')
  obtain rfl : m = m' := Except.ok.inj (hm.symm.trans hm')
  obtain ⟨hwalks, hruns⟩ := hsafe f hmem
  refine ⟨p, m, f, hp, hm, hmem, ?_, hparams ▸ hwalks⟩
  rw [← hreturns]
  exact hruns _ _ words [2] [5, 9, 7] () 3 hparams.symm hlocals.symm

end Wattle
