import Wattle.Proofs.Accepted
import Wattle.Proofs.SlotAllocation

/-!
# The module of a program

Every definition of a program becomes one function of the module, in order, with the code of its
body; imports and memories become items of their own.
-/

namespace Wattle

namespace Lower

open Wasm

theorem slotOf_eq_ok {slots : Scope Nat} {name : String} {slot : Nat} :
    slotOf slots name = .ok slot ↔ slots.lookup? name = some slot := by
  simp only [slotOf]
  cases slots.lookup? name <;> simp

theorem exprHere_eq_ok {e : Expr TypedNode} {slots slots' : Scope Nat} {code : List Instr} :
    exprHere e slots = .ok code slots' ↔ expr slots e = .ok code ∧ slots = slots' :=
  Scope.asking_eq_ok

theorem exitUnless_eq_ok {condition : Expr TypedNode} {slots slots' : Scope Nat}
    {code : List Instr} :
    exitUnless condition slots = .ok code slots' ↔
      ∃ test, expr slots condition = .ok test ∧ slots = slots' ∧
        test ++ [.eqz .i32, .brIf 0] = code := by
  simp only [exitUnless, state_bind_eq_ok, state_pure_eq_ok, exprHere_eq_ok]
  constructor
  · rintro ⟨test, t, ⟨htest, rfl⟩, rfl, rfl⟩
    exact ⟨test, htest, rfl, rfl⟩
  · rintro ⟨test, htest, rfl, rfl⟩
    exact ⟨test, slots, ⟨htest, rfl⟩, rfl, rfl⟩

theorem func_eq_ok {exported : Bool} {d : FuncDef TypedNode} {f : Wasm.Func}
    (h : func exported d = .ok f) :
    ∃ slotTable slots, SlotTable.allocate d = .ok slotTable ∧
      stmts slotTable d.body (parameterScope d.signature.parameters) = .ok f.body slots ∧
      funcType d.signature = .ok f.type ∧ f.locals = slotTable.locals ∧
      f.name = d.signature.name ∧ f.exported = exported := by
  simp only [func, except_bind_eq_ok, except_pure_eq_ok] at h
  obtain ⟨slotTable, halloc, code, hcode, type, htype, rfl⟩ := h
  simp only [body] at hcode
  split at hcode
  · next code' slots hrun =>
    obtain rfl := Except.ok.inj hcode
    exact ⟨slotTable, slots, halloc, hrun, htype, rfl, rfl, rfl⟩
  · cases hcode

end Lower

open Lower

theorem lowerProgram_eq_ok {p : Program TypedNode} {m : Wasm.Module}
    (h : lowerProgram p = .ok m) :
    ∃ imports funcs,
      List.Forall₂ (fun f i => importedFunc? f = .ok i) p.funcs imports ∧
      List.Forall₂ (fun f g => func? f = .ok g) p.funcs funcs ∧
      m.importedFuncs = imports.filterMap id ∧ m.funcs = funcs.filterMap id ∧
      m.importedMemories = p.memories.filterMap importedMemory? ∧
      m.memories = p.memories.filterMap definedMemory? := by
  simp only [lowerProgram, except_bind_eq_ok, except_pure_eq_ok, except_mapM_eq_ok] at h
  obtain ⟨imports, himports, funcs, hfuncs, rfl⟩ := h
  exact ⟨imports, funcs, himports, hfuncs, rfl, rfl, rfl, rfl⟩

/-- The functions of the module are the definitions of the program, in order. -/
theorem lowerProgram_funcs {p : Program TypedNode} {m : Wasm.Module}
    (h : lowerProgram p = .ok m) :
    List.Forall₂ (fun d f => func d.1 d.2 = .ok f) p.definitions m.funcs := by
  obtain ⟨imports, funcs, -, hfuncs, -, hm, -, -⟩ := lowerProgram_eq_ok h
  rw [hm, Program.definitions]
  clear h hm
  generalize p.funcs = declared at hfuncs ⊢
  induction hfuncs with
  | nil => exact .nil
  | @cons f g declared funcs hfg _ ih =>
      cases f with
      | imported i =>
          obtain rfl := Except.ok.inj hfg
          exact ih
      | plain d =>
          simp only [func?, except_bind_eq_ok, except_pure_eq_ok] at hfg
          obtain ⟨g', hg', rfl⟩ := hfg
          exact .cons hg' ih
      | exported d =>
          simp only [func?, except_bind_eq_ok, except_pure_eq_ok] at hfg
          obtain ⟨g', hg', rfl⟩ := hfg
          exact .cons hg' ih

theorem Func.signature_of_definition? {α : Type} {f : Func α} {d : Bool × FuncDef α}
    (h : f.definition? = some d) : f.signature = d.2.signature := by
  cases f <;> simp only [Func.definition?, reduceCtorEq, Option.some.injEq] at h <;> subst h <;> rfl

end Wattle
