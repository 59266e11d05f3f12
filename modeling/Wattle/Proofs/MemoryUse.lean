import Wattle.Proofs.EmittedModule

/-!
# Memory and its use

Reading or writing through a pointer becomes a load or a store, and nothing else does. A module has
a memory exactly if its program declares one. No rule ties the two together: a program may use
pointers without a memory to point into.
-/

namespace Wattle

/-! ## Where memory is used -/

namespace Expr

variable {α : Type}

mutual

/-- Whether the expression goes through a pointer somewhere, to read or to write. -/
def derefs : Expr α → Bool
  | name _ _ => false
  | number _ _ _ => false
  | call _ _ args => listDerefs args
  | unary _ op operand => op = .deref || operand.derefs
  | binary _ _ left right => left.derefs || right.derefs
  | paren _ inner => inner.derefs
  | cast _ operand _ => operand.derefs

def listDerefs : List (Expr α) → Bool
  | [] => false
  | e :: rest => e.derefs || listDerefs rest

end

end Expr

namespace Stmt

variable {α : Type}

mutual

/-- Whether an expression of the statement goes through a pointer. -/
def derefs : Stmt α → Bool
  | cond _ arms otherwise => armsDerefs arms || elseDerefs otherwise
  | loop _ condition body => condition.derefs || listDerefs body
  | ret _ value => value.any Expr.derefs
  | declare _ _ _ _ initial => initial.derefs
  | expr _ value => value.derefs

def listDerefs : List (Stmt α) → Bool
  | [] => false
  | s :: rest => s.derefs || listDerefs rest

def armsDerefs : List (Arm α) → Bool
  | [] => false
  | ⟨condition, body, _⟩ :: rest => (condition.derefs || listDerefs body) || armsDerefs rest

def elseDerefs : Option (List (Stmt α)) → Bool
  | none => false
  | some body => listDerefs body

end

end Stmt

namespace Wasm

namespace Instr

mutual

/-- Whether the instruction is a load or a store, or has one inside. -/
def usesMemory : Instr → Bool
  | load _ => true
  | store _ => true
  | block body => listUsesMemory body
  | loop body => listUsesMemory body
  | _ => false

def listUsesMemory : List Instr → Bool
  | [] => false
  | i :: rest => i.usesMemory || listUsesMemory rest

end

@[simp] theorem listUsesMemory_nil : listUsesMemory [] = false := by
  simp only [listUsesMemory]

@[simp] theorem listUsesMemory_cons (i : Instr) (code : List Instr) :
    listUsesMemory (i :: code) = (i.usesMemory || listUsesMemory code) := by
  simp only [listUsesMemory]

@[simp] theorem listUsesMemory_append (xs ys : List Instr) :
    listUsesMemory (xs ++ ys) = (listUsesMemory xs || listUsesMemory ys) := by
  induction xs with
  | nil => simp
  | cons i xs ih => simp [ih, Bool.or_assoc]

end Instr

/-- Whether a module has a memory, its own or the host's. -/
def Module.hasMemory (m : Module) : Bool :=
  !m.importedMemories.isEmpty || !m.memories.isEmpty

end Wasm

/-! ## Lowering keeps the use of memory -/

namespace Lower

open Wasm

theorem binaryInstr_usesMemory {op : BinaryOp} {t : Ty} {i : Instr}
    (h : binaryInstr op t = .ok i) : i.usesMemory = false := by
  obtain ⟨v, num, signed, -, -, -, rfl⟩ := binaryInstr_eq_ok.mp h
  simp [Instr.usesMemory]

theorem conversion_usesMemory {s t : Ty} {i : Option Instr} (h : conversion s t = .ok i) :
    Instr.listUsesMemory i.toList = false := by
  rcases conversion_form h with rfl | ⟨target, op, source, sign, rfl⟩
  · simp
  · simp [Instr.usesMemory]

mutual

/-- The code of an expression uses memory exactly if the expression goes through a pointer. -/
theorem expr_usesMemory {slots : Scope Nat} : (e : Expr TypedNode) → {code : List Instr} →
    expr slots e = .ok code → Instr.listUsesMemory code = e.derefs
  | .name _ id, code, h => by
      simp only [expr, except_bind_eq_ok, except_pure_eq_ok] at h
      obtain ⟨slot, -, rfl⟩ := h
      simp [Expr.derefs, Instr.usesMemory]
  | .number _ digits base, code, h => by
      simp only [expr] at h
      split at h
      · obtain rfl := Except.ok.inj h
        simp [Expr.derefs, Instr.usesMemory]
      · cases h
  | .call _ callee args, code, h => by
      simp only [expr, except_bind_eq_ok, except_pure_eq_ok] at h
      obtain ⟨inner, hinner, rfl⟩ := h
      simp [Expr.derefs, Instr.usesMemory, exprs_usesMemory args hinner]
  | .unary _ .negate operand, code, h => by
      simp only [expr, except_bind_eq_ok, except_pure_eq_ok] at h
      obtain ⟨v, -, inner, hinner, sub, hsub, rfl⟩ := h
      simp [Expr.derefs, Instr.usesMemory, expr_usesMemory operand hinner,
        binaryInstr_usesMemory hsub]
  | .unary _ .deref operand, code, h => by
      simp only [expr, except_bind_eq_ok, except_pure_eq_ok] at h
      obtain ⟨inner, -, v, -, rfl⟩ := h
      simp [Expr.derefs, Instr.usesMemory]
  | .unary _ .logicalNot operand, code, h => by
      simp only [expr, except_bind_eq_ok, except_pure_eq_ok] at h
      obtain ⟨inner, hinner, rfl⟩ := h
      simp [Expr.derefs, Instr.usesMemory, expr_usesMemory operand hinner]
  | .binary _ op left right, code, h => by
      by_cases hop : op = .assign
      · subst hop
        rw [expr.eq_def] at h
        simp only [if_true] at h
        -- only names and reads through a pointer are targets
        split at h
        · simp only [except_bind_eq_ok, except_pure_eq_ok] at h
          obtain ⟨slot, -, value, hvalue, rfl⟩ := h
          simp [Expr.derefs, Instr.usesMemory, expr_usesMemory right hvalue]
        · simp only [except_bind_eq_ok, except_pure_eq_ok] at h
          obtain ⟨place, -, value, -, v, -, rfl⟩ := h
          simp [Expr.derefs, Instr.usesMemory]
        · cases h
      · rw [expr_binary hop] at h
        simp only [except_bind_eq_ok, except_pure_eq_ok] at h
        obtain ⟨first, hfirst, second, hsecond, i, hi, rfl⟩ := h
        simp [Expr.derefs, expr_usesMemory left hfirst, expr_usesMemory right hsecond,
          binaryInstr_usesMemory hi]
  | .paren _ inner, code, h => by
      simp only [expr] at h
      rw [Expr.derefs, expr_usesMemory inner h]
  | .cast _ operand target, code, h => by
      simp only [expr, except_bind_eq_ok, except_pure_eq_ok] at h
      obtain ⟨inner, hinner, i, hi, rfl⟩ := h
      simp [Expr.derefs, expr_usesMemory operand hinner, conversion_usesMemory hi]

theorem exprs_usesMemory {slots : Scope Nat} : (args : List (Expr TypedNode)) →
    {code : List Instr} → exprs slots args = .ok code →
    Instr.listUsesMemory code = Expr.listDerefs args
  | [], code, h => by
      simp only [exprs, Except.ok.injEq] at h
      subst h
      simp [Expr.listDerefs]
  | e :: rest, code, h => by
      simp only [exprs, except_bind_eq_ok, except_pure_eq_ok] at h
      obtain ⟨first, hfirst, others, hothers, rfl⟩ := h
      simp [Expr.listDerefs, expr_usesMemory e hfirst, exprs_usesMemory rest hothers]

end

theorem joinArms_usesMemory (codes : List (List Instr)) (last : Option (List Instr)) :
    (joinArms codes last).usesMemory =
      (codes.any Instr.listUsesMemory || last.any Instr.listUsesMemory) := by
  have hmany : Instr.listUsesMemory (codes.map fun code => Instr.block (code ++ [.br 1])) =
      codes.any Instr.listUsesMemory := by
    induction codes with
    | nil => simp
    | cons code codes ih => simp [Instr.usesMemory, ih]
  have hlast : Instr.listUsesMemory (last.getD []) = last.any Instr.listUsesMemory := by
    cases last <;> simp
  simp only [joinArms]
  split
  · simp [Instr.usesMemory]
  · simp [Instr.usesMemory, hmany, hlast]

section Statements

variable {slotTable : SlotTable}

mutual

theorem stmt_usesMemory : (s : Stmt TypedNode) → {slots slots' : Scope Nat} →
    {code : List Instr} → stmt slotTable s slots = .ok code slots' →
    Instr.listUsesMemory code = s.derefs
  | .cond _ branches otherwise, slots, slots', code, h => by
      simp only [stmt, state_bind_eq_ok, state_pure_eq_ok] at h
      obtain ⟨codes, t, hcodes, last, u, hlast, rfl, rfl⟩ := h
      simp [Stmt.derefs, joinArms_usesMemory, arms_usesMemory branches hcodes,
        elseBody_usesMemory otherwise hlast]
  | .loop _ condition body, slots, slots', code, h => by
      simp only [stmt, state_bind_eq_ok, state_pure_eq_ok, exitUnless_eq_ok,
        Scope.within_eq_ok] at h
      obtain ⟨_, _, ⟨test, htest, rfl, rfl⟩, inner, t, ⟨u, hinner, rfl⟩, rfl, rfl⟩ := h
      simp [Stmt.derefs, Instr.usesMemory, expr_usesMemory condition htest,
        stmts_usesMemory body hinner]
  | .ret _ none, slots, slots', code, h => by
      simp only [stmt, returned, state_pure_eq_ok] at h
      obtain ⟨rfl, rfl⟩ := h
      simp [Stmt.derefs, Instr.usesMemory]
  | .ret _ (some value), slots, slots', code, h => by
      simp only [stmt, returned, state_bind_eq_ok, state_pure_eq_ok, exprHere_eq_ok] at h
      obtain ⟨inner, t, ⟨hinner, rfl⟩, rfl, rfl⟩ := h
      simp [Stmt.derefs, Instr.usesMemory, expr_usesMemory value hinner]
  | .declare _ _ _ _ initial, slots, slots', code, h => by
      simp only [stmt, state_bind_eq_ok, state_pure_eq_ok, exprHere_eq_ok, state_ofExcept_eq_ok] at h
      obtain ⟨inner, _, ⟨hinner, rfl⟩, slot, _, -, _, _, -, rfl, rfl⟩ := h
      simp [Stmt.derefs, Instr.usesMemory, expr_usesMemory initial hinner]
  | .expr _ value, slots, slots', code, h => by
      simp only [stmt, state_bind_eq_ok, state_pure_eq_ok, exprHere_eq_ok] at h
      obtain ⟨inner, t, ⟨hinner, rfl⟩, rfl, rfl⟩ := h
      rw [Stmt.derefs, ← expr_usesMemory value hinner]
      split <;> simp [Instr.usesMemory]

theorem stmts_usesMemory : (body : List (Stmt TypedNode)) → {slots slots' : Scope Nat} →
    {code : List Instr} → stmts slotTable body slots = .ok code slots' →
    Instr.listUsesMemory code = Stmt.listDerefs body
  | [], slots, slots', code, h => by
      simp only [stmts, state_pure_eq_ok] at h
      obtain ⟨rfl, rfl⟩ := h
      simp [Stmt.listDerefs]
  | s :: rest, slots, slots', code, h => by
      simp only [stmts, state_bind_eq_ok, state_pure_eq_ok] at h
      obtain ⟨first, t, hfirst, others, u, hothers, rfl, rfl⟩ := h
      simp [Stmt.listDerefs, stmt_usesMemory s hfirst, stmts_usesMemory rest hothers]

theorem arms_usesMemory : (branches : List (Arm TypedNode)) → {slots slots' : Scope Nat} →
    {codes : List (List Instr)} → arms slotTable branches slots = .ok codes slots' →
    codes.any Instr.listUsesMemory = Stmt.armsDerefs branches
  | [], slots, slots', codes, h => by
      simp only [arms, state_pure_eq_ok] at h
      obtain ⟨rfl, rfl⟩ := h
      simp [Stmt.armsDerefs]
  | ⟨condition, body, span⟩ :: rest, slots, slots', codes, h => by
      simp only [arms, arm, state_bind_eq_ok, state_pure_eq_ok, exitUnless_eq_ok,
        Scope.within_eq_ok] at h
      obtain ⟨_, t, ⟨_, _, ⟨test, htest, rfl, rfl⟩, inner, u, ⟨v, hinner, rfl⟩, rfl, rfl⟩, others,
        w, hothers, rfl, rfl⟩ := h
      simp [Stmt.armsDerefs, Instr.usesMemory, expr_usesMemory condition htest,
        stmts_usesMemory body hinner, arms_usesMemory rest hothers]

theorem elseBody_usesMemory : (otherwise : Option (List (Stmt TypedNode))) →
    {slots slots' : Scope Nat} → {last : Option (List Instr)} →
    elseBody slotTable otherwise slots = .ok last slots' →
    last.any Instr.listUsesMemory = Stmt.elseDerefs otherwise
  | none, slots, slots', last, h => by
      simp only [elseBody, state_pure_eq_ok] at h
      obtain ⟨rfl, rfl⟩ := h
      simp [Stmt.elseDerefs]
  | some body, slots, slots', last, h => by
      simp only [elseBody, state_bind_eq_ok, state_pure_eq_ok, Scope.within_eq_ok] at h
      obtain ⟨inner, t, ⟨u, hinner, rfl⟩, rfl, rfl⟩ := h
      simp [Stmt.elseDerefs, stmts_usesMemory body hinner]

end

end Statements

end Lower

/-! ## Programs -/

open Lower

theorem hasMemory_iff {p : Program TypedNode} {m : Wasm.Module} (h : lowerProgram p = .ok m) :
    m.hasMemory = true ↔ p.memories ≠ [] := by
  obtain ⟨imports, funcs, -, -, -, -, himported, hdefined⟩ := lowerProgram_eq_ok h
  rw [Wasm.Module.hasMemory, himported, hdefined]
  cases p.memories with
  | nil => simp
  | cons memory rest =>
      cases hkind : memory.kind <;> simp [importedMemory?, definedMemory?, hkind]

/-- A module uses memory without having one exactly if its program goes through pointers without
declaring a memory. Memory is used in just those functions that go through a pointer, and a module
has a memory exactly if its program declares one. -/
theorem memory_use_follows_source {source text : String} (h : compile source = .ok text) :
    ∃ p m, Compile.typedProgram source = .ok p ∧ lowerProgram p = .ok m ∧ text = m.text ∧
      (m.hasMemory = true ↔ p.memories ≠ []) ∧
      List.Forall₂ (fun d f => func d.1 d.2 = .ok f ∧
        Wasm.Instr.listUsesMemory f.body = Stmt.listDerefs d.2.body) p.definitions m.funcs ∧
      (((∃ f ∈ m.funcs, Wasm.Instr.listUsesMemory f.body = true) ∧ m.hasMemory = false) ↔
        (∃ d ∈ p.definitions, Stmt.listDerefs d.2.body = true) ∧ p.memories = []) := by
  obtain ⟨p, m, hp, hm, rfl⟩ := compile_eq_ok.mp h
  have hmemory := hasMemory_iff hm
  have hbodies : List.Forall₂ (fun d f => func d.1 d.2 = .ok f ∧
      Wasm.Instr.listUsesMemory f.body = Stmt.listDerefs d.2.body) p.definitions m.funcs := by
    refine (lowerProgram_funcs hm).imp fun d f hfunc => ⟨hfunc, ?_⟩
    obtain ⟨slotTable, slots, -, hcode, -⟩ := func_eq_ok hfunc
    exact stmts_usesMemory d.2.body hcode
  refine ⟨p, m, hp, hm, rfl, hmemory, hbodies, ?_⟩
  have hnone : m.hasMemory = false ↔ p.memories = [] := by
    rw [← Bool.not_eq_true, hmemory, not_not]
  rw [hnone]
  refine and_congr_left fun _ => ⟨?_, ?_⟩
  · rintro ⟨f, hf, huse⟩
    obtain ⟨d, hd, -, hsame⟩ := forall₂_partner_left hbodies hf
    exact ⟨d, hd, hsame ▸ huse⟩
  · rintro ⟨d, hd, huse⟩
    obtain ⟨f, hf, -, hsame⟩ := forall₂_partner_right hbodies hd
    exact ⟨f, hf, hsame ▸ huse⟩

/-- A program that reads through a pointer and has no memory is accepted as well, so a use of memory
does not mean that there is one. -/
theorem memory_use_without_memory :
    ¬ ∀ source text m, compile source = .ok text → Compile.wasmModule source = .ok m →
      (∃ f ∈ m.funcs, Wasm.Instr.listUsesMemory f.body = true) → m.hasMemory = true := by
  intro hclaim
  have hread : (Compile.wasmModule "func f(p: *i32): i32 { return @p; }").map (fun m =>
      (m.funcs.map fun f => Wasm.Instr.listUsesMemory f.body, m.hasMemory)) =
        .ok ([true], false) := by
    decide +kernel
  obtain ⟨m, hm, hfacts⟩ := except_map_eq_ok.mp hread
  obtain ⟨huses, hnone⟩ := Prod.mk.inj hfacts
  have huse : ∃ f ∈ m.funcs, Wasm.Instr.listUsesMemory f.body = true :=
    List.mem_map.mp (huses ▸ List.mem_cons_self)
  have hmemory := hclaim _ _ m (except_map_eq_ok.mpr ⟨m, hm, rfl⟩) hm huse
  rw [hnone] at hmemory
  cases hmemory

/-- With a memory declared behind the use, the module has both. -/
theorem memory_use_with_memory :
    ∃ p m, Compile.typedProgram "func f(p: *i32): void { @p = 1; } memory m(8);" = .ok p ∧
      lowerProgram p = .ok m ∧ m.hasMemory = true ∧
      List.Forall₂ (fun d f => func d.1 d.2 = .ok f ∧
        Wasm.Instr.listUsesMemory f.body = Stmt.listDerefs d.2.body) p.definitions m.funcs := by
  have hmemories : (Compile.typedProgram "func f(p: *i32): void { @p = 1; } memory m(8);").map
      (fun p => (lowerProgram p).map fun m => m.hasMemory) = .ok (.ok true) := by
    decide +kernel
  obtain ⟨p, hp, hlower⟩ := except_map_eq_ok.mp hmemories
  obtain ⟨m, hm, hmemory⟩ := except_map_eq_ok.mp hlower
  obtain ⟨p', m', hp', hm', -, -, hbodies, -⟩ :=
    memory_use_follows_source (compile_eq_ok.mpr ⟨p, m, hp, hm, rfl⟩)
  obtain rfl : p = p' := Except.ok.inj (hp.symm.trans hp')
  obtain rfl : m = m' := Except.ok.inj (hm.symm.trans hm')
  exact ⟨p, m, hp, hm, hmemory, hbodies⟩

end Wattle
