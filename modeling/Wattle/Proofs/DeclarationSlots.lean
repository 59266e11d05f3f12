import Wattle.Proofs.Immutability

/-!
# Slots in the order of declarations

Two walks over a body meet in the table of slots. One gives slots to the declarations before there
is any code; the other produces the code and asks for slots by the numbers of the declarations. Both
come to the declarations in the order of the text, whatever is nested in what, so the slots behind
the parameters are set for the first time one after the other.
-/

namespace Wattle

/-! ## Declarations in the order of the text -/

namespace Stmt

variable {α : Type}

mutual

/-- The statements inside a statement, each before those inside it. -/
def inside : Stmt α → List (Stmt α)
  | cond _ arms otherwise => armsInside arms ++ elseInside otherwise
  | loop _ _ body => depthFirst body
  | ret _ _ | declare _ _ _ _ _ | expr _ _ => []

/-- The statements of a body, each before those inside it. -/
def depthFirst : List (Stmt α) → List (Stmt α)
  | [] => []
  | s :: rest => s :: s.inside ++ depthFirst rest

def armsInside : List (Arm α) → List (Stmt α)
  | [] => []
  | ⟨_, body, _⟩ :: rest => depthFirst body ++ armsInside rest

def elseInside : Option (List (Stmt α)) → List (Stmt α)
  | none => []
  | some body => depthFirst body

end

/-- What the statement itself declares. -/
def declared? : Stmt α → Option LocalDecl
  | declare node _ _ type _ => some ⟨node.id, type⟩
  | _ => none

/-- The declarations of a body, depth first. -/
def declarations (body : List (Stmt α)) : List LocalDecl :=
  (depthFirst body).filterMap declared?

mutual

theorem locals_eq : (s : Stmt α) → s.locals = (s :: s.inside).filterMap declared?
  | cond _ arms otherwise => by
      rw [locals, armsLocals_eq arms, elseLocals_eq otherwise, ← List.filterMap_append, inside]
      rfl
  | loop _ _ body => by
      rw [locals, listLocals_eq body, inside]
      rfl
  | ret _ _ => by simp [locals, inside, declared?]
  | declare node _ _ type _ => by simp [locals, inside, declared?]
  | expr _ _ => by simp [locals, inside, declared?]

theorem listLocals_eq : (body : List (Stmt α)) → listLocals body = declarations body
  | [] => by simp [listLocals, declarations, depthFirst]
  | s :: rest => by
      rw [listLocals, locals_eq s, listLocals_eq rest, declarations, declarations, depthFirst,
        List.filterMap_append]

theorem armsLocals_eq : (arms : List (Arm α)) →
    armsLocals arms = (armsInside arms).filterMap declared?
  | [] => by simp [armsLocals, armsInside]
  | ⟨_, body, _⟩ :: rest => by
      rw [armsLocals, armLocals, listLocals_eq body, armsLocals_eq rest, armsInside,
        List.filterMap_append, declarations]

theorem elseLocals_eq : (otherwise : Option (List (Stmt α))) →
    elseLocals otherwise = (elseInside otherwise).filterMap declared?
  | none => by simp [elseLocals, elseInside]
  | some body => by rw [elseLocals, listLocals_eq body, elseInside, declarations]

end

end Stmt

/-- The declarations of a function have numbers of their own, and values. -/
structure FuncDef.DeclaresApart {α : Type} (d : FuncDef α) : Prop where
  distinct : ((Stmt.declarations d.body).map LocalDecl.id).Nodup
  values : ∀ l ∈ Stmt.declarations d.body, l.type ≠ .void

namespace Lower

open Wasm

/-! ## Slots as writes fill them -/

/-- Writes and the slots that they set, one for one. A declaration sets the first slot that is not
in use, which is from then on; an assignment sets one that is. Before the writes the slots below
`next` are in use, and behind them those below `later`. -/
inductive Fills : (next : Nat) → List Write → List Nat → (later : Nat) → Prop where
  | nil (next : Nat) : Fills next [] [] next
  | declaration {next later : Nat} {ws : List Write} {slots : List Nat} (kind : DeclKind)
      (id : Nat) (rest : Fills (next + 1) ws slots later) :
      Fills next (.declaration kind id :: ws) (next :: slots) later
  | assignment {next later slot : Nat} {ws : List Write} {slots : List Nat} (name : String)
      (used : slot < next) (rest : Fills next ws slots later) :
      Fills next (.assignment name :: ws) (slot :: slots) later

/-- The numbers of the declarations among the writes, with the slots that these set. -/
def declaredSets (ws : List Write) (slots : List Nat) : List (Nat × Nat) :=
  (ws.zip slots).filterMap fun (w, slot) => w.id?.map (·, slot)

namespace Fills

variable {next later last : Nat} {ws ws' : List Write} {slots slots' : List Nat}

theorem append (h : Fills next ws slots later) (h' : Fills later ws' slots' last) :
    Fills next (ws ++ ws') (slots ++ slots') last := by
  induction h with
  | nil => exact h'
  | declaration kind id _ ih => exact .declaration kind id (ih h')
  | assignment name used _ ih => exact .assignment name used (ih h')

theorem declaredSets_eq (h : Fills next ws slots later) :
    declaredSets ws slots = (ws.filterMap Write.id?).zipIdx next := by
  induction h with
  | nil => rfl
  | declaration kind id _ ih =>
      simp only [declaredSets, List.zip_cons_cons, List.filterMap_cons, Write.id?, Option.map_some,
        List.zipIdx_cons] at ih ⊢
      rw [ih]
  | assignment name _ _ ih =>
      simpa only [declaredSets, List.zip_cons_cons, List.filterMap_cons, Write.id?,
        Option.map_none] using ih

end Fills

/-- An assignment stores in the slot of a name, or where an address points to. -/
theorem expr_assign {slots : Scope Nat} {note : TypedNode} {left right : Expr TypedNode}
    {code : List Instr} (h : expr slots (.binary note .assign left right) = .ok code) :
    (∃ n id slot inner, left = .name n id ∧ slots.lookup? id = some slot ∧
      expr slots right = .ok inner ∧ code = inner ++ [.localSet slot]) ∨
    ∃ place v inner, left.target = [] ∧ expr slots left = .ok (place ++ [.load v]) ∧
      expr slots right = .ok inner ∧ code = place ++ inner ++ [.store v] := by
  cases left with
  | name n id =>
      simp only [expr, if_true, except_bind_eq_ok, except_pure_eq_ok, slotOf_eq_ok] at h
      obtain ⟨slot, hslot, inner, hinner, rfl⟩ := h
      exact .inl ⟨n, id, slot, inner, rfl, hslot, hinner, rfl⟩
  | unary n op address =>
      cases op with
      | deref =>
          simp only [expr, if_true, except_bind_eq_ok, except_pure_eq_ok] at h
          obtain ⟨place, hplace, inner, hinner, v, hv, rfl⟩ := h
          refine .inr ⟨place, v, inner, rfl, ?_, hinner, rfl⟩
          simp only [expr, hplace, hv]
          rfl
      | negate => simp [expr] at h
      | logicalNot => simp [expr] at h
  | _ => simp [expr] at h

section Expressions

variable {slots : Scope Nat} {next : Nat}

mutual

/-- An expression assigns to names in scope only, and the slots of these are in use. -/
theorem expr_fills (hplaced : Placed slots next) : (e : Expr TypedNode) → {code : List Instr} →
    expr slots e = .ok code → Fills next e.writes (Instr.listSets code) next
  | .name _ id, code, h => by
      simp only [expr, except_bind_eq_ok, except_pure_eq_ok] at h
      obtain ⟨slot, -, rfl⟩ := h
      simpa [Expr.writes, Instr.sets] using Fills.nil next
  | .number _ digits base, code, h => by
      simp only [expr] at h
      split at h
      · obtain rfl := Except.ok.inj h
        simpa [Expr.writes, Instr.sets] using Fills.nil next
      · cases h
  | .call _ callee args, code, h => by
      simp only [expr, except_bind_eq_ok, except_pure_eq_ok] at h
      obtain ⟨inner, hinner, rfl⟩ := h
      simpa [Expr.writes, Instr.sets] using exprs_fills hplaced args hinner
  | .unary _ .negate operand, code, h => by
      simp only [expr, except_bind_eq_ok, except_pure_eq_ok] at h
      obtain ⟨v, -, inner, hinner, sub, hsub, rfl⟩ := h
      simpa [Expr.writes, Instr.sets, binaryInstr_sets hsub] using expr_fills hplaced operand hinner
  | .unary _ .deref operand, code, h => by
      simp only [expr, except_bind_eq_ok, except_pure_eq_ok] at h
      obtain ⟨inner, hinner, v, -, rfl⟩ := h
      simpa [Expr.writes, Instr.sets] using expr_fills hplaced operand hinner
  | .unary _ .logicalNot operand, code, h => by
      simp only [expr, except_bind_eq_ok, except_pure_eq_ok] at h
      obtain ⟨inner, hinner, rfl⟩ := h
      simpa [Expr.writes, Instr.sets] using expr_fills hplaced operand hinner
  | .binary note op left right, code, h => by
      by_cases hop : op = .assign
      · subst hop
        rcases expr_assign h with ⟨_, id, slot, inner, rfl, hslot, hinner, rfl⟩ |
          ⟨place, v, inner, htarget, hplace, hinner, rfl⟩
        · have hset : Fills next [.assignment id] [slot] next :=
            .assignment id (hplaced.below slot (mem_slotsOf hslot)) (.nil next)
          simpa [Expr.writes, Expr.target, Instr.sets] using
            (expr_fills hplaced right hinner).append hset
        · have ihplace : Fills next left.writes (Instr.listSets place) next := by
            simpa [Instr.sets] using expr_fills hplaced left hplace
          simpa [Expr.writes, htarget, Instr.sets] using
            ihplace.append (expr_fills hplaced right hinner)
      · rw [expr_binary hop] at h
        simp only [except_bind_eq_ok, except_pure_eq_ok] at h
        obtain ⟨first, hfirst, second, hsecond, i, hi, rfl⟩ := h
        simpa [Expr.writes, hop, binaryInstr_sets hi] using
          (expr_fills hplaced left hfirst).append (expr_fills hplaced right hsecond)
  | .paren _ inner, code, h => by
      simp only [expr] at h
      exact expr_fills hplaced inner h
  | .cast _ operand target, code, h => by
      simp only [expr, except_bind_eq_ok, except_pure_eq_ok] at h
      obtain ⟨inner, hinner, i, hi, rfl⟩ := h
      simpa [Expr.writes, conversion_sets hi] using expr_fills hplaced operand hinner

theorem exprs_fills (hplaced : Placed slots next) : (args : List (Expr TypedNode)) →
    {code : List Instr} → exprs slots args = .ok code →
    Fills next (Expr.listWrites args) (Instr.listSets code) next
  | [], code, h => by
      simp only [exprs, Except.ok.injEq] at h
      subst h
      simpa [Expr.listWrites] using Fills.nil next
  | e :: rest, code, h => by
      simp only [exprs, except_bind_eq_ok, except_pure_eq_ok] at h
      obtain ⟨first, hfirst, restCode, hrest, rfl⟩ := h
      simpa [Expr.listWrites] using
        (expr_fills hplaced e hfirst).append (exprs_fills hplaced rest hrest)

end

theorem exitUnless_fills (hplaced : Placed slots next) {condition : Expr TypedNode}
    {slots' : Scope Nat} {code : List Instr} (h : exitUnless condition slots = .ok code slots') :
    slots' = slots ∧ Fills next condition.writes (Instr.listSets code) next := by
  obtain ⟨test, htest, rfl, rfl⟩ := exitUnless_eq_ok.mp h
  exact ⟨rfl, by simpa [Instr.sets] using expr_fills hplaced condition htest⟩

end Expressions

section Statements

variable {slotTable : SlotTable} {types : List ValueType}

mutual

/-- A statement opens as many slots as it has declarations inside. -/
theorem stmt_fills : (s : Stmt TypedNode) → {slots slots' : Scope Nat} → {next : Nat} →
    {code : List Instr} → Placed slots next → Room slotTable types next s.locals →
    stmt slotTable s slots = .ok code slots' →
    Fills next s.writes (Instr.listSets code) (next + s.locals.length)
  | .cond _ branches otherwise, slots, slots', next, code, hplaced, hroom, h => by
      simp only [stmt, state_bind_eq_ok, state_pure_eq_ok] at h
      obtain ⟨codes, t, hcodes, last, u, hlast, rfl, rfl⟩ := h
      obtain rfl := arms_slots branches hcodes
      have ih := arms_fills branches hplaced hroom.left hcodes
      have ihlast :=
        elseBody_fills otherwise (hplaced.mono (Nat.le_add_right _ _)) hroom.right hlast
      simpa [Stmt.writes, Stmt.locals, joinArms_sets, Nat.add_assoc] using ih.append ihlast
  | .loop _ condition body, slots, slots', next, code, hplaced, hroom, h => by
      simp only [stmt, state_bind_eq_ok, state_pure_eq_ok] at h
      obtain ⟨testCode, t, htest, inner, u, hinner, rfl, rfl⟩ := h
      obtain ⟨rfl, ihtest⟩ := exitUnless_fills hplaced htest
      obtain ⟨v, hv, -⟩ := Scope.within_eq_ok.mp hinner
      have ih := stmts_fills body hplaced.push hroom hv
      simpa [Stmt.writes, Stmt.locals, Instr.sets] using ihtest.append ih
  | .ret _ none, slots, slots', next, code, _, _, h => by
      simp only [stmt, returned, state_pure_eq_ok] at h
      obtain ⟨rfl, rfl⟩ := h
      simpa [Stmt.writes, Stmt.locals, Instr.sets] using Fills.nil next
  | .ret _ (some value), slots, slots', next, code, hplaced, _, h => by
      simp only [stmt, returned, state_bind_eq_ok, state_pure_eq_ok, exprHere_eq_ok] at h
      obtain ⟨inner, t, ⟨hinner, rfl⟩, rfl, rfl⟩ := h
      simpa [Stmt.writes, Stmt.locals, Instr.sets] using expr_fills hplaced value hinner
  | .declare node kind name type initial, slots, slots', next, code, hplaced, hroom, h => by
      simp only [stmt, state_bind_eq_ok, state_pure_eq_ok, exprHere_eq_ok, state_ofExcept_eq_ok,
        Scope.bind_eq_ok] at h
      obtain ⟨inner, _, ⟨hinner, rfl⟩, slot, _, ⟨hslot, rfl⟩, _, _, rfl, rfl, rfl⟩ := h
      obtain rfl : next = slot := Except.ok.inj (hroom.head.1.symm.trans hslot)
      have hset : Fills next [.declaration kind node.id] [next] (next + 1) :=
        .declaration kind node.id (.nil (next + 1))
      simpa [Stmt.writes, Stmt.locals, Instr.sets] using
        (expr_fills hplaced initial hinner).append hset
  | .expr _ value, slots, slots', next, code, hplaced, _, h => by
      simp only [stmt, state_bind_eq_ok, state_pure_eq_ok, exprHere_eq_ok] at h
      obtain ⟨inner, t, ⟨hinner, rfl⟩, rfl, rfl⟩ := h
      have ih := expr_fills hplaced value hinner
      split
      · simpa [Stmt.writes, Stmt.locals, Instr.sets] using ih
      · simpa [Stmt.writes, Stmt.locals] using ih

theorem stmts_fills : (body : List (Stmt TypedNode)) → {slots slots' : Scope Nat} →
    {next : Nat} → {code : List Instr} → Placed slots next →
    Room slotTable types next (Stmt.listLocals body) →
    stmts slotTable body slots = .ok code slots' →
    Fills next (Stmt.listWrites body) (Instr.listSets code)
      (next + (Stmt.listLocals body).length)
  | [], slots, slots', next, code, _, _, h => by
      simp only [stmts, state_pure_eq_ok] at h
      obtain ⟨rfl, rfl⟩ := h
      simpa [Stmt.listWrites, Stmt.listLocals] using Fills.nil next
  | s :: rest, slots, slots', next, code, hplaced, hroom, h => by
      simp only [stmts, state_bind_eq_ok, state_pure_eq_ok] at h
      obtain ⟨first, t, hfirst, others, u, hothers, rfl, rfl⟩ := h
      have ih := stmt_fills s hplaced hroom.left hfirst
      have ihrest := stmts_fills rest (stmt_placed hplaced hroom.left hfirst) hroom.right hothers
      simpa [Stmt.listWrites, Stmt.listLocals, Nat.add_assoc] using ih.append ihrest

theorem arms_fills : (branches : List (Arm TypedNode)) → {slots slots' : Scope Nat} →
    {next : Nat} → {codes : List (List Instr)} → Placed slots next →
    Room slotTable types next (Stmt.armsLocals branches) →
    arms slotTable branches slots = .ok codes slots' →
    Fills next (Stmt.armsWrites branches) (codes.flatMap Instr.listSets)
      (next + (Stmt.armsLocals branches).length)
  | [], slots, slots', next, codes, _, _, h => by
      simp only [arms, state_pure_eq_ok] at h
      obtain ⟨rfl, rfl⟩ := h
      simpa [Stmt.armsWrites, Stmt.armsLocals] using Fills.nil next
  | ⟨condition, body, span⟩ :: rest, slots, slots', next, codes, hplaced, hroom, h => by
      simp only [arms, arm, state_bind_eq_ok, state_pure_eq_ok] at h
      obtain ⟨_, t, ⟨testCode, _, htest, inner, u, hinner, rfl, rfl⟩, restCodes, v, hrest, rfl,
        rfl⟩ := h
      obtain ⟨rfl, ihtest⟩ := exitUnless_fills hplaced htest
      obtain rfl := nested_slots body hinner
      obtain ⟨w, hw, -⟩ := Scope.within_eq_ok.mp hinner
      have ih := stmts_fills body hplaced.push hroom.left hw
      have ihrest := arms_fills rest (hplaced.mono (Nat.le_add_right _ _)) hroom.right hrest
      simpa [Stmt.armsWrites, Stmt.armsLocals, Stmt.armLocals, Nat.add_assoc] using
        ihtest.append (ih.append ihrest)

theorem elseBody_fills : (otherwise : Option (List (Stmt TypedNode))) →
    {slots slots' : Scope Nat} → {next : Nat} → {last : Option (List Instr)} →
    Placed slots next → Room slotTable types next (Stmt.elseLocals otherwise) →
    elseBody slotTable otherwise slots = .ok last slots' →
    Fills next (Stmt.elseWrites otherwise) ((last.map Instr.listSets).getD [])
      (next + (Stmt.elseLocals otherwise).length)
  | none, slots, slots', next, last, _, _, h => by
      simp only [elseBody, state_pure_eq_ok] at h
      obtain ⟨rfl, rfl⟩ := h
      simpa [Stmt.elseWrites, Stmt.elseLocals] using Fills.nil next
  | some body, slots, slots', next, last, hplaced, hroom, h => by
      simp only [elseBody, state_bind_eq_ok, state_pure_eq_ok] at h
      obtain ⟨inner, t, hinner, rfl, rfl⟩ := h
      obtain ⟨u, hu, -⟩ := Scope.within_eq_ok.mp hinner
      exact stmts_fills body hplaced.push hroom hu

end

end Statements

theorem allocate_locals {α : Type} {d : FuncDef α} {table : SlotTable}
    (h : SlotTable.allocate d = .ok table) :
    List.Forall₂ (fun l v => ValueType.ofTy? l.type = some v) (Stmt.declarations d.body)
      table.locals := by
  rw [← Stmt.listLocals_eq]
  exact (allocate_eq_ok h).2.imp fun l v hv => valueType_eq_ok.mp hv

theorem body_fills {d : FuncDef TypedNode} {table : SlotTable} {types : List ValueType}
    {code : List Instr}
    (hroom : Room table types d.signature.parameters.length (Stmt.listLocals d.body))
    (h : body table d = .ok code) :
    Fills d.signature.parameters.length (Stmt.listWrites d.body) (Instr.listSets code)
      (d.signature.parameters.length + (Stmt.listLocals d.body).length) := by
  simp only [body] at h
  split at h
  · next slots hcode =>
    obtain rfl := Except.ok.inj h
    exact stmts_fills d.body (parameterScope_placed _) hroom hcode
  · cases h

end Lower

open Lower

end Wattle
