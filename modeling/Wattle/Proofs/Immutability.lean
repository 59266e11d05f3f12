import Wattle.Proofs.VariableSlots

/-!
# Parameters and constants are never overwritten

A body writes to its locals where it declares a name and where it assigns to one. Each of these
writes becomes one `local.set`, in order. A declaration sets its own slot, and an assignment sets
the slot of a declaration with `var`, whichever names are hidden. So the slots of parameters are
never set, and the slot of a constant is set by its declaration only.
-/

namespace Wattle

/-! ## Writes to locals -/

/-- A place of a body that writes to a local. -/
inductive Write where
  /-- The declaration with the given number. -/
  | declaration (kind : DeclKind) (id : Nat)
  | assignment (name : String)
deriving DecidableEq

/-- The number of the declaration, if the write is one. -/
def Write.id? : Write → Option Nat
  | declaration _ id => some id
  | assignment _ => none

namespace Expr

variable {α : Type}

/-- What an assignment with this left side writes to. -/
def target : Expr α → List Write
  | name _ id => [.assignment id]
  | _ => []

mutual

/-- The writes of an expression, in the order in which they happen. -/
def writes : Expr α → List Write
  | name _ _ | number _ _ _ => []
  | call _ _ args => listWrites args
  | unary _ _ inner | paren _ inner | cast _ inner _ => inner.writes
  | binary _ op left right =>
    left.writes ++ right.writes ++ if op = .assign then left.target else []

def listWrites : List (Expr α) → List Write
  | [] => []
  | e :: rest => e.writes ++ listWrites rest

end

end Expr

namespace Stmt

variable {α : Type}

mutual

/-- The writes of a statement, in the order of the text. -/
def writes : Stmt α → List Write
  | cond _ arms otherwise => armsWrites arms ++ elseWrites otherwise
  | loop _ condition body => condition.writes ++ listWrites body
  | ret _ value => (value.map Expr.writes).getD []
  | declare node kind _ _ initial => initial.writes ++ [.declaration kind node.id]
  | expr _ value => value.writes

def listWrites : List (Stmt α) → List Write
  | [] => []
  | s :: rest => s.writes ++ listWrites rest

def armsWrites : List (Arm α) → List Write
  | [] => []
  | ⟨condition, body, _⟩ :: rest => condition.writes ++ listWrites body ++ armsWrites rest

def elseWrites : Option (List (Stmt α)) → List Write
  | none => []
  | some body => listWrites body

end

end Stmt

section Declarations

variable {α : Type}

mutual

theorem Expr.writes_id? : (e : Expr α) → e.writes.filterMap Write.id? = []
  | .name _ _ | .number _ _ _ => rfl
  | .call _ _ args => Expr.listWrites_id? args
  | .unary _ _ inner | .paren _ inner | .cast _ inner _ => inner.writes_id?
  | .binary _ op left right => by
      have htarget : left.target.filterMap Write.id? = [] := by cases left <;> rfl
      rw [Expr.writes, List.filterMap_append, List.filterMap_append, left.writes_id?,
        right.writes_id?]
      split
      · exact htarget
      · rfl

theorem Expr.listWrites_id? : (es : List (Expr α)) → (listWrites es).filterMap Write.id? = []
  | [] => rfl
  | e :: rest => by
      rw [Expr.listWrites, List.filterMap_append, e.writes_id?, Expr.listWrites_id? rest]
      rfl

end

mutual

/-- The declarations among the writes are those that take slots. -/
theorem Stmt.writes_id? : (s : Stmt α) →
    s.writes.filterMap Write.id? = s.locals.map LocalDecl.id
  | .cond _ arms otherwise => by
      rw [Stmt.writes, Stmt.locals, List.filterMap_append, List.map_append,
        Stmt.armsWrites_id? arms, Stmt.elseWrites_id? otherwise]
  | .loop _ condition body => by
      rw [Stmt.writes, Stmt.locals, List.filterMap_append, condition.writes_id?,
        Stmt.listWrites_id? body, List.nil_append]
  | .ret _ none => rfl
  | .ret _ (some value) => value.writes_id?
  | .declare node _ _ _ initial => by
      rw [Stmt.writes, Stmt.locals, List.filterMap_append, initial.writes_id?]
      rfl
  | .expr _ value => value.writes_id?

theorem Stmt.listWrites_id? : (body : List (Stmt α)) →
    (listWrites body).filterMap Write.id? = (listLocals body).map LocalDecl.id
  | [] => rfl
  | s :: rest => by
      rw [Stmt.listWrites, Stmt.listLocals, List.filterMap_append, List.map_append, s.writes_id?,
        Stmt.listWrites_id? rest]

theorem Stmt.armsWrites_id? : (arms : List (Arm α)) →
    (armsWrites arms).filterMap Write.id? = (armsLocals arms).map LocalDecl.id
  | [] => rfl
  | ⟨condition, body, _⟩ :: rest => by
      rw [Stmt.armsWrites, Stmt.armsLocals, Stmt.armLocals, List.filterMap_append,
        List.filterMap_append, List.map_append, condition.writes_id?, Stmt.listWrites_id? body,
        Stmt.armsWrites_id? rest, List.nil_append]

theorem Stmt.elseWrites_id? : (otherwise : Option (List (Stmt α))) →
    (elseWrites otherwise).filterMap Write.id? = (elseLocals otherwise).map LocalDecl.id
  | none => rfl
  | some body => Stmt.listWrites_id? body

end

end Declarations

/-! ## Slots that code sets -/

namespace Wasm.Instr

mutual

/-- The slots that an instruction sets, itself or inside, in order. -/
def sets : Instr → List Nat
  | localSet slot => [slot]
  | block body => listSets body
  | loop body => listSets body
  | _ => []

def listSets : List Instr → List Nat
  | [] => []
  | i :: rest => i.sets ++ listSets rest

end

@[simp] theorem listSets_nil : listSets [] = [] := by
  simp only [listSets]

@[simp] theorem listSets_cons (i : Instr) (code : List Instr) :
    listSets (i :: code) = i.sets ++ listSets code := by
  simp only [listSets]

@[simp] theorem listSets_append (xs ys : List Instr) :
    listSets (xs ++ ys) = listSets xs ++ listSets ys := by
  induction xs with
  | nil => simp
  | cons i xs ih => simp [ih]

end Wasm.Instr

namespace Lower

open Wasm

theorem binaryInstr_sets {op : BinaryOp} {t : Ty} {i : Instr} (h : binaryInstr op t = .ok i) :
    i.sets = [] := by
  obtain ⟨v, num, signed, -, -, -, rfl⟩ := binaryInstr_eq_ok.mp h
  simp [Instr.sets]

theorem conversion_sets {s t : Ty} {i : Option Instr} (h : conversion s t = .ok i) :
    Instr.listSets i.toList = [] := by
  rcases conversion_form h with rfl | ⟨target, op, source, sign, rfl⟩
  · simp
  · simp [Instr.sets]

theorem joinArms_sets (codes : List (List Instr)) (last : Option (List Instr)) :
    (joinArms codes last).sets =
      codes.flatMap Instr.listSets ++ (last.map Instr.listSets).getD [] := by
  have hmany : Instr.listSets (codes.map fun code => Instr.block (code ++ [.br 1])) =
      codes.flatMap Instr.listSets := by
    induction codes with
    | nil => simp
    | cons code codes ih => simp [Instr.sets, ih]
  have hlast : Instr.listSets (last.getD []) = (last.map Instr.listSets).getD [] := by
    cases last <;> simp
  simp only [joinArms]
  split
  · simp [Instr.sets]
  · simp [Instr.sets, hmany, hlast]

/-- The write sets the slot: a declaration its own, an assignment one of `mutables`. -/
def SetBy (slotTable : SlotTable) (mutables : Nat → Prop) : Write → Nat → Prop
  | .declaration _ id, slot => slotTable.slotFor id = .ok slot
  | .assignment _, slot => mutables slot

/-- Names that may be assigned to are kept in the slots of `mutables`. -/
abbrev MutableIn (mutables : Nat → Prop) (scope : Scope Symbol) (slots : Scope Nat) : Prop :=
  scope.Match (fun symbol slot => symbol.kind.isMutable = true → mutables slot) slots

/-- What the declarations with `var` among the writes set is among `mutables`. -/
def Covers (slotTable : SlotTable) (mutables : Nat → Prop) (ws : List Write) : Prop :=
  ∀ id, .declaration .var id ∈ ws → ∀ slot, slotTable.slotFor id = .ok slot → mutables slot

section Trees

variable (slotTable : SlotTable) {mutables : Nat → Prop} {table : Signatures}
  {scope : Scope Symbol} {slots : Scope Nat}

mutual

/-- An expression sets the slots of the names it assigns to, which are mutables. -/
theorem expr_sets (hmutable : MutableIn mutables scope slots) :
    (e : Expr TypedNode) → {code : List Instr} → e.Typed table scope →
    expr slots e = .ok code →
    List.Forall₂ (SetBy slotTable mutables) e.writes (Instr.listSets code)
  | .name _ id, code, _, h => by
      simp only [expr, except_bind_eq_ok, except_pure_eq_ok] at h
      obtain ⟨slot, -, rfl⟩ := h
      simp [Expr.writes, Instr.sets]
  | .number _ digits base, code, _, h => by
      simp only [expr] at h
      split at h
      · obtain rfl := Except.ok.inj h
        simp [Expr.writes, Instr.sets]
      · cases h
  | .call _ callee args, code, .call _ _ matched _, h => by
      simp only [expr, except_bind_eq_ok, except_pure_eq_ok] at h
      obtain ⟨inner, hinner, rfl⟩ := h
      have ih := exprs_sets hmutable args _ matched hinner
      simpa [Expr.writes, Instr.sets] using ih
  | .unary _ .negate operand, code, .negate typed _ _, h => by
      simp only [expr, except_bind_eq_ok, except_pure_eq_ok] at h
      obtain ⟨v, -, inner, hinner, sub, hsub, rfl⟩ := h
      have ih := expr_sets hmutable operand typed hinner
      simpa [Expr.writes, Instr.sets, binaryInstr_sets hsub] using ih
  | .unary _ .deref operand, code, .deref typed _, h => by
      simp only [expr, except_bind_eq_ok, except_pure_eq_ok] at h
      obtain ⟨inner, hinner, v, -, rfl⟩ := h
      have ih := expr_sets hmutable operand typed hinner
      simpa [Expr.writes, Instr.sets] using ih
  | .unary _ .logicalNot operand, code, .logicalNot typed _ _, h => by
      simp only [expr, except_bind_eq_ok, except_pure_eq_ok] at h
      obtain ⟨inner, hinner, rfl⟩ := h
      have ih := expr_sets hmutable operand typed hinner
      simpa [Expr.writes, Instr.sets] using ih
  | .binary _ .assign (.name target id) value, code, .assignName found kind _ right _ _, h => by
      simp only [expr, if_true, except_bind_eq_ok, except_pure_eq_ok, slotOf_eq_ok] at h
      obtain ⟨slot, hslot, inner, hinner, rfl⟩ := h
      have ih := expr_sets hmutable value right hinner
      -- the name means the same declaration on both sides, and that one is mutable
      obtain ⟨symbol, hsymbol, hvariable⟩ := hmutable.lookup?_left hslot
      obtain rfl := Option.some.inj (found.symm.trans hsymbol)
      have hset : SetBy slotTable mutables (.assignment id) slot := hvariable kind
      simpa [Expr.writes, Expr.target, Instr.sets] using List.rel_append ih (.cons hset .nil)
  | .binary _ .assign (.unary target .deref address) value, code,
      .assignDeref (.deref typed _) right _ _, h => by
      simp only [expr, if_true, except_bind_eq_ok, except_pure_eq_ok] at h
      obtain ⟨place, hplace, inner, hinner, v, -, rfl⟩ := h
      have ihplace := expr_sets hmutable address typed hplace
      have ih := expr_sets hmutable value right hinner
      simpa [Expr.writes, Expr.target, Instr.sets] using List.rel_append ihplace ih
  | .binary _ op left right, code, .binary operator first second _ _ _ _, h => by
      rw [expr_binary operator] at h
      simp only [except_bind_eq_ok, except_pure_eq_ok] at h
      obtain ⟨firstCode, hfirst, secondCode, hsecond, i, hi, rfl⟩ := h
      have ihfirst := expr_sets hmutable left first hfirst
      have ihsecond := expr_sets hmutable right second hsecond
      simpa [Expr.writes, operator, binaryInstr_sets hi] using List.rel_append ihfirst ihsecond
  | .paren _ inner, code, .paren typed _, h => by
      simp only [expr] at h
      exact expr_sets hmutable inner typed h
  | .cast _ operand target, code, .cast typed _ _ _, h => by
      simp only [expr, except_bind_eq_ok, except_pure_eq_ok] at h
      obtain ⟨inner, hinner, i, hi, rfl⟩ := h
      have ih := expr_sets hmutable operand typed hinner
      simpa [Expr.writes, conversion_sets hi] using ih

theorem exprs_sets (hmutable : MutableIn mutables scope slots) :
    (args : List (Expr TypedNode)) → (parameters : List Parameter) → {code : List Instr} →
    Expr.ArgsTyped table scope args parameters → exprs slots args = .ok code →
    List.Forall₂ (SetBy slotTable mutables) (Expr.listWrites args) (Instr.listSets code)
  | [], _, code, _, h => by
      simp only [exprs, Except.ok.injEq] at h
      subst h
      simp [Expr.listWrites]
  | e :: rest, _ :: parameters, code, .cons typed _ others, h => by
      simp only [exprs, except_bind_eq_ok, except_pure_eq_ok] at h
      obtain ⟨first, hfirst, restCode, hrest, rfl⟩ := h
      have ih := expr_sets hmutable e typed hfirst
      have ihrest := exprs_sets hmutable rest parameters others hrest
      simpa [Expr.listWrites] using List.rel_append ih ihrest

end

end Trees

theorem Covers.left {slotTable : SlotTable} {mutables : Nat → Prop} {ws ws' : List Write}
    (h : Covers slotTable mutables (ws ++ ws')) : Covers slotTable mutables ws :=
  fun id hid => h id (List.mem_append_left _ hid)

theorem Covers.right {slotTable : SlotTable} {mutables : Nat → Prop} {ws ws' : List Write}
    (h : Covers slotTable mutables (ws ++ ws')) : Covers slotTable mutables ws' :=
  fun id hid => h id (List.mem_append_right _ hid)

section Statements

variable {slotTable : SlotTable} {mutables : Nat → Prop} {table : Signatures} {result : Ty}

theorem exitUnless_sets (slotTable : SlotTable) {scope : Scope Symbol} {slots slots' : Scope Nat}
    (hmutable : MutableIn mutables scope slots) {condition : Expr TypedNode} {code : List Instr}
    (typed : condition.Typed table scope) (h : exitUnless condition slots = .ok code slots') :
    slots' = slots ∧
      List.Forall₂ (SetBy slotTable mutables) condition.writes (Instr.listSets code) := by
  obtain ⟨test, htest, rfl, rfl⟩ := exitUnless_eq_ok.mp h
  have ih := expr_sets slotTable hmutable condition typed htest
  exact ⟨rfl, by simpa [Instr.sets] using ih⟩

mutual

/-- A statement sets the slots that its writes ask for, and leaves a scope in which mutable names
are kept in the slots of mutables. -/
theorem stmt_sets : (s : Stmt TypedNode) → {scope : Scope Symbol} → {slots slots' : Scope Nat} →
    {code : List Instr} → MutableIn mutables scope slots →
    Covers slotTable mutables s.writes → s.Typed table result scope →
    stmt slotTable s slots = .ok code slots' →
    List.Forall₂ (SetBy slotTable mutables) s.writes (Instr.listSets code) ∧
      MutableIn mutables (s.scopeAfter scope) slots'
  | .cond _ branches otherwise, scope, slots, slots', code, hmutable, hcovers,
      .cond typedBranches typedLast, h => by
      simp only [stmt, state_bind_eq_ok, state_pure_eq_ok] at h
      obtain ⟨codes, t, hcodes, last, u, hlast, rfl, rfl⟩ := h
      obtain rfl := arms_slots branches hcodes
      have ih := arms_sets branches hmutable hcovers.left typedBranches hcodes
      have ihlast := elseBody_sets otherwise hmutable hcovers.right typedLast hlast
      refine ⟨?_, elseBody_slots otherwise hlast ▸ hmutable⟩
      simpa [Stmt.writes, joinArms_sets] using List.rel_append ih ihlast
  | .loop _ condition body, scope, slots, slots', code, hmutable, hcovers,
      .loop test _ inside, h => by
      simp only [stmt, state_bind_eq_ok, state_pure_eq_ok] at h
      obtain ⟨testCode, t, htest, inner, u, hinner, rfl, rfl⟩ := h
      obtain ⟨rfl, ihtest⟩ := exitUnless_sets slotTable hmutable test htest
      obtain ⟨v, hv, -⟩ := Scope.within_eq_ok.mp hinner
      have ih := stmts_sets body hmutable.push hcovers.right inside hv
      refine ⟨?_, nested_slots body hinner ▸ hmutable⟩
      simpa [Stmt.writes, Instr.sets] using List.rel_append ihtest ih
  | .ret _ none, scope, slots, slots', code, hmutable, _, _, h => by
      simp only [stmt, returned, state_pure_eq_ok] at h
      obtain ⟨rfl, rfl⟩ := h
      exact ⟨by simp [Stmt.writes, Instr.sets], hmutable⟩
  | .ret _ (some value), scope, slots, slots', code, hmutable, _, .retValue _ typed _, h => by
      simp only [stmt, returned, state_bind_eq_ok, state_pure_eq_ok, exprHere_eq_ok] at h
      obtain ⟨inner, t, ⟨hinner, rfl⟩, rfl, rfl⟩ := h
      have ih := expr_sets slotTable hmutable value typed hinner
      exact ⟨by simpa [Stmt.writes, Instr.sets] using ih, hmutable⟩
  | .declare node kind name type initial, scope, slots, slots', code, hmutable, hcovers,
      .declare typed _ _, h => by
      simp only [stmt, state_bind_eq_ok, state_pure_eq_ok, exprHere_eq_ok, state_ofExcept_eq_ok,
        Scope.bind_eq_ok] at h
      obtain ⟨inner, _, ⟨hinner, rfl⟩, slot, _, ⟨hslot, rfl⟩, _, _, rfl, rfl, rfl⟩ := h
      have ih := expr_sets slotTable hmutable initial typed hinner
      have hset : SetBy slotTable mutables (.declaration kind node.id) slot := hslot
      refine ⟨?_, hmutable.insert name ?_⟩
      · simpa [Stmt.writes, Instr.sets] using List.rel_append ih (.cons hset .nil)
      · intro hkind
        cases kind with
        | const => cases hkind
        | var => exact hcovers.right node.id List.mem_cons_self slot hslot
  | .expr _ value, scope, slots, slots', code, hmutable, _, .expr typed, h => by
      simp only [stmt, state_bind_eq_ok, state_pure_eq_ok, exprHere_eq_ok] at h
      obtain ⟨inner, t, ⟨hinner, rfl⟩, rfl, rfl⟩ := h
      have ih := expr_sets slotTable hmutable value typed hinner
      refine ⟨?_, hmutable⟩
      split
      · simpa [Stmt.writes, Instr.sets] using ih
      · exact ih

theorem stmts_sets : (body : List (Stmt TypedNode)) → {scope : Scope Symbol} →
    {slots slots' : Scope Nat} → {code : List Instr} → MutableIn mutables scope slots →
    Covers slotTable mutables (Stmt.listWrites body) → Stmt.ListTyped table result scope body →
    stmts slotTable body slots = .ok code slots' →
    List.Forall₂ (SetBy slotTable mutables) (Stmt.listWrites body) (Instr.listSets code)
  | [], scope, slots, slots', code, _, _, _, h => by
      simp only [stmts, state_pure_eq_ok] at h
      obtain ⟨rfl, rfl⟩ := h
      simp [Stmt.listWrites]
  | s :: rest, scope, slots, slots', code, hmutable, hcovers, .cons first _ others, h => by
      simp only [stmts, state_bind_eq_ok, state_pure_eq_ok] at h
      obtain ⟨firstCode, t, hfirst, restCode, u, hrest, rfl, rfl⟩ := h
      obtain ⟨ih, hnext⟩ := stmt_sets s hmutable hcovers.left first hfirst
      have ihrest := stmts_sets rest hnext hcovers.right others hrest
      simpa [Stmt.listWrites] using List.rel_append ih ihrest

theorem arms_sets : (branches : List (Arm TypedNode)) → {scope : Scope Symbol} →
    {slots slots' : Scope Nat} → {codes : List (List Instr)} → MutableIn mutables scope slots →
    Covers slotTable mutables (Stmt.armsWrites branches) →
    Stmt.ArmsTyped table result scope branches → arms slotTable branches slots = .ok codes slots' →
    List.Forall₂ (SetBy slotTable mutables) (Stmt.armsWrites branches)
      (codes.flatMap Instr.listSets)
  | [], scope, slots, slots', codes, _, _, _, h => by
      simp only [arms, state_pure_eq_ok] at h
      obtain ⟨rfl, rfl⟩ := h
      simp [Stmt.armsWrites]
  | ⟨condition, body, span⟩ :: rest, scope, slots, slots', codes, hmutable, hcovers,
      .cons test _ inside others, h => by
      simp only [arms, arm, state_bind_eq_ok, state_pure_eq_ok] at h
      obtain ⟨_, t, ⟨testCode, _, htest, inner, u, hinner, rfl, rfl⟩, restCodes, v, hrest, rfl,
        rfl⟩ := h
      obtain ⟨rfl, ihtest⟩ := exitUnless_sets slotTable hmutable test htest
      obtain rfl := nested_slots body hinner
      obtain ⟨w, hw, -⟩ := Scope.within_eq_ok.mp hinner
      have ih := stmts_sets body hmutable.push hcovers.left.right inside hw
      have ihrest := arms_sets rest hmutable hcovers.right others hrest
      simpa [Stmt.armsWrites] using List.rel_append ihtest (List.rel_append ih ihrest)

theorem elseBody_sets : (otherwise : Option (List (Stmt TypedNode))) → {scope : Scope Symbol} →
    {slots slots' : Scope Nat} → {last : Option (List Instr)} → MutableIn mutables scope slots →
    Covers slotTable mutables (Stmt.elseWrites otherwise) →
    Stmt.ElseTyped table result scope otherwise →
    elseBody slotTable otherwise slots = .ok last slots' →
    List.Forall₂ (SetBy slotTable mutables) (Stmt.elseWrites otherwise)
      ((last.map Instr.listSets).getD [])
  | none, scope, slots, slots', last, _, _, _, h => by
      simp only [elseBody, state_pure_eq_ok] at h
      obtain ⟨rfl, rfl⟩ := h
      simp [Stmt.elseWrites]
  | some body, scope, slots, slots', last, hmutable, hcovers, .some inside, h => by
      simp only [elseBody, state_bind_eq_ok, state_pure_eq_ok] at h
      obtain ⟨inner, t, hinner, rfl, rfl⟩ := h
      obtain ⟨u, hu, -⟩ := Scope.within_eq_ok.mp hinner
      exact stmts_sets body hmutable.push hcovers inside hu

end

end Statements

/-! ## Functions -/

/-- The slot belongs to a declaration with `var`. -/
def VariableSlot (slotTable : SlotTable) (body : List (Stmt TypedNode)) (slot : Nat) : Prop :=
  ∃ id, Write.declaration .var id ∈ Stmt.listWrites body ∧ slotTable.slotFor id = .ok slot

/-- The code of a function sets slots as its body writes to locals, one after the other. No slot of
a parameter is among them, and the slot of a constant is there only where it is declared. -/
structure SetsFollow (d : FuncDef TypedNode) (slotTable : SlotTable) (code : List Instr) :
    Prop where
  writes : List.Forall₂ (SetBy slotTable (VariableSlot slotTable d.body))
    (Stmt.listWrites d.body) (Instr.listSets code)
  parameters : ∀ slot ∈ Instr.listSets code, d.signature.parameters.length ≤ slot
  constants : ∀ id, Write.declaration .const id ∈ Stmt.listWrites d.body →
    ∃ place slot : Nat, (Stmt.listWrites d.body)[place]? = some (.declaration .const id) ∧
      slotTable.slotFor id = .ok slot ∧
      ∀ j, (Instr.listSets code)[j]? = some slot ↔ j = place

/-- Of the writes of a body, at most one is the declaration with a given number. -/
theorem place_unique {ws : List Write} (h : (ws.filterMap Write.id?).Nodup) {i j id : Nat}
    {w w' : Write} (hi : ws[i]? = some w) (hj : ws[j]? = some w') (hw : w.id? = some id)
    (hw' : w'.id? = some id) : i = j := by
  rw [List.Nodup, List.pairwise_filterMap, List.pairwise_iff_getElem] at h
  obtain ⟨hilt, rfl⟩ := List.getElem?_eq_some_iff.mp hi
  obtain ⟨hjlt, rfl⟩ := List.getElem?_eq_some_iff.mp hj
  rcases Nat.lt_trichotomy i j with hlt | heq | hlt
  · exact absurd rfl (h i j hilt hjlt hlt id hw id hw')
  · exact heq
  · exact absurd rfl (h j i hjlt hilt hlt id hw' id hw)

section Slots

variable {d : FuncDef TypedNode} {slotTable : SlotTable} {types : List ValueType}
  (hroom : Room slotTable types d.signature.parameters.length (Stmt.listLocals d.body))
include hroom

theorem exists_slotFor {w : Write} {id : Nat} (hw : w ∈ Stmt.listWrites d.body)
    (hid : w.id? = some id) :
    ∃ i : Nat, ((Stmt.listLocals d.body).map LocalDecl.id)[i]? = some id ∧
      slotTable.slotFor id = .ok (d.signature.parameters.length + i) := by
  have hmem : id ∈ (Stmt.listWrites d.body).filterMap Write.id? :=
    List.mem_filterMap.mpr ⟨w, hw, hid⟩
  rw [Stmt.listWrites_id?] at hmem
  obtain ⟨i, hi⟩ := List.mem_iff_getElem?.mp hmem
  rw [List.getElem?_map] at hi
  obtain ⟨l, hl, rfl⟩ := Option.map_eq_some_iff.mp hi
  exact ⟨i, by rw [List.getElem?_map, hl]; rfl, (hroom i l hl).1⟩

/-- Declarations have slots of their own. -/
theorem id_unique {w w' : Write} {id id' slot : Nat} (hw : w ∈ Stmt.listWrites d.body)
    (hw' : w' ∈ Stmt.listWrites d.body) (hid : w.id? = some id) (hid' : w'.id? = some id')
    (hslot : slotTable.slotFor id = .ok slot) (hslot' : slotTable.slotFor id' = .ok slot) :
    id = id' := by
  obtain ⟨i, hi, hfound⟩ := exists_slotFor hroom hw hid
  obtain ⟨i', hi', hfound'⟩ := exists_slotFor hroom hw' hid'
  have hsame : d.signature.parameters.length + i = d.signature.parameters.length + i' := by
    rw [← Except.ok.inj (hslot.symm.trans hfound), ← Except.ok.inj (hslot'.symm.trans hfound')]
  obtain rfl : i = i' := Nat.add_left_cancel hsame
  exact Option.some.inj (hi.symm.trans hi')

theorem SetBy.le_slot {w : Write} {slot : Nat}
    (h : SetBy slotTable (VariableSlot slotTable d.body) w slot)
    (hw : w ∈ Stmt.listWrites d.body) : d.signature.parameters.length ≤ slot := by
  have hdeclared : ∃ w' id, w' ∈ Stmt.listWrites d.body ∧ w'.id? = some id ∧
      slotTable.slotFor id = .ok slot := by
    cases w with
    | declaration kind id => exact ⟨_, id, hw, rfl, h⟩
    | assignment name =>
        obtain ⟨id, hid, hslot⟩ := h
        exact ⟨_, id, hid, rfl, hslot⟩
  obtain ⟨w', id, hw', hid, hslot⟩ := hdeclared
  obtain ⟨i, -, hfound⟩ := exists_slotFor hroom hw' hid
  rw [Except.ok.inj (hslot.symm.trans hfound)]
  exact Nat.le_add_right _ _

/-- What sets the slot of a constant is its declaration. -/
theorem SetBy.eq_declaration {w : Write} {id slot : Nat}
    (hnodup : ((Stmt.listLocals d.body).map LocalDecl.id).Nodup)
    (hconst : Write.declaration .const id ∈ Stmt.listWrites d.body)
    (hslot : slotTable.slotFor id = .ok slot)
    (h : SetBy slotTable (VariableSlot slotTable d.body) w slot)
    (hw : w ∈ Stmt.listWrites d.body) : w.id? = some id := by
  cases w with
  | declaration kind id' =>
      rw [id_unique hroom hw hconst rfl rfl h hslot]
      rfl
  | assignment name =>
      obtain ⟨id', hvar, hslot'⟩ := h
      obtain rfl := id_unique hroom hvar hconst rfl rfl hslot' hslot
      -- one number would belong to a variable and to a constant
      rw [← Stmt.listWrites_id?] at hnodup
      obtain ⟨i, hi⟩ := List.mem_iff_getElem?.mp hvar
      obtain ⟨j, hj⟩ := List.mem_iff_getElem?.mp hconst
      obtain rfl := place_unique hnodup hi hj rfl rfl
      rw [hi] at hj
      cases hj

end Slots

theorem func_setsFollow {exported : Bool} {d : FuncDef TypedNode} {table : Signatures}
    {f : Wasm.Func} (typed : d.Typed table)
    (hnodup : ((Stmt.listLocals d.body).map LocalDecl.id).Nodup) (h : func exported d = .ok f) :
    ∃ slotTable, SlotTable.allocate d = .ok slotTable ∧ SetsFollow d slotTable f.body := by
  obtain ⟨slotTable, slots, halloc, hcode, htype, -, -, -⟩ := func_eq_ok h
  have hroom := allocate_room hnodup (funcType_eq_ok.mp htype).1.length_eq.symm halloc
  have hmutable : MutableIn (VariableSlot slotTable d.body)
      (Check.parameterScope d.signature.parameters) (parameterScope d.signature.parameters) :=
    parameterScope_match fun _ _ _ hkind => nomatch hkind
  have hcovers : Covers slotTable (VariableSlot slotTable d.body) (Stmt.listWrites d.body) :=
    fun id hid slot hslot => ⟨id, hid, hslot⟩
  have hwrites := stmts_sets d.body hmutable hcovers typed.body hcode
  refine ⟨slotTable, halloc, hwrites, ?_, ?_⟩
  · intro slot hslot
    obtain ⟨w, hw, hset⟩ := forall₂_partner_left hwrites hslot
    exact hset.le_slot hroom hw
  · intro id hconst
    obtain ⟨place, hplace⟩ := List.mem_iff_getElem?.mp hconst
    obtain ⟨slot, hset, hslot⟩ := forall₂_getElem? hwrites hplace
    refine ⟨place, slot, hplace, hslot, fun j => ⟨fun hj => ?_, fun hj => hj ▸ hset⟩⟩
    obtain ⟨w, hw, hsetBy⟩ := forall₂_getElem? hwrites.flip hj
    have hid := SetBy.eq_declaration hroom hnodup hconst hslot hsetBy (List.mem_of_getElem? hw)
    rw [← Stmt.listWrites_id?] at hnodup
    exact place_unique hnodup hw hplace hid rfl

end Lower

open Lower

end Wattle
