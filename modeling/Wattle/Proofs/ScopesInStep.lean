import Wattle.Proofs.Assembly
import Wattle.Proofs.BalancedScopes
import Wattle.Proofs.DeclarationSlots

/-!
# Scopes in step

Checking looks up types and the production of code looks up slots, each in a chain of scopes of its
own. The two walk over the same body, one after the other, and at every statement of it, however
deep, the chains have the same frames with the same names in the same order: what a name means to
one of them is of the machine type that it means to the other.
-/

namespace Wattle

/-! ## Ways to a statement -/

namespace Stmt

variable {α : Type}

/-- One of the bodies of a statement. -/
inductive Part where
  | arm (index : Nat)
  | otherwise
  | loop

/-- The way to a statement of a body: its index, or the index of a statement, one of the bodies of
that statement and the way from there. -/
inductive Path where
  | here (index : Nat)
  | inside (index : Nat) (part : Part) (path : Path)

def part? : Stmt α → Part → Option (List (Stmt α))
  | cond _ arms _, .arm index => arms[index]?.map Arm.body
  | cond _ _ otherwise, .otherwise => otherwise
  | loop _ _ body, .loop => some body
  | _, _ => none

def at? : List (Stmt α) → Path → Option (Stmt α)
  | body, .here index => body[index]?
  | body, .inside index part path => do
    let s ← body[index]?
    at? (← s.part? part) path

theorem at?_inside {body inner : List (Stmt α)} {index : Nat} {s t : Stmt α} {part : Part}
    {path : Path} (hs : body[index]? = some s) (hpart : s.part? part = some inner)
    (ht : at? inner path = some t) : at? body (.inside index part path) = some t := by
  simp [at?, hs, hpart, ht]

/-- One statement more in front shifts the ways by one. -/
theorem exists_path_cons {s t : Stmt α} {rest : List (Stmt α)}
    (h : ∃ path, at? rest path = some t) : ∃ path, at? (s :: rest) path = some t := by
  obtain ⟨path, hpath⟩ := h
  cases path with
  | here index => exact ⟨.here (index + 1), hpath⟩
  | inside index part path => exact ⟨.inside (index + 1) part path, hpath⟩

mutual

theorem exists_part : (s : Stmt α) → {t : Stmt α} → t ∈ s.inside →
    ∃ part inner path, s.part? part = some inner ∧ at? inner path = some t
  | cond _ arms otherwise, t, h => by
      rcases List.mem_append.mp h with h | h
      · obtain ⟨index, arm, path, harm, ht⟩ := exists_arm arms h
        exact ⟨.arm index, arm.body, path, by simp [part?, harm], ht⟩
      · cases otherwise with
        | none => cases h
        | some body =>
            obtain ⟨path, ht⟩ := exists_path body h
            exact ⟨.otherwise, body, path, rfl, ht⟩
  | loop _ _ body, t, h => by
      obtain ⟨path, ht⟩ := exists_path body h
      exact ⟨.loop, body, path, rfl, ht⟩

/-- There is a way to every statement of a body. -/
theorem exists_path : (body : List (Stmt α)) → {t : Stmt α} → t ∈ depthFirst body →
    ∃ path, at? body path = some t
  | s :: rest, t, h => by
      rcases List.mem_cons.mp h with rfl | h
      · exact ⟨.here 0, rfl⟩
      rcases List.mem_append.mp h with h | h
      · obtain ⟨part, inner, path, hpart, ht⟩ := exists_part s h
        exact ⟨.inside 0 part path, at?_inside rfl hpart ht⟩
      · exact exists_path_cons (exists_path rest h)

theorem exists_arm : (arms : List (Arm α)) → {t : Stmt α} → t ∈ armsInside arms →
    ∃ (index : Nat) (arm : Arm α) (path : Path),
      arms[index]? = some arm ∧ at? arm.body path = some t
  | ⟨condition, body, span⟩ :: rest, t, h => by
      rcases List.mem_append.mp h with h | h
      · obtain ⟨path, ht⟩ := exists_path body h
        exact ⟨0, ⟨condition, body, span⟩, path, rfl, ht⟩
      · obtain ⟨index, arm, path, harm, ht⟩ := exists_arm rest h
        exact ⟨index + 1, arm, path, harm, ht⟩

end

end Stmt

/-! ## The chain on the way to a statement -/

/-- The chain that a step reaches if it succeeds. -/
def Scope.reached? {ε α β : Type} (x : EStateM ε (Scope β) α) (chain : Scope β) :
    Option (Scope β) :=
  match x chain with
  | .ok _ t => some t
  | .error _ _ => none

theorem Scope.reached?_eq_some {ε α β : Type} {x : EStateM ε (Scope β) α} {s t : Scope β} :
    reached? x s = some t ↔ ∃ a, x s = .ok a t := by
  simp only [reached?]
  cases x s <;> simp

/-- The steps by which a pass comes to the statements of a body, each with the chain that it
reaches. -/
structure Pass (α β : Type) where
  stmts : List (Stmt α) → Scope β → Option (Scope β)
  /-- The arms of one conditional, from the first on. -/
  arms : List (Arm α) → Scope β → Option (Scope β)
  /-- A condition behind the given keyword. -/
  condition : Keyword → Expr α → Scope β → Option (Scope β)

namespace Pass

variable {α β : Type} (pass : Pass α β)

/-- The chain at the start of a body of a statement, from the chain before the statement. -/
def enter? : Stmt α → Stmt.Part → Scope β → Option (Scope β)
  | .cond _ arms _, .arm index, chain => do
    let arm ← arms[index]?
    let chain ← pass.arms (arms.take index) chain
    let chain ← pass.condition (if index = 0 then .if_ else .elif) arm.condition chain
    return chain.push
  | .cond _ arms _, .otherwise, chain => do
    let chain ← pass.arms arms chain
    return chain.push
  | .loop _ condition _, .loop, chain => do
    let chain ← pass.condition .while_ condition chain
    return chain.push
  | _, _, _ => none

/-- The chain before a statement of a body, from the chain at the start of the body. -/
def before? : List (Stmt α) → Stmt.Path → Scope β → Option (Scope β)
  | body, .here index, chain => pass.stmts (body.take index) chain
  | body, .inside index part path, chain => do
    let s ← body[index]?
    let inner ← s.part? part
    let chain ← pass.stmts (body.take index) chain
    before? inner path (← pass.enter? s part chain)

theorem before?_inside {body inner : List (Stmt α)} {index : Nat} {s : Stmt α}
    {part : Stmt.Part} {path : Stmt.Path} {start outside inside : Scope β}
    (hs : body[index]? = some s) (hpart : s.part? part = some inner)
    (houtside : pass.stmts (body.take index) start = some outside)
    (hinside : pass.enter? s part outside = some inside) :
    pass.before? body (.inside index part path) start = pass.before? inner path inside := by
  simp [before?, hs, hpart, houtside, hinside]

end Pass

/-- Checking the body of a function with the given result. -/
def Check.pass (table : Signatures) (result : Ty) : Pass Node Symbol where
  stmts body := Scope.reached? (stmts table result false body)
  arms branches := Scope.reached? (arms table result .if_ branches)
  condition word e := Scope.reached? (typedHere table .i32 (.condition word) e)

/-- Producing the code of the body of a function with the given slots. -/
def Lower.pass (slots : SlotTable) : Pass TypedNode Nat where
  stmts body := Scope.reached? (stmts slots body)
  arms branches := Scope.reached? (arms slots branches)
  condition _ e := Scope.reached? (exitUnless e)

/-! ## Both passes at a statement -/

namespace Lower

open Wasm

/-- There is a slot with the number, and it is of the machine type of the given type. -/
def SlotFits (types : List ValueType) (type : Ty) (slot : Nat) : Prop :=
  ∃ v, types[slot]? = some v ∧ ValueType.ofTy? type = some v

/-- Every declaration has a slot that fits its type. -/
def Housed (slots : SlotTable) (types : List ValueType) (locals : List LocalDecl) : Prop :=
  ∀ l ∈ locals, ∃ slot, slots.slotFor l.id = .ok slot ∧ SlotFits types l.type slot

theorem Room.housed {slots : SlotTable} {types : List ValueType} {next : Nat}
    {locals : List LocalDecl} (h : Room slots types next locals)
    (hvalues : ∀ l ∈ locals, l.type ≠ .void) : Housed slots types locals := by
  intro l hl
  obtain ⟨i, hi⟩ := List.mem_iff_getElem?.mp hl
  obtain ⟨hslot, htype⟩ := h i l hi
  obtain ⟨v, hv⟩ := exists_valueType (hvalues l hl)
  rw [valueType_eq_ok] at hv
  exact ⟨next + i, hslot, v, htype.trans hv, hv⟩

end Lower

/-- The chains have the same frames with the same names in the same order, and every slot fits the
type that the name has in its place. -/
abbrev Scope.Agree (types : List Wasm.ValueType) : Scope Symbol → Scope Nat → Prop :=
  Scope.Match fun symbol slot => Lower.SlotFits types symbol.type slot

section Passes

open Lower Scope

variable (table : Signatures) (result : Ty) (slots : SlotTable) (types : List Wasm.ValueType)

/-- From their chains, which agree, checking turns a statement into the other one and that becomes
code. -/
structure InStep (s : Stmt Node) (t : Stmt TypedNode) (chain : Scope Symbol) (chain' : Scope Nat) :
    Prop where
  checked : ∃ rest, Check.stmt table result s chain = .ok t rest
  lowered : ∃ code rest, Lower.stmt slots t chain' = .ok code rest
  housed : Housed slots types t.locals
  agree : Agree types chain chain'

/-- From their chains, which agree, both passes get through a body. -/
structure PassThrough (body : List (Stmt Node)) (typed : List (Stmt TypedNode))
    (chain : Scope Symbol) (chain' : Scope Nat) : Prop where
  checked : ∃ rest, Check.stmts table result false body chain = .ok typed rest
  lowered : ∃ code rest, Lower.stmts slots typed chain' = .ok code rest
  housed : Housed slots types (Stmt.listLocals typed)
  agree : Agree types chain chain'

variable {table result slots types}

/-- A checked statement binds the same name as before. -/
theorem binds?_of_checked {s : Stmt Node} {t : Stmt TypedNode} {c c' : Scope Symbol}
    (h : Check.stmt table result s c = .ok t c') : t.binds? = s.binds? := by
  cases s with
  | cond _ _ _ | loop _ _ _ | declare _ _ _ _ _ =>
      simp only [Check.stmt, state_bind_eq_ok, state_pure_eq_ok] at h
      obtain ⟨_, _, -, _, _, -, rfl, -⟩ := h
      rfl
  | ret _ _ | expr _ _ =>
      simp only [Check.stmt, state_bind_eq_ok, state_pure_eq_ok] at h
      obtain ⟨_, _, -, rfl, -⟩ := h
      rfl

/-- Behind a statement the chains agree again: neither pass has bound anything, or both have bound
the same name. -/
theorem stmt_agree {s : Stmt Node} {t : Stmt TypedNode} {c c' : Scope Symbol} {l l' : Scope Nat}
    {code : List Wasm.Instr} (hcheck : Check.stmt table result s c = .ok t c')
    (hlower : Lower.stmt slots t l = .ok code l') (housed : Housed slots types t.locals)
    (h : Agree types c l) : Agree types c' l' := by
  have hc := (Check.stmt_extends table result s).of_ok hcheck
  have hl := (Lower.stmt_extends slots t).of_ok hlower
  rw [binds?_of_checked hcheck] at hl
  cases s with
  | declare node kind name type initial =>
      simp only [Check.stmt, state_bind_eq_ok, state_pure_eq_ok, Check.typedHere_eq_ok,
        Scope.bind_eq_ok] at hcheck
      obtain ⟨typed, _, ⟨-, -, rfl⟩, _, _, rfl, rfl, rfl⟩ := hcheck
      simp only [Lower.stmt, state_bind_eq_ok, state_pure_eq_ok, exprHere_eq_ok,
        state_ofExcept_eq_ok, Scope.bind_eq_ok] at hlower
      obtain ⟨_, _, ⟨-, rfl⟩, slot, _, ⟨hslot, rfl⟩, _, _, rfl, -, rfl⟩ := hlower
      obtain ⟨slot', hslot', hfits⟩ := housed ⟨node.id, type⟩ (List.mem_singleton_self _)
      obtain rfl : slot = slot' := Except.ok.inj (hslot.symm.trans hslot')
      exact h.insert name hfits
  | cond _ _ _ | loop _ _ _ | ret _ _ | expr _ _ =>
      rw [← hc.eq_of_none, ← hl.eq_of_none]
      exact h

/-- On the way through a body both passes come to each of its statements in step. -/
theorem stmts_inStep {body : List (Stmt Node)} {unreachable : Bool} {typed : List (Stmt TypedNode)}
    {c c' : Scope Symbol} {l l' : Scope Nat} {code : List Wasm.Instr}
    (hcheck : Check.stmts table result unreachable body c = .ok typed c')
    (hlower : Lower.stmts slots typed l = .ok code l')
    (housed : Housed slots types (Stmt.listLocals typed)) (h : Agree types c l)
    {index : Nat} {s : Stmt Node} (hs : body[index]? = some s) :
    ∃ t chain chain', typed[index]? = some t ∧
      reached? (Check.stmts table result unreachable (body.take index)) c = some chain ∧
      reached? (Lower.stmts slots (typed.take index)) l = some chain' ∧
      InStep table result slots types s t chain chain' := by
  induction body generalizing unreachable typed c l code index with
  | nil => cases hs
  | cons first rest ih =>
      simp only [Check.stmts] at hcheck
      split at hcheck
      · exact absurd hcheck state_throw_ne_ok
      next hreach =>
      simp only [state_bind_eq_ok, state_pure_eq_ok] at hcheck
      obtain ⟨t, c₁, hfirst, others, c₂, hrest, rfl, rfl⟩ := hcheck
      simp only [Lower.stmts, state_bind_eq_ok, state_pure_eq_ok] at hlower
      obtain ⟨code₁, l₁, hcode, code₂, l₂, hcodes, -, rfl⟩ := hlower
      obtain ⟨hhere, hlater⟩ := List.forall_mem_append.mp housed
      cases index with
      | zero =>
          obtain rfl := Option.some.inj hs
          exact ⟨t, c, l, rfl, reached?_eq_some.mpr ⟨[], rfl⟩, reached?_eq_some.mpr ⟨[], rfl⟩,
            ⟨_, hfirst⟩, ⟨_, _, hcode⟩, hhere, h⟩
      | succ index =>
          have hagree := stmt_agree hfirst hcode hhere h
          obtain ⟨u, chain, chain', hu, hchain, hchain', hstep⟩ :=
            ih hrest hcodes hlater hagree hs
          -- what leads to the statement is `first` and what leads to it from there
          refine ⟨u, chain, chain', hu, ?_, ?_, hstep⟩
          · obtain ⟨before, hbefore⟩ := reached?_eq_some.mp hchain
            simp only [reached?_eq_some, List.take_succ_cons, Check.stmts, if_neg hreach,
              state_bind_eq_ok, state_pure_eq_ok]
            exact ⟨_, t, c₁, hfirst, before, chain, hbefore, rfl, rfl⟩
          · obtain ⟨before, hbefore⟩ := reached?_eq_some.mp hchain'
            simp only [reached?_eq_some, List.take_succ_cons, Lower.stmts, state_bind_eq_ok,
              state_pure_eq_ok]
            exact ⟨_, code₁, l₁, hcode, before, chain', hbefore, rfl, rfl⟩

/-- Both passes open a frame for a nested body. -/
theorem within_passThrough {body : List (Stmt Node)} {typed : List (Stmt TypedNode)}
    {c c' : Scope Symbol} {l l' : Scope Nat} {code : List Wasm.Instr}
    (hcheck : Scope.within (Check.stmts table result false body) c = .ok typed c')
    (hlower : Scope.within (Lower.stmts slots typed) l = .ok code l')
    (housed : Housed slots types (Stmt.listLocals typed)) (h : Agree types c l) :
    PassThrough table result slots types body typed c.push l.push := by
  obtain ⟨u, hu, -⟩ := Scope.within_eq_ok.mp hcheck
  obtain ⟨v, hv, -⟩ := Scope.within_eq_ok.mp hlower
  exact ⟨⟨u, hu⟩, ⟨code, v, hv⟩, housed, h.push⟩

/-- On the way through the arms of a conditional both passes come to each of the bodies in step;
the chains before an arm are those before the conditional. -/
theorem arms_passThrough {branches : List (Arm Node)} {word : Keyword}
    {typed : List (Arm TypedNode)} {c c' : Scope Symbol} {l l' : Scope Nat}
    {codes : List (List Wasm.Instr)}
    (hcheck : Check.arms table result word branches c = .ok typed c')
    (hlower : Lower.arms slots typed l = .ok codes l')
    (housed : Housed slots types (Stmt.armsLocals typed)) (h : Agree types c l)
    {index : Nat} {a : Arm Node} (ha : branches[index]? = some a) :
    ∃ b : Arm TypedNode, typed[index]? = some b ∧
      reached? (Check.arms table result word (branches.take index)) c = some c ∧
      reached? (Lower.arms slots (typed.take index)) l = some l ∧
      reached? (Check.typedHere table .i32
        (.condition (if index = 0 then word else .elif)) a.condition) c = some c ∧
      reached? (Lower.exitUnless b.condition) l = some l ∧
      PassThrough table result slots types a.body b.body c.push l.push := by
  induction branches generalizing word typed codes index with
  | nil => cases ha
  | cons first rest ih =>
      obtain ⟨condition, body, span⟩ := first
      simp only [Check.arms, Check.arm, state_bind_eq_ok, state_pure_eq_ok] at hcheck
      obtain ⟨_, c₂, ⟨test, c₁, htest, inner, c₃, hinner, rfl, rfl⟩, others, c₄, hrest, rfl, rfl⟩ :=
        hcheck
      simp only [Lower.arms, Lower.arm, state_bind_eq_ok, state_pure_eq_ok] at hlower
      obtain ⟨_, l₂, ⟨exitCode, l₁, hexit, code, l₃, hcode, rfl, rfl⟩, codes', l₄, hcodes, rfl,
        rfl⟩ := hlower
      -- neither the condition nor the body of the first arm leaves a trace
      obtain rfl := (Check.typedHere_keepsAll table _ _ condition).of_ok htest
      obtain rfl := (Lower.exitUnless_keepsAll test).of_ok hexit
      obtain rfl := (Check.stmts_keepsOuter table result false body).within.of_ok hinner
      obtain rfl := (Lower.stmts_keepsOuter slots inner).within.of_ok hcode
      obtain ⟨hhere, hlater⟩ := List.forall_mem_append.mp housed
      cases index with
      | zero =>
          obtain rfl := Option.some.inj ha
          exact ⟨_, rfl, reached?_eq_some.mpr ⟨[], rfl⟩, reached?_eq_some.mpr ⟨[], rfl⟩,
            reached?_eq_some.mpr ⟨_, htest⟩, reached?_eq_some.mpr ⟨_, hexit⟩,
            within_passThrough hinner hcode hhere h⟩
      | succ index =>
          obtain ⟨b, hb, hbefore, hbefore', htest', hexit', hpass⟩ := ih hrest hcodes hlater ha
          refine ⟨b, hb, ?_, ?_, by simpa using htest', hexit', hpass⟩
          · obtain ⟨before, hbefore⟩ := reached?_eq_some.mp hbefore
            simp only [reached?_eq_some, List.take_succ_cons, Check.arms, Check.arm,
              state_bind_eq_ok, state_pure_eq_ok]
            exact ⟨_, _, c, ⟨test, c, htest, inner, c, hinner, rfl, rfl⟩, before, c, hbefore, rfl,
              rfl⟩
          · obtain ⟨before, hbefore⟩ := reached?_eq_some.mp hbefore'
            simp only [reached?_eq_some, List.take_succ_cons, Lower.arms, Lower.arm,
              state_bind_eq_ok, state_pure_eq_ok]
            exact ⟨_, _, l, ⟨exitCode, l, hexit, code, l, hcode, rfl, rfl⟩, before, l, hbefore, rfl,
              rfl⟩

/-- Both passes enter the bodies of a statement in step. -/
theorem InStep.enter {s : Stmt Node} {t : Stmt TypedNode} {c : Scope Symbol} {l : Scope Nat}
    (h : InStep table result slots types s t c l) {part : Stmt.Part} {body : List (Stmt Node)}
    (hpart : s.part? part = some body) :
    ∃ typed c' l', t.part? part = some typed ∧
      (Check.pass table result).enter? s part c = some c' ∧
      (Lower.pass slots).enter? t part l = some l' ∧
      PassThrough table result slots types body typed c' l' := by
  obtain ⟨⟨c₁, hcheck⟩, ⟨code, l₁, hlower⟩, housed, agree⟩ := h
  cases s with
  | cond node branches otherwise =>
      simp only [Check.stmt, state_bind_eq_ok, state_pure_eq_ok] at hcheck
      obtain ⟨typed, c₂, harms, last, c₃, helse, rfl, rfl⟩ := hcheck
      simp only [Lower.stmt, state_bind_eq_ok, state_pure_eq_ok] at hlower
      obtain ⟨codes, l₂, hcodes, rest, l₃, hrest, rfl, rfl⟩ := hlower
      obtain ⟨hbranches, hlast⟩ := List.forall_mem_append.mp housed
      cases part with
      | arm index =>
          obtain ⟨a, ha, rfl⟩ := Option.map_eq_some_iff.mp hpart
          obtain ⟨b, hb, hbefore, hbefore', htest, hexit, hpass⟩ :=
            arms_passThrough harms hcodes hbranches agree ha
          refine ⟨b.body, c.push, l.push, by simp [Stmt.part?, hb], ?_, ?_, hpass⟩
          · simp [Pass.enter?, Check.pass, ha, hbefore, htest]
          · simp [Pass.enter?, Lower.pass, hb, hbefore', hexit]
      | otherwise =>
          obtain rfl : otherwise = some body := hpart
          obtain rfl := (Check.arms_keepsAll table result .if_ branches).of_ok harms
          obtain rfl := (Lower.arms_keepsAll slots typed).of_ok hcodes
          simp only [Check.elseBody, state_bind_eq_ok, state_pure_eq_ok] at helse
          obtain ⟨inner, c₄, hinner, rfl, rfl⟩ := helse
          simp only [Lower.elseBody, state_bind_eq_ok, state_pure_eq_ok] at hrest
          obtain ⟨code, l₄, hcode, rfl, rfl⟩ := hrest
          refine ⟨inner, c.push, l.push, rfl, ?_, ?_, within_passThrough hinner hcode hlast agree⟩
          · simp [Pass.enter?, Check.pass, reached?_eq_some.mpr ⟨_, harms⟩]
          · simp [Pass.enter?, Lower.pass, reached?_eq_some.mpr ⟨_, hcodes⟩]
      | loop => cases hpart
  | loop node condition inside =>
      cases part with
      | arm _ => cases hpart
      | otherwise => cases hpart
      | loop =>
          obtain rfl : inside = body := Option.some.inj hpart
          simp only [Check.stmt, state_bind_eq_ok, state_pure_eq_ok] at hcheck
          obtain ⟨test, c₂, htest, inner, c₃, hinner, rfl, rfl⟩ := hcheck
          simp only [Lower.stmt, state_bind_eq_ok, state_pure_eq_ok] at hlower
          obtain ⟨exitCode, l₂, hexit, code, l₃, hcode, -, rfl⟩ := hlower
          obtain rfl := (Check.typedHere_keepsAll table _ _ condition).of_ok htest
          obtain rfl := (Lower.exitUnless_keepsAll test).of_ok hexit
          refine ⟨inner, c.push, l.push, rfl, ?_, ?_, within_passThrough hinner hcode housed agree⟩
          · simp [Pass.enter?, Check.pass, reached?_eq_some.mpr ⟨_, htest⟩]
          · simp [Pass.enter?, Lower.pass, reached?_eq_some.mpr ⟨_, hexit⟩]
  | ret _ _ | declare _ _ _ _ _ | expr _ _ => cases part <;> cases hpart

/-- Both passes come to every statement of a body in step, however deep it is. -/
theorem PassThrough.inStep {body : List (Stmt Node)} {typed : List (Stmt TypedNode)}
    {c : Scope Symbol} {l : Scope Nat} (h : PassThrough table result slots types body typed c l)
    {path : Stmt.Path} {s : Stmt Node} (hs : Stmt.at? body path = some s) :
    ∃ t chain chain', Stmt.at? typed path = some t ∧
      (Check.pass table result).before? body path c = some chain ∧
      (Lower.pass slots).before? typed path l = some chain' ∧
      InStep table result slots types s t chain chain' := by
  induction path generalizing body typed c l with
  | here index =>
      obtain ⟨⟨_, hcheck⟩, ⟨_, _, hlower⟩, housed, agree⟩ := h
      exact stmts_inStep hcheck hlower housed agree hs
  | inside index part path ih =>
      obtain ⟨⟨_, hcheck⟩, ⟨_, _, hlower⟩, housed, agree⟩ := h
      simp only [Stmt.at?, Option.bind_eq_bind, Option.bind_eq_some_iff] at hs
      obtain ⟨outer, houter, inner, hpart, hs⟩ := hs
      obtain ⟨t, chain, chain', ht, hchain, hchain', hstep⟩ :=
        stmts_inStep hcheck hlower housed agree houter
      obtain ⟨ts, start, start', hts, hstart, hstart', hpass⟩ := hstep.enter hpart
      obtain ⟨u, found, found', hu, hfound, hfound', hstep'⟩ := ih hpass hs
      refine ⟨u, found, found', Stmt.at?_inside ht hts hu, ?_, ?_, hstep'⟩
      · rwa [Pass.before?_inside _ houter hpart hchain hstart]
      · rwa [Pass.before?_inside _ ht hts hchain' hstart']

/-- Both passes get through the body of a function, from the parameters on. -/
theorem funcDef_passThrough {d : FuncDef Node} {d' : FuncDef TypedNode} {exported : Bool}
    {f : Wasm.Func} (hcheck : Check.funcDef table d = .ok d') (hlower : func exported d' = .ok f)
    (hnodup : ((Stmt.listLocals d'.body).map LocalDecl.id).Nodup)
    (hvalues : ∀ l ∈ Stmt.listLocals d'.body, l.type ≠ .void) :
    ∃ slots, SlotTable.allocate d' = .ok slots ∧
      PassThrough table d.signature.result slots (f.type.params ++ f.locals) d.body d'.body
        (Check.parameterScope d.signature.parameters)
        (Lower.parameterScope d'.signature.parameters) := by
  obtain ⟨slots, last, halloc, hcode, htype, hlocals, -, -⟩ := func_eq_ok hlower
  obtain ⟨hparams, -⟩ := funcType_eq_ok.mp htype
  have hroom := allocate_room hnodup hparams.length_eq.symm halloc
  rw [← hlocals] at hroom
  simp only [Check.funcDef] at hcheck
  split at hcheck
  · cases hcheck
  next body scope hbody =>
  split at hcheck
  · cases hcheck
  obtain rfl := Except.ok.inj hcheck
  refine ⟨slots, halloc, ⟨scope, hbody⟩, ⟨_, last, hcode⟩, hroom.housed hvalues, ?_⟩
  refine parameterScope_match fun i p hp => ?_
  obtain ⟨v, hv, hpv⟩ := forall₂_getElem? hparams hp
  obtain ⟨hi, -⟩ := List.getElem?_eq_some_iff.mp hv
  exact ⟨v, by rw [List.getElem?_append_left hi, hv], hpv⟩

end Passes

/-- The definitions of a checked program are those of the program, in order, each checked with the
signatures of the program. -/
theorem checkProgram_definitions {p : Program Node} {t : Program TypedNode}
    (h : checkProgram p = .ok t) :
    List.Forall₂ (fun d d' => Check.funcDef p.signatures d.2 = .ok d'.2)
      p.definitions t.definitions := by
  obtain ⟨table, hdeclare, -, hfuncs, -⟩ := checkProgram_eq_ok.mp h
  obtain ⟨htable, -⟩ := Check.foldlM_declare.mp hdeclare
  rw [List.append_nil] at htable
  rw [Program.signatures, ← htable, Program.definitions, Program.definitions]
  clear h hdeclare htable
  generalize p.funcs = funcs at hfuncs ⊢
  generalize t.funcs = funcs' at hfuncs ⊢
  induction hfuncs with
  | nil => exact .nil
  | @cons f g funcs funcs' hfg _ ih =>
      cases f with
      | imported i =>
          obtain rfl := Except.ok.inj hfg
          exact ih
      | plain d | exported d =>
          simp only [Check.func, except_bind_eq_ok, except_pure_eq_ok] at hfg
          obtain ⟨d', hd', rfl⟩ := hfg
          exact .cons hd' ih

open Lower

end Wattle
