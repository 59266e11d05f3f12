import Wattle.Proofs.Simulation

/-!
# Blocks follow statements

A condition that fails leaves the block around it, an arm that was run leaves the block around the
whole conditional, and the body of a loop goes back to its start. Each branch counts the blocks
between itself and the one it means, so the same code works at every depth.
-/

namespace Wattle

namespace Lower

open Wasm

variable {V M : Type} {P : Primitives V M} {b : BodyContext} {bound : Nat}
  {slots slots' : Scope Nat} {width : Nat}

/-! ## Ends of statements -/

/-- The code of a statement ends as the statement does: it comes to its end with the operands that
were there before, or it returns the same value. -/
def Ended (slots : Scope Nat) (width : Nat) (stack : List V) (a : Signal V × Env V M)
    (o : Flow V × Config V M) : Prop :=
  match a.1 with
  | .next => Reached slots width stack a.2 o
  | .returned x => o.1 = .returned x ∧ o.2.memory = a.2.memory

/-- The code inside a block ends as a statement does, or it leaves the block early. -/
def Left (slots : Scope Nat) (width : Nat) (a : Signal V × Env V M) (o : Flow V × Config V M) :
    Prop :=
  match a.1 with
  | .next => (o.1 = .next ∧ o.2.stack = [] ∨ o.1 = .branch 0) ∧ Agrees slots width a.2 o.2
  | .returned x => o.1 = .returned x ∧ o.2.memory = a.2.memory

theorem Ended.left {a : Signal V × Env V M} {o : Flow V × Config V M}
    (h : Ended slots width [] a o) : Left slots width a o := by
  obtain ⟨signal, s⟩ := a
  cases signal with
  | next => exact ⟨.inl ⟨h.1, h.2.1⟩, h.2.2⟩
  | returned x => exact h

/-- The code runs in step with a part of the program. -/
def Follows (P : Primitives V M) (b : BodyContext) (bound : Nat) (slots slots' : Scope Nat)
    (width : Nat) (run : Env V M → Except Stop (Signal V × Env V M)) (code : List Instr) : Prop :=
  ∀ s c, Agrees slots width s c →
    Tracks (run s) (Instr.execAll P b bound code c) (Ended slots' width c.stack)

/-- The code at the start of a block runs in step with a part of the program. -/
def FollowsInBlock (P : Primitives V M) (b : BodyContext) (bound : Nat) (slots : Scope Nat)
    (width : Nat) (run : Env V M → Except Stop (Signal V × Env V M)) (code : List Instr) : Prop :=
  ∀ s locals memory, Agrees slots width s ⟨[], locals, memory⟩ →
    Tracks (run s) (Instr.execAll P b bound code ⟨[], locals, memory⟩) (Left slots width)

section Sequences

variable {run : Env V M → Except Stop (Signal V × Env V M)} {code : List Instr}

theorem Follows.inBlock (h : Follows P b bound slots slots width run code) :
    FollowsInBlock P b bound slots width run code :=
  fun s _ _ hagrees => (h s _ hagrees).imp fun _ _ => Ended.left

theorem exec_block (xs : List Instr) (c : Config V M) :
    Instr.exec P b bound (.block xs) c =
      Instr.execAll P b bound xs ⟨[], c.locals, c.memory⟩ >>= fun o =>
        pure (leaveBlock c.stack o) := by
  simp only [Instr.exec]

/-- A block ends like the code inside it. -/
theorem FollowsInBlock.block (h : FollowsInBlock P b bound slots width run code) :
    Follows P b bound slots slots width run [.block code] := by
  intro s c hagrees
  rw [execAll_singleton, exec_block]
  refine (h s c.locals c.memory hagrees.restack).mapRight ?_
  rintro ⟨signal, s'⟩ ⟨flow, stack, locals, memory⟩ hleft
  cases signal with
  | next =>
      obtain ⟨⟨rfl, rfl⟩ | rfl, hagrees'⟩ := hleft
      · exact ⟨rfl, rfl, hagrees'.restack⟩
      · exact ⟨rfl, rfl, hagrees'.restack⟩
  | returned x =>
      obtain ⟨rfl, hmemory⟩ := hleft
      exact ⟨rfl, hmemory⟩

/-- A body in a frame of its own leaves the slots in scope as they were. -/
theorem Follows.nested (h : Follows P b bound slots.push slots' width run code)
    (hpop : slots'.pop = slots) :
    Follows P b bound slots slots width (Env.nested run) code := by
  intro s c hagrees
  have hpush : Agrees slots.push width ⟨s.vars.push, s.memory⟩ c :=
    ⟨hagrees.vars.push, hagrees.memory, hagrees.width⟩
  refine (h _ c hpush).map ?_
  rintro ⟨signal, s'⟩ o hended
  cases signal with
  | next =>
      obtain ⟨hnext, hstack, hagrees'⟩ := hended
      have hvars := hagrees'.vars.pop
      rw [hpop] at hvars
      exact ⟨hnext, hstack, hvars, hagrees'.memory, hagrees'.width⟩
  | returned x => exact hended

/-- Statements in order: what follows runs only if the first did not return. -/
theorem Follows.append {k : Env V M → Except Stop (Signal V × Env V M)} {slots'' : Scope Nat}
    {ys : List Instr} (h : Follows P b bound slots slots' width run code)
    (hk : Follows P b bound slots' slots'' width k ys) :
    Follows P b bound slots slots'' width (fun s => do
        let (signal, s) ← run s
        match signal with
        | .next => k s
        | .returned x => return (.returned x, s))
      (code ++ ys) := by
  intro s c hagrees
  rw [Instr.execAll_append]
  refine (h s c hagrees).bind ?_
  rintro ⟨signal, s'⟩ ⟨flow, stack, locals, memory⟩ - hended
  cases signal with
  | next =>
      obtain ⟨rfl, rfl, hagrees'⟩ := hended
      exact hk s' _ hagrees'
  | returned x =>
      obtain ⟨rfl, hmemory⟩ := hended
      exact .ok ⟨rfl, hmemory⟩

end Sequences

/-! ## Tests -/

/-- What is behind a test runs if the value of the condition is not zero. -/
theorem execAll_exit (ys : List Instr) (x : V) (stack locals : List V) (memory : M) :
    Instr.execAll P b bound ([.eqz .i32, .brIf 0] ++ ys) ⟨x :: stack, locals, memory⟩ =
      andThen (Instr.execAll P b bound ys)
        (if P.isZero x then .branch 0 else .next, ⟨stack, locals, memory⟩) := by
  rw [List.cons_append, Instr.execAll_cons, List.cons_append, List.nil_append]
  simp only [Instr.exec]
  change Instr.execAll P b bound (.brIf 0 :: ys) ⟨P.eqz .i32 x :: stack, locals, memory⟩ = _
  rw [Instr.execAll_cons]
  simp only [Instr.exec, P.isZero_eqz]
  cases P.isZero x <;> rfl

/-- A condition that holds goes on to `ys`, one that fails leaves the block. Whatever is done with
the end of the block is `after`. -/
theorem test_tracks {γ : Type} {Q : γ → Flow V × Config V M → Prop} {condition : Expr TypedNode}
    {test ys : List Instr} (htest : Evaluates P b bound slots width condition test)
    (htruth : condition.type = .i32) {s : Env V M} {c : Config V M}
    (hagrees : Agrees slots width s c) (yes no : Env V M → Except Stop γ)
    {after : Flow V × Config V M → Except Stop (Flow V × Config V M)}
    (hyes : ∀ s locals memory, Agrees slots width s ⟨c.stack, locals, memory⟩ →
      Tracks (yes s) (Instr.execAll P b bound ys ⟨c.stack, locals, memory⟩ >>= after) Q)
    (hno : ∀ s locals memory, Agrees slots width s ⟨c.stack, locals, memory⟩ →
      Tracks (no s) (after (.branch 0, ⟨c.stack, locals, memory⟩)) Q) :
    Tracks (do
        let (go, s) ← condition.holds P s
        if go then yes s else no s)
      (Instr.execAll P b bound (test ++ [.eqz .i32, .brIf 0] ++ ys) c >>= after) Q := by
  have hvoid : condition.type ≠ .void := by simp [htruth]
  rw [List.append_assoc, Instr.execAll_append, bind_assoc, Expr.holds, bind_assoc]
  refine (htest.needed hvoid hagrees).bind ?_
  rintro ⟨x, s'⟩ ⟨flow, stack, locals, memory⟩ - ⟨rfl, rfl, hagrees'⟩
  change Tracks _ (Instr.execAll P b bound ([.eqz .i32, .brIf 0] ++ ys) ⟨x :: c.stack, locals,
    memory⟩ >>= after) Q
  rw [execAll_exit]
  cases hzero : P.isZero x with
  | true =>
      have hfail := hno s' locals memory hagrees'.restack
      simpa [hzero, andThen, bind, Except.bind, pure, Except.pure] using hfail
  | false =>
      have hpass := hyes s' locals memory hagrees'.restack
      simpa [hzero, andThen, bind, Except.bind, pure, Except.pure] using hpass

/-- A body with a branch behind it, which leaves the block around the body and the next one. -/
theorem body_tracks {γ : Type} {Q : γ → Flow V × Config V M → Prop}
    {r : Except Stop (Signal V × Env V M)} {k : Signal V × Env V M → Except Stop γ}
    {ys : List Instr} {c : Config V M}
    {after : Flow V × Config V M → Except Stop (Flow V × Config V M)}
    (h : Tracks r (Instr.execAll P b bound ys c) (Ended slots width c.stack))
    (hnext : ∀ s c', Agrees slots width s c' →
      Tracks (k (.next, s)) (after (.branch 1, c')) Q)
    (hreturned : ∀ x s c', c'.memory = s.memory →
      Tracks (k (.returned x, s)) (after (.returned x, c')) Q) :
    Tracks (r >>= k) (Instr.execAll P b bound (ys ++ [.br 1]) c >>= after) Q := by
  rw [Instr.execAll_append, bind_assoc]
  refine h.bind ?_
  rintro ⟨signal, s⟩ ⟨flow, c'⟩ - hended
  cases signal with
  | next =>
      obtain ⟨rfl, -, hagrees⟩ := hended
      change Tracks _ (Instr.execAll P b bound [.br 1] c' >>= after) Q
      rw [execAll_singleton]
      exact hnext s c' hagrees
  | returned x =>
      obtain ⟨rfl, hmemory⟩ := hended
      exact hreturned x s c' hmemory

/-! ## Conditionals and loops -/

section Branching

variable {condition : Expr TypedNode} {test ys rest : List Instr}
  {yes no : Env V M → Except Stop (Signal V × Env V M)}

theorem single_arm_follows (htest : Evaluates P b bound slots width condition test)
    (htruth : condition.type = .i32) (hyes : Follows P b bound slots slots width yes ys) :
    FollowsInBlock P b bound slots width (fun s => do
        let (go, s) ← condition.holds P s
        if go then yes s else .ok (.next, s))
      (test ++ [.eqz .i32, .brIf 0] ++ ys) := by
  intro s locals memory hagrees
  rw [← bind_pure (Instr.execAll P b bound _ _)]
  refine test_tracks htest htruth hagrees yes (fun s => .ok (.next, s)) ?_ ?_
  · intro s' locals' memory' hagrees'
    rw [bind_pure]
    exact hyes.inBlock s' locals' memory' hagrees'
  · intro s' locals' memory' hagrees'
    exact .ok ⟨.inr rfl, hagrees'⟩

/-- A test with a body among others: behind the body a branch leaves the block of this arm and the
block around all of them, so the code of the other arms is passed over. -/
theorem arm_follows (htest : Evaluates P b bound slots width condition test)
    (htruth : condition.type = .i32) (hyes : Follows P b bound slots slots width yes ys)
    (hno : FollowsInBlock P b bound slots width no rest) :
    FollowsInBlock P b bound slots width (fun s => do
        let (go, s) ← condition.holds P s
        if go then yes s else no s)
      (.block (test ++ [.eqz .i32, .brIf 0] ++ ys ++ [.br 1]) :: rest) := by
  intro s locals memory hagrees
  rw [Instr.execAll_cons, exec_block, List.append_assoc, bind_assoc]
  refine test_tracks htest htruth hagrees yes no ?_ ?_
  · intro s' locals' memory' hagrees'
    -- the branch by one leaves this block, and what is left of it leaves the outer one
    rw [← bind_pure (yes s')]
    refine body_tracks (hyes s' _ hagrees') ?_ ?_
    · intro s'' c hagrees''
      exact .ok ⟨.inr rfl, hagrees''⟩
    · intro x s'' c hmemory
      exact .ok ⟨rfl, hmemory⟩
  · intro s' locals' memory' hagrees'
    exact hno s' locals' memory' hagrees'

/-- The rounds of a loop, by induction on how many of them may be run: a test that fails leaves the
block in the loop, and the branch behind the body leaves it for the start of the loop. -/
theorem loop_tracks (htest : Evaluates P b bound slots width condition test)
    (htruth : condition.type = .i32) (hyes : Follows P b bound slots slots width yes ys)
    (below : List V) (rounds : Nat) {s : Env V M} {c : Config V M}
    (hagrees : Agrees slots width s c) :
    Tracks (repeatWhile (condition.holds P) yes rounds s)
      (repeatLoop below
        (fun c => Instr.execAll P b bound
          [.block (test ++ [.eqz .i32, .brIf 0] ++ ys ++ [.br 1])] c) rounds c)
      (Ended slots width below) := by
  rw [List.append_assoc]
  induction rounds generalizing s c with
  | zero => exact ⟨by simp, rfl⟩
  | succ rounds ih =>
      rw [repeatWhile, repeatLoop, execAll_singleton, exec_block, bind_assoc]
      refine test_tracks htest htruth hagrees.restack
        (fun s => do
          let (signal, s) ← yes s
          match signal with
          | .next => repeatWhile (condition.holds P) yes rounds s
          | .returned x => return (.returned x, s))
        (fun s => return (.next, s)) ?_ ?_
      · intro s' locals memory hagrees'
        refine body_tracks (hyes s' _ hagrees') ?_ ?_
        · intro s'' c' hagrees''
          -- behind the block the branch goes to the loop itself, which starts the next round
          exact ih hagrees''
        · intro x s'' c' hmemory
          exact .ok ⟨rfl, hmemory⟩
      · intro s' locals memory hagrees'
        exact .ok ⟨rfl, rfl, hagrees'.restack⟩

theorem loop_follows (htest : Evaluates P b bound slots width condition test)
    (htruth : condition.type = .i32) (hyes : Follows P b bound slots slots width yes ys) :
    Follows P b bound slots slots width (repeatWhile (condition.holds P) yes bound)
      [.loop [.block (test ++ [.eqz .i32, .brIf 0] ++ ys ++ [.br 1])]] := by
  intro s c hagrees
  rw [execAll_singleton]
  simp only [Instr.exec]
  exact loop_tracks htest htruth hyes c.stack bound hagrees

end Branching

/-- The code of an arm is the test of its condition and then its body. -/
def ArmFollows (P : Primitives V M) (b : BodyContext) (bound : Nat) (slots : Scope Nat)
    (width : Nat) (arm : Arm TypedNode) (code : List Instr) : Prop :=
  ∃ test ys, code = test ++ [.eqz .i32, .brIf 0] ++ ys ∧
    Evaluates P b bound slots width arm.condition test ∧ arm.condition.type = .i32 ∧
    Follows P b bound slots slots width (Env.nested fun s => Stmt.runList P bound arm.body s) ys

abbrev ElseFollows (P : Primitives V M) (b : BodyContext) (bound : Nat) (slots : Scope Nat)
    (width : Nat) : Option (List (Stmt TypedNode)) → Option (List Instr) → Prop :=
  Option.Rel fun body => Follows P b bound slots slots width
    (Env.nested fun s => Stmt.runList P bound body s)

section Conditionals

variable {branches : List (Arm TypedNode)} {codes : List (List Instr)}
  {otherwise : Option (List (Stmt TypedNode))} {last : Option (List Instr)}

theorem else_follows (h : ElseFollows P b bound slots width otherwise last) :
    FollowsInBlock P b bound slots width (Stmt.runElse P bound otherwise) (last.getD []) := by
  cases h with
  | none =>
      intro s locals memory hagrees
      simp only [Stmt.runElse, Option.getD_none, Instr.execAll_nil]
      exact .ok ⟨.inl ⟨rfl, rfl⟩, hagrees⟩
  | @some body code hbody =>
      intro s locals memory hagrees
      simp only [Stmt.runElse, Option.getD_some]
      exact hbody.inBlock s locals memory hagrees

theorem arms_follow (harms : List.Forall₂ (ArmFollows P b bound slots width) branches codes)
    {no : Env V M → Except Stop (Signal V × Env V M)} {rest : List Instr}
    (hno : FollowsInBlock P b bound slots width no rest) :
    FollowsInBlock P b bound slots width (Stmt.runArms P bound branches no)
      (codes.map (fun code => .block (code ++ [.br 1])) ++ rest) := by
  induction harms with
  | nil =>
      intro s locals memory hagrees
      simp only [Stmt.runArms]
      exact hno s locals memory hagrees
  | @cons arm code branches codes harm _ ih =>
      obtain ⟨condition, body, span⟩ := arm
      obtain ⟨test, ys, rfl, htest, htruth, hyes⟩ := harm
      intro s locals memory hagrees
      simp only [Stmt.runArms]
      exact arm_follows htest htruth hyes ih s locals memory hagrees

/-- A conditional with one arm and no `else` body needs one block, any other an outer block with a
block for every arm. -/
theorem joinArms_follows (harms : List.Forall₂ (ArmFollows P b bound slots width) branches codes)
    (helse : ElseFollows P b bound slots width otherwise last) :
    Follows P b bound slots slots width
      (Stmt.runArms P bound branches fun s => Stmt.runElse P bound otherwise s)
      [joinArms codes last] := by
  unfold joinArms
  split
  · next code =>
    cases helse with
    | none =>
        cases harms with
        | @cons arm _ _ _ harm hnil =>
            cases hnil
            obtain ⟨condition, body, span⟩ := arm
            obtain ⟨test, ys, rfl, htest, htruth, hyes⟩ := harm
            refine FollowsInBlock.block ?_
            intro s locals memory hagrees
            simp only [Stmt.runArms, Stmt.runElse]
            exact single_arm_follows htest htruth hyes s locals memory hagrees
  · exact (arms_follow harms (else_follows helse)).block

end Conditionals

end Lower

end Wattle
