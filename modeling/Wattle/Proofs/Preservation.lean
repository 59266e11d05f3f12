import Wattle.Proofs.BodyRuns

/-!
# Compiled code keeps its meaning

Runs with a bound on the rounds of loops settle: once a run is not cut short by the bound, a larger
bound changes nothing. What a function does without a bound is therefore one of three things: it
returns, it traps, or it goes on for ever. Definitions and the functions compiled from them do the
same one.
-/

namespace Wattle

variable {V M : Type}

/-! ## Larger bounds -/

/-- The second run goes at least as far as the first: it ends in the same way, unless the first was
cut short. -/
def Extends {α : Type} (r r' : Except Stop α) : Prop :=
  r = .error .endless ∨ r' = r

namespace Extends

variable {α β : Type} {r r' : Except Stop α}

theorem refl (r : Except Stop α) : Extends r r :=
  .inr rfl

theorem bind {f f' : α → Except Stop β} (h : Extends r r') (hf : ∀ a, Extends (f a) (f' a)) :
    Extends (r >>= f) (r' >>= f') := by
  rcases h with rfl | rfl
  · exact .inl rfl
  · cases r' with
    | error e => exact .inr rfl
    | ok a => exact hf a

theorem trans {r'' : Except Stop α} (h : Extends r r') (h' : Extends r' r'') : Extends r r'' := by
  rcases h with rfl | rfl
  · exact .inl rfl
  · exact h'

end Extends

variable {P : Primitives V M} {bound : Nat}

theorem nested_extends {run run' : Env V M → Except Stop (Signal V × Env V M)}
    (h : ∀ s, Extends (run s) (run' s)) (s : Env V M) :
    Extends (Env.nested run s) (Env.nested run' s) :=
  (h _).bind fun _ => Extends.refl _

/-- One more round, and each of them with a body that goes farther. -/
theorem repeatWhile_extends {test : Env V M → Except Stop (Bool × Env V M)}
    {body body' : Env V M → Except Stop (Signal V × Env V M)}
    (h : ∀ s, Extends (body s) (body' s)) (rounds : Nat) (s : Env V M) :
    Extends (repeatWhile test body rounds s) (repeatWhile test body' (rounds + 1) s) := by
  induction rounds generalizing s with
  | zero => exact .inl rfl
  | succ rounds ih =>
      rw [repeatWhile, repeatWhile]
      refine (Extends.refl (test s)).bind ?_
      rintro ⟨go, s'⟩
      cases go with
      | false => exact Extends.refl _
      | true =>
          refine (h s').bind ?_
          rintro ⟨signal, s''⟩
          cases signal with
          | next => exact ih s''
          | returned x => exact Extends.refl _

namespace Stmt

mutual

theorem run_extends : (s : Stmt TypedNode) → (env : Env V M) →
    Extends (s.run P bound env) (s.run P (bound + 1) env)
  | .cond _ arms otherwise, env => by
      simp only [run]
      exact runArms_extends arms (fun env => runElse_extends otherwise env) env
  | .loop _ condition body, env => by
      simp only [run]
      exact repeatWhile_extends (nested_extends fun env => runList_extends body env) bound env
  | .ret _ none, env => by
      simp only [run]
      exact Extends.refl _
  | .ret _ (some _), env => by
      simp only [run]
      exact Extends.refl _
  | .declare _ _ _ _ _, env => by
      simp only [run]
      exact Extends.refl _
  | .expr _ _, env => by
      simp only [run]
      exact Extends.refl _

theorem runList_extends : (body : List (Stmt TypedNode)) → (env : Env V M) →
    Extends (runList P bound body env) (runList P (bound + 1) body env)
  | [], env => by
      simp only [runList]
      exact Extends.refl _
  | first :: rest, env => by
      simp only [runList]
      refine (run_extends first env).bind ?_
      rintro ⟨signal, env'⟩
      cases signal with
      | next => exact runList_extends rest env'
      | returned x => exact Extends.refl _

theorem runArms_extends : (arms : List (Arm TypedNode)) →
    {otherwise otherwise' : Env V M → Except Stop (Signal V × Env V M)} →
    (∀ env, Extends (otherwise env) (otherwise' env)) → (env : Env V M) →
    Extends (runArms P bound arms otherwise env) (runArms P (bound + 1) arms otherwise' env)
  | [], otherwise, otherwise', h, env => by
      simp only [runArms]
      exact h env
  | ⟨condition, body, _⟩ :: rest, otherwise, otherwise', h, env => by
      simp only [runArms]
      refine (Extends.refl _).bind ?_
      rintro ⟨go, env'⟩
      cases go with
      | true => exact nested_extends (fun env => runList_extends body env) env'
      | false => exact runArms_extends rest h env'

theorem runElse_extends : (otherwise : Option (List (Stmt TypedNode))) → (env : Env V M) →
    Extends (runElse P bound otherwise env) (runElse P (bound + 1) otherwise env)
  | none, env => by
      simp only [runElse]
      exact Extends.refl _
  | some body, env => by
      simp only [runElse]
      exact nested_extends (fun env => runList_extends body env) env

end

end Stmt

/-! ## What a function does -/

/-- What comes of running a function. -/
inductive Behaviour (V M : Type) where
  | returns (value : Option V) (memory : M)
  | traps
  | diverges

/-- The runs of a function, one for each bound, show that it behaves in the given way. A function
diverges if no bound is large enough. -/
def Behaves (run : Nat → Except Stop (Option V × M)) : Behaviour V M → Prop
  | .returns value memory => ∃ bound, run bound = .ok (value, memory)
  | .traps => ∃ bound, run bound = .error .trap
  | .diverges => ∀ bound, run bound = .error .endless

/-- Runs that settle and are never stuck show exactly one behaviour. -/
theorem exists_unique_behaviour {run : Nat → Except Stop (Option V × M)}
    (hextends : ∀ bound, Extends (run bound) (run (bound + 1)))
    (hstuck : ∀ bound, run bound ≠ .error .stuck) :
    ∃ behaviour, ∀ other, Behaves run other ↔ other = behaviour := by
  have hlater : ∀ bound more, Extends (run bound) (run (bound + more)) := by
    intro bound more
    induction more with
    | zero => exact Extends.refl _
    | succ more ih => exact ih.trans (hextends (bound + more))
  by_cases hall : ∀ bound, run bound = .error .endless
  · refine ⟨.diverges, fun other => ?_⟩
    cases other <;> simp [Behaves, hall]
  · obtain ⟨bound, hbound⟩ := not_forall.mp hall
    -- two runs that are not cut short agree, as both agree with a later one
    have hfound : ∀ r, r ≠ .error .endless → ((∃ i, run i = r) ↔ run bound = r) := by
      intro r hr
      constructor
      · rintro ⟨i, rfl⟩
        have hi := (hlater i bound).resolve_left hr
        have hj := (hlater bound i).resolve_left hbound
        rw [← hi, ← hj, Nat.add_comm]
      · intro h
        exact ⟨bound, h⟩
    cases hrun : run bound with
    | ok r =>
        refine ⟨.returns r.1 r.2, fun other => ?_⟩
        cases other with
        | returns value memory =>
            rw [Behaves, hfound _ (by simp), hrun]
            simp [Prod.ext_iff, eq_comm]
        | traps => simp [Behaves, hfound, hrun]
        | diverges => simp [Behaves, hall]
    | error e =>
        have htrap : e = .trap := by
          cases e with
          | trap => rfl
          | endless => exact absurd hrun hbound
          | stuck => exact absurd hrun (hstuck bound)
        subst htrap
        refine ⟨.traps, fun other => ?_⟩
        cases other with
        | returns value memory => simp [Behaves, hfound, hrun]
        | traps => simp [Behaves, hfound, hrun]
        | diverges => simp [Behaves, hall]

theorem FuncDef.run_extends (d : FuncDef TypedNode) (args : List V) (memory : M) :
    Extends (d.run P args memory bound) (d.run P args memory (bound + 1)) :=
  (Stmt.runList_extends d.body _).bind fun _ => Extends.refl _

open Lower

/-- A definition and the function that it was lowered to behave in the same way, and in no other. -/
theorem func_behaves {table : Signatures} {exported : Bool} {d : FuncDef TypedNode}
    {f : Wasm.Func} {m : Wasm.Module} (typed : d.Typed table)
    (hnodup : ((Stmt.listLocals d.body).map LocalDecl.id).Nodup)
    (hcalls : Callable (f.context m) table) (h : func exported d = .ok f) {args : List V}
    (hargs : args.length = d.signature.parameters.length) (memory : M) :
    ∃ behaviour, (∀ other, Behaves (d.run P args memory) other ↔ other = behaviour) ∧
      ∀ other, Behaves (f.run P m args memory) other ↔ other = behaviour := by
  have hruns : ∀ bound, d.run P args memory bound = f.run P m args memory bound ∧
      d.run P args memory bound ≠ .error .stuck :=
    fun bound => Tracks.eq_iff.mp (func_tracks typed hnodup hcalls h hargs memory)
  have hsame : f.run P m args memory = d.run P args memory :=
    funext fun bound => (hruns bound).1.symm
  have hextends : ∀ bound, Extends (d.run P args memory bound) (d.run P args memory (bound + 1)) :=
    fun _ => d.run_extends args memory
  obtain ⟨behaviour, hunique⟩ := exists_unique_behaviour hextends fun bound => (hruns bound).2
  rw [hsame]
  exact ⟨behaviour, hunique, hunique⟩

/-- Words of 32 bits with a few operations on them, and no memory. -/
def words : Primitives (BitVec 32) Unit where
  const _ digits := if digits = "0" then 0 else 1
  zero _ := 0
  numeric _ op _ x y :=
    match op with
    | .add => some (x + y)
    | .sub => some (x - y)
    | _ => none
  convert _ _ _ _ _ := none
  eqz _ x := if x = 0 then 1 else 0
  isZero x := x = 0
  load _ _ _ := none
  store _ _ _ _ := none
  call _ _ _ := .error .trap
  isZero_eqz x := by by_cases h : x = 0 <;> simp [h]
  call_ne_stuck := by simp

end Wattle
