import Mathlib.Data.List.Forall2
import Wattle.Scope

/-!
# What a successful run consists of

Checking and lowering are written with steps that may fail. A sequence of steps succeeds exactly
if every step does, each from the state that the one before it leaves.
-/

namespace Wattle

variable {ε σ α β : Type}

section Except

theorem except_bind_eq_ok {x : Except ε α} {f : α → Except ε β} {b : β} :
    (x >>= f) = .ok b ↔ ∃ a, x = .ok a ∧ f a = .ok b := by
  cases x <;> simp [bind, Except.bind]

theorem except_pure_eq_ok {a b : α} : (pure a : Except ε α) = .ok b ↔ a = b := by
  simp [pure, Except.pure]

theorem except_map_eq_ok {x : Except ε α} {f : α → β} {b : β} :
    x.map f = .ok b ↔ ∃ a, x = .ok a ∧ f a = b := by
  cases x <;> simp [Except.map]

theorem except_mapError_eq_ok {ε' : Type} {x : Except ε α} {f : ε → ε'} {a : α} :
    x.mapError f = .ok a ↔ x = .ok a := by
  cases x <;> simp [Except.mapError]

theorem except_bind_eq_error {x : Except ε α} {f : α → Except ε β} {e : ε} :
    (x >>= f) = .error e ↔ x = .error e ∨ ∃ a, x = .ok a ∧ f a = .error e := by
  cases x <;> simp [bind, Except.bind]

theorem except_pure_eq_error {a : α} {e : ε} : (pure a : Except ε α) = .error e ↔ False := by
  simp [pure, Except.pure]

theorem except_map_eq_error {x : Except ε α} {f : α → β} {e : ε} :
    x.map f = .error e ↔ x = .error e := by
  cases x <;> simp [Except.map]

theorem except_mapError_eq_error {ε' : Type} {x : Except ε α} {f : ε → ε'} {e : ε'} :
    x.mapError f = .error e ↔ ∃ e', x = .error e' ∧ f e' = e := by
  cases x <;> simp [Except.mapError]

theorem except_mapM_eq_ok {f : α → Except ε β} {l : List α} {r : List β} :
    l.mapM f = .ok r ↔ List.Forall₂ (fun a b => f a = .ok b) l r := by
  induction l generalizing r with
  | nil => cases r <;> simp [pure, Except.pure]
  | cons a l ih =>
      simp only [List.mapM_cons, except_bind_eq_ok, except_pure_eq_ok, ih,
        List.forall₂_cons_left_iff]
      constructor
      · rintro ⟨b, hb, bs, hbs, rfl⟩
        exact ⟨b, bs, hb, hbs, rfl⟩
      · rintro ⟨b, bs, hb, hbs, rfl⟩
        exact ⟨b, hb, bs, hbs, rfl⟩

theorem except_exists_mapM {f : α → Except ε β} {l : List α} (h : ∀ a ∈ l, ∃ b, f a = .ok b) :
    ∃ r, l.mapM f = .ok r := by
  induction l with
  | nil => exact ⟨[], rfl⟩
  | cons a l ih =>
      obtain ⟨b, hb⟩ := h a List.mem_cons_self
      obtain ⟨bs, hbs⟩ := ih fun a' ha' => h a' (List.mem_cons_of_mem _ ha')
      refine ⟨b :: bs, ?_⟩
      rw [except_mapM_eq_ok] at hbs ⊢
      exact .cons hb hbs

/-- A list fails at its first element that does. -/
theorem except_mapM_eq_error {f : α → Except ε β} {l : List α} {e : ε} :
    l.mapM f = .error e ↔
      ∃ before a behind, l = before ++ a :: behind ∧ (∀ b ∈ before, ∃ c, f b = .ok c) ∧
        f a = .error e := by
  induction l with
  | nil => simp [pure, Except.pure]
  | cons a l ih =>
      simp only [List.mapM_cons, except_bind_eq_error, except_pure_eq_error, ih]
      constructor
      · rintro (h | ⟨b, hb, ⟨before, a', behind, rfl, hbefore, ha'⟩ | ⟨_, _, h⟩⟩)
        · exact ⟨[], a, l, rfl, by simp, h⟩
        · refine ⟨a :: before, a', behind, rfl, ?_, ha'⟩
          intro x hx
          rcases List.mem_cons.mp hx with rfl | hx
          · exact ⟨b, hb⟩
          · exact hbefore x hx
        · cases h
      · rintro ⟨before, a', behind, heq, hbefore, ha'⟩
        cases before with
        | nil =>
            obtain ⟨rfl, rfl⟩ := List.cons.inj heq
            exact .inl ha'
        | cons x before =>
            obtain ⟨rfl, rfl⟩ := List.cons.inj heq
            obtain ⟨b, hb⟩ := hbefore a List.mem_cons_self
            refine .inr ⟨b, hb, .inl ⟨before, a', behind, rfl, ?_, ha'⟩⟩
            exact fun y hy => hbefore y (List.mem_cons_of_mem _ hy)

end Except

section Lists

variable {R : α → β → Prop} {l : List α} {r : List β}

theorem forall₂_partner_left (h : List.Forall₂ R l r) {b : β} (hb : b ∈ r) :
    ∃ a ∈ l, R a b := by
  induction h with
  | nil => simp at hb
  | @cons a c l r hac _ ih =>
      rcases List.mem_cons.mp hb with rfl | hb
      · exact ⟨a, List.mem_cons_self, hac⟩
      · obtain ⟨a', ha', hab⟩ := ih hb
        exact ⟨a', List.mem_cons_of_mem _ ha', hab⟩

theorem forall₂_partner_right (h : List.Forall₂ R l r) {a : α} (ha : a ∈ l) :
    ∃ b ∈ r, R a b :=
  forall₂_partner_left (R := flip R) (List.Forall₂.flip h) ha

theorem forall₂_getElem? (h : List.Forall₂ R l r) {i : Nat} {a : α} (ha : l[i]? = some a) :
    ∃ b, r[i]? = some b ∧ R a b := by
  induction h generalizing i with
  | nil => simp at ha
  | @cons a' b' l r hab _ ih =>
      cases i with
      | zero =>
          rw [List.getElem?_cons_zero, Option.some.injEq] at ha
          exact ⟨b', rfl, ha ▸ hab⟩
      | succ i => exact ih (by simpa using ha)

theorem forall₂_pairwise {P : α → α → Prop} {Q : β → β → Prop} (h : List.Forall₂ R l r)
    (hl : l.Pairwise P) (himp : ∀ a a' b b', R a b → R a' b' → P a a' → Q b b') :
    r.Pairwise Q := by
  induction h with
  | nil => exact .nil
  | cons hab hrest ih =>
      obtain ⟨hfirst, hothers⟩ := List.pairwise_cons.mp hl
      refine .cons (fun b' hb' => ?_) (ih hothers)
      obtain ⟨a', ha', hab'⟩ := forall₂_partner_left hrest hb'
      exact himp _ _ _ _ hab hab' (hfirst a' ha')

end Lists

section State

theorem state_bind_eq_ok {x : EStateM ε σ α} {f : α → EStateM ε σ β} {s u : σ} {b : β} :
    (x >>= f) s = .ok b u ↔ ∃ a t, x s = .ok a t ∧ f a t = .ok b u := by
  simp only [bind, EStateM.bind]
  cases x s <;> simp

theorem state_pure_eq_ok {a b : α} {s t : σ} :
    (pure a : EStateM ε σ α) s = .ok b t ↔ a = b ∧ s = t := by
  simp [pure, EStateM.pure]

theorem state_ofExcept_eq_ok {x : Except ε α} {a : α} {s t : σ} :
    (ofExcept x : EStateM ε σ α) s = .ok a t ↔ x = .ok a ∧ s = t := by
  cases x with
  | error e =>
      change EStateM.Result.error e s = .ok a t ↔ _
      simp
  | ok b => simp [ofExcept, pure, EStateM.pure]

theorem state_throw_ne_ok {e : ε} {a : α} {s t : σ} :
    (throw e : EStateM ε σ α) s ≠ .ok a t := by
  change EStateM.Result.error e s ≠ .ok a t
  simp

end State

namespace Scope

theorem asking_eq_ok {question : Scope β → Except ε α} {s t : Scope β} {a : α} :
    asking question s = .ok a t ↔ question s = .ok a ∧ s = t := by
  simp only [asking]
  cases question s <;> simp

theorem within_eq_ok {body : EStateM ε (Scope β) α} {s t : Scope β} {a : α} :
    within body s = .ok a t ↔ ∃ u, body s.push = .ok a u ∧ t = u.pop := by
  simp only [within]
  cases body s.push <;> simp [eq_comm]

theorem bind_eq_ok {name : String} {value : β} {s t : Scope β} {a : Unit} :
    (Scope.bind name value : EStateM ε (Scope β) Unit) s = .ok a t ↔ t = s.insert name value := by
  change EStateM.Result.ok () (s.insert name value) = .ok a t ↔ _
  simp [eq_comm]

end Scope

end Wattle
