import Mathlib.Data.List.Forall2
import Wattle.Scope

/-!
# Scope chains side by side

Checking, lowering and running a body each keep a scope chain of their own: names with their
types, with their slots, with their values. The chains open and close frames together and bind
the same names in the same order, so what one of them finds under a name corresponds to what the
others find.
-/

namespace Wattle.Scope

variable {β γ : Type}

/-- Every value bound in the chain, hidden or not, has the property. -/
def All (P : β → Prop) (s : Scope β) : Prop :=
  ∀ frame ∈ s.frames, ∀ entry ∈ frame, P entry.2

theorem all_root (P : β → Prop) : (root : Scope β).All P := by
  simp [All, root, frames]

theorem All.push {P : β → Prop} {s : Scope β} (h : s.All P) : s.push.All P := by
  intro frame hframe entry hentry
  rcases List.mem_cons.mp hframe with rfl | hframe
  · simp [Scope.push] at hentry
  · exact h frame hframe entry hentry

theorem All.insert {P : β → Prop} {s : Scope β} (h : s.All P) (name : String) {value : β}
    (hv : P value) : (s.insert name value).All P := by
  intro frame hframe entry hentry
  rcases List.mem_cons.mp hframe with rfl | hframe
  · rcases List.mem_cons.mp hentry with rfl | hentry
    · exact hv
    · exact h s.inner List.mem_cons_self entry hentry
  · exact h frame (List.mem_cons_of_mem _ hframe) entry hentry

theorem mem_of_lookup {frame : Frame β} {name : String} {value : β}
    (h : frame.lookup name = some value) : (name, value) ∈ frame := by
  obtain ⟨newer, older, rfl, -⟩ := List.lookup_eq_some_iff.mp h
  simp

theorem All.of_lookup? {P : β → Prop} {s : Scope β} (h : s.All P) {name : String} {value : β}
    (hl : s.lookup? name = some value) : P value := by
  obtain ⟨frame, hframe, hfound⟩ := List.exists_of_findSome?_eq_some hl
  exact h frame hframe _ (mem_of_lookup hfound)

/-- Two frames bind the same names in the same order, to related values. -/
def FrameMatch (R : β → γ → Prop) : Frame β → Frame γ → Prop :=
  List.Forall₂ fun a b => a.1 = b.1 ∧ R a.2 b.2

structure Match (R : β → γ → Prop) (s : Scope β) (t : Scope γ) : Prop where
  inner : FrameMatch R s.inner t.inner
  outer : List.Forall₂ (FrameMatch R) s.outer t.outer

namespace Match

variable {R : β → γ → Prop} {s : Scope β} {t : Scope γ}

theorem root : Match R (Scope.root : Scope β) (Scope.root : Scope γ) :=
  ⟨.nil, .nil⟩

theorem push (h : Match R s t) : Match R s.push t.push :=
  ⟨.nil, .cons h.inner h.outer⟩

theorem insert (h : Match R s t) (name : String) {b : β} {c : γ} (hR : R b c) :
    Match R (s.insert name b) (t.insert name c) :=
  ⟨.cons ⟨rfl, hR⟩ h.inner, h.outer⟩

theorem insertAll {ι κ : Type} {l : List ι} {r : List κ} {n : ι → String} {m : κ → String}
    {u : ι → β} {v : κ → γ}
    (hl : List.Forall₂ (fun a b => n a = m b ∧ R (u a) (v b)) l r) (h : Match R s t) :
    Match R (l.foldl (fun s a => s.insert (n a) (u a)) s)
      (r.foldl (fun t b => t.insert (m b) (v b)) t) := by
  induction hl generalizing s t with
  | nil => exact h
  | @cons a b l r hab _ ih =>
      have hinsert := h.insert (m b) hab.2
      rw [← hab.1] at hinsert
      simp only [List.foldl_cons, ← hab.1]
      exact ih hinsert

/-- Closing the frame of a nested body leads back to the chains outside. -/
theorem pop (h : Match R s t) : Match R s.pop t.pop := by
  obtain ⟨inner, outer⟩ := s
  obtain ⟨inner', outer'⟩ := t
  obtain ⟨hi, ho⟩ := h
  cases ho with
  | nil => exact ⟨hi, .nil⟩
  | cons hf hfs => exact ⟨hf, hfs⟩

theorem imp {R' : β → γ → Prop} (h : Match R s t) (hR : ∀ b c, R b c → R' b c) :
    Match R' s t := by
  have himp : ∀ f g, FrameMatch R f g → FrameMatch R' f g := fun f g hfg =>
    List.Forall₂.imp (fun a b hab => ⟨hab.1, hR _ _ hab.2⟩) hfg
  exact ⟨himp _ _ h.inner, h.outer.imp himp⟩

theorem lookup_frame {f : Frame β} {g : Frame γ} (h : FrameMatch R f g) (name : String) :
    Option.Rel R (f.lookup name) (g.lookup name) := by
  induction h with
  | nil => exact .none
  | @cons a b f g hab _ ih =>
      obtain ⟨n, x⟩ := a
      obtain ⟨m, y⟩ := b
      obtain ⟨rfl, hR⟩ := hab
      simp only [List.lookup_cons]
      cases name == n with
      | true => exact .some hR
      | false => exact ih

theorem lookup_frames {fs : List (Frame β)} {gs : List (Frame γ)}
    (h : List.Forall₂ (FrameMatch R) fs gs) (name : String) :
    Option.Rel R (fs.findSome? (·.lookup name)) (gs.findSome? (·.lookup name)) := by
  induction h with
  | nil => exact .none
  | @cons f g fs gs hfg _ ih =>
      have hhere := lookup_frame hfg name
      simp only [List.findSome?_cons]
      cases hf : f.lookup name with
      | none =>
          rw [hf] at hhere
          cases hg : g.lookup name with
          | none => exact ih
          | some y =>
              rw [hg] at hhere
              cases hhere
      | some x =>
          rw [hf] at hhere
          cases hg : g.lookup name with
          | none =>
              rw [hg] at hhere
              cases hhere
          | some y =>
              rw [hg] at hhere
              exact hhere

theorem lookup?_rel (h : Match R s t) (name : String) :
    Option.Rel R (s.lookup? name) (t.lookup? name) :=
  lookup_frames (.cons h.inner h.outer) name

theorem lookup?_right (h : Match R s t) {name : String} {b : β}
    (hb : s.lookup? name = some b) : ∃ c, t.lookup? name = some c ∧ R b c := by
  have hrel := h.lookup?_rel name
  rw [hb] at hrel
  cases hc : t.lookup? name with
  | none =>
      rw [hc] at hrel
      cases hrel
  | some c =>
      rw [hc] at hrel
      cases hrel with
      | some hR => exact ⟨c, rfl, hR⟩

theorem lookup?_left (h : Match R s t) {name : String} {c : γ}
    (hc : t.lookup? name = some c) : ∃ b, s.lookup? name = some b ∧ R b c := by
  have hrel := h.lookup?_rel name
  rw [hc] at hrel
  cases hb : s.lookup? name with
  | none =>
      rw [hb] at hrel
      cases hrel
  | some b =>
      rw [hb] at hrel
      cases hrel with
      | some hR => exact ⟨b, rfl, hR⟩

end Match

end Wattle.Scope
