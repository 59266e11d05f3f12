import Wattle.Proofs.EmittedModule
import Wattle.Proofs.Meaning

/-!
# Variables in slots

While a body runs, every variable in scope is kept in its slot. The slots in scope are distinct, so
a change to one of them changes one variable, and they lie below the slots of the declarations
still to come, so a declaration disturbs none of them.
-/

namespace Wattle

variable {V : Type}

/-! ## Changing a variable -/

namespace Scope

theorem match_iff_frames {β γ : Type} {R : β → γ → Prop} {s : Scope β} {t : Scope γ} :
    s.Match R t ↔ List.Forall₂ (FrameMatch R) s.frames t.frames := by
  constructor
  · intro h
    exact .cons h.inner h.outer
  · intro h
    cases h with
    | cons hinner houter => exact ⟨hinner, houter⟩

theorem frames_assign {β : Type} (name : String) (value : β) (s : Scope β) :
    (s.assign name value).frames = assignFrames name value s.frames := by
  simp only [assign, frames, assignFrames]
  split <;> rfl

end Scope

namespace Lower

def slotsOf (frames : List (Frame Nat)) : List Nat :=
  frames.flatMap fun frame => frame.map Prod.snd

theorem slotsOf_insert (name : String) (slot : Nat) (slots : Scope Nat) :
    slotsOf (slots.insert name slot).frames = slot :: slotsOf slots.frames := by
  simp [slotsOf, Scope.insert, Scope.frames]

theorem mem_slotsOf {slots : Scope Nat} {name : String} {slot : Nat}
    (h : slots.lookup? name = some slot) : slot ∈ slotsOf slots.frames := by
  obtain ⟨frame, hframe, hlookup⟩ := List.exists_of_findSome?_eq_some h
  exact List.mem_flatMap.mpr ⟨frame, hframe, List.mem_map.mpr ⟨_, Scope.mem_of_lookup hlookup, rfl⟩⟩

abbrev FrameHolds (locals : List V) : Frame V → Frame Nat → Prop :=
  Scope.FrameMatch fun x slot => locals[slot]? = some x

/-- Every variable in scope is kept in its slot. -/
abbrev Holds (vars : Scope V) (slots : Scope Nat) (locals : List V) : Prop :=
  vars.Match (fun x slot => locals[slot]? = some x) slots

section Frames

variable {locals : List V} {slot : Nat} {name : String} {x : V}

theorem frameHolds_set {f : Frame V} {g : Frame Nat} (h : FrameHolds locals f g)
    (hslot : slot ∉ g.map Prod.snd) : FrameHolds (locals.set slot x) f g := by
  induction h with
  | nil => exact .nil
  | @cons a b f g hab _ ih =>
      rw [List.map_cons, List.mem_cons, not_or] at hslot
      refine .cons ⟨hab.1, ?_⟩ (ih hslot.2)
      exact (List.getElem?_set_ne hslot.1).trans hab.2

theorem framesHold_set {fs : List (Frame V)} {gs : List (Frame Nat)}
    (h : List.Forall₂ (FrameHolds locals) fs gs) (hslot : slot ∉ slotsOf gs) :
    List.Forall₂ (FrameHolds (locals.set slot x)) fs gs := by
  induction h with
  | nil => exact .nil
  | @cons f g fs gs hfg _ ih =>
      rw [slotsOf, List.flatMap_cons, List.mem_append, not_or] at hslot
      exact .cons (frameHolds_set hfg hslot.1) (ih hslot.2)

/-- The newest binding of a name changes in its slot, and no other slot of the frame is meant. -/
theorem frameHolds_assign {f : Frame V} {g : Frame Nat} (h : FrameHolds locals f g)
    (hfound : g.lookup name = some slot) (hnodup : (g.map Prod.snd).Nodup)
    (hlt : slot < locals.length) :
    FrameHolds (locals.set slot x) (Scope.assignFrame name x f) g := by
  induction h with
  | nil => simp at hfound
  | @cons a b f g hab hfg ih =>
      obtain ⟨n, old⟩ := a
      obtain ⟨m, here⟩ := b
      obtain ⟨rfl, hold⟩ := hab
      rw [List.map_cons, List.nodup_cons] at hnodup
      by_cases hn : name = n
      · subst hn
        simp only [List.lookup_cons_self, Option.some.injEq] at hfound
        subst hfound
        simp only [Scope.assignFrame, if_true]
        refine .cons ⟨rfl, ?_⟩ (frameHolds_set hfg hnodup.1)
        exact List.getElem?_set_self hlt
      · rw [List.lookup_cons, beq_false_of_ne hn] at hfound
        simp only [Scope.assignFrame, hn, if_false]
        have hne : here ≠ slot := by
          rintro rfl
          exact hnodup.1 (List.mem_map.mpr ⟨_, Scope.mem_of_lookup hfound, rfl⟩)
        refine .cons ⟨rfl, ?_⟩ (ih hfound hnodup.2)
        exact (List.getElem?_set_ne hne.symm).trans hold

theorem framesHold_assign {fs : List (Frame V)} {gs : List (Frame Nat)}
    (h : List.Forall₂ (FrameHolds locals) fs gs)
    (hfound : gs.findSome? (·.lookup name) = some slot) (hnodup : (slotsOf gs).Nodup)
    (hlt : slot < locals.length) :
    List.Forall₂ (FrameHolds (locals.set slot x)) (Scope.assignFrames name x fs) gs := by
  induction h with
  | nil => simp at hfound
  | @cons f g fs gs hfg hrest ih =>
      rw [slotsOf, List.flatMap_cons, List.nodup_append] at hnodup
      obtain ⟨hhere, hothers, hdisjoint⟩ := hnodup
      have hrel := Scope.Match.lookup_frame hfg name
      rw [List.findSome?_cons] at hfound
      cases hg : g.lookup name with
      | some here =>
          rw [hg] at hfound hrel
          obtain rfl := Option.some.inj hfound
          have hsome : (f.lookup name).isSome = true := by
            cases hf : f.lookup name with
            | some old => rfl
            | none =>
                rw [hf] at hrel
                cases hrel
          simp only [Scope.assignFrames, hsome, if_true]
          have hmem : here ∈ g.map Prod.snd :=
            List.mem_map.mpr ⟨_, Scope.mem_of_lookup hg, rfl⟩
          refine .cons (frameHolds_assign hfg hg hhere hlt) (framesHold_set hrest ?_)
          exact fun hin => hdisjoint _ hmem _ hin rfl
      | none =>
          rw [hg] at hfound hrel
          have hnone : (f.lookup name).isSome = false := by
            cases hf : f.lookup name with
            | none => rfl
            | some old =>
                rw [hf] at hrel
                cases hrel
          simp only [Scope.assignFrames, hnone, Bool.false_eq_true, if_false]
          obtain ⟨frame, hframe, hlookup⟩ := List.exists_of_findSome?_eq_some hfound
          have hin : slot ∈ slotsOf gs :=
            List.mem_flatMap.mpr ⟨frame, hframe,
              List.mem_map.mpr ⟨_, Scope.mem_of_lookup hlookup, rfl⟩⟩
          refine .cons (frameHolds_set hfg ?_) (ih hfound hothers)
          exact fun hmem => hdisjoint _ hmem _ hin rfl

end Frames

/-! ## Slots in scope -/

/-- The slots in scope are distinct and below `next`. -/
structure Placed (slots : Scope Nat) (next : Nat) : Prop where
  below : ∀ slot ∈ slotsOf slots.frames, slot < next
  distinct : (slotsOf slots.frames).Nodup

namespace Placed

variable {slots : Scope Nat} {next : Nat}

theorem root (next : Nat) : Placed .root next :=
  ⟨by simp [slotsOf, Scope.root, Scope.frames], by simp [slotsOf, Scope.root, Scope.frames]⟩

theorem push (h : Placed slots next) : Placed slots.push next :=
  ⟨h.below, h.distinct⟩

theorem mono (h : Placed slots next) {later : Nat} (hle : next ≤ later) : Placed slots later :=
  ⟨fun slot hslot => Nat.lt_of_lt_of_le (h.below slot hslot) hle, h.distinct⟩

theorem insert (h : Placed slots next) (name : String) :
    Placed (slots.insert name next) (next + 1) := by
  refine ⟨?_, ?_⟩
  · rw [slotsOf_insert]
    intro slot hslot
    rcases List.mem_cons.mp hslot with rfl | hslot
    · exact Nat.lt_succ_self _
    · have hlt := h.below slot hslot
      omega
  · rw [slotsOf_insert, List.nodup_cons]
    exact ⟨fun hmem => Nat.lt_irrefl _ (h.below next hmem), h.distinct⟩

end Placed

theorem parameterScope_placed (parameters : List Parameter) :
    Placed (parameterScope parameters) parameters.length := by
  suffices h : ∀ (ps : List Parameter) (slots : Scope Nat) (next : Nat), Placed slots next →
      Placed ((ps.zipIdx next).foldl (fun scope q => scope.insert q.1.name q.2) slots)
        (next + ps.length) by
    simpa [parameterScope] using h parameters .root 0 (Placed.root 0)
  intro ps
  induction ps with
  | nil =>
      intro slots next hplaced
      exact hplaced
  | cons p ps ih =>
      intro slots next hplaced
      have hrest := ih _ _ (hplaced.insert p.name)
      rwa [Nat.add_assoc, Nat.add_comm 1] at hrest

namespace Holds

variable {vars : Scope V} {slots : Scope Nat} {locals : List V} {next : Nat}

theorem assign (h : Holds vars slots locals) (hplaced : Placed slots next) {name : String}
    {slot : Nat} (hfound : slots.lookup? name = some slot) (x : V) :
    Holds (vars.assign name x) slots (locals.set slot x) := by
  obtain ⟨old, -, hold⟩ := h.lookup?_left hfound
  obtain ⟨hlt, -⟩ := List.getElem?_eq_some_iff.mp hold
  rw [Holds, Scope.match_iff_frames, Scope.frames_assign]
  exact framesHold_assign (Scope.match_iff_frames.mp h) hfound hplaced.distinct hlt

theorem declare (h : Holds vars slots locals) (hplaced : Placed slots next)
    (hlt : next < locals.length) (name : String) (x : V) :
    Holds (vars.insert name x) (slots.insert name next) (locals.set next x) := by
  have hfree : next ∉ slotsOf slots.frames := fun hmem => Nat.lt_irrefl _ (hplaced.below _ hmem)
  have hset : Holds vars slots (locals.set next x) :=
    Scope.match_iff_frames.mpr (framesHold_set (Scope.match_iff_frames.mp h) hfree)
  exact hset.insert name (List.getElem?_set_self hlt)

end Holds

/-! ## Slots in scope behind a statement -/

section Statements

variable {slotTable : SlotTable}

mutual

/-- The scope behind a statement is the scope before it, unless the statement is a declaration,
which binds its name in the innermost frame. -/
theorem stmt_slots : (s : Stmt TypedNode) → {slots slots' : Scope Nat} →
    {code : List Wasm.Instr} → stmt slotTable s slots = .ok code slots' →
    slots' = slots ∨ ∃ node kind name type initial, s = .declare node kind name type initial ∧
      ∃ slot, slotTable.slotFor node.id = .ok slot ∧ slots' = slots.insert name slot
  | .cond _ branches otherwise, slots, slots', code, h => by
      simp only [stmt, state_bind_eq_ok, state_pure_eq_ok] at h
      obtain ⟨codes, t, hcodes, last, u, hlast, -, rfl⟩ := h
      left
      rw [elseBody_slots otherwise hlast, arms_slots branches hcodes]
  | .loop _ condition body, slots, slots', code, h => by
      simp only [stmt, state_bind_eq_ok, state_pure_eq_ok, exitUnless_eq_ok] at h
      obtain ⟨_, _, ⟨test, -, rfl, -⟩, inner, t, hinner, -, rfl⟩ := h
      exact .inl (nested_slots body hinner)
  | .ret _ none, slots, slots', code, h => by
      simp only [stmt, returned, state_pure_eq_ok] at h
      exact .inl h.2.symm
  | .ret _ (some value), slots, slots', code, h => by
      simp only [stmt, returned, state_bind_eq_ok, state_pure_eq_ok, exprHere_eq_ok] at h
      obtain ⟨inner, t, ⟨-, rfl⟩, -, rfl⟩ := h
      exact .inl rfl
  | .declare node kind name type initial, slots, slots', code, h => by
      simp only [stmt, state_bind_eq_ok, state_pure_eq_ok, exprHere_eq_ok, state_ofExcept_eq_ok,
        Scope.bind_eq_ok] at h
      obtain ⟨inner, _, ⟨-, rfl⟩, slot, _, ⟨hslot, rfl⟩, _, _, rfl, -, rfl⟩ := h
      exact .inr ⟨node, kind, name, type, initial, rfl, slot, hslot, rfl⟩
  | .expr _ value, slots, slots', code, h => by
      simp only [stmt, state_bind_eq_ok, state_pure_eq_ok, exprHere_eq_ok] at h
      obtain ⟨inner, t, ⟨-, rfl⟩, -, rfl⟩ := h
      exact .inl rfl

theorem stmts_slots : (body : List (Stmt TypedNode)) → {slots slots' : Scope Nat} →
    {code : List Wasm.Instr} → stmts slotTable body slots = .ok code slots' →
    slots'.outer = slots.outer
  | [], slots, slots', code, h => by
      simp only [stmts, state_pure_eq_ok] at h
      rw [h.2]
  | s :: rest, slots, slots', code, h => by
      simp only [stmts, state_bind_eq_ok, state_pure_eq_ok] at h
      obtain ⟨first, t, hfirst, others, u, hothers, -, rfl⟩ := h
      rw [stmts_slots rest hothers]
      rcases stmt_slots s hfirst with rfl | ⟨_, _, name, _, _, -, slot, -, rfl⟩
      · rfl
      · exact Scope.outer_insert name slot slots

theorem nested_slots (body : List (Stmt TypedNode)) {slots slots' : Scope Nat}
    {code : List Wasm.Instr} (h : Scope.within (stmts slotTable body) slots = .ok code slots') :
    slots' = slots := by
  obtain ⟨u, hu, rfl⟩ := Scope.within_eq_ok.mp h
  exact Check.pop_of_outer_push (stmts_slots body hu)

theorem arms_slots : (branches : List (Arm TypedNode)) → {slots slots' : Scope Nat} →
    {codes : List (List Wasm.Instr)} → arms slotTable branches slots = .ok codes slots' →
    slots' = slots
  | [], slots, slots', codes, h => by
      simp only [arms, state_pure_eq_ok] at h
      exact h.2.symm
  | ⟨condition, body, span⟩ :: rest, slots, slots', codes, h => by
      simp only [arms, arm, state_bind_eq_ok, state_pure_eq_ok, exitUnless_eq_ok] at h
      obtain ⟨_, t, ⟨_, _, ⟨test, -, rfl, -⟩, inner, u, hinner, -, rfl⟩, others, v, hothers, -,
        rfl⟩ := h
      rw [arms_slots rest hothers, nested_slots body hinner]

theorem elseBody_slots : (otherwise : Option (List (Stmt TypedNode))) →
    {slots slots' : Scope Nat} → {last : Option (List Wasm.Instr)} →
    elseBody slotTable otherwise slots = .ok last slots' → slots' = slots
  | none, slots, slots', last, h => by
      simp only [elseBody, state_pure_eq_ok] at h
      exact h.2.symm
  | some body, slots, slots', last, h => by
      simp only [elseBody, state_bind_eq_ok, state_pure_eq_ok] at h
      obtain ⟨inner, t, hinner, -, rfl⟩ := h
      exact nested_slots body hinner

end

/-- Behind a statement the slots in scope are placed below those of the declarations behind it. -/
theorem stmt_placed {s : Stmt TypedNode} {slots slots' : Scope Nat} {code : List Wasm.Instr}
    {types : List Wasm.ValueType} {next : Nat} (hplaced : Placed slots next)
    (hroom : Room slotTable types next s.locals) (h : stmt slotTable s slots = .ok code slots') :
    Placed slots' (next + s.locals.length) := by
  rcases stmt_slots s h with rfl | ⟨node, _, name, type, _, rfl, slot, hslot, rfl⟩
  · exact hplaced.mono (Nat.le_add_right _ _)
  · obtain ⟨hnext, -⟩ := Room.head hroom
    obtain rfl : next = slot := Except.ok.inj (hnext.symm.trans hslot)
    exact hplaced.insert name

end Statements

end Lower

end Wattle
