import Wattle.Parse.Cursor.Action

/-!
# What a cursor keeps

A cursor stays on the list it was started on and never passes the first end mark, whatever is done
with it. Seen from the list, it is a number: the token to read next stands at that place, the token
read last directly before it, and past the end the last token is shown again. One step of reading
moves it by one place or, where there is nothing more to read, not at all.
-/

namespace Wattle.Cursor

variable {c : Cursor} {b : Bookmarked} {a : Action} {tokens : List Token}

/-! ## Places in the list -/

/-- The place of the first end mark, or the length of a list without one. -/
def endOf (tokens : List Token) : Nat :=
  tokens.findIdx (·.kind = .endOfFile)

theorem kind_endOf {t : Token} (h : tokens[endOf tokens]? = some t) : t.kind = .endOfFile := by
  obtain ⟨hlt, rfl⟩ := List.getElem?_eq_some_iff.mp h
  have hfound :=
    List.findIdx_getElem (p := fun t : Token => decide (t.kind = .endOfFile)) (w := hlt)
  exact of_decide_eq_true hfound

theorem getElem?_tokens (c : Cursor) (offset : Nat) :
    c.tokens[c.position + offset]? = c.rest[offset]? := by
  have hplace : c.position + offset = c.consumed.reverse.length + offset := by
    rw [List.length_reverse, position]
  rw [tokens, hplace, List.getElem?_append_right (Nat.le_add_right _ _), Nat.add_sub_cancel_left]

theorem getElem?_tokens_position (c : Cursor) : c.tokens[c.position]? = c.rest.head? := by
  rw [← Nat.add_zero c.position, getElem?_tokens, List.head?_eq_getElem?]

/-- The token `offset` places ahead is the one at that place of the list; past the end it is the
last one. -/
theorem peekAt_eq (c : Cursor) (offset : Nat) :
    c.peekAt offset = (c.tokens[c.position + offset]?.or c.tokens.getLast?).getD noToken := by
  rw [getElem?_tokens, peekAt, last, tokens, List.getLast?_append, List.getLast?_reverse]
  cases c.rest[offset]? <;> rfl

theorem previous?_eq (h : 0 < c.position) : c.previous? = c.tokens[c.position - 1]? := by
  obtain ⟨consumed, rest⟩ := c
  cases consumed with
  | nil => exact absurd h (Nat.lt_irrefl 0)
  | cons t consumed => simp [previous?, tokens, position]

/-- The place before which a reading step moves on. -/
def CanMove (tokens : List Token) (place : Nat) : Prop :=
  ∃ t, tokens[place]? = some t ∧ t.kind ≠ .endOfFile

theorem position_advance (h : CanMove c.tokens c.position) :
    c.advance.position = c.position + 1 := by
  obtain ⟨t, ht, hkind⟩ := h
  obtain ⟨consumed, rest⟩ := c
  rw [getElem?_tokens_position] at ht
  cases rest with
  | nil => cases ht
  | cons t' rest =>
      obtain rfl := Option.some.inj ht
      simp [advance, hkind, position]

theorem advance_of_not_canMove (h : ¬ CanMove c.tokens c.position) : c.advance = c := by
  rw [CanMove, getElem?_tokens_position] at h
  obtain ⟨consumed, rest⟩ := c
  cases rest with
  | nil => rfl
  | cons t rest =>
      have hkind : t.kind = .endOfFile := Decidable.byContradiction fun hkind => h ⟨t, rfl, hkind⟩
      simp [advance, hkind]

theorem not_canMove_of_isAtEnd (h : c.isAtEnd = true) : ¬ CanMove c.tokens c.position := by
  rw [CanMove, getElem?_tokens_position]
  rintro ⟨t, ht, hkind⟩
  obtain ⟨consumed, rest⟩ := c
  cases rest with
  | nil => cases ht
  | cons t' rest =>
      obtain rfl := Option.some.inj ht
      exact hkind (of_decide_eq_true h)

/-! ## Single steps -/

/-- The cursor is on the given list, no further than at its end. -/
structure Within (tokens : List Token) (c : Cursor) : Prop where
  tokens_eq : c.tokens = tokens
  le_end : c.position ≤ endOf tokens

theorem within_start (tokens : List Token) : Within tokens (start tokens) :=
  ⟨rfl, Nat.zero_le _⟩

theorem Within.advance (h : Within tokens c) : Within tokens c.advance := by
  obtain ⟨rfl, hle⟩ := h
  refine ⟨tokens_advance c, ?_⟩
  by_cases hmove : CanMove c.tokens c.position
  · rw [position_advance hmove]
    obtain ⟨t, ht, hkind⟩ := hmove
    exact Nat.lt_of_le_of_ne hle fun heq => hkind (kind_endOf (heq ▸ ht))
  · rwa [advance_of_not_canMove hmove]

/-- Whether the operation steps over a token when it succeeds. -/
def Action.isReading : Action → Bool
  | advance | expectPunct _ _ | expectKeyword _ _ | expectIdentifier _ => true
  | _ => false

namespace Bookmarked

theorem step_advance_ne_refused (b : Bookmarked) (e : ParseError) :
    (b.step .advance).1 ≠ .refused e := by
  simp [step]

/-- A reading operation steps over the next token, or refuses it and leaves everything as it is. -/
theorem step_reading (b : Bookmarked) (h : a.isReading = true) :
    (∃ e, b.step a = (.refused e, b) ∧ e.found = b.current.peek) ∨
      (∀ e, (b.step a).1 ≠ .refused e) ∧
        (b.step a).2 = { b with current := b.current.advance } := by
  cases a with
  | advance => exact .inr ⟨b.step_advance_ne_refused, rfl⟩
  | expectPunct mark context =>
      by_cases hkind : b.current.peek.kind = .punct mark
      · right
        simp [step, expectPunct, hkind, afterReading]
      · left
        simp [step, expectPunct, hkind, afterReading, unexpected]
  | expectKeyword word context =>
      by_cases hkind : b.current.peek.kind = .keyword word
      · right
        simp [step, expectKeyword, hkind, afterReading]
      · left
        simp [step, expectKeyword, hkind, afterReading, unexpected]
  | expectIdentifier context =>
      simp only [step, expectIdentifier]
      split
      · simp [afterReading]
      · simp [afterReading, unexpected]
  | _ => cases h

theorem step_within (a : Action) (hcurrent : Within tokens b.current)
    (hsaved : Within tokens b.saved) :
    Within tokens (b.step a).2.current ∧ Within tokens (b.step a).2.saved := by
  by_cases hreading : a.isReading = true
  · rcases b.step_reading hreading with ⟨e, hstep, -⟩ | ⟨-, hstep⟩
    · rw [hstep]
      exact ⟨hcurrent, hsaved⟩
    · rw [hstep]
      exact ⟨hcurrent.advance, hsaved⟩
  · cases a with
    | save => exact ⟨hcurrent, hcurrent⟩
    | restore => exact ⟨hsaved, hsaved⟩
    | advance | expectPunct | expectKeyword | expectIdentifier => exact absurd rfl hreading
    | _ => exact ⟨hcurrent, hsaved⟩

/-- At the end nothing but going back moves the cursor. -/
theorem step_at_end (hend : b.current.isAtEnd = true) (ha : a ≠ .restore) :
    (b.step a).2.current = b.current := by
  have hstay : b.current.advance = b.current :=
    advance_of_not_canMove (not_canMove_of_isAtEnd hend)
  by_cases hreading : a.isReading = true
  · rcases b.step_reading hreading with ⟨e, hstep, -⟩ | ⟨-, hstep⟩
    · rw [hstep]
    · rw [hstep, hstay]
  · cases a with
    | restore => exact absurd rfl ha
    | advance | expectPunct | expectKeyword | expectIdentifier => exact absurd rfl hreading
    | _ => rfl

/-! ## Runs -/

theorem run_within (actions : List Action) (hcurrent : Within tokens b.current)
    (hsaved : Within tokens b.saved) :
    Within tokens (b.run actions).current ∧ Within tokens (b.run actions).saved := by
  induction actions generalizing b with
  | nil => exact ⟨hcurrent, hsaved⟩
  | cons a actions ih =>
      obtain ⟨hcurrent, hsaved⟩ := step_within a hcurrent hsaved
      exact ih hcurrent hsaved

theorem run_at_end {actions : List Action} (hend : b.current.isAtEnd = true)
    (hactions : .restore ∉ actions) : (b.run actions).current = b.current := by
  induction actions generalizing b with
  | nil => rfl
  | cons a actions ih =>
      rw [List.mem_cons, not_or] at hactions
      have hstep := step_at_end hend (Ne.symm hactions.1)
      rw [← hstep] at hend
      exact (ih hend hactions.2).trans hstep

theorem run_append (b : Bookmarked) (actions others : List Action) :
    b.run (actions ++ others) = (b.run actions).run others :=
  List.foldl_append

/-- Whatever was done with a cursor, it and the place it can go back to are on the list it was
started on, at the first end mark at most. What it shows is what stands in the list: ahead the
token at its place, or the last one past the end, and behind it the token directly before.
Advancing steps over one token, or over none at the end, and so does a reading operation that
succeeds; one that fails names the token ahead and changes nothing. At the end the cursor stays
until it goes back. -/
theorem runs_stay_on_their_list (tokens : List Token) (actions : List Action) :
    let b := (start tokens).run actions
    (b.current.position ≤ endOf tokens ∧ b.saved.position ≤ endOf tokens) ∧
      (∀ offset, b.current.peekAt offset =
        (tokens[b.current.position + offset]?.or tokens.getLast?).getD noToken) ∧
      (0 < b.current.position →
        ∃ t, tokens[b.current.position - 1]? = some t ∧ b.current.previous? = some t) ∧
      (∀ a : Action, a.isReading = true →
        (∃ e, b.step a = (.refused e, b) ∧ e.found = b.current.peek) ∨
          (∀ e, (b.step a).1 ≠ .refused e) ∧
            (CanMove tokens b.current.position →
              (b.step a).2.current.position = b.current.position + 1 ∧
                (b.step a).2.saved = b.saved) ∧
            (¬ CanMove tokens b.current.position → (b.step a).2 = b)) ∧
      (∀ e, (b.step .advance).1 ≠ .refused e) ∧
      ∀ more, b.current.isAtEnd = true → .restore ∉ more →
        ((start tokens).run (actions ++ more)).current.isAtEnd = true := by
  intro b
  obtain ⟨hcurrent, hsaved⟩ :=
    run_within actions (b := start tokens) (within_start tokens) (within_start tokens)
  refine ⟨⟨hcurrent.le_end, hsaved.le_end⟩, ?_, ?_, ?_, b.step_advance_ne_refused, ?_⟩
  · intro offset
    rw [peekAt_eq, hcurrent.tokens_eq]
  · intro hpos
    obtain ⟨t, ht⟩ : ∃ t, b.current.previous? = some t := by
      rw [previous?, ← Option.isSome_iff_exists, List.isSome_head?]
      simpa [position, List.length_pos_iff] using hpos
    refine ⟨t, ?_, ht⟩
    rw [← hcurrent.tokens_eq, ← previous?_eq hpos, ht]
  · intro a ha
    rcases b.step_reading ha with hrefused | ⟨hread, hstep⟩
    · exact .inl hrefused
    · refine .inr ⟨hread, fun hmove => ?_, fun hmove => ?_⟩
      · rw [hstep]
        exact ⟨position_advance (hcurrent.tokens_eq ▸ hmove), rfl⟩
      · rw [hstep, advance_of_not_canMove (hcurrent.tokens_eq ▸ hmove)]
  · intro more hend hmore
    rw [run_append, run_at_end hend hmore]
    exact hend

/-- An end mark between two names: the second name is never read, and the list ends before it. -/
theorem end_mark_between_names_is_not_passed :
    let mark (kind : TokenKind) : Token := ⟨kind, .point ⟨1, 1⟩⟩
    let tokens := [mark (.identifier "a"), mark .endOfFile, mark (.identifier "b")]
    let b := (start tokens).run [.save, .expectIdentifier "test"]
    (b.current.isAtEnd = true ∧ .restore ∉ [Action.advance, .expectIdentifier "test"]) ∧
      ((start tokens).run ([.save, .expectIdentifier "test"] ++
        [.advance, .expectIdentifier "test"])).current.isAtEnd = true ∧
      (0 < b.current.position ∧ b.current.previous? = some (mark (.identifier "a"))) ∧
      ¬ CanMove tokens b.current.position ∧ (b.step .advance).2 = b := by
  intro mark tokens b
  obtain ⟨-, -, hprevious, hreads, hadvance, hend⟩ :=
    runs_stay_on_their_list tokens [.save, .expectIdentifier "test"]
  have hatEnd : b.current.isAtEnd = true := by decide
  have hstays : .restore ∉ [Action.advance, .expectIdentifier "test"] := by decide
  have hpos : 0 < b.current.position := by decide
  have hmove : ¬ CanMove tokens b.current.position := by
    rintro ⟨t, ht, hkind⟩
    obtain rfl := Option.some.inj ht
    exact hkind rfl
  refine ⟨⟨hatEnd, hstays⟩, hend _ hatEnd hstays, ⟨hpos, ?_⟩, hmove, ?_⟩
  · obtain ⟨t, ht, hbehind⟩ := hprevious hpos
    obtain rfl := Option.some.inj ht
    exact hbehind
  · rcases hreads .advance rfl with ⟨e, hstep, -⟩ | ⟨-, -, hstays⟩
    · exact absurd (congrArg Prod.fst hstep) (hadvance e)
    · exact hstays hmove

end Bookmarked

end Wattle.Cursor
