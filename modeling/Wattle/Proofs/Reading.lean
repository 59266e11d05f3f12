import Wattle.Proofs.Grammar

/-!
# What a parser reads

A parser is described by the kinds of the tokens that it passes when it succeeds; along a sequence
of parsers these are put together. Most parsers read one phrase and give a tree that spells it,
but for trailing commas.
-/

namespace Wattle

/-! ## Leaving out trailing commas -/

/-- Without trailing commas, `ks` is `ys`, whatever comes behind it. -/
def Drops (ks ys : List TokenKind) : Prop :=
  ∀ tail, dropTrailingCommas (ks ++ tail) = ys ++ dropTrailingCommas tail

namespace Drops

variable {k : TokenKind} {ks ks' ys ys' : List TokenKind}

theorem nil : Drops [] [] :=
  fun _ => rfl

theorem append (h : Drops ks ys) (h' : Drops ks' ys') : Drops (ks ++ ks') (ys ++ ys') := by
  intro tail
  rw [List.append_assoc, h, h', List.append_assoc]

theorem cons (hk : k ≠ .punct .comma) (h : Drops ks ys) : Drops (k :: ks) (k :: ys) := by
  intro tail
  rw [List.cons_append, dropTrailingCommas, if_neg (fun hcomma => hk hcomma.1), h]
  rfl

theorem single (hk : k ≠ .punct .comma) : Drops [k] [k] :=
  cons hk nil

theorem comma (hopens : StartsWith (· ≠ .punct .rightParen) ks) (h : Drops ks ys) :
    Drops (.punct .comma :: ks) (.punct .comma :: ys) := by
  obtain ⟨k, rest, rfl, hk⟩ := hopens
  intro tail
  have hkeep : ¬ (TokenKind.punct .comma = .punct .comma ∧
      (k :: rest ++ tail).head? = some (.punct .rightParen)) := by
    simpa using hk
  rw [List.cons_append, dropTrailingCommas, if_neg hkeep, h]
  rfl

theorem rightParen : Drops [.punct .rightParen] [.punct .rightParen] :=
  single nofun

theorem rightBrace : Drops [.punct .rightBrace] [.punct .rightBrace] :=
  single nofun

theorem semicolon : Drops [.punct .semicolon] [.punct .semicolon] :=
  single nofun

theorem trailing : Drops [.punct .comma, .punct .rightParen] [.punct .rightParen] :=
  fun _ => rfl

/-- A list in front of its closing parenthesis loses its trailing comma. -/
theorem commaSeparated {t : Bool} {items yields : List (List TokenKind)}
    (h : List.Forall₂ Drops items yields)
    (hopens : ∀ item ∈ items, StartsWith (· ≠ .punct .rightParen) item) :
    Drops (commaSeparated t items ++ [.punct .rightParen])
      (commaSeparated false yields ++ [.punct .rightParen]) := by
  induction h with
  | nil => exact rightParen
  | @cons item ys rest yss hitem hrest ih =>
      have hothers := ih fun i hi => hopens i (List.mem_cons_of_mem _ hi)
      cases hrest with
      | nil =>
          cases t with
          | false => simpa [Wattle.commaSeparated] using hitem.append rightParen
          | true => simpa [Wattle.commaSeparated] using hitem.append Drops.trailing
      | @cons next _ rest _ hnext hrest =>
          have hnextOpens := hopens next (List.mem_cons_of_mem _ List.mem_cons_self)
          have hopens' : StartsWith (· ≠ .punct .rightParen)
              (Wattle.commaSeparated t (next :: rest) ++ [.punct .rightParen]) := by
            cases rest with
            | nil => exact (hnextOpens.append _).append _
            | cons => exact (hnextOpens.append _).append _
          simpa [Wattle.commaSeparated] using hitem.append (hothers.comma hopens')

end Drops

/-! ## What a parser reads -/

/-- The kinds of the tokens to come. -/
def ParseState.kinds (s : ParseState) : List TokenKind :=
  s.cursor.rest.map Token.kind

namespace Parser

variable {α β : Type}

/-- Run on `s`, with an end mark ahead, `p` fails, or it passes tokens of some kinds `ks`, and `Q`
holds of the result, of `ks` and of the state behind them. Numbers in use are never given out
again, not even by a failure. -/
def Reads (s : ParseState) (p : Parser α) (Q : α → List TokenKind → ParseState → Prop) : Prop :=
  .endOfFile ∈ s.kinds →
    match p s with
    | .ok a t =>
      s.nextId ≤ t.nextId ∧ ∃ ks, .endOfFile ∉ ks ∧ s.kinds = ks ++ t.kinds ∧ Q a ks t
    | .error _ t => s.nextId ≤ t.nextId

theorem kinds_eq_cons {s : ParseState} (h : .endOfFile ∈ s.kinds) :
    s.kinds = s.cursor.peek.kind :: s.cursor.rest.tail.map Token.kind := by
  simp only [ParseState.kinds] at h ⊢
  cases hrest : s.cursor.rest with
  | nil => simp [hrest] at h
  | cons t rest => simp [Cursor.peek, hrest]

theorem kinds_advance {s : ParseState} {k : TokenKind} {rest : List TokenKind}
    (h : s.kinds = k :: rest) (hk : k ≠ .endOfFile) :
    ParseState.kinds { s with cursor := s.cursor.advance } = rest := by
  simp only [ParseState.kinds] at h ⊢
  cases hrest : s.cursor.rest with
  | nil => simp [hrest] at h
  | cons t tokens =>
      rw [hrest, List.map_cons, List.cons.injEq] at h
      rw [Cursor.advance, hrest]
      simp only [h.1, hk, if_false, h.2]

namespace Reads

variable {s : ParseState} {p q : Parser α} {f : α → Parser β}
  {Q Q' : α → List TokenKind → ParseState → Prop} {R : β → List TokenKind → ParseState → Prop}

theorem pure {a : α} (h : Q a [] s) : Reads s (Pure.pure a) Q :=
  fun _ => ⟨Nat.le_refl _, [], List.not_mem_nil, rfl, h⟩

theorem imp (h : Reads s p Q) (hQ : ∀ a ks t, Q a ks t → Q' a ks t) : Reads s p Q' := by
  intro hs
  have hp := h hs
  revert hp
  cases p s with
  | error e t => exact id
  | ok a t =>
      rintro ⟨hid, ks, hend, hks, hq⟩
      exact ⟨hid, ks, hend, hks, hQ a ks t hq⟩

/-- One parser after another: the second one adds to what the first one has read. -/
theorem bind (hp : Reads s p Q)
    (hf : ∀ a ks t, s.nextId ≤ t.nextId → Q a ks t →
      Reads t (f a) fun b ks' u => R b (ks ++ ks') u) :
    Reads s (p >>= f) R := by
  intro hs
  have hfirst := hp hs
  change match EStateM.bind p f s with
    | .ok a t => _
    | .error _ t => _
  simp only [EStateM.bind]
  revert hfirst
  cases p s with
  | error e t => exact id
  | ok a t =>
      rintro ⟨hid, ks, hend, hks, hq⟩
      have ht : .endOfFile ∈ t.kinds := by
        rw [hks, List.mem_append] at hs
        exact hs.resolve_left hend
      have hsecond := hf a ks t hid hq ht
      revert hsecond
      dsimp only
      cases f a t with
      | error e u => exact fun hid' => Nat.le_trans hid hid'
      | ok b u =>
          rintro ⟨hid', ks', hend', hks', hr⟩
          refine ⟨Nat.le_trans hid hid', ks ++ ks', ?_, ?_, hr⟩
          · rw [List.mem_append]
            exact fun h => h.elim hend hend'
          · rw [hks, hks', List.append_assoc]

theorem refuse (cause : ParseCause) : Reads s (Parser.refuse cause) Q :=
  fun _ => Nat.le_refl _

theorem expecting (what : Expectation) : Reads s (Parser.expecting what) Q :=
  refuse _

theorem peek {f : Token → Parser β} (h : Reads s (f s.cursor.peek) R) :
    Reads s (Parser.peek >>= f) R :=
  h

theorem next {kind : TokenKind} {f : Bool → Parser β}
    (hyes : s.cursor.peek.kind = kind → Reads s (f true) R)
    (hno : s.cursor.peek.kind ≠ kind → Reads s (f false) R) :
    Reads s (Parser.next kind >>= f) R := by
  change Reads s (f (decide (s.cursor.peek.kind = kind))) R
  by_cases hkind : s.cursor.peek.kind = kind
  · rw [decide_eq_true hkind]
    exact hyes hkind
  · rw [decide_eq_false hkind]
    exact hno hkind

/-- Stepping over a token of the kind `k`. -/
theorem step {k : TokenKind} (hs : .endOfFile ∈ s.kinds) (hkind : s.cursor.peek.kind = k)
    (hk : k ≠ .endOfFile) :
    .endOfFile ∉ [k] ∧ s.kinds = [k] ++ ParseState.kinds { s with cursor := s.cursor.advance } := by
  have hkinds := kinds_eq_cons hs
  rw [hkind] at hkinds
  constructor
  · rw [List.mem_singleton]
    exact hk.symm
  · rw [kinds_advance hkinds hk, hkinds]
    rfl

theorem advance {k : TokenKind} {f : Unit → Parser β} (hkind : s.cursor.peek.kind = k)
    (hk : k ≠ .endOfFile)
    (h : ∀ t, s.nextId ≤ t.nextId → Reads t (f ()) fun b ks u => R b (k :: ks) u) :
    Reads s (Parser.advance >>= f) R := by
  apply bind (Q := fun _ ks _ => ks = [k])
  · intro hs
    obtain ⟨hend, hkinds⟩ := step hs hkind hk
    exact ⟨Nat.le_refl _, [k], hend, hkinds, rfl⟩
  · rintro ⟨⟩ ks t hid rfl
    exact h t hid

/-- A reading function that takes tokens of certain kinds. -/
theorem reading {K : α → TokenKind} {g : Cursor → Except ParseError (α × Cursor)}
    (hkind : ∀ a, K a ≠ .endOfFile)
    (hg : ∀ c : Cursor,
      (∃ a, c.peek.kind = K a ∧ g c = .ok (a, c.advance)) ∨ ∃ e, g c = .error e) :
    Reads s (Parser.reading g) fun a ks _ => ks = [K a] := by
  intro hs
  simp only [Parser.reading]
  rcases hg s.cursor with ⟨a, hpeek, hok⟩ | ⟨e, herror⟩
  · obtain ⟨hend, hkinds⟩ := step hs hpeek (hkind a)
    rw [hok]
    exact ⟨Nat.le_refl _, [K a], hend, hkinds, rfl⟩
  · simp [herror]

theorem punct {mark : Punct} {context : String} {f : Unit → Parser β}
    (h : ∀ t, s.nextId ≤ t.nextId → Reads t (f ()) fun b ks u => R b (.punct mark :: ks) u) :
    Reads s (Parser.punct mark context >>= f) R := by
  apply bind (Q := fun _ ks _ => ks = [.punct mark])
  · apply bind (reading (K := fun _ => .punct mark) (fun _ => nofun) ?_)
    · rintro a ks t - rfl
      exact pure rfl
    · intro c
      simp only [Cursor.expectPunct]
      split
      · next hpeek => exact .inl ⟨_, hpeek, rfl⟩
      · exact .inr ⟨_, rfl⟩
  · rintro ⟨⟩ ks t hid rfl
    exact h t hid

theorem keyword {word : Keyword} {context : String} {f : Unit → Parser β}
    (h : ∀ t, s.nextId ≤ t.nextId → Reads t (f ()) fun b ks u => R b (.keyword word :: ks) u) :
    Reads s (Parser.keyword word context >>= f) R := by
  apply bind (Q := fun _ ks _ => ks = [.keyword word])
  · apply bind (reading (K := fun _ => .keyword word) (fun _ => nofun) ?_)
    · rintro a ks t - rfl
      exact pure rfl
    · intro c
      simp only [Cursor.expectKeyword]
      split
      · next hpeek => exact .inl ⟨_, hpeek, rfl⟩
      · exact .inr ⟨_, rfl⟩
  · rintro ⟨⟩ ks t hid rfl
    exact h t hid

theorem identifier {context : String} {f : String → Parser β}
    (h : ∀ name t, s.nextId ≤ t.nextId →
      Reads t (f name) fun b ks u => R b (.identifier name :: ks) u) :
    Reads s (Parser.identifier context >>= f) R := by
  apply bind (reading (K := TokenKind.identifier) (fun _ => nofun) ?_)
  · rintro name ks t hid rfl
    exact h name t hid
  · intro c
    simp only [Cursor.expectIdentifier]
    split
    · next name hpeek => exact .inl ⟨name, hpeek, rfl⟩
    · exact .inr ⟨_, rfl⟩

theorem budget {f : Nat → Parser β} (h : ∀ bound, Reads s (f bound) R) :
    Reads s (Parser.budget >>= f) R :=
  h _

theorem get {f : ParseState → Parser β} (h : Reads s (f s) R) :
    Reads s (MonadState.get >>= f) R :=
  h

theorem spanFrom {first : Token} {f : Span → Parser β} (h : ∀ span, Reads s (f span) R) :
    Reads s (Parser.spanFrom first >>= f) R :=
  h _

theorem newNode {span : Span} {f : Node → Parser β}
    (h : ∀ node t, s.nextId ≤ node.id → node.id < t.nextId → Reads t (f node) R) :
    Reads s (Parser.newNode span >>= f) R := by
  apply bind (Q := fun node ks t => ks = [] ∧ s.nextId ≤ node.id ∧ node.id < t.nextId)
  · intro _
    exact ⟨Nat.le_succ _, [], List.not_mem_nil, rfl, rfl, Nat.le_refl _, Nat.lt_succ_self _⟩
  · rintro node ks t - ⟨rfl, hlow, hhigh⟩
    exact h node t hlow hhigh

theorem nodeFrom {first : Token} {f : Node → Parser β}
    (h : ∀ node t, s.nextId ≤ node.id → node.id < t.nextId → Reads t (f node) R) :
    Reads s (Parser.nodeFrom first >>= f) R :=
  newNode h

/-- Whichever attempt succeeds; the second one starts where the first one did. -/
theorem orElseHere {Q : α → List TokenKind → Prop} (hp : Reads s p fun a ks _ => Q a ks)
    (hq : ∀ t, Reads t q fun a ks _ => Q a ks) :
    Reads s (Parser.orElseHere p q) fun a ks _ => Q a ks := by
  intro hs
  have hfirst := hp hs
  simp only [Parser.orElseHere]
  revert hfirst
  cases p s with
  | ok a t => exact id
  | error e t =>
      intro hid
      dsimp only at hid ⊢
      by_cases hhere : e.found.span = s.cursor.peek.span
      · rw [if_pos hhere]
        have hsecond := hq { s with nextId := t.nextId } hs
        revert hsecond
        cases q { s with nextId := t.nextId } with
        | error e' u => exact fun hid' => Nat.le_trans hid hid'
        | ok a u =>
            rintro ⟨hid', ks, hend, hks, ha⟩
            exact ⟨Nat.le_trans hid hid', ks, hend, hks, ha⟩
      · rw [if_neg hhere]
        exact hid

end Reads

/-- What `p` accepts is a phrase, and the result spells it but for trailing commas. -/
def Parses (phrase : Phrase) (p : Parser α) (yield : α → List TokenKind) : Prop :=
  ∀ s, Reads s p fun a ks _ => Derives phrase ks ∧ Drops ks (yield a)

theorem Reads.phrase {s : ParseState} {p : Parser α} {f : α → Parser β} {phrase : Phrase}
    {yield : α → List TokenKind} {R : β → List TokenKind → ParseState → Prop}
    (hp : Parses phrase p yield)
    (hf : ∀ a ks t, s.nextId ≤ t.nextId → Derives phrase ks → Drops ks (yield a) →
      Reads t (f a) fun b ks' u => R b (ks ++ ks') u) :
    Reads s (p >>= f) R :=
  Reads.bind (hp s) fun a ks t hid h => hf a ks t hid h.1 h.2

/-- The parser has read a list of phrases, one for each item of its result. -/
def ParsesEach (phrase : Phrase) (yield : α → List TokenKind) (items : List α)
    (phrases : List (List TokenKind)) : Prop :=
  List.Forall₂ (fun a ks => Derives phrase ks ∧ Drops ks (yield a)) items phrases

namespace ParsesEach

variable {phrase : Phrase} {yield : α → List TokenKind} {items : List α}
  {phrases : List (List TokenKind)}

theorem derives (h : ParsesEach phrase yield items phrases) :
    ∀ ks ∈ phrases, Derives phrase ks := by
  intro ks hks
  obtain ⟨a, -, hderives, -⟩ := forall₂_partner_left h hks
  exact hderives

theorem drops (h : ParsesEach phrase yield items phrases) :
    List.Forall₂ Drops phrases (items.map yield) := by
  rw [List.forall₂_map_right_iff]
  exact h.flip.imp fun _ _ hboth => hboth.2

end ParsesEach

theorem reads_commaListWithin_close {s : ParseState} {item : Parser α} {after : Expectation}
    (hclose : s.cursor.peek.kind = .punct .rightParen) (bound : Nat) :
    Reads s (commaListWithin item after bound) fun as ks _ =>
      as = [] ∧ ks = [.punct .rightParen] := by
  cases bound with
  | zero => exact .refuse _
  | succ bound =>
      refine .next (fun _ => ?_) fun hno => absurd hclose hno
      exact .advance hclose nofun fun t _ => .pure ⟨rfl, rfl⟩

/-- A list up to its closing parenthesis, whatever is known about its items. -/
theorem reads_listWithin {item : Parser α} {R : α → List TokenKind → Prop}
    (hitem : ∀ s, Reads s item fun a ks _ => R a ks) (after : Expectation) (bound : Nat)
    (s : ParseState) :
    Reads s (commaListWithin item after bound) fun as ks _ =>
      ∃ phrases trailing, ks = commaSeparated trailing phrases ++ [.punct .rightParen] ∧
        List.Forall₂ R as phrases := by
  induction bound generalizing s with
  | zero => exact .refuse _
  | succ bound ih =>
      refine .next (fun hclose => ?_) fun _ => ?_
      · exact .advance hclose nofun fun t _ => .pure ⟨[], false, rfl, .nil⟩
      · refine .bind (hitem s) fun first ks t _ hfirst => ?_
        refine .next (fun hcomma => ?_) fun _ => .next (fun hclose => ?_) fun _ => .expecting _
        · refine .advance hcomma nofun fun u _ => .bind (ih u) ?_
          rintro rest _ v - ⟨phrases, trailing, rfl, heach⟩
          refine .pure ?_
          cases phrases with
          | nil => exact ⟨[ks], true, by simp [commaSeparated], .cons hfirst heach⟩
          | cons next others =>
              exact ⟨ks :: next :: others, trailing, by simp [commaSeparated],
                .cons hfirst heach⟩
        · refine .bind (reads_commaListWithin_close hclose bound) ?_
          rintro _ _ v - ⟨rfl, rfl⟩
          exact .pure ⟨[ks], false, by simp [commaSeparated], .cons hfirst .nil⟩

/-- A list of phrases up to its closing parenthesis. -/
theorem reads_commaListWithin {phrase : Phrase} {item : Parser α} {yield : α → List TokenKind}
    (hitem : Parses phrase item yield) (after : Expectation) (bound : Nat) (s : ParseState) :
    Reads s (commaListWithin item after bound) fun as ks _ =>
      ∃ phrases trailing, ks = commaSeparated trailing phrases ++ [.punct .rightParen] ∧
        ParsesEach phrase yield as phrases :=
  reads_listWithin hitem after bound s

end Parser

end Wattle
