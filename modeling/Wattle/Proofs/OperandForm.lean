import Wattle.Parse.Expr

/-!
# The form of an operand

The forms of an operand are tried one after the other, but no two of them start with the same kind
of token. So the next token chooses the form: the others refuse that token at once, and neither move
nor take a number. This holds wherever the tokens stand, also if several stand at one place.
-/

namespace Wattle.Parser

variable {α β : Type} {s : ParseState}

/-- `p` refuses the next token and leaves the state as it is. -/
def RefusesNext (p : Parser α) (s : ParseState) : Prop :=
  ∃ cause, p s = .error ⟨cause, s.cursor.peek⟩ s

namespace RefusesNext

theorem expecting (what : Expectation) : RefusesNext (Parser.expecting what : Parser α) s :=
  ⟨.expected what, rfl⟩

theorem peek {f : Token → Parser β} (h : RefusesNext (f s.cursor.peek) s) :
    RefusesNext (Parser.peek >>= f) s :=
  h

theorem bind {p : Parser α} {f : α → Parser β} (h : RefusesNext p s) : RefusesNext (p >>= f) s := by
  obtain ⟨cause, hp⟩ := h
  refine ⟨cause, ?_⟩
  change EStateM.bind p f s = _
  rw [EStateM.bind, hp]

theorem reading {g : Cursor → Except ParseError (α × Cursor)} (what : Expectation)
    (h : g s.cursor = .error (s.cursor.unexpected what)) : RefusesNext (Parser.reading g) s :=
  ⟨.expected what, by rw [Parser.reading, h]; rfl⟩

theorem numeric (h : ∀ digits type, s.cursor.peek.kind ≠ .number digits type) :
    RefusesNext Parser.numeric s := by
  refine peek ?_
  split
  · next digits type hkind => exact absurd hkind (h digits type)
  · exact expecting _

theorem nameOrCall {bound : Nat} {expression : Parser (Expr Node)}
    (h : ∀ name, s.cursor.peek.kind ≠ .identifier name) :
    RefusesNext (Parser.nameOrCall bound expression) s := by
  refine peek (bind (reading (.identifier "expression") ?_))
  rw [Cursor.expectIdentifier]
  split
  · next name hkind => exact absurd hkind (h name)
  · rfl

theorem parenthesized {expression : Parser (Expr Node)}
    (h : s.cursor.peek.kind ≠ .punct .leftParen) :
    RefusesNext (Parser.parenthesized expression) s := by
  refine peek (bind (bind (reading (.punct .leftParen "parenthesized expression") ?_)))
  rw [Cursor.expectPunct, if_neg h]

theorem unary {operand : Parser (Expr Node)}
    (h : ∀ mark, s.cursor.peek.kind = .operator mark → UnaryOp.ofOperator? mark = none) :
    RefusesNext (Parser.unary operand) s := by
  refine peek ?_
  split
  · next mark hkind =>
    rw [h mark hkind]
    exact expecting _
  · exact expecting _

end RefusesNext

theorem peek_bind (f : Token → Parser β) (s : ParseState) :
    (Parser.peek >>= f) s = f s.cursor.peek s :=
  rfl

section Attempts

variable {p q r : Parser α}

theorem orElseHere_of_refusesNext (h : RefusesNext p s) : orElseHere p q s = q s := by
  obtain ⟨cause, hp⟩ := h
  simp [orElseHere, hp]

/-- An attempt that would refuse the next token may be left out behind another one. -/
theorem orElseHere_skip (h : ∀ n, RefusesNext q { s with nextId := n }) :
    orElseHere p (orElseHere q r) s = orElseHere p r s := by
  simp only [orElseHere]
  cases p s with
  | ok a t => rfl
  | error e t =>
      obtain ⟨cause, hq⟩ := h t.nextId
      simp [hq]

end Attempts

/-- The form of an operand that starts with a token of the given kind. -/
def operandForm (bound : Nat) : TokenKind → Parser (Expr Node)
  | .number _ _ => numeric
  | .identifier _ => nameOrCall bound (expressionOver bound (operandWithin bound))
  | .punct .leftParen => parenthesized (expressionOver bound (operandWithin bound))
  | .operator mark =>
    if (UnaryOp.ofOperator? mark).isSome then unary (operandWithin bound) else expecting .expression
  | _ => expecting .expression

/-- A number that is next is read. -/
theorem orElseHere_numeric {digits : String} {type : BaseType} {q : Parser (Expr Node)}
    (h : s.cursor.peek.kind = .number digits type) : orElseHere numeric q s = numeric s := by
  have hread : ∃ e t, numeric s = .ok e t := by
    rw [numeric, peek_bind, h]
    exact ⟨_, _, rfl⟩
  obtain ⟨e, t, hread⟩ := hread
  rw [orElseHere, hread]

/-- Trying all forms is trying the one that the next token chooses. -/
theorem operandWithin_succ (bound : Nat) (s : ParseState) :
    operandWithin (bound + 1) s =
      orElseHere (operandForm bound s.cursor.peek.kind) (expecting .expression) s := by
  simp only [operandWithin, firstForm, List.foldr_cons, List.foldr_nil]
  have hnothing : orElseHere (expecting .expression) (expecting .expression) s =
      (expecting .expression : Parser (Expr Node)) s :=
    orElseHere_of_refusesNext (.expecting _)
  generalize hkind : s.cursor.peek.kind = kind
  -- every form but the chosen one refuses, be it tried before or behind
  cases kind with
  | number digits type => rw [orElseHere_numeric hkind, operandForm, orElseHere_numeric hkind]
  | identifier name =>
      rw [orElseHere_of_refusesNext (.numeric (by simp [hkind])),
        orElseHere_skip fun n => .parenthesized (by simp [hkind]),
        orElseHere_skip fun n => .unary (by simp [hkind])]
      rfl
  | punct mark =>
      rw [orElseHere_of_refusesNext (.numeric (by simp [hkind])),
        orElseHere_of_refusesNext (.nameOrCall (by simp [hkind]))]
      by_cases hopen : mark = .leftParen
      · rw [hopen, orElseHere_skip fun n => .unary (by simp [hkind])]
        rfl
      · have hform : operandForm bound (.punct mark) = expecting .expression := by
          cases mark with
          | leftParen => exact absurd rfl hopen
          | _ => rfl
        rw [orElseHere_of_refusesNext (.parenthesized (by simp [hkind, hopen])),
          orElseHere_of_refusesNext (.unary (by simp [hkind])), hform, hnothing]
  | operator mark =>
      rw [orElseHere_of_refusesNext (.numeric (by simp [hkind])),
        orElseHere_of_refusesNext (.nameOrCall (by simp [hkind])),
        orElseHere_of_refusesNext (.parenthesized (by simp [hkind])), operandForm]
      by_cases hunary : (UnaryOp.ofOperator? mark).isSome
      · rw [if_pos hunary]
      · rw [if_neg hunary, hnothing]
        exact orElseHere_of_refusesNext (.unary (by simpa [hkind] using hunary))
  | keyword | base | endOfFile =>
      rw [orElseHere_of_refusesNext (.numeric (by simp [hkind])),
        orElseHere_of_refusesNext (.nameOrCall (by simp [hkind])),
        orElseHere_of_refusesNext (.parenthesized (by simp [hkind])),
        orElseHere_of_refusesNext (.unary (by simp [hkind]))]
      exact hnothing.symm

/-- A successful operand is the success of the form that the next token chooses, from the same
state: attempts that fail move nothing and take no numbers. -/
theorem operandWithin_eq_ok {bound : Nat} {s t : ParseState} {e : Expr Node}
    (h : operandWithin (bound + 1) s = .ok e t) :
    operandForm bound s.cursor.peek.kind s = .ok e t := by
  rw [operandWithin_succ, orElseHere] at h
  split at h
  · next a u hform =>
    obtain ⟨rfl, rfl⟩ := EStateM.Result.ok.inj h
    exact hform
  · split at h
    · cases h
    · cases h

end Wattle.Parser
