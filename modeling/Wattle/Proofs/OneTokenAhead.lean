import Wattle.Proofs.Lookahead

/-!
# One token ahead

What the parsers of all parts of the language have in common. With an end mark ahead, each of them
stops, moves forward, and stays in front of the mark. Its success depends on the tokens it read and
the one behind them, and on no others. And it makes no difference whether the form of an operand is
found by trying one after the other, or is told by the next token.
-/

namespace Wattle

namespace Parser

variable {α : Type} {w : Window} {i id bound bound' : Nat}

/-! ## The parts of the language -/

/-- The forms of an operand, in the order in which they are tried. -/
def forms (bound : Nat) : List (Parser (Expr Node)) :=
  [numeric,
    nameOrCall bound (expressionOver bound (operandWithin bound)),
    parenthesized (expressionOver bound (operandWithin bound)),
    unary (operandWithin bound)]

theorem operandWithin_forms (bound : Nat) : operandWithin (bound + 1) = firstForm (forms bound) :=
  rfl

/-- An expression of the given level: operators of this and the tighter levels join its operands. -/
def level (rank : Nat) : Parser (Expr Node) := do
  let bound ← budget
  (BinaryOp.levels.drop rank).foldr (chain bound) (casts bound (operandWithin bound))

example : level 0 = expression :=
  rfl

/-- What has a parser of its own. -/
inductive Part where
  | resultType
  | valueType
  | level (rank : Nat)
  | operand
  | numeric
  | nameOrCall
  | parenthesized
  | unary
  | condition (context : String)
  | arm (word : Keyword)
  | conditional
  | loop
  | returnStatement
  | declaration (kind : DeclKind)
  | expressionStatement
  | statement
  | block
  | parameter
  | signature
  | importPath
  | funcDef (first : Token)
  | funcImport (first : Token)
  | function
  | memorySize
  | memory
  | wholeExpression
  | program

namespace Part

/-- What reading a part gives. -/
def Result : Part → Type
  | resultType | valueType => Ty
  | level _ | operand | numeric | nameOrCall | parenthesized | unary => Expr Node
  | condition _ | wholeExpression => Expr Node
  | arm _ => Arm Node
  | conditional | loop | returnStatement | declaration _ | expressionStatement => Stmt Node
  | statement => Stmt Node
  | block => List (Stmt Node)
  | parameter => Parameter
  | signature => Signature
  | importPath => ImportPath
  | funcDef _ => FuncDef Node
  | funcImport _ => FuncImport
  | function => Func Node
  | memorySize => UInt32
  | memory => Memory
  | program => Program Node

def parser : (part : Part) → Parser part.Result
  | resultType => Parser.resultType
  | valueType => Parser.valueType
  | level rank => Parser.level rank
  | operand => do operandWithin (← budget)
  | numeric => Parser.numeric
  | nameOrCall => do
    let bound ← budget
    Parser.nameOrCall bound (expressionOver bound (operandWithin bound))
  | parenthesized => do
    let bound ← budget
    Parser.parenthesized (expressionOver bound (operandWithin bound))
  | unary => do Parser.unary (operandWithin (← budget))
  | condition context => Parser.condition context
  | arm word => Parser.arm Parser.block word
  | conditional => Parser.conditional Parser.block
  | loop => Parser.loop Parser.block
  | returnStatement => Parser.returnStatement
  | declaration kind => Parser.declaration kind
  | expressionStatement => Parser.expressionStatement
  | statement => Parser.statement
  | block => Parser.block
  | parameter => Parser.parameter
  | signature => Parser.signature
  | importPath => Parser.importPath
  | funcDef first => Parser.funcDef first
  | funcImport first => Parser.funcImport first
  | function => Parser.function
  | memorySize => Parser.memorySize
  | memory => Parser.memory
  | wholeExpression => Parser.wholeExpression
  | program => Parser.program

/-- How many tokens a part has at least: only a program can be empty. -/
def least : Part → Nat
  | program => 0
  | _ => 1

end Part

section

variable (hended : ¬ w.endless)
include hended

theorem onward_operandWithin (hbound : Ample w i bound bound') :
    Onward w i (operandWithin bound) (operandWithin bound') :=
  onward_operand readsForms_operandWithin readsForms_operandWithin (fun h => absurd h hended) hbound

/-- Behind the first token of an operand, the bounds are large enough for what is inside. -/
theorem onward_inner (hbound : Ample w i (bound + 1) (bound' + 1)) :
    ∀ j, Reaches w i 1 j → Onward w j (operandWithin bound) (operandWithin bound') ∧
      Onward w j (expressionOver bound (operandWithin bound))
        (expressionOver bound' (operandWithin bound')) := by
  intro j hj
  have hoperand : Onward w j (operandWithin bound) (operandWithin bound') :=
    onward_operandWithin hended (by omega)
  exact ⟨hoperand, onward_levels hoperand (by omega) _⟩

theorem tracks_level (rank : Nat) : Tracks w i id 1 (level rank) (level rank) := by
  refine .budget fun bound bound' hbound => ?_
  exact onward_levels (onward_operandWithin hended hbound) hbound _ i id (Nat.le_refl _)

theorem tracks_wholeExpression : Tracks w i id 1 wholeExpression wholeExpression := by
  refine (onward_expression hended i id (Nat.le_refl _)).bind fun value j id' _ => ?_
  exact .next (fun _ => .pure) fun _ => .expecting _

theorem Part.tracks (part : Part) : Tracks w i id part.least part.parser part.parser := by
  have hexpression : Onward w 0 Parser.expression Parser.expression := onward_expression hended
  have hblock : Onward w i Parser.block Parser.block := by
    rw [← Via.block_expression]
    exact Via.onward_block hexpression
  have hle := Nat.le_refl i
  cases part with
  | resultType => exact onward_resultType i id hle
  | valueType => exact onward_valueType i id hle
  | level rank => exact tracks_level hended rank
  | operand => exact .budget fun _ _ hbound => onward_operandWithin hended hbound i id hle
  | numeric => exact tracks_numeric
  | nameOrCall =>
      refine .since fun hfirst => .budget fun _ _ hbound => ?_
      exact tracks_nameOrCall hfirst (fun j hj => (onward_inner hended (by omega) j hj).2) (by omega)
  | parenthesized =>
      refine .since fun hfirst => .budget fun _ _ hbound => ?_
      exact tracks_parenthesized hfirst fun j hj => (onward_inner hended (by omega) j hj).2
  | unary =>
      refine .budget fun _ _ hbound => ?_
      exact tracks_unary fun j hj => (onward_inner hended (by omega) j hj).1
  | condition context => exact Via.onward_condition hexpression context i id hle
  | arm word => exact Via.onward_arm hexpression hblock word i id hle
  | conditional =>
      have hconditional := Via.onward_conditional hexpression hblock i id hle
      rwa [Via.conditional_expression] at hconditional
  | loop => exact Via.onward_loop hexpression hblock i id hle
  | returnStatement => exact Via.onward_returnStatement hexpression i id hle
  | declaration kind => exact Via.onward_declaration hexpression kind i id hle
  | expressionStatement => exact Via.onward_expressionStatement hexpression i id hle
  | statement =>
      have hstatement : Onward w i _ _ := Via.onward_statement hexpression
      rw [Via.statement_expression] at hstatement
      exact hstatement i id hle
  | block => exact hblock i id hle
  | parameter => exact onward_parameter i id hle
  | signature => exact onward_signature i id hle
  | importPath => exact onward_importPath i id hle
  | funcDef first =>
      have hfuncDef : Onward w i _ _ := Via.onward_funcDef hexpression first
      rw [Via.funcDef_expression] at hfuncDef
      exact hfuncDef i id hle
  | funcImport first => exact onward_funcImport first i id hle
  | function =>
      have hfunction : Onward w i _ _ := Via.onward_function hexpression
      rw [Via.function_expression] at hfunction
      exact hfunction i id hle
  | memorySize => exact onward_memorySize i id hle
  | memory => exact onward_memory i id hle
  | wholeExpression => exact tracks_wholeExpression hended
  | program => exact tracks_program hended

theorem tracks_of_mem_forms {form : Parser (Expr Node)} (hform : form ∈ forms bound)
    (hfirst : w.first ≤ i) (hbound : Ample w i (bound + 1) (bound + 1)) :
    Tracks w i id 1 form form := by
  have hinner := onward_inner hended hbound
  simp only [forms, List.mem_cons, List.not_mem_nil, or_false] at hform
  rcases hform with rfl | rfl | rfl | rfl
  · exact tracks_numeric
  · exact tracks_nameOrCall hfirst (fun j hj => (hinner j hj).2) hbound
  · exact tracks_parenthesized hfirst fun j hj => (hinner j hj).2
  · exact tracks_unary fun j hj => (hinner j hj).1

end

/-! ## Runs beside themselves -/

section

variable {p q : Parser α} {s t : ParseState} {endless : Prop} {least stop : Nat} {a : α}
  {e : ParseError}

theorem eq_seek (s : ParseState) : s = ⟨.seek s.cursor.tokens s.cursor.position, s.nextId⟩ :=
  congrArg (ParseState.mk · s.nextId) (Cursor.seek_position s.cursor).symm

theorem position_le_length (c : Cursor) : c.position ≤ c.tokens.length := by
  simp [Cursor.position, Cursor.tokens]

/-- From the state `s` on, a list beside itself. -/
abbrev Beside (endless : Prop) (s : ParseState) (least : Nat) (p q : Parser α) : Prop :=
  Tracks (.self s.cursor.tokens endless) s.cursor.position s.nextId least p q

theorem Part.beside (part : Part) (s : ParseState) :
    Beside False s part.least part.parser part.parser :=
  part.tracks not_false

theorem Tracks.success (h : Beside endless s least p q) (hrun : p s = .ok a t) :
    q s = .ok a t ∧ t.cursor.tokens = s.cursor.tokens ∧ s.cursor.position ≤ t.cursor.position ∧
      ∀ stop, EndsAt s.cursor.tokens stop → s.cursor.position ≤ stop →
        s.cursor.position + least ≤ t.cursor.position ∧ t.cursor.position ≤ stop := by
  obtain ⟨j, id', rfl, hcomes, hsame⟩ := h.ok (Nat.zero_le _) (position_le_length _)
    ((congrArg p (eq_seek s)).symm.trans hrun)
  have hposition : ((Window.self s.cursor.tokens endless).here j id').cursor.position = j :=
    Cursor.position_seek hcomes.inside
  have hreaches : s.cursor.position ≤ j ∧
      (s.cursor.position + least ≤ j ∨ s.cursor.tokens.length ≤ j) := hcomes.reaches
  rw [hposition]
  refine ⟨(congrArg q (eq_seek s)).trans (hsame hcomes.inside), Cursor.tokens_seek _ _,
    hreaches.1, fun stop hstop hbefore => ?_⟩
  have hstays := hcomes.stays stop hstop hbefore
  have hlt := hstop.lt_length
  exact ⟨by omega, hstays⟩

theorem Tracks.failure (h : Beside endless s least p q) (hrun : p s = .error e t)
    (hcounts : Counts (.self s.cursor.tokens endless) s.cursor.position e) :
    e.cause ≠ .endless ∧
      (∀ stop, EndsAt s.cursor.tokens stop → s.cursor.position ≤ stop →
        ∃ k, s.cursor.position ≤ k ∧ k ≤ stop ∧ s.cursor.tokens[k]? = Option.some e.found) ∧
      ((s.cursor.tokens.map Token.span).Nodup → q s = .error e t) := by
  obtain ⟨k, id', rfl, hcomes, hfound, hcause, hsame⟩ := h.error (Nat.zero_le _)
    (position_le_length _) ((congrArg p (eq_seek s)).symm.trans hrun) hcounts
  refine ⟨hcause, fun stop hstop hbefore => ?_, fun hdistinct => ?_⟩
  · have hstays := hcomes.stays stop hstop hbefore
    refine ⟨k, hcomes.reaches.1, hstays, ?_⟩
    rw [hfound]
    exact Window.getElem?_shown (w := .self s.cursor.tokens endless)
      (Nat.lt_of_le_of_lt hstays hstop.lt_length)
  · exact (congrArg q (eq_seek s)).trans (hsame hdistinct hcomes.inside)

/-- Started in the state `s`, both parsers succeed alike. Unless two tokens stand at one place or
`q` runs forever, both also fail alike. With an end mark ahead, none of them runs forever. -/
structure Agree (s : ParseState) (p q : Parser α) : Prop where
  success : ∀ a t, p s = .ok a t ↔ q s = .ok a t
  failure : (s.cursor.tokens.map Token.span).Nodup → p s = q s ∨ NeverEnds q s
  ends : ∀ stop, EndsAt s.cursor.tokens stop → s.cursor.position ≤ stop →
    ¬ NeverEnds p s ∧ ¬ NeverEnds q s

theorem Tracks.ends (h : Beside endless s least p q) (hstop : EndsAt s.cursor.tokens stop)
    (hbefore : s.cursor.position ≤ stop) : ¬ NeverEnds p s := by
  rintro ⟨e, t, hrun, hcause⟩
  exact (h.failure hrun (.inl ⟨stop, hstop, hbefore⟩)).1 hcause

/-- It is the parser `q` whose failures are followed where no end mark is ahead: `p` may have given
up an attempt that runs forever. -/
theorem Agree.of_tracks (h : Beside False s least p q) (h' : Beside True s least q p) :
    Agree s p q where
  success a t := ⟨fun hrun => (h.success hrun).1, fun hrun => (h'.success hrun).1⟩
  failure hdistinct := by
    cases hrun : q s with
    | ok a t => exact .inl (h'.success hrun).1
    | error e t =>
        by_cases hcause : e.cause = .endless
        · exact .inr ⟨e, t, hrun, hcause⟩
        · exact .inl ((h'.failure hrun (.inr ⟨trivial, hcause⟩)).2.2 hdistinct)
  ends stop hstop hbefore := ⟨h.ends hstop hbefore, h'.ends hstop hbefore⟩

end

/-- From every state and wherever the tokens stand, expressions, statements, blocks, functions and
programs are read the same whether the forms of operands are tried or predicted, with the same
numbers. Where no two tokens stand at one place, also the failures are the same. Only behind the last
end mark, where no run from the start of the tokens comes, prediction may run forever. -/
theorem trying_forms_agrees_with_prediction (s : ParseState) :
    Agree s expression predictedExpression ∧
    Agree s statement (Via.statement predictedExpression) ∧
    Agree s block (Via.block predictedExpression) ∧
    Agree s function (Via.function predictedExpression) ∧
    Agree s program (Via.program predictedExpression) := by
  have hto : Onward (.self s.cursor.tokens False) 0 expression predictedExpression :=
    onward_expressionBy readsForms_operandWithin readsForms_predictedWithin False.elim
  have hback : Onward (.self s.cursor.tokens True) 0 predictedExpression expression :=
    onward_expressionBy readsForms_predictedWithin readsForms_operandWithin fun _ => rfl
  have hle := Nat.le_refl s.cursor.position
  rw [← Via.statement_expression, ← Via.block_expression, ← Via.function_expression,
    ← Via.program_expression]
  refine ⟨.of_tracks (hto _ _ (Nat.zero_le _)) (hback _ _ (Nat.zero_le _)), ?_, ?_, ?_, ?_⟩
  · exact .of_tracks (Via.onward_statement hto _ _ hle) (Via.onward_statement hback _ _ hle)
  · exact .of_tracks (Via.onward_block hto _ _ hle) (Via.onward_block hback _ _ hle)
  · exact .of_tracks (Via.onward_function hto _ _ hle) (Via.onward_function hback _ _ hle)
  · exact .of_tracks (Via.tracks_program hto) (Via.tracks_program hback)

/-- Tokens of the given kinds, all at one place. -/
def atOnePlace (kinds : List TokenKind) : List Token :=
  kinds.map fun kind => ⟨kind, .point ⟨1, 1⟩⟩

/-- Behind the minus an operand is missing. Prediction complains about the semicolon; but as it
stands at the place of the minus, trying goes back there. -/
example :
    let tokens := atOnePlace [.operator .minus, .punct .semicolon, .endOfFile]
    expression ⟨.seek tokens 0, 0⟩ =
        .error ⟨.expected .expression, ⟨.operator .minus, .point ⟨1, 1⟩⟩⟩ ⟨.seek tokens 0, 0⟩ ∧
      predictedExpression ⟨.seek tokens 0, 0⟩ =
        .error ⟨.expected .expression, ⟨.punct .semicolon, .point ⟨1, 1⟩⟩⟩ ⟨.seek tokens 1, 0⟩ :=
  ⟨rfl, rfl⟩

/-- With an end mark at or behind the cursor, which may be the first of several, every parser stops.
If it succeeds, it has read a token, a program apart, and has not passed the mark; if it fails, then
at a token from the cursor through the mark. No bound is ever reached, neither in the whole run nor
in an attempt that is given up. -/
theorem reading_stops_at_end_mark (part : Part) {s : ParseState} {stop : Nat}
    (hstop : EndsAt s.cursor.tokens stop) (hbefore : s.cursor.position ≤ stop) :
    (∀ a t, part.parser s = .ok a t →
      t.cursor.tokens = s.cursor.tokens ∧ s.cursor.position + part.least ≤ t.cursor.position ∧
        t.cursor.position ≤ stop) ∧
    (∀ e t, part.parser s = .error e t →
      e.cause ≠ .endless ∧
        ∃ k, s.cursor.position ≤ k ∧ k ≤ stop ∧ s.cursor.tokens[k]? = some e.found) ∧
    ∀ bound, s.cursor.rest.length ≤ bound → operandWithin (bound + 1) = firstForm (forms bound) ∧
      ∀ form ∈ forms bound, ∀ e t, form s = .error e t → e.cause ≠ .endless := by
  refine ⟨fun a t hrun => ?_, fun e t hrun => ?_, fun bound hbound =>
    ⟨operandWithin_forms bound, fun form hform e t hrun => ?_⟩⟩
  · obtain ⟨-, htokens, -, hmoves⟩ := (part.beside s).success hrun
    exact ⟨htokens, hmoves stop hstop hbefore⟩
  · obtain ⟨hcause, hfound, -⟩ := (part.beside s).failure hrun (.inl ⟨stop, hstop, hbefore⟩)
    exact ⟨hcause, hfound stop hstop hbefore⟩
  · have hlength : s.cursor.tokens.length = s.cursor.position + s.cursor.rest.length := by
      simp [Cursor.tokens, Cursor.position]
    have hample : Ample (.self s.cursor.tokens False) s.cursor.position (bound + 1) (bound + 1) := by
      simp only [Ample, Window.self]
      omega
    have hform' : Beside False s 1 form form :=
      tracks_of_mem_forms not_false hform (Nat.zero_le _) hample
    exact (hform'.failure hrun (.inl ⟨stop, hstop, hbefore⟩)).1

/-- An expression between end marks, with all tokens at one place. -/
theorem expression_between_end_marks_is_read :
    let tokens := atOnePlace [.endOfFile, .operator .minus, .identifier "x", .endOfFile,
      .operator .plus, .endOfFile]
    ∃ value t, (Part.level 0).parser ⟨.seek tokens 1, 0⟩ = .ok value t ∧
      1 < t.cursor.position ∧ t.cursor.position ≤ 3 := by
  intro tokens
  have hstop : EndsAt (Cursor.seek tokens 1).tokens 3 := rfl
  obtain ⟨hsuccess, -, -⟩ := reading_stops_at_end_mark (.level 0) (s := ⟨.seek tokens 1, 0⟩) hstop
    (by decide)
  exact ⟨_, _, rfl, (hsuccess _ _ rfl).2⟩

/-- A success depends on nothing but the tokens that were read and the one behind them: any list
with the same tokens there is read the same, whatever stands in front of them or behind. They do not
reach past an end mark. -/
theorem success_depends_on_tokens_read (part : Part) {tokens others : List Token}
    {first last id : Nat} {value : part.Result} {t : ParseState} (hlast : last < tokens.length)
    (hagree : ∀ index, first ≤ index → index ≤ last → others[index]? = tokens[index]?)
    (hrun : part.parser ⟨.seek tokens first, id⟩ = .ok value t) (ht : t.cursor.position = last) :
    part.parser ⟨.seek others first, id⟩ = .ok value ⟨.seek others last, t.nextId⟩ ∧
      ∀ stop, EndsAt tokens stop → first ≤ stop → last ≤ stop := by
  obtain ⟨-, -, hforward, -⟩ := (part.beside _).success hrun
  have hfirst : first ≤ last := by
    simp only [Cursor.position, Cursor.seek, List.length_reverse, List.length_take] at hforward ht
    omega
  let w : Window := ⟨tokens, others, first, last, False, hfirst, .inl hlast, hagree⟩
  have hinside : first ≤ tokens.length := Nat.le_of_lt (Nat.lt_of_le_of_lt hfirst hlast)
  obtain ⟨j, id', rfl, hcomes, hsame⟩ :=
    (part.tracks (w := w) not_false).ok (Nat.le_refl first) hinside hrun
  have hj : j = last := (Cursor.position_seek hcomes.inside).symm.trans ht
  subst hj
  exact ⟨hsame (Nat.le_refl _), fun stop hstop hbefore => hcomes.stays stop hstop hbefore⟩

/-- An expression and the parenthesis behind it, in a list without an end mark and in one that has
its only end mark in front of them. -/
theorem expression_read_alike_in_other_surroundings :
    let tokens := atOnePlace [.punct .semicolon, .operator .minus, .identifier "x",
      .punct .rightParen]
    let others := atOnePlace [.endOfFile, .operator .minus, .identifier "x", .punct .rightParen,
      .operator .star]
    ∃ value t, (Part.level 0).parser ⟨.seek tokens 1, 7⟩ = .ok value t ∧
      (Part.level 0).parser ⟨.seek others 1, 7⟩ = .ok value ⟨.seek others 3, t.nextId⟩ := by
  intro tokens others
  have hagree : ∀ index, 1 ≤ index → index ≤ 3 → others[index]? = tokens[index]? := by
    intro index hfirst hlast
    obtain rfl | rfl | rfl : index = 1 ∨ index = 2 ∨ index = 3 := by omega
    · rfl
    · rfl
    · rfl
  exact ⟨_, _, rfl, (success_depends_on_tokens_read (.level 0) (by decide) hagree rfl rfl).1⟩

end Parser

end Wattle
