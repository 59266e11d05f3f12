import Wattle.Proofs.ParserSound

/-!
# What a failure leaves can be completed

Wherever a parser fails, the tokens that it has read up to there begin a phrase of its kind: open
blocks and lists can be closed, and what is still missing can be supplied.
-/

namespace Wattle

/-- The tokens begin a phrase of the given kind: more tokens can complete it. -/
def Begins (phrase : Phrase) (ks : List TokenKind) : Prop :=
  ∃ more, Derives phrase (ks ++ more)

theorem Derives.begins {phrase : Phrase} {ks : List TokenKind} (h : Derives phrase ks) :
    Begins phrase ks :=
  ⟨[], by rwa [List.append_nil]⟩

theorem Begins.of_append {phrase : Phrase} {ks more : List TokenKind}
    (h : Begins phrase (ks ++ more)) : Begins phrase ks := by
  obtain ⟨rest, h⟩ := h
  exact ⟨more ++ rest, by rwa [← List.append_assoc]⟩

instance : Nonempty Token := ⟨Cursor.noToken⟩

instance : Nonempty Ty := ⟨.void⟩

instance : Nonempty (Expr Node) := ⟨.name ⟨0, .point ⟨0, 0⟩⟩ ""⟩

instance : Nonempty (Stmt Node) := ⟨.ret ⟨0, .point ⟨0, 0⟩⟩ none⟩

instance : Nonempty Parameter := ⟨⟨"", .void, .point ⟨0, 0⟩⟩⟩

instance : Nonempty Signature := ⟨⟨"", .void, []⟩⟩

instance : Nonempty ImportPath := ⟨⟨"", ""⟩⟩

instance : Nonempty MemoryKind := ⟨.plain⟩

namespace Parser

variable {α β : Type} {outer inner : Phrase} {past : List TokenKind} {s : ParseState}

/-- Behind the tokens `past` of a phrase, `p` is run on `s`. The phrase has begun properly, and if
`p` fails, then what it has read until then continues it. -/
structure Continues (outer : Phrase) (past : List TokenKind) (s : ParseState) (p : Parser α) :
    Prop where
  begun : Begins outer past
  stops : .endOfFile ∈ s.kinds → ∀ {e t}, p s = .error e t →
    ∃ ks, s.kinds = ks ++ t.kinds ∧ Begins outer (past ++ ks)

/-- Wherever `p` fails, it has read what begins a phrase of the given kind. -/
structure Viable (inner : Phrase) (p : Parser α) : Prop where
  continues : ∀ s, Continues inner [] s p

namespace Continues

variable {p q : Parser α} {f : α → Parser β}

theorem pure {a : α} (h : Begins outer past) : Continues outer past s (Pure.pure a) :=
  ⟨h, by rintro - e t ⟨⟩⟩

theorem refuse (cause : ParseCause) (h : Begins outer past) :
    Continues outer past s (Parser.refuse cause : Parser α) := by
  refine ⟨h, ?_⟩
  rintro - e t ⟨⟩
  exact ⟨[], rfl, by rwa [List.append_nil]⟩

theorem expecting (what : Expectation) (h : Begins outer past) :
    Continues outer past s (Parser.expecting what : Parser α) :=
  refuse _ h

theorem bind {Q : α → List TokenKind → ParseState → Prop} (hp : Continues outer past s p)
    (hreads : Reads s p Q) (hf : ∀ a ks t, Q a ks t → Continues outer (past ++ ks) t (f a)) :
    Continues outer past s (p >>= f) := by
  refine ⟨hp.begun, fun hend {e u} hrun => ?_⟩
  have hread := hreads hend
  simp only [Bind.bind, EStateM.bind] at hrun
  cases hfirst : p s with
  | error e' t =>
      rw [hfirst] at hrun
      obtain ⟨rfl, rfl⟩ := EStateM.Result.error.inj hrun
      exact hp.stops hend hfirst
  | ok a t =>
      rw [hfirst] at hrun hread
      obtain ⟨-, ks, hno, hkinds, hq⟩ := hread
      rw [hkinds, List.mem_append] at hend
      obtain ⟨ks', hkinds', hbegins⟩ := (hf a ks t hq).stops (hend.resolve_left hno) hrun
      exact ⟨ks ++ ks', by rw [hkinds, hkinds', List.append_assoc], by rwa [← List.append_assoc]⟩

theorem map (hp : Continues outer past s p) (g : α → β) :
    Continues outer past s (p >>= fun a => Pure.pure (g a)) := by
  refine ⟨hp.begun, fun hend {e t} hrun => ?_⟩
  simp only [Bind.bind, EStateM.bind] at hrun
  cases hfirst : p s with
  | error e' u =>
      rw [hfirst] at hrun
      obtain ⟨rfl, rfl⟩ := EStateM.Result.error.inj hrun
      exact hp.stops hend hfirst
  | ok a u =>
      rw [hfirst] at hrun
      cases hrun

/-- A part fails at a beginning of its own, which continues what surrounds it. -/
theorem part (hp : Viable inner p) (h : ∀ ks, Derives inner ks → Begins outer (past ++ ks)) :
    Continues outer past s p := by
  have hbegins : ∀ ks, Begins inner ks → Begins outer (past ++ ks) := by
    rintro ks ⟨more, hmore⟩
    have hall := h _ hmore
    rw [← List.append_assoc] at hall
    exact hall.of_append
  refine ⟨?_, fun hend {e t} hrun => ?_⟩
  · exact (hbegins [] (hp.continues s).begun).of_append
  · obtain ⟨ks, hkinds, hinner⟩ := (hp.continues s).stops hend hrun
    exact ⟨ks, hkinds, hbegins ks hinner⟩

/-- A part, and then what follows it. -/
theorem phrase [Nonempty α] {yield : α → List TokenKind} (hp : Viable inner p)
    (hparses : Parses inner p yield)
    (hf : ∀ a ks t, Derives inner ks → Continues outer (past ++ ks) t (f a)) :
    Continues outer past s (p >>= f) := by
  obtain ⟨a⟩ := ‹Nonempty α›
  have hpart : Continues outer past s p := part hp fun ks hks => (hf a ks s hks).begun
  exact hpart.bind (hparses s) fun a ks t h => hf a ks t h.1

theorem peek {f : Token → Parser β} (h : Continues outer past s (f s.cursor.peek)) :
    Continues outer past s (Parser.peek >>= f) :=
  ⟨h.begun, h.stops⟩

theorem next {kind : TokenKind} {f : Bool → Parser β}
    (hyes : s.cursor.peek.kind = kind → Continues outer past s (f true))
    (hno : s.cursor.peek.kind ≠ kind → Continues outer past s (f false)) :
    Continues outer past s (Parser.next kind >>= f) := by
  change Continues outer past s (Parser.peek >>= fun t => f (decide (t.kind = kind)))
  apply peek
  by_cases hkind : s.cursor.peek.kind = kind
  · rw [decide_eq_true hkind]
    exact hyes hkind
  · rw [decide_eq_false hkind]
    exact hno hkind

theorem advance {k : TokenKind} {f : Unit → Parser β} (hkind : s.cursor.peek.kind = k)
    (hk : k ≠ .endOfFile) (h : ∀ t, Continues outer (past ++ [k]) t (f ())) :
    Continues outer past s (Parser.advance >>= f) := by
  refine ⟨(h s).begun.of_append, fun hend {e t} hrun => ?_⟩
  obtain ⟨hno, hkinds⟩ := Reads.step hend hkind hk
  rw [hkinds, List.mem_append] at hend
  obtain ⟨ks, hkinds', hbegins⟩ := (h _).stops (hend.resolve_left hno) hrun
  refine ⟨[k] ++ ks, by rw [hkinds, hkinds', List.append_assoc], ?_⟩
  rwa [← List.append_assoc]

/-- A reading function that takes a token of a certain kind and refuses others. -/
theorem reading {K : α → TokenKind} [Nonempty α] {g : Cursor → Except ParseError (α × Cursor)}
    (hK : ∀ a, K a ≠ .endOfFile)
    (hg : (∃ a, s.cursor.peek.kind = K a ∧ g s.cursor = .ok (a, s.cursor.advance)) ∨
      ∃ e, g s.cursor = .error e)
    (h : ∀ a t, Continues outer (past ++ [K a]) t (f a)) :
    Continues outer past s (Parser.reading g >>= f) := by
  rcases hg with ⟨a, hkind, hok⟩ | ⟨e, herror⟩
  · have hmoved : Continues outer past s (Parser.advance >>= fun _ => f a) :=
      advance hkind (hK a) (h a)
    have hrun : (Parser.reading g >>= f) s = (Parser.advance >>= fun _ => f a) s := by
      change EStateM.bind (Parser.reading g) f s = _
      rw [EStateM.bind, Parser.reading, hok]
      rfl
    refine ⟨hmoved.begun, fun hend {e t} hstop => ?_⟩
    rw [hrun] at hstop
    exact hmoved.stops hend hstop
  · obtain ⟨a⟩ := ‹Nonempty α›
    refine ⟨(h a s).begun.of_append, fun hend {e' t} hrun => ⟨[], ?_, ?_⟩⟩
    · change EStateM.bind (Parser.reading g) f s = _ at hrun
      rw [EStateM.bind, Parser.reading, herror] at hrun
      obtain ⟨-, rfl⟩ := EStateM.Result.error.inj hrun
      rfl
    · rw [List.append_nil]
      exact (h a s).begun.of_append

theorem punct {mark : Punct} {context : String} {f : Unit → Parser β}
    (h : ∀ t, Continues outer (past ++ [TokenKind.punct mark]) t (f ())) :
    Continues outer past s (Parser.punct mark context >>= f) := by
  simp only [Parser.punct, bind_assoc, pure_bind]
  apply reading (K := fun _ => .punct mark) (fun _ => nofun) _ fun _ => h
  by_cases hkind : s.cursor.peek.kind = .punct mark
  · exact .inl ⟨s.cursor.peek, hkind, by rw [Cursor.expectPunct, if_pos hkind]⟩
  · exact .inr ⟨_, by rw [Cursor.expectPunct, if_neg hkind]⟩

theorem keyword {word : Keyword} {context : String} {f : Unit → Parser β}
    (h : ∀ t, Continues outer (past ++ [TokenKind.keyword word]) t (f ())) :
    Continues outer past s (Parser.keyword word context >>= f) := by
  simp only [Parser.keyword, bind_assoc, pure_bind]
  apply reading (K := fun _ => .keyword word) (fun _ => nofun) _ fun _ => h
  by_cases hkind : s.cursor.peek.kind = .keyword word
  · exact .inl ⟨s.cursor.peek, hkind, by rw [Cursor.expectKeyword, if_pos hkind]⟩
  · exact .inr ⟨_, by rw [Cursor.expectKeyword, if_neg hkind]⟩

theorem identifier {context : String} {f : String → Parser β}
    (h : ∀ name t, Continues outer (past ++ [TokenKind.identifier name]) t (f name)) :
    Continues outer past s (Parser.identifier context >>= f) := by
  apply reading (K := TokenKind.identifier) (fun _ => nofun) _ h
  simp only [Cursor.expectIdentifier]
  split
  · next name hname => exact .inl ⟨name, hname, rfl⟩
  · exact .inr ⟨_, rfl⟩

theorem budget {f : Nat → Parser β} (h : ∀ bound, Continues outer past s (f bound)) :
    Continues outer past s (Parser.budget >>= f) :=
  ⟨(h 0).begun, (h _).stops⟩

theorem get {f : ParseState → Parser β} (h : Continues outer past s (f s)) :
    Continues outer past s (MonadState.get >>= f) :=
  ⟨h.begun, h.stops⟩

theorem newNode {span : Span} {f : Node → Parser β}
    (h : ∀ node t, Continues outer past t (f node)) :
    Continues outer past s (Parser.newNode span >>= f) := by
  have hnext := h ⟨s.nextId, span⟩ { s with nextId := s.nextId + 1 }
  exact ⟨hnext.begun, hnext.stops⟩

theorem spanFrom {first : Token} {f : Span → Parser β}
    (h : ∀ span, Continues outer past s (f span)) :
    Continues outer past s (Parser.spanFrom first >>= f) :=
  ⟨(h (s.cursor.spanFrom first)).begun, (h _).stops⟩

theorem nodeFrom {first : Token} {f : Node → Parser β}
    (h : ∀ node t, Continues outer past t (f node)) :
    Continues outer past s (Parser.nodeFrom first >>= f) := by
  have hnext := h ⟨s.nextId, s.cursor.spanFrom first⟩ { s with nextId := s.nextId + 1 }
  exact ⟨hnext.begun, hnext.stops⟩

/-- Also if an attempt is given up, what remains to be read begins at the same token. -/
theorem orElseHere (hp : Continues outer past s p) (hq : ∀ t, Continues outer past t q) :
    Continues outer past s (Parser.orElseHere p q) := by
  refine ⟨hp.begun, fun hend {e t} hrun => ?_⟩
  simp only [Parser.orElseHere] at hrun
  cases hattempt : p s with
  | ok a u =>
      rw [hattempt] at hrun
      cases hrun
  | error e' u =>
      rw [hattempt] at hrun
      dsimp only at hrun
      by_cases hhere : e'.found.span = s.cursor.peek.span
      · rw [if_pos hhere] at hrun
        exact (hq { s with nextId := u.nextId }).stops hend hrun
      · rw [if_neg hhere] at hrun
        obtain ⟨rfl, rfl⟩ := EStateM.Result.error.inj hrun
        exact hp.stops hend hattempt

end Continues

/-! ## Lists and types -/

theorem continues_commaListWithin_close {item : Parser α} {after : Expectation}
    (hclose : s.cursor.peek.kind = .punct .rightParen)
    (h : Begins outer (past ++ [TokenKind.punct .rightParen])) (bound : Nat) :
    Continues outer past s (commaListWithin item after bound) := by
  cases bound with
  | zero => exact .refuse _ h.of_append
  | succ bound =>
      refine .next (fun _ => ?_) fun hno => absurd hclose hno
      exact .advance hclose nofun fun t => .pure h

/-- A list fails where a closing parenthesis can follow, or within an item. -/
theorem continues_commaListWithin [Nonempty α] {item : Parser α} {yield : α → List TokenKind}
    (hitem : Viable inner item) (hparses : Parses inner item yield) (after : Expectation)
    (bound : Nat)
    (h : ∀ items trailing, (∀ ks ∈ items, Derives inner ks) →
      Begins outer (past ++ (commaSeparated trailing items ++ [TokenKind.punct .rightParen]))) :
    Continues outer past s (commaListWithin item after bound) := by
  induction bound generalizing past s with
  | zero => exact .refuse _ (h [] false (List.forall_mem_nil _)).of_append
  | succ bound ih =>
      refine .next (fun hclose => ?_) fun _ => ?_
      · exact .advance hclose (by simp) fun t => .pure (h [] false (List.forall_mem_nil _))
      · refine .phrase hitem hparses fun first ks t hks => ?_
        have hclosed : Begins outer (past ++ ks ++ [TokenKind.punct .rightParen]) := by
          have hone := h [ks] false (List.forall_mem_singleton.mpr hks)
          simpa [commaSeparated] using hone
        -- behind the comma, the list closes at once or goes on with more items
        have hmore : ∀ items trailing, (∀ ks ∈ items, Derives inner ks) →
            Begins outer (past ++ ks ++ [TokenKind.punct .comma] ++
              (commaSeparated trailing items ++ [TokenKind.punct .rightParen])) := by
          intro items trailing hitems
          cases items with
          | nil =>
              have hone := h [ks] true (List.forall_mem_singleton.mpr hks)
              simpa [commaSeparated] using hone
          | cons next others =>
              have hall := h (ks :: next :: others) trailing
                (List.forall_mem_cons.mpr ⟨hks, hitems⟩)
              simpa [commaSeparated] using hall
        refine .next (fun hcomma => ?_) fun _ => .next (fun hclose => ?_) fun _ => ?_
        · exact .advance hcomma (by simp) fun u => (ih hmore).map _
        · exact (continues_commaListWithin_close hclose hclosed bound).map _
        · exact .expecting _ hclosed.of_append

theorem viable_valueTypeWithin (bound : Nat) : Viable .valueType (valueTypeWithin bound) := by
  have hstart : Derives .valueType [.base .i32] := .baseType nofun
  induction bound with
  | zero => exact ⟨fun s => .refuse _ ⟨_, hstart⟩⟩
  | succ bound ih =>
      constructor
      intro s
      refine .peek ?_
      split
      · next hstar =>
        refine .advance hstar nofun fun t => .next (fun _ => ?_) fun _ => ?_
        · exact .refuse _ ⟨_, .pointerType hstart⟩
        · refine .phrase ih (parses_valueTypeWithin bound) fun target ks u hks => .pure ?_
          exact (Derives.pointerType hks).begins
      · exact .refuse _ ⟨_, hstart⟩
      · next b hvoid hbase =>
        exact .advance hbase nofun fun t => .pure (Derives.baseType hvoid).begins
      · exact .expecting _ ⟨_, hstart⟩

theorem viable_valueType : Viable .valueType valueType :=
  ⟨fun s => .budget fun bound => (viable_valueTypeWithin bound).continues s⟩

theorem viable_resultType : Viable .resultType resultType := by
  constructor
  intro s
  refine .next (fun hvoid => ?_) fun _ => ?_
  · exact .advance hvoid nofun fun t => .pure Derives.voidResult.begins
  · exact .part viable_valueType fun ks hks => (Derives.valueResult hks).begins

/-! ## Expressions -/

theorem continues_chainWithin {operand : Parser (Expr Node)} (hoperand : Viable .expression operand)
    (hparses : Parses .expression operand Expr.yield) (level : List BinaryOp) (bound : Nat)
    (hpast : Derives .expression past) (left : Expr Node) :
    Continues .expression past s (chainWithin level operand bound left) := by
  induction bound generalizing past s left with
  | zero => exact .refuse _ hpast.begins
  | succ bound ih =>
      refine .peek ?_
      split
      · exact .pure hpast.begins
      · next op hop =>
        refine .advance (levelOp?_eq_some.mp hop).1 nofun fun t => ?_
        refine .phrase hoperand hparses fun right ks u hks => .newNode fun node v => ih ?_ _
        simpa using hpast.join op hks

theorem continues_castsWithin (bound : Nat) (hpast : Derives .operand past)
    (operand : Expr Node) : Continues .operand past s (castsWithin bound operand) := by
  induction bound generalizing past s operand with
  | zero => exact .refuse _ hpast.begins
  | succ bound ih =>
      refine .next (fun has => ?_) fun _ => .pure hpast.begins
      refine .advance has nofun fun t => ?_
      refine .phrase viable_valueType parses_valueType fun target ks u hks => .get ?_
      refine .newNode fun node v => ih ?_ _
      simpa using hpast.cast hks

theorem viable_expressionOver {operand : Parser (Expr Node)} (hoperand : Viable .prefixed operand)
    (hparses : Parses .prefixed operand Expr.yield) (bound : Nat) :
    Viable .expression (expressionOver bound operand) := by
  have hlevels : ∀ levels : List (List BinaryOp),
      Viable .expression (levels.foldr (chain bound) (casts bound operand)) ∧
      Parses .expression (levels.foldr (chain bound) (casts bound operand)) Expr.yield := by
    intro levels
    induction levels with
    | nil =>
        have hcasts : Viable .operand (casts bound operand) := by
          constructor
          intro s
          refine .phrase hoperand hparses fun first ks t hks => ?_
          exact continues_castsWithin bound hks.uncast first
        refine ⟨⟨fun s => .part hcasts fun ks hks => hks.alone.begins⟩, fun s => ?_⟩
        exact (parses_casts hparses bound s).imp fun e ks t h => ⟨h.1.alone, h.2⟩
    | cons level levels ih =>
        obtain ⟨hviable, hread⟩ := ih
        refine ⟨⟨fun s => ?_⟩, parses_chain hread bound level⟩
        refine .phrase hviable hread fun left ks t hks => ?_
        exact continues_chainWithin hviable hread level bound hks left
  exact (hlevels _).1

/-- An operand can be supplied anywhere. -/
theorem begins_prefixed : Begins .prefixed [] :=
  ⟨[.identifier ""], .name⟩

theorem viable_numeric : Viable .prefixed numeric := by
  constructor
  intro s
  refine .peek ?_
  split
  · next hnumber =>
    exact .advance hnumber nofun fun t => .newNode fun node u => .pure Derives.number.begins
  · exact .expecting _ begins_prefixed

section Operands

variable {expression : Parser (Expr Node)} (hexpression : Viable .expression expression)
  (hparses : Parses .expression expression Expr.yield)
include hexpression hparses

theorem viable_nameOrCall (bound : Nat) : Viable .prefixed (nameOrCall bound expression) := by
  constructor
  intro s
  refine .peek (.identifier fun name t => .next (fun hopen => ?_) fun _ => ?_)
  · refine .advance hopen nofun fun u => ?_
    have hargs : Continues .prefixed
        ([] ++ [TokenKind.identifier name] ++ [TokenKind.punct .leftParen]) u
        (commaListWithin expression .argumentListEnd bound) :=
      continues_commaListWithin hexpression hparses _ bound fun args trailing hargs =>
        (Derives.call hargs).begins
    refine hargs.bind (reads_commaListWithin hparses _ bound u) ?_
    rintro args _ v ⟨phrases, trailing, rfl, heach⟩
    exact .nodeFrom fun node w => .pure (Derives.call heach.derives).begins
  · exact .newNode fun node u => .pure Derives.name.begins

theorem viable_parenthesized : Viable .prefixed (parenthesized expression) := by
  constructor
  intro s
  refine .peek (.punct fun t => .phrase hexpression hparses fun value ks u hks => ?_)
  refine .punct fun v => .nodeFrom fun node w => .pure ?_
  exact (Derives.paren hks).begins

end Operands

theorem viable_unary {operand : Parser (Expr Node)} (hoperand : Viable .prefixed operand)
    (hparses : Parses .prefixed operand Expr.yield) : Viable .prefixed (unary operand) := by
  constructor
  intro s
  refine .peek ?_
  split
  · next mark hmark =>
    split
    · next op hop =>
      have hkind : s.cursor.peek.kind = .operator op.operator := by
        rw [hmark, UnaryOp.operator_of_ofOperator? hop]
      refine .advance hkind nofun fun t => .phrase hoperand hparses fun inner ks u hks => ?_
      exact .newNode fun node v => .pure (Derives.unary hks).begins
    · exact .expecting _ begins_prefixed
  · exact .expecting _ begins_prefixed

theorem viable_operandWithin (bound : Nat) : Viable .prefixed (operandWithin bound) := by
  induction bound with
  | zero => exact ⟨fun s => .refuse _ begins_prefixed⟩
  | succ bound ih =>
      have hoperand := parses_operandWithin bound
      have hparses := parses_expressionOver hoperand bound
      have hexpression := viable_expressionOver ih hoperand bound
      constructor
      intro s
      refine .orElseHere (viable_numeric.continues s) fun t => ?_
      refine .orElseHere ((viable_nameOrCall hexpression hparses bound).continues t) fun u => ?_
      refine .orElseHere ((viable_parenthesized hexpression hparses).continues u) fun v => ?_
      refine .orElseHere ((viable_unary ih hoperand).continues v) fun w => ?_
      exact .expecting _ begins_prefixed

theorem viable_expression : Viable .expression expression := by
  constructor
  intro s
  refine .budget fun bound => ?_
  have hoperand := parses_operandWithin bound
  exact (viable_expressionOver (viable_operandWithin bound) hoperand bound).continues s

/-! ## Statements -/

theorem continues_statementsWithin {statement : Parser (Stmt Node)}
    (hstatement : Viable .statement statement) (hparses : Parses .statement statement Stmt.yield)
    (bound : Nat) {body : List (List TokenKind)} (hbody : ∀ ks ∈ body, Derives .statement ks) :
    Continues .block (.punct .leftBrace :: body.flatten) s (statementsWithin statement bound) := by
  induction bound generalizing body s with
  | zero => exact .refuse _ ⟨_, .block hbody⟩
  | succ bound ih =>
      refine .next (fun hclose => ?_) fun _ => .next (fun _ => ?_) fun _ => ?_
      · exact .advance hclose nofun fun t => .pure (Derives.block hbody).begins
      · exact .expecting _ ⟨_, .block hbody⟩
      · refine .phrase hstatement hparses fun first ks t hks => ?_
        have hlonger : ∀ ks' ∈ body ++ [ks], Derives .statement ks' :=
          List.forall_mem_append.mpr ⟨hbody, List.forall_mem_singleton.mpr hks⟩
        have hrest := ih (s := t) hlonger
        rw [List.flatten_append, List.flatten_singleton] at hrest
        exact hrest.map _

theorem viable_blockOver {statement : Parser (Stmt Node)} (hstatement : Viable .statement statement)
    (hparses : Parses .statement statement Stmt.yield) : Viable .block (blockOver statement) := by
  constructor
  intro s
  refine .punct fun t => .budget fun bound => ?_
  have hopen : ∀ ks ∈ ([] : List (List TokenKind)), Derives .statement ks := nofun
  exact continues_statementsWithin hstatement hparses bound hopen

theorem Continues.condition {context : String} {f : Expr Node → Parser β}
    (h : ∀ value guard t, Derives .expression guard →
      Continues outer
        (past ++ [TokenKind.punct .leftParen] ++ guard ++ [TokenKind.punct .rightParen]) t
        (f value)) :
    Continues outer past s (Parser.condition context >>= f) := by
  simp only [Parser.condition, bind_assoc, pure_bind]
  refine .punct fun t => .phrase viable_expression parses_expression fun value guard u hguard => ?_
  exact .punct fun v => h value guard v hguard

theorem viable_returnStatement : Viable .statement returnStatement := by
  constructor
  intro s
  refine .peek (.keyword fun t => ?_)
  have hreturn : ∀ value : Option (List TokenKind), (∀ ks ∈ value, Derives .expression ks) →
      Begins .statement
        ([TokenKind.keyword .return_] ++ value.getD [] ++ [TokenKind.punct .semicolon]) :=
    fun value hvalue => (Derives.ret hvalue).begins
  simp only [returnValue, bind_assoc]
  refine .next (fun _ => ?_) fun _ => ?_
  · simp only [if_true, pure_bind]
    exact .punct fun u => .nodeFrom fun node v => .pure (hreturn none nofun)
  · simp only [Bool.false_eq_true, if_false, bind_assoc, pure_bind]
    refine .phrase viable_expression parses_expression fun value ks u hks => ?_
    refine .punct fun v => .nodeFrom fun node w => .pure ?_
    exact hreturn (some ks) (by simpa using hks)

theorem viable_declaration (kind : DeclKind) : Viable .statement (declaration kind) := by
  constructor
  intro s
  refine .peek (.keyword fun t => .identifier fun name u => .punct fun v => ?_)
  refine .phrase viable_valueType parses_valueType fun type ks w htype => ?_
  have hdeclare : ∀ initial, Derives .expression initial →
      Begins .statement ([] ++ [TokenKind.keyword (declarationWord kind)] ++
        [TokenKind.identifier name] ++ [TokenKind.punct .colon] ++ ks ++
        [TokenKind.operator .equal] ++ initial ++ [TokenKind.punct .semicolon]) := by
    intro initial hinitial
    simpa using (@Derives.declare kind name ks initial htype hinitial).begins
  refine .next (fun hequal => ?_) fun _ => ?_
  · refine .advance hequal nofun fun x => ?_
    refine .phrase viable_expression parses_expression fun initial ks' y hinitial => ?_
    exact .punct fun z => .nodeFrom fun node z' => .pure (hdeclare ks' hinitial)
  · have hsupplied := hdeclare [.identifier ""] Derives.name.uncast.alone
    exact .expecting _ hsupplied.of_append.of_append.of_append

theorem viable_expressionStatement : Viable .statement expressionStatement := by
  constructor
  intro s
  refine .peek (.phrase viable_expression parses_expression fun value ks t hks => ?_)
  exact .punct fun u => .nodeFrom fun node v => .pure (Derives.expr hks).begins

section Blocks

variable {block : Parser (List (Stmt Node))} (hblock : Viable .block block)
  (hparses : Parses .block block fun body => braced (Stmt.listYield body))
include hblock hparses

theorem continues_arm {word : Keyword}
    (h : ∀ ks, Derives .guarded ks → Begins outer (past ++ .keyword word :: ks)) :
    Continues outer past s (arm block word) := by
  refine .peek (.keyword fun t => .condition fun value guard u hguard => ?_)
  refine .phrase hblock hparses fun body ks v hbody => .spanFrom fun span => .pure ?_
  simpa using h _ (.guarded hguard hbody)

theorem continues_elifArmsWithin (bound : Nat) {first : List TokenKind}
    (hfirst : Derives .guarded first) {arms : List (List TokenKind)}
    (harms : ∀ arm ∈ arms, Derives .guarded arm) :
    Continues .statement (.keyword .if_ :: (first ++ arms.flatMap (.keyword .elif :: ·))) s
      (elifArmsWithin block bound) := by
  have hcond : ∀ {arms : List (List TokenKind)}, (∀ arm ∈ arms, Derives .guarded arm) →
      Begins .statement (.keyword .if_ :: (first ++ arms.flatMap (.keyword .elif :: ·))) := by
    intro arms harms
    simpa using (@Derives.cond first arms none hfirst harms nofun).begins
  induction bound generalizing arms s with
  | zero => exact .refuse _ (hcond harms)
  | succ bound ih =>
      have hlonger : ∀ ks, Derives .guarded ks → ∀ arm ∈ arms ++ [ks], Derives .guarded arm :=
        fun ks hks => List.forall_mem_append.mpr ⟨harms, List.forall_mem_singleton.mpr hks⟩
      refine .next (fun _ => ?_) fun _ => .pure (hcond harms)
      have harm : Continues .statement
          (.keyword .if_ :: (first ++ arms.flatMap (.keyword .elif :: ·))) s (arm block .elif) := by
        apply continues_arm hblock hparses
        intro ks hks
        simpa using hcond (hlonger ks hks)
      refine harm.bind (reads_arm hparses .elif s) ?_
      rintro a _ t ⟨ks, rfl, hks, -⟩
      have hrest := ih (s := t) (hlonger ks hks)
      simp only [List.flatMap_append, List.flatMap_singleton] at hrest
      simpa using hrest.map _

theorem continues_elseBody
    (h : ∀ otherwise : Option (List TokenKind), (∀ body ∈ otherwise, Derives .block body) →
      Begins outer (past ++ otherwise.elim [] (.keyword .else_ :: ·))) :
    Continues outer past s (elseBody block) := by
  refine .next (fun helse => ?_) fun _ => .pure (h none nofun).of_append
  refine .advance helse nofun fun t => .phrase hblock hparses fun body ks u hbody => .pure ?_
  have hlast := h (some ks) (by simpa using hbody)
  simpa using hlast

theorem viable_conditional : Viable .statement (conditional block) := by
  constructor
  intro s
  have hcond : ∀ {first : List TokenKind} {arms : List (List TokenKind)}
      {otherwise : Option (List TokenKind)}, Derives .guarded first →
      (∀ arm ∈ arms, Derives .guarded arm) → (∀ body ∈ otherwise, Derives .block body) →
      Begins .statement (.keyword .if_ :: first ++ arms.flatMap (.keyword .elif :: ·) ++
        otherwise.elim [] (.keyword .else_ :: ·)) := by
    intro first arms otherwise hfirst harms hotherwise
    simpa using (Derives.cond hfirst harms hotherwise).begins
  have hnone : ∀ arm ∈ ([] : List (List TokenKind)), Derives .guarded arm := nofun
  have harm : Continues .statement [] s (arm block .if_) := by
    apply continues_arm hblock hparses
    intro ks hks
    have hbare : ∀ body ∈ (none : Option (List TokenKind)), Derives .block body := nofun
    exact (hcond hks hnone hbare).of_append.of_append
  refine .peek (harm.bind (reads_arm hparses .if_ s) ?_)
  rintro firstArm _ t ⟨first, rfl, hfirst, -⟩
  refine .budget fun bound => ?_
  have harms := continues_elifArmsWithin (s := t) hblock hparses bound hfirst hnone
  rw [List.flatMap_nil, List.append_nil] at harms
  refine harms.bind (reads_elifArmsWithin hparses bound t) ?_
  rintro arms _ u ⟨others, rfl, hothers, -⟩
  have helse : Continues .statement (.keyword .if_ :: first ++
      others.flatMap (.keyword .elif :: ·)) u (elseBody block) :=
    continues_elseBody hblock hparses fun otherwise => hcond hfirst hothers
  refine helse.bind (reads_elseBody hparses u) ?_
  rintro otherwise _ v ⟨last, rfl, hlast, -⟩
  exact .nodeFrom fun node w => .pure (hcond hfirst hothers hlast)

theorem viable_loop : Viable .statement (loop block) := by
  constructor
  intro s
  refine .peek (.keyword fun t => .condition fun value guard u hguard => ?_)
  refine .phrase hblock hparses fun body ks v hbody => .nodeFrom fun node w => .pure ?_
  simpa using (Derives.loop (.guarded hguard hbody)).begins

theorem viable_statementOver : Viable .statement (statementOver block) := by
  constructor
  intro s
  refine .peek ?_
  split
  · exact (viable_conditional hblock hparses).continues s
  · exact (viable_loop hblock hparses).continues s
  · exact viable_returnStatement.continues s
  · exact (viable_declaration .var).continues s
  · exact (viable_declaration .const).continues s
  · exact viable_expressionStatement.continues s

end Blocks

theorem viable_statementWithin (bound : Nat) : Viable .statement (statementWithin bound) := by
  induction bound with
  | zero =>
      have hempty : Derives .statement [.identifier "", .punct .semicolon] :=
        .expr Derives.name.uncast.alone
      exact ⟨fun s => .refuse _ ⟨_, hempty⟩⟩
  | succ bound ih =>
      have hparses := parses_statementWithin bound
      exact viable_statementOver (viable_blockOver ih hparses) (parses_blockOver hparses)

theorem viable_block : Viable .block block := by
  constructor
  intro s
  refine .budget fun bound => ?_
  have hparses := parses_statementWithin bound
  exact (viable_blockOver (viable_statementWithin bound) hparses).continues s

/-! ## Programs -/

theorem viable_parameter : Viable .parameter parameter := by
  constructor
  intro s
  refine .peek (.identifier fun name t => .punct fun u => ?_)
  refine .phrase viable_valueType parses_valueType fun type ks v hks => .spanFrom fun span => ?_
  exact .pure (Derives.parameter hks).begins

theorem viable_signature : Viable .signature signature := by
  constructor
  intro s
  refine .identifier fun name t => .punct fun u => ?_
  have hsignature : ∀ {parameters : List (List TokenKind)} {trailing : Bool}
      {result : List TokenKind}, (∀ ks ∈ parameters, Derives .parameter ks) →
      Derives .resultType result →
      Begins .signature ([] ++ [TokenKind.identifier name] ++ [TokenKind.punct .leftParen] ++
        (commaSeparated trailing parameters ++ [TokenKind.punct .rightParen]) ++
        [TokenKind.punct .colon] ++ result) := by
    intro parameters trailing result hparameters hresult
    simpa using (@Derives.signature name parameters trailing result hparameters hresult).begins
  have hlist : Continues .signature
      ([] ++ [TokenKind.identifier name] ++ [TokenKind.punct .leftParen]) u
      (commaList parameter .parameterListEnd) := by
    refine .budget fun bound => ?_
    apply continues_commaListWithin viable_parameter parses_parameter
    intro parameters trailing hparameters
    exact (hsignature hparameters .voidResult).of_append.of_append
  refine hlist.bind (.budget fun bound => reads_commaListWithin parses_parameter _ bound u) ?_
  rintro parameters _ v ⟨phrases, trailing, rfl, heach⟩
  refine .punct fun w => .phrase viable_resultType parses_resultType fun result ks x hks => ?_
  exact .pure (hsignature heach.derives hks)

theorem viable_importPath : Viable .importPath importPath := by
  constructor
  intro s
  refine .keyword fun t => .punct fun u => .identifier fun nameSpace v => .punct fun w => ?_
  refine .identifier fun specifier x => .punct fun y => .pure ?_
  exact Derives.importPath.begins

theorem viable_function : Viable .function function := by
  constructor
  intro s
  refine .peek (.keyword fun t => .peek ?_)
  split
  · refine Continues.map ?_ _
    refine .phrase viable_importPath parses_importPath fun path ks u hpath => ?_
    refine .phrase viable_signature parses_signature fun header ks' v hheader => ?_
    refine .punct fun w => .nodeFrom fun node x => .pure ?_
    simpa using (Derives.importedFunction hpath hheader).begins
  · next hexport =>
    refine .advance hexport nofun fun u => Continues.map ?_ _
    refine .phrase viable_signature parses_signature fun header ks v hheader => ?_
    refine .phrase viable_block parses_block fun body ks' w hbody => .nodeFrom fun node x => ?_
    exact .pure (by simpa using (Derives.exportedFunction hheader hbody).begins)
  · refine Continues.map ?_ _
    refine .phrase viable_signature parses_signature fun header ks u hheader => ?_
    refine .phrase viable_block parses_block fun body ks' v hbody => .nodeFrom fun node w => ?_
    exact .pure (by simpa using (Derives.plainFunction hheader hbody).begins)

theorem viable_memoryKind : Viable .modifier memoryKind := by
  constructor
  intro s
  refine .peek ?_
  split
  · next hexport => exact .advance hexport nofun fun t => .pure Derives.exportModifier.begins
  · refine Continues.map ?_ _
    exact .part viable_importPath fun ks hks => (Derives.importModifier hks).begins
  · exact .pure Derives.noModifier.begins

/-- A size can be supplied. -/
theorem spells_zero : Spells "0" 0 :=
  rfl

theorem viable_memory : Viable .memory memory := by
  constructor
  intro s
  refine .peek (.keyword fun t => ?_)
  refine .phrase viable_memoryKind parses_memoryKind fun kind ks u hkind => ?_
  refine .identifier fun name v => .punct fun w => ?_
  have hmemory : ∀ {digits : String} {size : UInt32}, Spells digits size →
      Begins .memory ([] ++ [TokenKind.keyword .memory] ++ ks ++ [TokenKind.identifier name] ++
        [TokenKind.punct .leftParen] ++ [TokenKind.number digits .i32] ++
        [TokenKind.punct .rightParen] ++ [TokenKind.punct .semicolon]) := by
    intro digits size hsize
    simpa using (@Derives.memory ks name digits size hkind hsize).begins
  simp only [memorySize, bind_assoc]
  refine .peek ?_
  split
  · next size hsize =>
    obtain ⟨digits, hdigits, hspells⟩ := sizeOf?_eq_some hsize
    simp only [bind_assoc, pure_bind]
    refine .advance hdigits nofun fun x => .punct fun y => .punct fun z => ?_
    exact .nodeFrom fun node z' => .pure (hmemory hspells)
  · have hbegun := (hmemory spells_zero).of_append.of_append.of_append
    exact (Continues.expecting _ hbegun).bind (Q := fun _ _ _ => False) (.expecting _) nofun

theorem Written.begins_func {done : Program Node} {limit : Nat} (h : Written done past limit)
    {ks : List TokenKind} (hks : Derives .function ks) : Begins .program (past ++ ks) := by
  have hlonger : ∀ {fs : List (List TokenKind)}, (∀ f ∈ fs, Derives .function f) →
      ∀ f ∈ fs ++ [ks], Derives .function f :=
    fun hfs => List.forall_mem_append.mpr ⟨hfs, List.forall_mem_singleton.mpr hks⟩
  obtain ⟨before, hbefore, ⟨-, rfl⟩ | ⟨-, declared, after, hdeclared, hafter, rfl⟩⟩ := h.derives
  · simpa using (Derives.functions (hlonger hbefore)).begins
  · simpa using (Derives.withMemory hbefore hdeclared (hlonger hafter)).begins

theorem Written.begins_memory {done : Program Node} {limit : Nat} (h : Written done past limit)
    (hnone : done.memories = []) {ks : List TokenKind} (hks : Derives .memory ks) :
    Begins .program (past ++ ks) := by
  obtain ⟨before, hbefore, ⟨-, rfl⟩ | ⟨hsome, -⟩⟩ := h.derives
  · have hafter : ∀ f ∈ ([] : List (List TokenKind)), Derives .function f := nofun
    simpa using (Derives.withMemory hbefore hks hafter).begins
  · exact absurd hnone hsome

theorem continues_declarationsWithin (bound : Nat) {done : Program Node}
    (hdone : Written done past s.nextId) :
    Continues .program past s (declarationsWithin bound done) := by
  induction bound generalizing done past s with
  | zero => exact .refuse _ hdone.program.begins
  | succ bound ih =>
      refine .peek ?_
      split
      · exact .pure hdone.program.begins
      · have hfunction : Continues .program past s function :=
          .part viable_function fun ks hks => hdone.begins_func hks
        refine hfunction.bind (reads_function s) ?_
        rintro f ks t ⟨hderives, hdrops, hlow, hhigh⟩
        exact ih (hdone.func hderives hdrops hlow hhigh)
      · split
        · next hempty =>
          have hnone := List.isEmpty_iff.mp hempty
          have hmemory : Continues .program past s memory :=
            .part viable_memory fun ks hks => hdone.begins_memory hnone hks
          refine hmemory.bind (reads_memory s) ?_
          rintro m ks t ⟨⟨digits, hsize, hdrops⟩, hderives, hlow, hhigh⟩
          exact ih (hdone.memory hnone hderives hsize hdrops hlow hhigh)
        · exact .refuse _ hdone.program.begins
      · exact .expecting _ hdone.program.begins

theorem viable_program : Viable .program program :=
  ⟨fun s => .budget fun bound => continues_declarationsWithin bound (.start s.nextId)⟩

end Parser

end Wattle
