import Wattle.Proofs.SharedTokens

/-!
# How far reading looks ahead

A parser decides by the next token only. So what happens at a token, be it read or refused, is the
same in every list that has the same tokens up to and including that one. This holds whether the
form of an operand is found by trying or by prediction, and where tokens stand at distinct places, it
makes no difference which.
-/

namespace Wattle

namespace Parser

variable {α : Type} {w : Window} {i id bound bound' : Nat}

/-! ## Lists and types -/

theorem tracks_commaListWithin {item item' : Parser α} (hitem : Onward w i item item')
    (after : Expectation) (hbound : Ample w i bound bound') :
    Tracks w i id 1 (commaListWithin item after bound) (commaListWithin item' after bound') := by
  induction bound generalizing i id bound' with
  | zero => exact .exhausted (by omega)
  | succ bound ih =>
      refine .bounded (commaListWithin item' after) hbound fun bound' hbound => ?_
      refine .next (fun hclose => ?_) fun _ => ?_
      · exact .advance (by simp [hclose]) fun _ _ _ => .pure
      · refine (hitem i id (Nat.le_refl _)).bind fun first j id' hj => ?_
        -- the item has read a token, so what is left of the bound is enough
        have hrest : ∀ k id', j ≤ k → Tracks w k id' 0
            (do
              let rest ← commaListWithin item after bound
              return first :: rest)
            (do
              let rest ← commaListWithin item' after bound'
              return first :: rest) := by
          intro k id' hk
          have hlist : Tracks w k id' 1 (commaListWithin item after bound)
              (commaListWithin item' after bound') :=
            ih (hitem.mono (by omega)) (by omega)
          exact hlist.some.bind fun _ _ _ _ => .pure
        refine .next (fun hcomma => ?_) fun _ => ?_
        · exact .some (.advance (by simp [hcomma]) fun k id'' hk => hrest k id'' hk.1)
        · exact .next (fun _ => hrest j id' (Nat.le_refl _)) fun _ => .expecting _

theorem tracks_valueTypeWithin (hbound : Ample w i bound bound') :
    Tracks w i id 1 (valueTypeWithin bound) (valueTypeWithin bound') := by
  induction bound generalizing i id bound' with
  | zero => exact .exhausted (by omega)
  | succ bound ih =>
      refine .bounded valueTypeWithin hbound fun bound' hbound => .peek ?_
      split
      · next hstar =>
        refine .advance (by simp [hstar]) fun j id' hj => ?_
        refine .next (fun _ => .refuse nofun) fun _ => ?_
        have htarget : Tracks w j id' 1 (valueTypeWithin bound) (valueTypeWithin bound') :=
          ih (by omega)
        exact htarget.some.bind fun _ _ _ _ => .pure
      · exact .refuse nofun
      · next hbase => exact .advance (by simp [hbase]) fun _ _ _ => .pure
      · exact .expecting _

theorem onward_valueType : Onward w i valueType valueType :=
  fun _ _ _ => .budget fun _ _ hbound => tracks_valueTypeWithin hbound

theorem onward_resultType : Onward w i resultType resultType := by
  intro j id hj
  refine .next (fun hvoid => ?_) fun _ => onward_valueType j id hj
  exact .advance (by simp [hvoid]) fun _ _ _ => .pure

/-! ## Expressions -/

section Operands

variable {operand operand' : Parser (Expr Node)}

theorem tracks_chainWithin (hoperand : Onward w i operand operand') (level : List BinaryOp)
    (left : Expr Node) (hbound : Ample w i bound bound') :
    Tracks w i id 0 (chainWithin level operand bound left)
      (chainWithin level operand' bound' left) := by
  induction bound generalizing i id bound' left with
  | zero => exact .exhausted (by omega)
  | succ bound ih =>
      refine .bounded (fun b => chainWithin level operand' b left) hbound fun bound' hbound => ?_
      refine .peek ?_
      split
      · exact .pure
      · next op hop =>
        have hkind : (w.shown i).kind ≠ .endOfFile := by
          intro hend
          simp [levelOp?, hend] at hop
        refine .some (.advance hkind fun j id' hj => ?_)
        refine (hoperand j id' hj.1).some.bind fun right k id'' hk => .newNode fun node id₃ => ?_
        apply ih (hoperand.mono _)
        · omega
        · omega

theorem tracks_castsWithin (operand : Expr Node) (hbound : Ample w i bound bound') :
    Tracks w i id 0 (castsWithin bound operand) (castsWithin bound' operand) := by
  induction bound generalizing i id bound' operand with
  | zero => exact .exhausted (by omega)
  | succ bound ih =>
      refine .bounded (fun b => castsWithin b operand) hbound fun bound' hbound => ?_
      refine .since fun hfirst => .next (fun has => ?_) fun _ => .pure
      refine .some (.advance (by simp [has]) fun j id' hj => ?_)
      refine (onward_valueType j id' hj.1).some.bind fun target k id'' hk => ?_
      refine .get (by omega) fun s s' hstop => ?_
      rw [hstop]
      exact .newNode fun node id₃ => ih _ (by omega)

theorem onward_levels (hoperand : Onward w i operand operand')
    (hbound : Ample w i bound bound') (levels : List (List BinaryOp)) :
    Onward w i (levels.foldr (chain bound) (casts bound operand))
      (levels.foldr (chain bound') (casts bound' operand')) := by
  induction levels with
  | nil =>
      intro j id hj
      exact (hoperand j id hj).bind fun first k id' hk =>
        tracks_castsWithin first (by omega)
  | cons level levels ih =>
      intro j id hj
      exact (ih j id hj).bind fun left k id' hk =>
        tracks_chainWithin (ih.mono (by omega)) level left (by omega)

end Operands

section Forms

variable {expression expression' operand operand' : Parser (Expr Node)}

theorem commits_numeric {digits : String} {type : BaseType}
    (hkind : (w.shown i).kind = .number digits type) : Commits w i id numeric numeric := by
  refine .peek ?_
  rw [hkind]
  exact .advance (by simp [hkind]) fun _ _ _ => .newNode fun _ _ => .pure

/-- Behind the name, the bounds are large enough for the arguments. -/
theorem commits_nameOrCall {name : String} (hkind : (w.shown i).kind = .identifier name)
    (hfirst : w.first ≤ i)
    (hexpression : ∀ j, Reaches w i 1 j → Onward w j expression expression')
    (hbound : Ample w i (bound + 1) (bound' + 1)) :
    Commits w i id (nameOrCall bound expression) (nameOrCall bound' expression') := by
  refine .peek (.identifier hkind fun j id' hj => ?_)
  refine .next (fun hopen => ?_) fun _ => .newNode fun _ _ => .pure
  refine .some (.advance (by simp [hopen]) fun k id'' hk => ?_)
  have hargs : Tracks w k id'' 1 (commaListWithin expression .argumentListEnd bound)
      (commaListWithin expression' .argumentListEnd bound') :=
    tracks_commaListWithin (hexpression k (by omega)) _ (by omega)
  refine hargs.some.bind fun args l id₃ hl => .nodeFrom (by omega) fun _ _ => .pure

theorem commits_parenthesized (hkind : (w.shown i).kind = .punct .leftParen)
    (hfirst : w.first ≤ i)
    (hexpression : ∀ j, Reaches w i 1 j → Onward w j expression expression') :
    Commits w i id (parenthesized expression) (parenthesized expression') := by
  refine .peek (.punct hkind fun j id' hj => ?_)
  refine (hexpression j hj j id' (Nat.le_refl _)).some.bind fun inner k id'' hk => ?_
  exact .some (.punct fun l id₃ hl => .nodeFrom (by omega) fun _ _ => .pure)

theorem commits_unary {mark : Operator} {op : UnaryOp} (hkind : (w.shown i).kind = .operator mark)
    (hop : UnaryOp.ofOperator? mark = some op)
    (hoperand : ∀ j, Reaches w i 1 j → Onward w j operand operand') :
    Commits w i id (unary operand) (unary operand') := by
  refine .peek ?_
  simp only [hkind, hop]
  refine .advance (by simp [hkind]) fun j id' hj => ?_
  exact (hoperand j hj j id' (Nat.le_refl _)).some.bind fun inner k id'' hk =>
    .newNode fun _ _ => .pure

theorem tracks_numeric : Tracks w i id 1 numeric numeric := by
  refine .peek ?_
  split
  · next hkind => exact .advance (by simp [hkind]) fun _ _ _ => .newNode fun _ _ => .pure
  · exact .expecting _

theorem tracks_nameOrCall (hfirst : w.first ≤ i)
    (hexpression : ∀ j, Reaches w i 1 j → Onward w j expression expression')
    (hbound : Ample w i (bound + 1) (bound' + 1)) :
    Tracks w i id 1 (nameOrCall bound expression) (nameOrCall bound' expression') := by
  by_cases hkind : ∃ name, (w.shown i).kind = .identifier name
  · obtain ⟨name, hname⟩ := hkind
    exact (commits_nameOrCall hname hfirst hexpression hbound).tracks
  · exact .peek (.noIdentifier (not_exists.mp hkind))

theorem tracks_parenthesized (hfirst : w.first ≤ i)
    (hexpression : ∀ j, Reaches w i 1 j → Onward w j expression expression') :
    Tracks w i id 1 (parenthesized expression) (parenthesized expression') := by
  by_cases hkind : (w.shown i).kind = .punct .leftParen
  · exact (commits_parenthesized hkind hfirst hexpression).tracks
  · exact .peek (.otherPunct hkind)

theorem tracks_unary (hoperand : ∀ j, Reaches w i 1 j → Onward w j operand operand') :
    Tracks w i id 1 (unary operand) (unary operand') := by
  by_cases hkind : ∃ mark op, (w.shown i).kind = .operator mark ∧ UnaryOp.ofOperator? mark = some op
  · obtain ⟨mark, op, hmark, hop⟩ := hkind
    exact (commits_unary hmark hop hoperand).tracks
  · refine .peek ?_
    split
    · next mark hmark =>
      split
      · next op hop => exact absurd ⟨mark, op, hmark, hop⟩ hkind
      · exact .expecting _
    · exact .expecting _

end Forms

/-! ## Behind the last token

There the last token is shown again and again. Where it opens an operand inside another one, reading
goes on until a bound is reached. -/

/-- The token is followed by an operand inside the one it starts. -/
def OpensOperand (kind : TokenKind) : Prop :=
  kind = .punct .leftParen ∨ ∃ mark op, kind = .operator mark ∧ UnaryOp.ofOperator? mark = some op

/-- The run would go on without end, and only a bound stops it. -/
def NeverEnds (p : Parser α) (s : ParseState) : Prop :=
  ∃ e t, p s = .error e t ∧ e.cause = .endless

/-- Operands that would start with the last token, shown again, never end. -/
def GoesOn (operand : Parser (Expr Node)) : Prop :=
  ∀ s : ParseState, s.cursor.rest = [] → OpensOperand s.cursor.peek.kind → NeverEnds operand s

section LastToken

variable {s : ParseState} {operand : Parser (Expr Node)}

theorem NeverEnds.bind {β : Type} {p : Parser α} {f : α → Parser β} (h : NeverEnds p s) :
    NeverEnds (p >>= f) s := by
  obtain ⟨e, t, hrun, hcause⟩ := h
  refine ⟨e, t, ?_, hcause⟩
  change EStateM.bind p f s = _
  rw [EStateM.bind, hrun]

theorem NeverEnds.levels (h : NeverEnds operand s) (bound : Nat) (levels : List (List BinaryOp)) :
    NeverEnds (levels.foldr (chain bound) (casts bound operand)) s := by
  induction levels with
  | nil => exact h.bind
  | cons level levels ih => exact ih.bind

/-- Stepping over the last token changes nothing of what is shown. -/
theorem advance_last (hrest : s.cursor.rest.length ≤ 1) (hkind : s.cursor.peek.kind ≠ .endOfFile) :
    s.cursor.advance.rest = [] ∧ s.cursor.advance.peek = s.cursor.peek := by
  obtain ⟨⟨consumed, rest⟩, id⟩ := s
  match rest with
  | [] => exact ⟨rfl, rfl⟩
  | [t] =>
      have hadvance : (Cursor.mk consumed [t]).advance = ⟨t :: consumed, []⟩ := if_neg hkind
      rw [hadvance]
      exact ⟨rfl, rfl⟩
  | t :: u :: rest => simp at hrest

theorem NeverEnds.takes {β : Type} {g : Cursor → Except ParseError (α × Cursor)}
    {f : α → Parser β} {a : α} {c : Cursor} (hg : g s.cursor = .ok (a, c))
    (h : NeverEnds (f a) ⟨c, s.nextId⟩) : NeverEnds (Parser.reading g >>= f) s := by
  obtain ⟨e, t, hrun, hcause⟩ := h
  refine ⟨e, t, ?_, hcause⟩
  change EStateM.bind (Parser.reading g) f s = _
  rw [EStateM.bind, Parser.reading, hg]
  exact hrun

theorem GoesOn.parenthesized (h : GoesOn operand) (hrest : s.cursor.rest.length ≤ 1)
    (hkind : s.cursor.peek.kind = .punct .leftParen) (bound : Nat) :
    NeverEnds (parenthesized (expressionOver bound operand)) s := by
  obtain ⟨hempty, hsame⟩ := advance_last hrest (by simp [hkind])
  have hinner : NeverEnds (expressionOver bound operand) ⟨s.cursor.advance, s.nextId⟩ :=
    (h _ hempty (.inl (hsame ▸ hkind))).levels bound _
  simp only [Parser.parenthesized, Parser.punct, bind_assoc, pure_bind]
  exact NeverEnds.takes (s := s) (if_pos hkind) hinner.bind

theorem GoesOn.unary (h : GoesOn operand) (hrest : s.cursor.rest.length ≤ 1)
    {mark : Operator} {op : UnaryOp} (hkind : s.cursor.peek.kind = .operator mark)
    (hop : UnaryOp.ofOperator? mark = some op) : NeverEnds (unary operand) s := by
  obtain ⟨hempty, hsame⟩ := advance_last hrest (by simp [hkind])
  have hinner : NeverEnds operand ⟨s.cursor.advance, s.nextId⟩ :=
    h _ hempty (.inr ⟨mark, op, hsame ▸ hkind, hop⟩)
  rw [NeverEnds, Parser.unary, peek_bind, hkind]
  simp only [hop]
  exact hinner.bind

theorem next_bind {β : Type} (kind : TokenKind) (f : Bool → Parser β) (s : ParseState) :
    (Parser.next kind >>= f) s = f (decide (s.cursor.peek.kind = kind)) s :=
  rfl

/-- A name that is the last token is not followed by a parenthesis. -/
theorem nameOrCall_last {expression : Parser (Expr Node)} {name : String}
    (hrest : s.cursor.rest.length ≤ 1) (hkind : s.cursor.peek.kind = .identifier name) :
    ∃ a t, nameOrCall bound expression s = .ok a t := by
  obtain ⟨-, hsame⟩ := advance_last hrest (by simp [hkind])
  have hread : s.cursor.expectIdentifier "expression" = .ok (name, s.cursor.advance) := by
    rw [Cursor.expectIdentifier, hkind]
  have hopen : s.cursor.advance.peek.kind ≠ .punct .leftParen := by
    simp [hsame, hkind]
  rw [nameOrCall, peek_bind]
  change ∃ a t, EStateM.bind (Parser.reading _) _ s = .ok a t
  rw [EStateM.bind, Parser.reading, hread]
  dsimp only
  rw [next_bind, decide_eq_false hopen]
  exact ⟨_, _, rfl⟩

theorem Stuck.of_neverEnds {p : Parser α}
    (h : w.tokens.length ≤ i + 1 → NeverEnds p (w.here i id)) : Stuck w i id p := by
  intro hend e t hrun
  obtain ⟨e', t', hrun', hcause⟩ := h hend
  obtain ⟨rfl, -⟩ := EStateM.Result.error.inj (hrun'.symm.trans hrun)
  exact hcause

theorem Stuck.of_ok {p : Parser α}
    (h : w.tokens.length ≤ i + 1 → ∃ a t, p (w.here i id) = .ok a t) : Stuck w i id p := by
  intro hend e t hrun
  obtain ⟨a, t', hrun'⟩ := h hend
  rw [hrun'] at hrun
  cases hrun

end LastToken

section Forms

variable {operand operand' : Parser (Expr Node)}

/-- The form that the next token chooses, tried or taken at once. -/
theorem tracks_form {retry : Bool} (retry' : Bool) (hretry : w.endless → retry = false)
    (hfirst : w.first ≤ i) (hoperand : ∀ j, Reaches w i 1 j → Onward w j operand operand')
    (hgoes : w.endless → GoesOn operand) (hbound : Ample w i (bound + 1) (bound' + 1)) :
    Tracks w i id 1 (attempt retry (formOver bound operand (w.shown i).kind) .expression)
      (attempt retry' (formOver bound' operand' (w.shown i).kind) .expression) := by
  have hexpression : ∀ j, Reaches w i 1 j →
      Onward w j (expressionOver bound operand) (expressionOver bound' operand') :=
    fun j hj => onward_levels (hoperand j hj) (by omega) _
  have hlast : w.tokens.length ≤ i + 1 → (w.here i id).cursor.rest.length ≤ 1 := by
    simp only [Window.here, Cursor.seek, List.length_drop]
    omega
  have hunary : ∀ {mark op}, (w.shown i).kind = .operator mark →
      UnaryOp.ofOperator? mark = some op → w.endless → Stuck w i id (unary operand) :=
    fun hkind hop hendless =>
      .of_neverEnds fun hend => (hgoes hendless).unary (hlast hend) hkind hop
  generalize hkind : (w.shown i).kind = kind
  fun_cases formOver bound operand kind with
  | case1 digits type =>
      refine (commits_numeric hkind).attempt retry' _ hretry fun _ => .of_ok fun _ => ?_
      rw [numeric, peek_bind, show (w.here i id).cursor.peek.kind = _ from hkind]
      exact ⟨_, _, rfl⟩
  | case2 name =>
      refine (commits_nameOrCall hkind hfirst hexpression hbound).attempt retry' _ hretry fun _ => ?_
      exact .of_ok fun hend => nameOrCall_last (hlast hend) hkind
  | case3 =>
      refine (commits_parenthesized hkind hfirst hexpression).attempt retry' _ hretry ?_
      intro hendless
      exact .of_neverEnds fun hend => (hgoes hendless).parenthesized (hlast hend) hkind bound
  | case4 =>
      exact (commits_unary hkind rfl hoperand).attempt retry' _ hretry (hunary hkind rfl)
  | case5 =>
      exact (commits_unary hkind rfl hoperand).attempt retry' _ hretry (hunary hkind rfl)
  | case6 =>
      exact (commits_unary hkind rfl hoperand).attempt retry' _ hretry (hunary hkind rfl)
  | case7 =>
      have hother : formOver bound' operand' kind = expecting .expression := by
        fun_cases formOver bound' operand' kind with
        | case7 => rfl
        | _ => simp_all
      rw [hother, attempt_expecting, attempt_expecting]
      exact .expecting _

end Forms

/-- Operands are read by the form that the next token chooses, which is tried or taken at once. -/
structure ReadsForms (retry : Bool) (operand : Nat → Parser (Expr Node)) : Prop where
  zero : operand 0 = refuse .endless
  succ : ∀ bound s, operand (bound + 1) s =
    attempt retry (formOver bound (operand bound) s.cursor.peek.kind) .expression s

theorem readsForms_operandWithin : ReadsForms true operandWithin where
  zero := rfl
  succ bound s := by
    rw [operandWithin_succ, operandForm_eq]
    rfl

theorem readsForms_predictedWithin : ReadsForms false predictedWithin where
  zero := rfl
  succ := predictedWithin_succ

theorem ReadsForms.goesOn {operand : Nat → Parser (Expr Node)} (h : ReadsForms false operand)
    (bound : Nat) : GoesOn (operand bound) := by
  induction bound with
  | zero =>
      intro s _ _
      rw [h.zero]
      exact ⟨_, _, rfl, rfl⟩
  | succ bound ih =>
      intro s hempty hopens
      have hrest : s.cursor.rest.length ≤ 1 := by simp [hempty]
      rw [NeverEnds, h.succ]
      rcases hopens with hkind | ⟨mark, op, hkind, hop⟩
      · rw [hkind]
        exact ih.parenthesized hrest hkind bound
      · rw [hkind, formOver_operator hop]
        exact ih.unary hrest hkind hop

section Readers

variable {retry retry' : Bool} {operand operand' : Nat → Parser (Expr Node)}
  (h : ReadsForms retry operand) (h' : ReadsForms retry' operand')
  (hretry : w.endless → retry = false)
include h h' hretry

theorem onward_operand (hbound : Ample w i bound bound') :
    Onward w i (operand bound) (operand' bound') := by
  induction bound generalizing i bound' with
  | zero =>
      intro j id hj
      rw [h.zero]
      exact .exhausted (by omega)
  | succ bound ih =>
      intro j id hj
      have hgoes : w.endless → GoesOn (operand bound) := by
        intro hendless
        obtain rfl := hretry hendless
        exact h.goesOn bound
      have hahead : Ample w j (bound + 1) bound' := by omega
      refine .since fun hfirst => .bounded operand' hahead fun bound' hbound => ?_
      have hinner : ∀ k, Reaches w j 1 k → Onward w k (operand bound) (operand' bound') :=
        fun k hk => ih (by omega)
      refine (tracks_form retry' hretry hfirst hinner hgoes hbound).congr (h.succ bound _) ?_
      intro hfirst hlimit
      rw [h'.succ, Window.there, Window.peek_there hfirst hlimit]

theorem onward_expressionBy :
    Onward w i (do let bound ← budget; expressionOver bound (operand bound))
      (do let bound ← budget; expressionOver bound (operand' bound)) := by
  intro j id _
  refine .budget fun bound bound' hbound => ?_
  have hoperand := onward_operand h h' hretry hbound
  exact onward_levels hoperand hbound _ j id (Nat.le_refl _)

end Readers

theorem onward_expression (hended : ¬ w.endless) : Onward w i expression expression :=
  onward_expressionBy readsForms_operandWithin readsForms_operandWithin fun h => absurd h hended

/-! ## Statements -/

section Statements

variable {expression expression' : Parser (Expr Node)}

theorem tracks_statementsWithin {statement statement' : Parser (Stmt Node)}
    (hstatement : Onward w i statement statement') (hbound : Ample w i bound bound') :
    Tracks w i id 1 (statementsWithin statement bound) (statementsWithin statement' bound') := by
  induction bound generalizing i id bound' with
  | zero => exact .exhausted (by omega)
  | succ bound ih =>
      refine .bounded (statementsWithin statement') hbound fun bound' hbound => ?_
      refine .next (fun hclose => ?_) fun _ => .next (fun _ => .expecting _) fun _ => ?_
      · exact .advance (by simp [hclose]) fun _ _ _ => .pure
      · refine (hstatement i id (Nat.le_refl _)).bind fun first j id' hj => ?_
        have hrest : Tracks w j id' 1 (statementsWithin statement bound)
            (statementsWithin statement' bound') :=
          ih (hstatement.mono hj.1) (by omega)
        exact hrest.some.bind fun _ _ _ _ => .pure

theorem tracks_blockOver {statement statement' : Parser (Stmt Node)}
    (hstatement : ∀ j, Reaches w i 1 j → Onward w j statement statement') :
    Tracks w i id 1 (blockOver statement) (blockOver statement') := by
  refine .punct fun j id' hj => .budget fun bound bound' hbound => ?_
  exact (tracks_statementsWithin (hstatement j hj) hbound).some

theorem tracks_elseBody {block block' : Parser (List (Stmt Node))}
    (hblock : Onward w i block block') : Tracks w i id 0 (elseBody block) (elseBody block') := by
  refine .next (fun helse => ?_) fun _ => .pure
  refine .some (.advance (by simp [helse]) fun j id' hj => ?_)
  exact (hblock j id' hj.1).some.bind fun _ _ _ _ => .pure

namespace Via

variable (hexpression : Onward w 0 expression expression')
include hexpression

theorem onward_condition (context : String) :
    Onward w i (condition expression context) (condition expression' context) := by
  intro j id _
  refine .punct fun k id' _ => ?_
  refine (hexpression k id' (Nat.zero_le _)).some.bind fun value l id'' _ => ?_
  exact .some (.punct fun _ _ _ => .pure)

theorem tracks_returnValue :
    Tracks w i id 0 (returnValue expression) (returnValue expression') := by
  refine .next (fun _ => .pure) fun _ => ?_
  exact (hexpression i id (Nat.zero_le _)).some.bind fun _ _ _ _ => .pure

theorem onward_returnStatement :
    Onward w i (returnStatement expression) (returnStatement expression') := by
  intro j id _
  refine .since fun hfirst => .peek (.keyword fun k id' hk => ?_)
  refine (tracks_returnValue hexpression).bind fun value l id'' hl => ?_
  exact .some (.punct fun m id₃ hm => .nodeFrom (by omega) fun _ _ => .pure)

theorem onward_declaration (kind : DeclKind) :
    Onward w i (declaration expression kind) (declaration expression' kind) := by
  intro j id _
  refine .since fun hfirst => .peek (.keyword fun k id₁ hk => ?_)
  refine .some (.identifier fun name l id₂ hl => .some (.punct fun m id₃ hm => ?_))
  refine (onward_valueType m id₃ (Nat.le_refl _)).some.bind fun type n id₄ hn => ?_
  refine .next (fun hequal => .some (.advance (by simp [hequal]) fun o id₅ ho => ?_))
    fun _ => .expecting _
  refine (hexpression o id₅ (Nat.zero_le _)).some.bind fun initial q id₆ hq => ?_
  exact .some (.punct fun r id₇ hr => .nodeFrom (by omega) fun _ _ => .pure)

theorem onward_expressionStatement :
    Onward w i (expressionStatement expression) (expressionStatement expression') := by
  intro j id _
  refine .since fun hfirst => .peek ?_
  refine (hexpression j id (Nat.zero_le _)).bind fun value k id' hk => ?_
  exact .some (.punct fun l id'' hl => .nodeFrom (by omega) fun _ _ => .pure)

section Blocks

variable {block block' : Parser (List (Stmt Node))} (hblock : Onward w i block block')
include hblock

theorem onward_arm (word : Keyword) :
    Onward w i (arm expression block word) (arm expression' block' word) := by
  intro j id hj
  refine .since fun hfirst => .peek (.keyword fun k id' hk => ?_)
  refine (onward_condition hexpression _ k id' (Nat.le_refl _)).some.bind fun guard l id'' hl => ?_
  refine (hblock l id'' (by omega)).some.bind fun body m id₃ hm => ?_
  exact .spanFrom (by omega) fun _ => .pure

theorem tracks_elifArmsWithin (hbound : Ample w i bound bound') :
    Tracks w i id 0 (elifArmsWithin expression block bound)
      (elifArmsWithin expression' block' bound') := by
  induction bound generalizing i id bound' with
  | zero => exact .exhausted (by omega)
  | succ bound ih =>
      refine .bounded (elifArmsWithin expression' block') hbound fun bound' hbound => ?_
      refine .next (fun _ => ?_) fun _ => .pure
      refine .some ((onward_arm hexpression hblock .elif i id (Nat.le_refl _)).bind ?_)
      intro first j id' hj
      have hrest : Tracks w j id' 0 (elifArmsWithin expression block bound)
          (elifArmsWithin expression' block' bound') :=
        ih (hblock.mono hj.1) (by omega)
      exact hrest.bind fun _ _ _ _ => .pure

theorem onward_conditional :
    Onward w i (conditional expression block) (conditional expression' block') := by
  intro j id hj
  refine .since fun hfirst => .peek ?_
  refine (onward_arm hexpression hblock .if_ j id hj).bind fun firstArm k id₁ hk => ?_
  refine .budget fun bound bound' hbound => ?_
  have hbehind := hblock.mono (Nat.le_trans hj hk.1)
  refine (tracks_elifArmsWithin hexpression hbehind hbound).bind fun arms l id₂ hl => ?_
  refine (tracks_elseBody (hbehind.mono hl.1)).bind fun otherwise m id₃ hm => ?_
  exact .nodeFrom (by omega) fun _ _ => .pure

theorem onward_loop : Onward w i (loop expression block) (loop expression' block') := by
  intro j id hj
  refine .since fun hfirst => .peek (.keyword fun k id' hk => ?_)
  refine (onward_condition hexpression _ k id' (Nat.le_refl _)).some.bind fun guard l id'' hl => ?_
  refine (hblock l id'' (by omega)).some.bind fun body m id₃ hm => ?_
  exact .nodeFrom (by omega) fun _ _ => .pure

theorem onward_statementOver :
    Onward w i (statementOver expression block) (statementOver expression' block') := by
  intro j id hj
  refine .peek ?_
  split
  · exact onward_conditional hexpression hblock j id hj
  · exact onward_loop hexpression hblock j id hj
  · exact onward_returnStatement hexpression j id hj
  · exact onward_declaration hexpression .var j id hj
  · exact onward_declaration hexpression .const j id hj
  · exact onward_expressionStatement hexpression j id hj

end Blocks

theorem onward_statementWithin (hbound : Ample w i bound bound') :
    Onward w i (statementWithin expression bound) (statementWithin expression' bound') := by
  induction bound generalizing i bound' with
  | zero => exact fun j id hj => .exhausted (by omega)
  | succ bound ih =>
      intro j id hj
      have hahead : Ample w j (bound + 1) bound' := by omega
      refine .bounded (statementWithin expression') hahead fun bound' hbound => ?_
      have hblock : Onward w j (blockOver (statementWithin expression bound))
          (blockOver (statementWithin expression' bound')) :=
        fun k id' hk => tracks_blockOver fun l hl => ih (by omega)
      exact onward_statementOver hexpression hblock j id (Nat.le_refl _)

theorem onward_statement : Onward w i (statement expression) (statement expression') := by
  intro j id _
  refine .budget fun bound bound' hbound => ?_
  exact onward_statementWithin hexpression hbound j id (Nat.le_refl _)

theorem onward_block : Onward w i (block expression) (block expression') := by
  intro j id _
  refine .budget fun bound bound' hbound => tracks_blockOver fun k hk => ?_
  exact onward_statementWithin hexpression (by omega)

end Via

end Statements

/-! ## Programs -/

theorem onward_parameter : Onward w i parameter parameter := by
  intro j id _
  refine .since fun hfirst => .peek (.identifier fun name k id₁ hk => ?_)
  refine .some (.punct fun l id₂ hl => ?_)
  refine (onward_valueType l id₂ (Nat.le_refl _)).some.bind fun type m id₃ hm => ?_
  exact .spanFrom (by omega) fun _ => .pure

theorem onward_signature : Onward w i signature signature := by
  intro j id _
  refine .identifier fun name k id₁ _ => .some (.punct fun l id₂ _ => ?_)
  have hparameters : Tracks w l id₂ 1 (commaList parameter .parameterListEnd)
      (commaList parameter .parameterListEnd) :=
    .budget fun _ _ hbound => tracks_commaListWithin onward_parameter _ hbound
  refine hparameters.some.bind fun parameters m id₃ _ => .some (.punct fun n id₄ _ => ?_)
  exact (onward_resultType n id₄ (Nat.le_refl _)).some.bind fun _ _ _ _ => .pure

theorem onward_importPath : Onward w i importPath importPath := by
  intro j id _
  refine .keyword fun _ _ _ => .some (.punct fun _ _ _ => .some (.identifier fun _ _ _ _ => ?_))
  refine .some (.punct fun _ _ _ => .some (.identifier fun _ _ _ _ => ?_))
  exact .some (.punct fun _ _ _ => .pure)

theorem onward_funcImport (first : Token) :
    Onward w i (funcImport first) (funcImport first) := by
  intro j id _
  refine .since fun hfirst => ?_
  refine (onward_importPath j id (Nat.le_refl _)).bind fun path k id₁ hk => ?_
  refine (onward_signature k id₁ (Nat.le_refl _)).some.bind fun header l id₂ hl => ?_
  exact .some (.punct fun m id₃ hm => .nodeFrom (by omega) fun _ _ => .pure)

theorem tracks_memoryKind : Tracks w i id 0 memoryKind memoryKind := by
  refine .peek ?_
  split
  · next hexport => exact .some (.advance (by simp [hexport]) fun _ _ _ => .pure)
  · exact (onward_importPath i id (Nat.le_refl _)).some.bind fun _ _ _ _ => .pure
  · exact .pure

theorem onward_memorySize : Onward w i memorySize memorySize := by
  intro j id _
  refine .peek ?_
  split
  · next size hsize =>
    have hkind : (w.shown j).kind ≠ .endOfFile := by
      intro hend
      simp [sizeOf?, hend] at hsize
    exact .advance hkind fun _ _ _ => .pure
  · exact .expecting _

theorem onward_memory : Onward w i memory memory := by
  intro j id _
  refine .since fun hfirst => .peek (.keyword fun k id₁ hk => ?_)
  refine tracks_memoryKind.bind fun kind l id₂ hl => .some (.identifier fun name m id₃ hm => ?_)
  refine .some (.punct fun n id₄ hn => ?_)
  refine (onward_memorySize n id₄ (Nat.le_refl _)).some.bind fun size o id₅ ho => ?_
  refine .some (.punct fun q id₆ hq => .some (.punct fun r id₇ hr => ?_))
  exact .nodeFrom (by omega) fun _ _ => .pure

namespace Via

variable {expression expression' : Parser (Expr Node)}
  (hexpression : Onward w 0 expression expression')
include hexpression

theorem onward_funcDef (first : Token) :
    Onward w i (funcDef expression first) (funcDef expression' first) := by
  intro j id _
  refine .since fun hfirst => ?_
  refine (onward_signature j id (Nat.le_refl _)).bind fun header k id₁ hk => ?_
  refine (onward_block hexpression k id₁ (Nat.le_refl _)).some.bind fun body l id₂ hl => ?_
  exact .nodeFrom (by omega) fun _ _ => .pure

theorem onward_function : Onward w i (function expression) (function expression') := by
  intro j id _
  refine .peek (.keyword fun k id' _ => .peek ?_)
  split
  · exact (onward_funcImport _ k id' (Nat.le_refl _)).some.bind fun _ _ _ _ => .pure
  · next hexport =>
    refine .some (.advance (by simp [hexport]) fun l id'' _ => ?_)
    exact (onward_funcDef hexpression _ l id'' (Nat.le_refl _)).some.bind fun _ _ _ _ => .pure
  · exact (onward_funcDef hexpression _ k id' (Nat.le_refl _)).some.bind fun _ _ _ _ => .pure

theorem tracks_declarationsWithin (done : Program Node) (hbound : Ample w i bound bound') :
    Tracks w i id 0 (declarationsWithin expression bound done)
      (declarationsWithin expression' bound' done) := by
  induction bound generalizing i id bound' done with
  | zero => exact .exhausted (by omega)
  | succ bound ih =>
      refine .bounded (fun b => declarationsWithin expression' b done) hbound ?_
      intro bound' hbound
      have hothers : ∀ (done : Program Node) j id', Reaches w i 1 j →
          Tracks w j id' 0 (declarationsWithin expression bound done)
            (declarationsWithin expression' bound' done) :=
        fun done j id' hj => ih done (by omega)
      refine .peek ?_
      split
      · exact .pure
      · refine .some ((onward_function hexpression i id (Nat.le_refl _)).bind ?_)
        exact fun func j id' hj => hothers _ j id' hj
      · split
        · refine .some ((onward_memory i id (Nat.le_refl _)).bind ?_)
          exact fun declared j id' hj => hothers _ j id' hj
        · exact .refuse nofun
      · exact .expecting _

theorem tracks_program : Tracks w i id 0 (program expression) (program expression') :=
  .budget fun _ _ hbound => tracks_declarationsWithin hexpression _ hbound

end Via

theorem tracks_program (hended : ¬ w.endless) : Tracks w i id 0 program program := by
  have hprogram : Tracks w i id 0 (Via.program expression) (Via.program expression) :=
    Via.tracks_program (onward_expression hended)
  rwa [Via.program_expression] at hprogram

end Parser

/-! ## Failures of programs -/

theorem parseProgram_eq_error {tokens : List Token} {e : ParseError} :
    parseProgram tokens = .error e ↔ ∃ s, Parser.program ⟨.start tokens, 0⟩ = .error e s := by
  rw [parseProgram, except_map_eq_error, Parser.run]
  cases Parser.program ⟨.start tokens, 0⟩ with
  | ok p s => simp
  | error e' s => simp

theorem WellEnded.endsAt {tokens : List Token} (h : WellEnded tokens) :
    ∃ stop, EndsAt tokens stop := by
  obtain ⟨body, stop, rfl, hstop, -⟩ := h.ends
  exact ⟨body.length, by simp [EndsAt, hstop]⟩

/-- A failure is at a token of the list, and no list that has the same tokens up to and including
that one is read any further. -/
theorem program_stops_alike {tokens : List Token} (hended : WellEnded tokens) {e : ParseError}
    {s : ParseState} (h : Parser.program ⟨.start tokens, 0⟩ = .error e s) :
    s.cursor.tokens = tokens ∧ tokens[s.cursor.position]? = some e.found ∧ e.cause ≠ .endless ∧
      ∀ tokens', tokens'.take (s.cursor.position + 1) = tokens.take (s.cursor.position + 1) →
        parseProgram tokens' = .error e := by
  obtain ⟨stop, hstop⟩ := hended.endsAt
  obtain ⟨j, id, rfl, hcomes, hshown, hcause, -⟩ :=
    (Parser.tracks_program (w := .self tokens False) not_false).error (Nat.le_refl 0) (Nat.zero_le _) h
      (.inl ⟨stop, hstop, Nat.zero_le stop⟩)
  have hlt : j < tokens.length :=
    Nat.lt_of_le_of_lt (hcomes.stays stop hstop (Nat.zero_le stop)) hstop.lt_length
  have hfound : tokens[j]? = some e.found := by
    rw [hshown]
    exact Window.getElem?_shown (w := .self tokens False) hlt
  have hposition : (Window.here (.self tokens False) j id).cursor.position = j :=
    Cursor.position_seek hcomes.inside
  rw [hposition]
  refine ⟨Cursor.tokens_seek _ _, hfound, hcause, fun tokens' hagree => ?_⟩
  have hshared : ∀ index, 0 ≤ index → index ≤ j → tokens'[index]? = tokens[index]? := by
    intro index _ hle
    have hindex := congrArg (fun list => list[index]?) hagree
    simpa [List.getElem?_take, Nat.lt_succ_of_le hle] using hindex
  let w : Window := ⟨tokens, tokens', 0, j, False, Nat.zero_le j, .inl hlt, hshared⟩
  obtain ⟨k, id', hk, hcomes', -, -, hsame⟩ :=
    (Parser.tracks_program (w := w) not_false).error (Nat.le_refl 0) (Nat.zero_le _) h
      (.inl ⟨stop, hstop, Nat.zero_le stop⟩)
  have hjk : j = k := Cursor.seek_inj (congrArg ParseState.cursor hk) hcomes.inside hcomes'.inside
  exact parseProgram_eq_error.mpr ⟨_, hsame hended.distinct (Nat.le_of_eq hjk.symm)⟩

end Wattle
