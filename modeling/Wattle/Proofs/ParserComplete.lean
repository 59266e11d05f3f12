import Wattle.Proofs.ParserSound

/-!
# Every sentence is read

A parser passes over any phrase of its kind, provided that what follows cannot continue the phrase
and that its bound is larger than the phrase. Levels of binding take nothing away: every level
leaves to the looser ones around it exactly the operators that are not its own.
-/

namespace Wattle

namespace Parser

variable {α β : Type}

/-- With tokens of the kinds `ahead` to come, `p` succeeds and leaves `more`. -/
def Runs (p : Parser α) (ahead more : List TokenKind) : Prop :=
  ∀ s : ParseState, s.kinds = ahead → ∃ a t, p s = .ok a t ∧ t.kinds = more

/-- With tokens of the kinds `ahead` to come, `p` refuses the first of them. -/
def Refuses (p : Parser α) (ahead : List TokenKind) : Prop :=
  ∀ s : ParseState, s.kinds = ahead → ∃ e t, p s = .error e t ∧ e.found = s.cursor.peek

theorem peek_kind {s : ParseState} {k : TokenKind} {rest : List TokenKind}
    (h : s.kinds = k :: rest) : s.cursor.peek.kind = k := by
  simp only [ParseState.kinds] at h
  cases hrest : s.cursor.rest with
  | nil => simp [hrest] at h
  | cons t tokens =>
      rw [hrest, List.map_cons, List.cons.injEq] at h
      simp [Cursor.peek, hrest, h.1]

namespace Runs

variable {p q : Parser α} {f : α → Parser β} {k : TokenKind} {ahead mid rest more : List TokenKind}

theorem pure (a : α) : Runs (Pure.pure a) more more :=
  fun s hs => ⟨a, s, rfl, hs⟩

theorem bind (hp : Runs p ahead mid) (hf : ∀ a, Runs (f a) mid more) :
    Runs (p >>= f) ahead more := by
  intro s hs
  obtain ⟨a, t, ha, ht⟩ := hp s hs
  obtain ⟨b, u, hb, hu⟩ := hf a t ht
  exact ⟨b, u, state_bind_eq_ok.mpr ⟨a, t, ha, hb⟩, hu⟩

theorem peek {f : Token → Parser β} (h : ∀ t : Token, t.kind = k → Runs (f t) (k :: rest) more) :
    Runs (Parser.peek >>= f) (k :: rest) more :=
  fun s hs => h _ (peek_kind hs) s hs

theorem nextIs {f : Bool → Parser β} (h : Runs (f true) (k :: rest) more) :
    Runs (Parser.next k >>= f) (k :: rest) more := by
  intro s hs
  change ∃ a t, f (decide (s.cursor.peek.kind = k)) s = .ok a t ∧ _
  rw [decide_eq_true (peek_kind hs)]
  exact h s hs

theorem nextNot {f : Bool → Parser β} (hstart : StartsWith (· ≠ k) ahead)
    (h : Runs (f false) ahead more) : Runs (Parser.next k >>= f) ahead more := by
  obtain ⟨k', rest, rfl, hk⟩ := hstart
  intro s hs
  change ∃ a t, f (decide (s.cursor.peek.kind = k)) s = .ok a t ∧ _
  rw [peek_kind hs, decide_eq_false hk]
  exact h s hs

theorem advance {f : Unit → Parser β} (hk : k ≠ .endOfFile) (h : Runs (f ()) rest more) :
    Runs (Parser.advance >>= f) (k :: rest) more :=
  fun _ hs => h _ (kinds_advance hs hk)

theorem reading {g : Cursor → Except ParseError (α × Cursor)} (hk : k ≠ .endOfFile)
    (hg : ∀ c : Cursor, c.peek.kind = k → ∃ a, g c = .ok (a, c.advance)) :
    Runs (Parser.reading g) (k :: rest) rest := by
  intro s hs
  obtain ⟨a, ha⟩ := hg s.cursor (peek_kind hs)
  exact ⟨a, { s with cursor := s.cursor.advance }, by rw [Parser.reading, ha],
    kinds_advance hs hk⟩

theorem punct {mark : Punct} {context : String} {f : Unit → Parser β} (h : Runs (f ()) rest more) :
    Runs (Parser.punct mark context >>= f) (.punct mark :: rest) more := by
  refine bind (bind (reading nofun fun c hc => ?_) fun _ => pure ()) fun _ => h
  exact ⟨c.peek, by rw [Cursor.expectPunct, if_pos hc]⟩

theorem keyword {word : Keyword} {context : String} {f : Unit → Parser β}
    (h : Runs (f ()) rest more) :
    Runs (Parser.keyword word context >>= f) (.keyword word :: rest) more := by
  refine bind (bind (reading nofun fun c hc => ?_) fun _ => pure ()) fun _ => h
  exact ⟨c.peek, by rw [Cursor.expectKeyword, if_pos hc]⟩

theorem identifier {name context : String} {f : String → Parser β}
    (h : ∀ id, Runs (f id) rest more) :
    Runs (Parser.identifier context >>= f) (.identifier name :: rest) more := by
  refine bind (reading nofun fun c hc => ?_) h
  exact ⟨name, by simp only [Cursor.expectIdentifier, hc]⟩

theorem budget {f : Nat → Parser β}
    (h : ∀ bound, ahead.length < bound → Runs (f bound) ahead more) :
    Runs (Parser.budget >>= f) ahead more := by
  intro s hs
  refine h (s.cursor.rest.length + 1) ?_ s hs
  rw [← hs, ParseState.kinds, List.length_map]
  exact Nat.lt_succ_self _

theorem get {f : ParseState → Parser β} (h : ∀ s, Runs (f s) ahead more) :
    Runs (MonadState.get >>= f) ahead more :=
  fun s hs => h s s hs

theorem spanFrom {first : Token} {f : Span → Parser β} (h : ∀ span, Runs (f span) ahead more) :
    Runs (Parser.spanFrom first >>= f) ahead more :=
  fun s hs => h _ s hs

theorem newNode {span : Span} {f : Node → Parser β} (h : ∀ node, Runs (f node) ahead more) :
    Runs (Parser.newNode span >>= f) ahead more :=
  fun _ hs => h _ _ hs

theorem nodeFrom {first : Token} {f : Node → Parser β} (h : ∀ node, Runs (f node) ahead more) :
    Runs (Parser.nodeFrom first >>= f) ahead more :=
  fun _ hs => h _ _ hs

theorem orElseHere (h : Runs p ahead more) : Runs (Parser.orElseHere p q) ahead more := by
  intro s hs
  obtain ⟨a, t, ha, ht⟩ := h s hs
  exact ⟨a, t, by rw [Parser.orElseHere, ha], ht⟩

/-- An attempt that refuses the first token is given up for the next one. -/
theorem orElseNext (hp : Refuses p ahead) (h : Runs q ahead more) :
    Runs (Parser.orElseHere p q) ahead more := by
  intro s hs
  obtain ⟨e, t, he, hfound⟩ := hp s hs
  obtain ⟨a, u, ha, hu⟩ := h { s with nextId := t.nextId } hs
  refine ⟨a, u, ?_, hu⟩
  rw [Parser.orElseHere, he]
  dsimp only
  rw [hfound, if_pos rfl, ha]

end Runs

/-- `p` passes over the phrases of fewer than `size` tokens in front of a token with the
property `P`. -/
def Accepts (phrase : Phrase) (p : Parser α) (size : Nat) (P : TokenKind → Prop) : Prop :=
  ∀ ks more, Derives phrase ks → ks.length < size → StartsWith P more → Runs p (ks ++ more) more

/-! ## Lists -/

theorem length_le_commaSeparated {items : List (List TokenKind)} {item : List TokenKind}
    (h : item ∈ items) (trailing : Bool) :
    item.length ≤ (commaSeparated trailing items).length := by
  fun_induction commaSeparated trailing items with
  | case1 => simp at h
  | case2 only =>
      rw [List.mem_singleton.mp h, List.length_append]
      omega
  | case3 first next rest ih =>
      rw [List.length_append, List.length_cons]
      rcases List.mem_cons.mp h with rfl | h
      · omega
      · have hrest := ih h
        omega

theorem count_le_commaSeparated {items : List (List TokenKind)} (h : ∀ item ∈ items, item ≠ [])
    (trailing : Bool) : items.length ≤ (commaSeparated trailing items).length := by
  fun_induction commaSeparated trailing items with
  | case1 => simp
  | case2 only =>
      have honly := List.length_pos_iff.mpr (h only List.mem_cons_self)
      rw [List.length_append, List.length_singleton]
      omega
  | case3 first next rest ih =>
      have hrest := ih fun item hitem => h item (List.mem_cons_of_mem _ hitem)
      simp only [List.length_append, List.length_cons] at hrest ⊢
      omega

/-- What stands behind an item of a list. -/
def EndsItem (k : TokenKind) : Prop :=
  k = .punct .comma ∨ k = .punct .rightParen

theorem runs_commaListWithin {item : Parser α} {after : Expectation} {trailing : Bool}
    {items : List (List TokenKind)} {bound : Nat} {more : List TokenKind}
    (hstarts : ∀ ks ∈ items, StartsWith (· ≠ .punct .rightParen) ks)
    (hitems : ∀ ks ∈ items, ∀ behind, StartsWith EndsItem behind → Runs item (ks ++ behind) behind)
    (hbound : items.length < bound) :
    Runs (commaListWithin item after bound)
      (commaSeparated trailing items ++ .punct .rightParen :: more) more := by
  induction items generalizing bound with
  | nil =>
      obtain ⟨bound, rfl⟩ := Nat.exists_eq_add_one.mpr hbound
      exact .nextIs (.advance (by decide) (.pure _))
  | cons first rest ih =>
      obtain ⟨bound, rfl⟩ := Nat.exists_eq_add_one.mpr (Nat.zero_lt_of_lt hbound)
      rw [List.forall_mem_cons] at hstarts hitems
      have hrest := ih hstarts.2 hitems.2 (Nat.lt_of_succ_lt_succ hbound)
      have hfirst := hitems.1
      cases rest with
      | nil =>
          have hclose : Runs (commaListWithin item after bound) (.punct .rightParen :: more) more :=
            hrest
          cases trailing with
          | false =>
              rw [commaSeparated]
              simp only [Bool.false_eq_true, if_false, List.append_nil]
              refine .nextNot (hstarts.1.append _) ?_
              refine .bind (hfirst _ (.cons (.inr rfl))) fun _ => ?_
              refine .nextNot (.cons (by decide)) (.nextIs ?_)
              exact .bind hclose fun _ => .pure _
          | true =>
              rw [commaSeparated]
              simp only [if_true, List.append_assoc]
              refine .nextNot (hstarts.1.append _) ?_
              refine .bind (hfirst _ (.cons (.inl rfl))) fun _ => ?_
              refine .nextIs (.advance (by decide) ?_)
              exact .bind hclose fun _ => .pure _
      | cons next others =>
          rw [commaSeparated]
          simp only [List.append_assoc]
          refine .nextNot (hstarts.1.append _) ?_
          refine .bind (hfirst _ (.cons (.inl rfl))) fun _ => ?_
          refine .nextIs (.advance (by decide) ?_)
          exact .bind hrest fun _ => .pure _

/-! ## Types -/

theorem runs_valueType {ks more : List TokenKind} (h : Derives .valueType ks) :
    Runs valueType (ks ++ more) more := by
  have hwithin : ∀ (bound : Nat) (ks : List TokenKind), Derives .valueType ks → ks.length < bound →
      Runs (valueTypeWithin bound) (ks ++ more) more := by
    intro bound
    induction bound with
    | zero => exact fun ks _ hlt => absurd hlt (Nat.not_lt_zero _)
    | succ bound ih =>
        intro ks h hlt
        cases h with
        | @pointerType target htarget =>
            refine .peek fun t ht => ?_
            rw [ht]
            refine .advance nofun (.nextNot (htarget.valueType_starts.append _) ?_)
            exact .bind (ih target htarget (by simpa using hlt)) fun _ => .pure _
        | @baseType b hvalue =>
            refine .peek fun t ht => ?_
            rw [ht]
            cases b with
            | void => exact absurd rfl hvalue
            | _ => exact .advance nofun (.pure _)
  refine .budget fun bound hbound => hwithin bound ks h ?_
  rw [List.length_append] at hbound
  omega

theorem runs_resultType {ks more : List TokenKind} (h : Derives .resultType ks) :
    Runs resultType (ks ++ more) more := by
  cases h with
  | voidResult => exact .nextIs (.advance nofun (.pure _))
  | valueResult hvalue =>
      exact .nextNot (hvalue.valueType_starts.append _) (runs_valueType hvalue)

/-! ## Expressions -/

/-- What may stand behind an operand without its conversions. -/
def EndsPrefixed (k : TokenKind) : Prop :=
  k ≠ .punct .leftParen

/-- What may stand behind operands joined by the given operations. -/
def EndsLevel (ops : List BinaryOp) (k : TokenKind) : Prop :=
  EndsPrefixed k ∧ k ≠ .keyword .as_ ∧ ∀ op ∈ ops, k ≠ .operator op.operator

/-- Operations and their right operands, as tokens. -/
def operations (rest : List (BinaryOp × List TokenKind)) : List TokenKind :=
  rest.flatMap fun r => .operator r.1.operator :: r.2

theorem operations_cons (op : BinaryOp) (ks : List TokenKind)
    (rest : List (BinaryOp × List TokenKind)) :
    operations ((op, ks) :: rest) = .operator op.operator :: (ks ++ operations rest) := by
  simp [operations]

theorem operations_append (taken left : List (BinaryOp × List TokenKind)) :
    operations (taken ++ left) = operations taken ++ operations left :=
  List.flatMap_append

theorem runs_castsWithin {targets : List (List TokenKind)} {bound : Nat} {more : List TokenKind}
    (htargets : ∀ target ∈ targets, Derives .valueType target)
    (hbound : (targets.flatMap (.keyword .as_ :: ·)).length < bound)
    (hmore : StartsWith (· ≠ .keyword .as_) more) (operand : Expr Node) :
    Runs (castsWithin bound operand) (targets.flatMap (.keyword .as_ :: ·) ++ more) more := by
  induction targets generalizing bound operand with
  | nil =>
      obtain ⟨bound, rfl⟩ := Nat.exists_eq_add_one.mpr hbound
      exact .nextNot hmore (.pure _)
  | cons target targets ih =>
      obtain ⟨bound, rfl⟩ := Nat.exists_eq_add_one.mpr (Nat.zero_lt_of_lt hbound)
      obtain ⟨htarget, hrest⟩ := List.forall_mem_cons.mp htargets
      rw [List.flatMap_cons, List.length_append, List.length_cons] at hbound
      rw [List.flatMap_cons, List.append_assoc]
      refine .nextIs (.advance nofun (.bind (runs_valueType htarget) fun _ => ?_))
      refine .get fun _ => .newNode fun _ => ?_
      exact ih hrest (by omega) _

/-- `p` reads an operand with all the operations of `ops` that directly follow it. -/
def AcceptsLevel (ops : List BinaryOp) (p : Parser (Expr Node)) (size : Nat) : Prop :=
  ∀ first rest more, Derives .operand first → (∀ r ∈ rest, r.1 ∈ ops ∧ Derives .operand r.2) →
    (first ++ operations rest).length < size → StartsWith (EndsLevel ops) more →
    Runs p (first ++ (operations rest ++ more)) more

theorem acceptsLevel_casts {operand : Parser (Expr Node)} {size bound : Nat}
    (hoperand : Accepts .prefixed operand size EndsPrefixed) (hsize : size ≤ bound) :
    AcceptsLevel [] (casts bound operand) size := by
  intro first rest more hfirst hrest hlength hmore
  cases rest with
  | cons r rest => exact absurd (hrest r List.mem_cons_self).1 List.not_mem_nil
  | nil =>
      cases hfirst with
      | @operand inner targets hinner htargets =>
          simp only [operations, List.flatMap_nil, List.append_nil, List.length_append] at hlength
          rw [List.append_assoc]
          have hbehind : StartsWith EndsPrefixed
              (targets.flatMap (.keyword .as_ :: ·) ++ more) := by
            cases targets with
            | nil => exact hmore.imp fun k hk => hk.1
            | cons => exact .cons nofun
          refine .bind (hoperand inner _ hinner (by omega) hbehind) fun e => ?_
          exact runs_castsWithin htargets (by omega) (hmore.imp fun k hk => hk.2.1) e

section Levels

variable {level inner : List BinaryOp} {p : Parser (Expr Node)} {size : Nat}

/-- What ends the operations of a level and of the tighter ones, ends those of the tighter ones. -/
theorem EndsLevel.tighter {k : TokenKind} (h : EndsLevel (level ++ inner) k) :
    EndsLevel inner k :=
  ⟨h.1, h.2.1, fun op hop => h.2.2 op (List.mem_append_right _ hop)⟩

theorem split_operations (inner : List BinaryOp) (rest : List (BinaryOp × List TokenKind)) :
    ∃ taken left, rest = taken ++ left ∧ (∀ r ∈ taken, r.1 ∈ inner) ∧
      ∀ r ∈ left.head?, r.1 ∉ inner := by
  induction rest with
  | nil => exact ⟨[], [], rfl, nofun, nofun⟩
  | cons r rest ih =>
      by_cases hr : r.1 ∈ inner
      · obtain ⟨taken, left, rfl, htaken, hleft⟩ := ih
        exact ⟨r :: taken, left, rfl, List.forall_mem_cons.mpr ⟨hr, htaken⟩, hleft⟩
      · exact ⟨[], r :: rest, rfl, nofun, by simpa using hr⟩

/-- The tighter levels read an operand and their own operations behind it, up to the first one that
is not among them. -/
theorem AcceptsLevel.upTo (hp : AcceptsLevel inner p size) {first more : List TokenKind}
    {rest : List (BinaryOp × List TokenKind)} (hfirst : Derives .operand first)
    (hrest : ∀ r ∈ rest, Derives .operand r.2) (hlength : (first ++ operations rest).length < size)
    (hmore : StartsWith (EndsLevel inner) more) :
    ∃ taken left, rest = taken ++ left ∧ (∀ r ∈ left.head?, r.1 ∉ inner) ∧
      Runs p (first ++ (operations rest ++ more)) (operations left ++ more) := by
  obtain ⟨taken, left, rfl, htaken, hleft⟩ := split_operations inner rest
  refine ⟨taken, left, rfl, hleft, ?_⟩
  have hbehind : StartsWith (EndsLevel inner) (operations left ++ more) := by
    cases left with
    | nil => exact hmore
    | cons r others =>
        rw [operations_cons]
        refine .cons ⟨nofun, nofun, ?_⟩
        rintro op hop hsame
        rw [← BinaryOp.operator_injective (TokenKind.operator.inj hsame)] at hop
        exact hleft r rfl hop
  rw [operations_append, List.append_assoc]
  rw [operations_append, ← List.append_assoc, List.length_append] at hlength
  refine hp first taken _ hfirst ?_ (by omega) hbehind
  exact fun r hr => ⟨htaken r hr, hrest r (List.mem_append_left _ hr)⟩

/-- The operations of a level behind its first operand, each with the tighter ones behind it. -/
theorem runs_chainWithin (hp : AcceptsLevel inner p size)
    {rest : List (BinaryOp × List TokenKind)} {more : List TokenKind} {bound : Nat}
    (hrest : ∀ r ∈ rest, r.1 ∈ level ++ inner ∧ Derives .operand r.2)
    (hhead : ∀ r ∈ rest.head?, r.1 ∉ inner) (hlength : (operations rest).length < size)
    (hbound : (operations rest).length < bound)
    (hmore : StartsWith (EndsLevel (level ++ inner)) more) (left : Expr Node) :
    Runs (chainWithin level p bound left) (operations rest ++ more) more := by
  induction bound generalizing rest left with
  | zero => exact absurd hbound (Nat.not_lt_zero _)
  | succ bound ih =>
      cases rest with
      | nil =>
          obtain ⟨k, behind, rfl, -, -, hk⟩ := hmore
          refine .peek fun t ht => ?_
          have hnone : levelOp? level t = none := by
            cases hop : levelOp? level t with
            | none => rfl
            | some op =>
                obtain ⟨hkind, hmem⟩ := levelOp?_eq_some.mp hop
                exact absurd (ht.symm.trans hkind) (hk op (List.mem_append_left _ hmem))
          rw [hnone]
          exact .pure left
      | cons r rest =>
          obtain ⟨op, ks⟩ := r
          obtain ⟨⟨hop, hks⟩, hothers⟩ := List.forall_mem_cons.mp hrest
          have hlevel : op ∈ level := (List.mem_append.mp hop).resolve_right (hhead _ rfl)
          rw [operations_cons, List.length_cons] at hlength hbound
          rw [operations_cons, List.cons_append, List.append_assoc]
          refine .peek fun t ht => ?_
          rw [levelOp?_eq_some.mpr ⟨ht, hlevel⟩]
          refine .advance nofun ?_
          have hshort : (ks ++ operations rest).length < size := by omega
          obtain ⟨taken, others, rfl, hnext, hrun⟩ :=
            hp.upTo hks (fun r hr => (hothers r hr).2) hshort (hmore.imp fun _ => .tighter)
          refine .bind hrun fun right => .newNode fun node => ?_
          rw [operations_append, List.length_append, List.length_append] at hlength hbound
          have hleft := fun r hr => hothers r (List.mem_append_right _ hr)
          exact ih hleft hnext (by omega) (by omega) _

theorem acceptsLevel_chain (hp : AcceptsLevel inner p size) {bound : Nat} (hsize : size ≤ bound) :
    AcceptsLevel (level ++ inner) (chain bound level p) size := by
  intro first rest more hfirst hrest hlength hmore
  obtain ⟨taken, left, rfl, hhead, hrun⟩ :=
    hp.upTo hfirst (fun r hr => (hrest r hr).2) hlength (hmore.imp fun _ => .tighter)
  rw [operations_append, List.length_append, List.length_append] at hlength
  refine .bind hrun fun e => ?_
  exact runs_chainWithin hp (fun r hr => hrest r (List.mem_append_right _ hr)) hhead (by omega)
    (by omega) hmore e

end Levels

/-- What may stand behind an expression. -/
def EndsExpression : TokenKind → Prop :=
  EndsLevel BinaryOp.levels.flatten

theorem endsExpression_punct {mark : Punct} (h : mark ≠ .leftParen) :
    EndsExpression (.punct mark) := by
  refine ⟨?_, nofun, nofun⟩
  rintro ⟨⟩
  exact h rfl

theorem startsWith_punct {mark : Punct} (h : mark ≠ .leftParen) (more : List TokenKind) :
    StartsWith EndsExpression (.punct mark :: more) :=
  .cons (endsExpression_punct h)

theorem mem_levels (op : BinaryOp) : op ∈ BinaryOp.levels.flatten := by
  cases op <;> decide

theorem accepts_expressionOver {operand : Parser (Expr Node)} {size bound : Nat}
    (hoperand : Accepts .prefixed operand size EndsPrefixed) (hsize : size ≤ bound) :
    Accepts .expression (expressionOver bound operand) size EndsExpression := by
  have hlevels : ∀ levels : List (List BinaryOp),
      AcceptsLevel levels.flatten (levels.foldr (chain bound) (casts bound operand)) size := by
    intro levels
    induction levels with
    | nil => exact acceptsLevel_casts hoperand hsize
    | cons level levels ih => exact acceptsLevel_chain ih hsize
  intro ks more h hlength hmore
  cases h with
  | @expression first rest hfirst hrest =>
      rw [List.append_assoc]
      have hoperations : ∀ r ∈ rest, r.1 ∈ BinaryOp.levels.flatten ∧ Derives .operand r.2 :=
        fun r hr => ⟨mem_levels r.1, hrest r hr⟩
      exact hlevels _ first rest more hfirst hoperations hlength hmore

/-! ## Operands -/

namespace Refuses

variable {p : Parser α} {k : TokenKind} {ahead rest : List TokenKind}

theorem expecting (what : Expectation) : Refuses (Parser.expecting what : Parser α) ahead :=
  fun s _ => ⟨⟨.expected what, s.cursor.peek⟩, s, rfl, rfl⟩

theorem bind {f : α → Parser β} (h : Refuses p ahead) : Refuses (p >>= f) ahead := by
  intro s hs
  obtain ⟨e, t, he, hfound⟩ := h s hs
  refine ⟨e, t, ?_, hfound⟩
  change EStateM.bind p f s = _
  rw [EStateM.bind, he]

theorem peek {f : Token → Parser α} (h : ∀ t : Token, t.kind = k → Refuses (f t) (k :: rest)) :
    Refuses (Parser.peek >>= f) (k :: rest) :=
  fun s hs => h _ (peek_kind hs) s hs

theorem reading {g : Cursor → Except ParseError (α × Cursor)}
    (hg : ∀ c : Cursor, c.peek.kind = k → ∃ what, g c = .error (c.unexpected what)) :
    Refuses (Parser.reading g) (k :: rest) := by
  intro s hs
  obtain ⟨what, herror⟩ := hg s.cursor (peek_kind hs)
  exact ⟨s.cursor.unexpected what, s, by rw [Parser.reading, herror], rfl⟩

theorem numeric (h : ∀ digits type, k ≠ .number digits type) :
    Refuses Parser.numeric (k :: rest) := by
  refine peek fun t ht => ?_
  split
  · next digits type hkind => exact absurd (ht.symm.trans hkind) (h digits type)
  · exact expecting _

theorem nameOrCall {bound : Nat} {expression : Parser (Expr Node)}
    (h : ∀ name, k ≠ .identifier name) :
    Refuses (Parser.nameOrCall bound expression) (k :: rest) := by
  refine peek fun _ _ => bind (reading fun c hc => ⟨.identifier "expression", ?_⟩)
  simp only [Cursor.expectIdentifier]
  split
  · next name hkind => exact absurd (hc.symm.trans hkind) (h name)
  · rfl

theorem parenthesized {expression : Parser (Expr Node)} (h : k ≠ .punct .leftParen) :
    Refuses (Parser.parenthesized expression) (k :: rest) := by
  refine peek fun _ _ => bind (bind (reading fun c hc => ?_))
  exact ⟨_, by rw [Cursor.expectPunct, if_neg (hc ▸ h)]⟩

end Refuses

theorem runs_arguments {expression : Parser (Expr Node)} {bound : Nat}
    (hexpression : Accepts .expression expression bound EndsExpression)
    {args : List (List TokenKind)} {trailing : Bool} {more : List TokenKind}
    {after : Expectation} (hargs : ∀ arg ∈ args, Derives .expression arg)
    (hlength : (commaSeparated trailing args).length < bound) :
    Runs (commaListWithin expression after bound)
      (commaSeparated trailing args ++ .punct .rightParen :: more) more := by
  have hstarts : ∀ arg ∈ args, StartsWith (· ≠ .punct .rightParen) arg :=
    fun arg harg => (hargs arg harg).argument_starts
  have hcount := count_le_commaSeparated (fun arg harg => (hstarts arg harg).ne_nil) trailing
  refine runs_commaListWithin hstarts (fun arg harg behind hbehind => ?_) (by omega)
  have hle := length_le_commaSeparated harg trailing
  refine hexpression arg behind (hargs arg harg) (by omega) (hbehind.imp ?_)
  rintro k (rfl | rfl)
  · exact endsExpression_punct nofun
  · exact endsExpression_punct nofun

theorem accepts_operandWithin (bound : Nat) :
    Accepts .prefixed (operandWithin bound) bound EndsPrefixed := by
  induction bound with
  | zero => exact fun ks more _ hlength _ => absurd hlength (Nat.not_lt_zero _)
  | succ bound ih =>
      have hexpression := accepts_expressionOver ih (Nat.le_refl bound)
      intro ks more h hlength hmore
      cases h with
      | number =>
          refine .orElseHere (.peek fun t ht => ?_)
          rw [ht]
          exact .advance nofun (.newNode fun _ => .pure _)
      | name =>
          refine .orElseNext (.numeric nofun) (.orElseHere (.peek fun _ _ => ?_))
          exact .identifier fun _ => .nextNot hmore (.newNode fun _ => .pure _)
      | @call id args trailing hargs =>
          simp only [List.length_cons, List.length_append, List.length_nil] at hlength
          simp only [List.cons_append, List.append_assoc, List.nil_append]
          refine .orElseNext (.numeric nofun) (.orElseHere (.peek fun _ _ => ?_))
          refine .identifier fun _ => .nextIs (.advance nofun ?_)
          refine .bind (runs_arguments hexpression hargs (by omega)) fun _ => ?_
          exact .nodeFrom fun _ => .pure _
      | @paren inner hinner =>
          simp only [List.length_cons, List.length_append, List.length_nil] at hlength
          simp only [List.cons_append, List.append_assoc, List.nil_append]
          refine .orElseNext (.numeric nofun) (.orElseNext (.nameOrCall nofun) ?_)
          refine .orElseHere (.peek fun _ _ => .punct ?_)
          have hclose : StartsWith EndsExpression (.punct .rightParen :: more) :=
            startsWith_punct (by decide) more
          refine .bind (hexpression inner _ hinner (by omega) hclose) fun _ => .punct ?_
          exact .nodeFrom fun _ => .pure _
      | @unary op inner hinner =>
          refine .orElseNext (.numeric nofun) (.orElseNext (.nameOrCall nofun) ?_)
          refine .orElseNext (.parenthesized nofun) (.orElseHere (.peek fun t ht => ?_))
          rw [ht]
          dsimp only
          rw [UnaryOp.ofOperator?_operator]
          refine .advance nofun ?_
          refine .bind (ih inner more hinner (by simpa using hlength) hmore) fun _ => ?_
          exact .newNode fun _ => .pure _

theorem runs_expression {ks more : List TokenKind} (h : Derives .expression ks)
    (hmore : StartsWith EndsExpression more) : Runs expression (ks ++ more) more := by
  refine .budget fun bound hbound => ?_
  rw [List.length_append] at hbound
  have hexpression := accepts_expressionOver (accepts_operandWithin bound) (Nat.le_refl bound)
  exact hexpression ks more h (by omega) hmore

/-! ## Statements -/

/-- What may stand behind a statement. -/
def EndsStatement (k : TokenKind) : Prop :=
  k ≠ .keyword .elif ∧ k ≠ .keyword .else_

theorem endsStatement_of_opensStatement {k : TokenKind} (h : k.opensStatement = true) :
    EndsStatement k := by
  constructor
  · rintro rfl
    cases h
  · rintro rfl
    cases h

theorem count_le_flatten {body : List (List TokenKind)} (h : ∀ s ∈ body, s ≠ []) :
    body.length ≤ body.flatten.length := by
  induction body with
  | nil => exact Nat.le_refl 0
  | cons first rest ih =>
      rw [List.forall_mem_cons] at h
      have hfirst := List.length_pos_iff.mpr h.1
      have hrest := ih h.2
      rw [List.length_cons, List.flatten_cons, List.length_append]
      omega

theorem runs_statementsWithin {statement : Parser (Stmt Node)} {size bound : Nat}
    (hstatement : Accepts .statement statement size EndsStatement) {body : List (List TokenKind)}
    {more : List TokenKind} (hbody : ∀ s ∈ body, Derives .statement s ∧ s.length < size)
    (hbound : body.length < bound) :
    Runs (statementsWithin statement bound) (body.flatten ++ .punct .rightBrace :: more) more := by
  induction body generalizing bound with
  | nil =>
      obtain ⟨bound, rfl⟩ := Nat.exists_eq_add_one.mpr hbound
      exact .nextIs (.advance nofun (.pure _))
  | cons first rest ih =>
      obtain ⟨bound, rfl⟩ := Nat.exists_eq_add_one.mpr (Nat.zero_lt_of_lt hbound)
      obtain ⟨⟨hfirst, hlength⟩, hrest⟩ := List.forall_mem_cons.mp hbody
      have hstarts := hfirst.statement_starts
      rw [List.flatten_cons, List.append_assoc]
      refine .nextNot ((hstarts.imp ?_).append _) (.nextNot ((hstarts.imp ?_).append _) ?_)
      · rintro k hk rfl
        cases hk
      · rintro k hk rfl
        cases hk
      · have hbehind : StartsWith EndsStatement (rest.flatten ++ .punct .rightBrace :: more) := by
          cases rest with
          | nil => exact .cons ⟨nofun, nofun⟩
          | cons next others =>
              have hnext := (hrest next List.mem_cons_self).1.statement_starts
              rw [List.flatten_cons, List.append_assoc]
              exact (hnext.imp fun _ => endsStatement_of_opensStatement).append _
        refine .bind (hstatement first _ hfirst hlength hbehind) fun _ => ?_
        exact .bind (ih hrest (Nat.lt_of_succ_lt_succ hbound)) fun _ => .pure _

theorem runs_blockOver {statement : Parser (Stmt Node)} {size : Nat}
    (hstatement : Accepts .statement statement size EndsStatement) {ks more : List TokenKind}
    (h : Derives .block ks) (hlength : ks.length ≤ size) :
    Runs (blockOver statement) (ks ++ more) more := by
  cases h with
  | @block body hbody =>
      simp only [braced, List.length_cons, List.length_append, List.length_nil] at hlength
      simp only [braced, List.cons_append, List.append_assoc, List.nil_append]
      have hcount := count_le_flatten fun s hs => (hbody s hs).statement_starts.ne_nil
      refine .punct (.budget fun bound hbound => ?_)
      rw [List.length_append] at hbound
      refine runs_statementsWithin hstatement (fun s hs => ⟨hbody s hs, ?_⟩) (by omega)
      have hle := (List.sublist_flatten_of_mem hs).length_le
      omega

theorem runs_condition {guard more : List TokenKind} (h : Derives .expression guard)
    (context : String) :
    Runs (condition context) (.punct .leftParen :: (guard ++ .punct .rightParen :: more)) more := by
  exact .punct (.bind (runs_expression h (startsWith_punct (by decide) _)) fun _ => .punct (.pure _))

theorem runs_returnStatement {value : Option (List TokenKind)} {more : List TokenKind}
    (h : ∀ v ∈ value, Derives .expression v) :
    Runs returnStatement
      (.keyword .return_ :: (value.getD [] ++ .punct .semicolon :: more)) more := by
  refine .peek fun _ _ => .keyword (.bind ?_ fun _ => .punct (.nodeFrom fun _ => .pure _))
  cases value with
  | none => exact .nextIs (.pure _)
  | some v =>
      have hv := h v rfl
      refine .nextNot ((hv.expression_starts.imp ?_).append _) ?_
      · rintro k hk rfl
        cases hk
      · exact .bind (runs_expression hv (startsWith_punct (by decide) _)) fun _ => .pure _

theorem runs_declaration {kind : DeclKind} {name : String} {type initial more : List TokenKind}
    (htype : Derives .valueType type) (h : Derives .expression initial) :
    Runs (declaration kind)
      (.keyword (declarationWord kind) :: .identifier name :: .punct .colon ::
        (type ++ .operator .equal :: (initial ++ .punct .semicolon :: more))) more := by
  refine .peek fun _ _ => .keyword (.identifier fun _ => .punct ?_)
  refine .bind (runs_valueType htype) fun _ => .nextIs (.advance nofun ?_)
  refine .bind (runs_expression h (startsWith_punct (by decide) _)) fun _ => ?_
  exact .punct (.nodeFrom fun _ => .pure _)

section Blocks

variable {block : Parser (List (Stmt Node))} {size : Nat}
  (hblock : ∀ ks more, Derives .block ks → ks.length < size → Runs block (ks ++ more) more)
include hblock

theorem runs_arm {phrase more : List TokenKind} (h : Derives .guarded phrase)
    (hlength : phrase.length < size) (word : Keyword) :
    Runs (arm block word) (.keyword word :: (phrase ++ more)) more := by
  cases h with
  | @guarded guard body hguard hbody =>
      simp only [List.length_cons, List.length_append] at hlength
      simp only [List.cons_append, List.append_assoc]
      refine .peek fun _ _ => .keyword (.bind (runs_condition hguard _) fun _ => ?_)
      exact .bind (hblock body more hbody (by omega)) fun _ => .spanFrom fun _ => .pure _

theorem runs_elifArmsWithin {arms : List (List TokenKind)} {more : List TokenKind} {bound : Nat}
    (harms : ∀ arm ∈ arms, Derives .guarded arm)
    (hlength : (arms.flatMap (.keyword .elif :: ·)).length < size)
    (hbound : (arms.flatMap (.keyword .elif :: ·)).length < bound)
    (hmore : StartsWith (· ≠ .keyword .elif) more) :
    Runs (elifArmsWithin block bound) (arms.flatMap (.keyword .elif :: ·) ++ more) more := by
  induction arms generalizing bound with
  | nil =>
      obtain ⟨bound, rfl⟩ := Nat.exists_eq_add_one.mpr hbound
      exact .nextNot hmore (.pure _)
  | cons first rest ih =>
      obtain ⟨bound, rfl⟩ := Nat.exists_eq_add_one.mpr (Nat.zero_lt_of_lt hbound)
      obtain ⟨hfirst, hrest⟩ := List.forall_mem_cons.mp harms
      rw [List.flatMap_cons, List.length_append, List.length_cons] at hlength hbound
      rw [List.flatMap_cons, List.append_assoc, List.cons_append]
      refine .nextIs (.bind (runs_arm hblock hfirst (by omega) _) fun _ => ?_)
      exact .bind (ih hrest (by omega) (by omega)) fun _ => .pure _

theorem runs_elseBody {otherwise : Option (List TokenKind)} {more : List TokenKind}
    (h : ∀ body ∈ otherwise, Derives .block body)
    (hlength : (otherwise.elim [] (.keyword .else_ :: ·)).length < size)
    (hmore : StartsWith (· ≠ .keyword .else_) more) :
    Runs (elseBody block) (otherwise.elim [] (.keyword .else_ :: ·) ++ more) more := by
  cases otherwise with
  | none => exact .nextNot hmore (.pure _)
  | some body =>
      simp only [Option.elim, List.length_cons] at hlength
      refine .nextIs (.advance nofun ?_)
      exact .bind (hblock body more (h body rfl) (by omega)) fun _ => .pure _

theorem runs_conditional {first : List TokenKind} {arms : List (List TokenKind)}
    {otherwise : Option (List TokenKind)} {more : List TokenKind} (h : Derives .guarded first)
    (harms : ∀ arm ∈ arms, Derives .guarded arm)
    (hotherwise : ∀ body ∈ otherwise, Derives .block body)
    (hlength : (first ++ (arms.flatMap (.keyword .elif :: ·) ++
      otherwise.elim [] (.keyword .else_ :: ·))).length < size)
    (hmore : StartsWith EndsStatement more) :
    Runs (conditional block) (.keyword .if_ :: (first ++ (arms.flatMap (.keyword .elif :: ·) ++
      (otherwise.elim [] (.keyword .else_ :: ·) ++ more)))) more := by
  rw [List.length_append, List.length_append] at hlength
  have hbehind : StartsWith (· ≠ .keyword .elif)
      (otherwise.elim [] (.keyword .else_ :: ·) ++ more) := by
    cases otherwise with
    | none => exact hmore.imp fun _ hk => hk.1
    | some body => exact .cons nofun
  refine .peek fun _ _ => .bind (runs_arm hblock h (by omega) _) fun _ => ?_
  refine .budget fun bound hbound => ?_
  rw [List.length_append] at hbound
  refine .bind (runs_elifArmsWithin hblock harms (by omega) (by omega) hbehind) fun _ => ?_
  refine .bind (runs_elseBody hblock hotherwise (by omega) (hmore.imp fun _ hk => hk.2)) fun _ => ?_
  exact .nodeFrom fun _ => .pure _

theorem runs_loop {arm more : List TokenKind} (h : Derives .guarded arm)
    (hlength : arm.length < size) :
    Runs (loop block) (.keyword .while_ :: (arm ++ more)) more := by
  cases h with
  | @guarded guard body hguard hbody =>
      simp only [List.length_cons, List.length_append] at hlength
      simp only [List.cons_append, List.append_assoc]
      refine .peek fun _ _ => .keyword (.bind (runs_condition hguard _) fun _ => ?_)
      exact .bind (hblock body more hbody (by omega)) fun _ => .nodeFrom fun _ => .pure _

omit hblock in
theorem runs_expressionStatement {value more : List TokenKind} (h : Derives .expression value) :
    Runs (statementOver block) (value ++ .punct .semicolon :: more) more := by
  have hexpression : Runs expressionStatement (value ++ .punct .semicolon :: more) more := by
    obtain ⟨k, rest, rfl, -⟩ := h.expression_starts
    refine .peek fun _ _ => .bind (runs_expression h (startsWith_punct (by decide) _)) fun _ => ?_
    exact .punct (.nodeFrom fun _ => .pure _)
  -- no operand starts with a keyword, so the first token chooses the last branch
  obtain ⟨k, rest, rfl, hk⟩ := h.expression_starts
  refine .peek fun t ht => ?_
  rw [ht]
  cases k with
  | keyword word => cases hk
  | _ => exact hexpression

theorem accepts_statementOver : Accepts .statement (statementOver block) size EndsStatement := by
  intro ks more h hlength hmore
  cases h with
  | cond hfirst harms hotherwise =>
      rw [List.length_cons] at hlength
      simp only [List.cons_append, List.append_assoc]
      refine .peek fun t ht => ?_
      rw [ht]
      exact runs_conditional hblock hfirst harms hotherwise (by omega) hmore
  | loop harm =>
      rw [List.length_cons] at hlength
      refine .peek fun t ht => ?_
      rw [ht]
      exact runs_loop hblock harm (by omega)
  | @declare kind name type initial htype hinitial =>
      simp only [List.cons_append, List.append_assoc, List.nil_append]
      refine .peek fun t ht => ?_
      rw [ht]
      cases kind with
      | var => exact runs_declaration htype hinitial
      | const => exact runs_declaration htype hinitial
  | ret hvalue =>
      simp only [List.cons_append, List.append_assoc, List.nil_append]
      refine .peek fun t ht => ?_
      rw [ht]
      exact runs_returnStatement hvalue
  | expr hvalue =>
      rw [List.append_assoc]
      exact runs_expressionStatement hvalue

end Blocks

theorem accepts_statementWithin (bound : Nat) :
    Accepts .statement (statementWithin bound) bound EndsStatement := by
  induction bound with
  | zero => exact fun ks more _ hlength _ => absurd hlength (Nat.not_lt_zero _)
  | succ bound ih =>
      apply accepts_statementOver
      exact fun ks more h hlength => runs_blockOver ih h (Nat.le_of_lt_succ hlength)

theorem runs_block {ks more : List TokenKind} (h : Derives .block ks) :
    Runs block (ks ++ more) more := by
  refine .budget fun bound hbound => ?_
  rw [List.length_append] at hbound
  exact runs_blockOver (accepts_statementWithin bound) h (by omega)

/-! ## Programs -/

theorem runs_parameter {ks more : List TokenKind} (h : Derives .parameter ks) :
    Runs parameter (ks ++ more) more := by
  cases h with
  | parameter htype =>
      refine .peek fun _ _ => .identifier fun _ => .punct ?_
      exact .bind (runs_valueType htype) fun _ => .spanFrom fun _ => .pure _

theorem runs_signature {ks more : List TokenKind} (h : Derives .signature ks) :
    Runs signature (ks ++ more) more := by
  cases h with
  | @signature name parameters trailing result hparameters hresult =>
      simp only [List.cons_append, List.append_assoc]
      have hstarts : ∀ p ∈ parameters, StartsWith (· ≠ .punct .rightParen) p :=
        fun p hp => (hparameters p hp).parameter_starts
      have hcount := count_le_commaSeparated (fun p hp => (hstarts p hp).ne_nil) trailing
      have hlist : Runs (commaList parameter .parameterListEnd)
          (commaSeparated trailing parameters ++
            .punct .rightParen :: .punct .colon :: (result ++ more))
          (.punct .colon :: (result ++ more)) := by
        refine .budget fun bound hbound => ?_
        rw [List.length_append] at hbound
        exact runs_commaListWithin hstarts (fun p hp _ _ => runs_parameter (hparameters p hp))
          (by omega)
      refine .identifier fun _ => .punct (.bind hlist fun _ => .punct ?_)
      exact .bind (runs_resultType hresult) fun _ => .pure _

theorem runs_importPath {ks more : List TokenKind} (h : Derives .importPath ks) :
    Runs importPath (ks ++ more) more := by
  cases h with
  | importPath =>
      exact .keyword (.punct (.identifier fun _ => .punct (.identifier fun _ => .punct (.pure _))))

theorem runs_funcDef {header body more : List TokenKind} (h : Derives .signature header)
    (hbody : Derives .block body) (first : Token) :
    Runs (funcDef first) (header ++ (body ++ more)) more :=
  .bind (runs_signature h) fun _ => .bind (runs_block hbody) fun _ => .nodeFrom fun _ => .pure _

theorem runs_function {ks more : List TokenKind} (h : Derives .function ks) :
    Runs function (ks ++ more) more := by
  cases h with
  | @plainFunction header body hheader hbody =>
      rw [List.cons_append, List.append_assoc]
      have hdefinition : ∀ first, Runs (funcDef first) (header ++ (body ++ more)) more :=
        runs_funcDef hheader hbody
      cases hheader with
      | signature =>
          refine .peek fun first _ => .keyword (.peek fun t ht => ?_)
          rw [ht]
          exact .bind (hdefinition first) fun _ => .pure _
  | exportedFunction hheader hbody =>
      simp only [List.cons_append, List.append_assoc]
      refine .peek fun first _ => .keyword (.peek fun t ht => ?_)
      rw [ht]
      exact .advance nofun (.bind (runs_funcDef hheader hbody first) fun _ => .pure _)
  | importedFunction hpath hheader =>
      simp only [List.cons_append, List.append_assoc, List.nil_append]
      have himport : ∀ first, Runs (funcImport first) _ more := fun first =>
        .bind (runs_importPath hpath) fun _ => .bind (runs_signature hheader) fun _ =>
          .punct (.nodeFrom fun _ => .pure _)
      cases hpath with
      | importPath =>
          refine .peek fun first _ => .keyword (.peek fun t ht => ?_)
          rw [ht]
          exact .bind (himport first) fun _ => .pure _

theorem runs_memory {ks more : List TokenKind} (h : Derives .memory ks) :
    Runs memory (ks ++ more) more := by
  cases h with
  | @memory modifier name digits size hmodifier hsize =>
      simp only [List.cons_append, List.append_assoc, List.nil_append]
      have hkind : ∀ rest, Runs memoryKind (modifier ++ .identifier name :: rest)
          (.identifier name :: rest) := by
        intro rest
        cases hmodifier with
        | noModifier =>
            refine .peek fun t ht => ?_
            rw [ht]
            exact .pure _
        | exportModifier =>
            refine .peek fun t ht => ?_
            rw [ht]
            exact .advance nofun (.pure _)
        | importModifier hpath =>
            have hrun : Runs importPath (modifier ++ .identifier name :: rest)
                (.identifier name :: rest) := runs_importPath hpath
            cases hpath with
            | importPath =>
                refine .peek fun t ht => ?_
                rw [ht]
                exact .bind hrun fun _ => .pure _
      have hread : ∀ rest, Runs memorySize (.number digits .i32 :: rest) rest := by
        intro rest
        refine .peek fun t ht => ?_
        have hvalue : sizeOf? t = some size := by
          rw [Spells] at hsize
          simp [sizeOf?, ht, hsize]
        rw [hvalue]
        exact .advance (by simp) (.pure _)
      refine .peek fun _ _ => .keyword (.bind (hkind _) fun _ => .identifier fun _ => .punct ?_)
      exact .bind (hread _) fun _ => .punct (.punct (.nodeFrom fun _ => .pure _))

/-- Functions, and then whatever can be read with the memories that were there before. -/
theorem runs_functions {functions : List (List TokenKind)} {ahead more : List TokenKind}
    {bound : Nat} {done : Program Node} (h : ∀ f ∈ functions, Derives .function f)
    (hbound : functions.flatten.length < bound)
    (hnext : ∀ (bound' : Nat) (done' : Program Node), bound ≤ bound' + functions.flatten.length →
      done'.memories = done.memories → Runs (declarationsWithin bound' done') ahead more) :
    Runs (declarationsWithin bound done) (functions.flatten ++ ahead) more := by
  induction functions generalizing bound done with
  | nil => exact hnext bound done (Nat.le_add_right _ _) rfl
  | cons f rest ih =>
      obtain ⟨bound, rfl⟩ := Nat.exists_eq_add_one.mpr (Nat.zero_lt_of_lt hbound)
      obtain ⟨hf, hrest⟩ := List.forall_mem_cons.mp h
      obtain ⟨_, tail, rfl, rfl⟩ := hf.function_starts
      simp only [List.flatten_cons, List.length_append, List.length_cons] at hbound hnext
      rw [List.flatten_cons, List.append_assoc]
      refine .peek fun t ht => ?_
      rw [ht]
      refine .bind (runs_function hf) fun func => ih hrest (by omega) ?_
      exact fun bound' done' hle hsame => hnext bound' done' (by omega) hsame

theorem runs_end {bound : Nat} {more : List TokenKind} (hbound : 0 < bound) (done : Program Node) :
    Runs (declarationsWithin bound done) (.endOfFile :: more) (.endOfFile :: more) := by
  obtain ⟨bound, rfl⟩ := Nat.exists_eq_add_one.mpr hbound
  refine .peek fun t ht => ?_
  rw [ht]
  exact .pure done

theorem runs_program {ks more : List TokenKind} (h : Derives .program ks) :
    Runs program (ks ++ .endOfFile :: more) (.endOfFile :: more) := by
  refine .budget fun bound hbound => ?_
  rw [List.length_append, List.length_cons] at hbound
  cases h with
  | functions hfunctions =>
      refine runs_functions hfunctions (by omega) fun bound' done' hle _ => ?_
      exact runs_end (by omega) done'
  | @withMemory before after declared hbefore hdeclared hafter =>
      simp only [List.length_append] at hbound
      simp only [List.append_assoc]
      refine runs_functions hbefore (by omega) fun bound' done' hle hnone => ?_
      obtain ⟨bound', rfl⟩ : ∃ b, bound' = b + 1 := ⟨bound' - 1, by omega⟩
      have hmemory : Runs memory (declared ++ (after.flatten ++ .endOfFile :: more))
          (after.flatten ++ .endOfFile :: more) := runs_memory hdeclared
      cases hdeclared with
      | memory =>
          simp only [List.length_cons] at hbound
          refine .peek fun t ht => ?_
          rw [ht]
          dsimp only
          rw [hnone]
          refine .bind hmemory fun m => ?_
          refine runs_functions hafter (by omega) fun bound'' done'' hle' _ => ?_
          exact runs_end (by omega) done''

end Parser

theorem parseProgram_accepts_sentence {tokens : List Token}
    (hend : .endOfFile ∈ tokens.map Token.kind) (h : Derives .program (sentence tokens)) :
    ∃ p, parseProgram tokens = .ok p := by
  obtain ⟨more, hmore⟩ := sentence_append_end hend
  obtain ⟨p, t, hp, -⟩ := Parser.runs_program h ⟨.start tokens, 0⟩ hmore
  exact ⟨p, by rw [parseProgram, Parser.run, hp]; rfl⟩

/-- Tokens with an end mark among them are read exactly if those in front of the first one form a
sentence, wherever they stand. The program that is read spells that sentence without its trailing
commas; `digits` are those of the size of its memory, of which it keeps the value. -/
theorem parseProgram_accepts_exactly_sentences {tokens : List Token}
    (hend : ∃ t ∈ tokens, t.kind = .endOfFile) :
    ((∃ p, parseProgram tokens = .ok p) ↔ Derives .program (sentence tokens)) ∧
      ∀ p, parseProgram tokens = .ok p →
        ∃ digits, (∀ m ∈ p.memories, Spells digits m.size) ∧
          p.yield digits = dropTrailingCommas (sentence tokens) := by
  have hmem : .endOfFile ∈ tokens.map Token.kind := List.mem_map.mpr hend
  constructor
  · constructor
    · rintro ⟨p, hp⟩
      exact (parseProgram_reads_sentence hmem hp).1
    · exact parseProgram_accepts_sentence hmem
  · exact fun p hp => (parseProgram_reads_sentence hmem hp).2

/-- A function and a memory with all their tokens at one place, and a comma behind the only
parameter. -/
theorem tokens_at_one_place_are_read :
    ∃ p digits, parseProgram
        ([.keyword .func, .identifier "f", .punct .leftParen, .identifier "x", .punct .colon,
          .base .i32, .punct .comma, .punct .rightParen, .punct .colon, .base .void,
          .punct .leftBrace, .identifier "x", .punct .semicolon, .punct .rightBrace,
          .keyword .memory, .identifier "m", .punct .leftParen, .number "08" .i32,
          .punct .rightParen, .punct .semicolon, .endOfFile].map fun k => ⟨k, .point ⟨1, 1⟩⟩) =
        .ok p ∧
      p.yield digits =
        [.keyword .func, .identifier "f", .punct .leftParen, .identifier "x", .punct .colon,
          .base .i32, .punct .rightParen, .punct .colon, .base .void, .punct .leftBrace,
          .identifier "x", .punct .semicolon, .punct .rightBrace, .keyword .memory,
          .identifier "m", .punct .leftParen, .number "08" .i32, .punct .rightParen,
          .punct .semicolon] := by
  generalize htokens : List.map (fun k => (⟨k, .point ⟨1, 1⟩⟩ : Token)) _ = tokens
  have hend : ∃ t ∈ tokens, t.kind = .endOfFile := by
    rw [← htokens]
    decide +kernel
  have hok : (parseProgram tokens).isOk = true := by
    rw [← htokens]
    decide +kernel
  cases hp : parseProgram tokens with
  | error e =>
      rw [hp] at hok
      cases hok
  | ok p =>
      obtain ⟨-, hspelled⟩ := parseProgram_accepts_exactly_sentences hend
      obtain ⟨digits, -, hyield⟩ := hspelled p hp
      refine ⟨p, digits, rfl, hyield.trans ?_⟩
      rw [← htokens]
      decide +kernel

end Wattle
