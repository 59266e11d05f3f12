import Wattle.Proofs.OperandForm
import Wattle.Proofs.ParserSound
import Wattle.Proofs.PostOrder

/-!
# How reading numbers nodes

A successful run passes tokens and numbers nodes. The numbers are consecutive, in post-order, and
each node has a token of its own among those passed, so there are at most as many nodes as tokens.
Every node starts where one of these tokens does.
-/

namespace Wattle

namespace Parser

variable {α β : Type}

/-- A token to come, other than an end mark, starts at the place. -/
def Opens (s : ParseState) (place : Location) : Prop :=
  ∃ token ∈ s.cursor.rest, token.kind ≠ .endOfFile ∧ token.span.start = place

/-- From `s` to `t` tokens were passed and `nodes` numbered, at least `spare` fewer nodes than
tokens. -/
structure Grown (spare : Nat) (s : ParseState) (nodes : List Node) (t : ParseState) : Prop where
  passed : ∃ read, s.cursor.rest = read ++ t.cursor.rest ∧
    (∀ token ∈ read, token.kind ≠ .endOfFile) ∧ nodes.length + spare ≤ read.length
  ids : nodes.map Node.id = List.range' s.nextId nodes.length
  nextId : t.nextId = s.nextId + nodes.length
  opens : ∀ n ∈ nodes, Opens s n.start

/-- A run from `s` to `t` keeps the tokens. With an end mark ahead, it has numbered `nodes`. -/
structure Leads (spare : Nat) (s : ParseState) (nodes : List Node) (t : ParseState) : Prop where
  tokens : t.cursor.tokens = s.cursor.tokens
  grown : .endOfFile ∈ s.kinds → Grown spare s nodes t

namespace Grown

variable {spare spare' : Nat} {s t u : ParseState} {nodes nodes' : List Node}

theorem refl (s : ParseState) : Grown 0 s [] s :=
  ⟨⟨[], rfl, nofun, Nat.le_refl _⟩, rfl, rfl, nofun⟩

theorem ahead (h : Grown spare s nodes t) (hs : .endOfFile ∈ s.kinds) : .endOfFile ∈ t.kinds := by
  obtain ⟨read, hrest, hread, -⟩ := h.passed
  rw [ParseState.kinds, hrest, List.map_append, List.mem_append] at hs
  apply hs.resolve_left
  intro hmem
  obtain ⟨token, htoken, hkind⟩ := List.mem_map.mp hmem
  exact hread token htoken hkind

theorem opens_before (h : Grown spare s nodes t) {place : Location} (hplace : Opens t place) :
    Opens s place := by
  obtain ⟨read, hrest, -, -⟩ := h.passed
  obtain ⟨token, htoken, hkind, hstart⟩ := hplace
  refine ⟨token, ?_, hkind, hstart⟩
  rw [hrest]
  exact List.mem_append_right _ htoken

theorem trans (h : Grown spare s nodes t) (h' : Grown spare' t nodes' u) :
    Grown (spare + spare') s (nodes ++ nodes') u where
  passed := by
    obtain ⟨read, hrest, hread, hcount⟩ := h.passed
    obtain ⟨read', hrest', hread', hcount'⟩ := h'.passed
    refine ⟨read ++ read', by rw [hrest, hrest', List.append_assoc], ?_, ?_⟩
    · exact List.forall_mem_append.mpr ⟨hread, hread'⟩
    · rw [List.length_append, List.length_append]
      omega
  ids := by
    rw [List.map_append, h.ids, h'.ids, h.nextId, List.length_append, List.range'_append_1]
  nextId := by
    rw [h'.nextId, h.nextId, List.length_append, Nat.add_assoc]
  opens := List.forall_mem_append.mpr
    ⟨h.opens, fun n hn => h.opens_before (h'.opens n hn)⟩

theorem weaken (h : Grown spare s nodes t) (hle : spare' ≤ spare) : Grown spare' s nodes t where
  passed := by
    obtain ⟨read, hrest, hread, hcount⟩ := h.passed
    exact ⟨read, hrest, hread, by omega⟩
  ids := h.ids
  nextId := h.nextId
  opens := h.opens

/-- A run that passes a token starts in front of one. -/
theorem opens_first (h : Grown (spare + 1) s nodes t) : Opens s s.cursor.peek.span.start := by
  obtain ⟨read, hrest, hread, hcount⟩ := h.passed
  cases read with
  | nil => simp at hcount
  | cons token read =>
      have hpeek : s.cursor.peek = token := by simp [Cursor.peek, hrest]
      rw [hpeek]
      refine ⟨token, by simp [hrest], hread token List.mem_cons_self, rfl⟩

theorem step (hs : .endOfFile ∈ s.kinds) (hkind : s.cursor.peek.kind ≠ .endOfFile) :
    Grown 1 s [] { s with cursor := s.cursor.advance } := by
  cases hrest : s.cursor.rest with
  | nil => simp [ParseState.kinds, hrest] at hs
  | cons token rest =>
      have hpeek : s.cursor.peek = token := by simp [Cursor.peek, hrest]
      rw [hpeek] at hkind
      refine ⟨⟨[token], ?_, by simpa using hkind, by simp⟩, rfl, rfl, List.forall_mem_nil _⟩
      simp [Cursor.advance, hrest, hkind]

/-- A new node takes the next number and one of the tokens to spare. -/
theorem node (h : Grown (spare + 1) s nodes t) {span : Span} (hopens : Opens s span.start) :
    Grown spare s (nodes ++ [⟨t.nextId, span⟩]) { t with nextId := t.nextId + 1 } where
  passed := by
    obtain ⟨read, hrest, hread, hcount⟩ := h.passed
    refine ⟨read, hrest, hread, ?_⟩
    rw [List.length_append, List.length_singleton]
    omega
  ids := by
    rw [List.map_append, h.ids, h.nextId, List.length_append, ← List.range'_append_1]
    rfl
  nextId := by
    rw [h.nextId, List.length_append, Nat.add_assoc]
    rfl
  opens := List.forall_mem_append.mpr ⟨h.opens, List.forall_mem_singleton.mpr hopens⟩

end Grown

namespace Leads

variable {spare spare' : Nat} {s t u : ParseState} {nodes nodes' : List Node}

theorem refl (s : ParseState) : Leads 0 s [] s :=
  ⟨rfl, fun _ => .refl s⟩

theorem trans (h : Leads spare s nodes t) (h' : Leads spare' t nodes' u) :
    Leads (spare + spare') s (nodes ++ nodes') u where
  tokens := h'.tokens.trans h.tokens
  grown hs := (h.grown hs).trans (h'.grown ((h.grown hs).ahead hs))

theorem weaken (h : Leads spare s nodes t) (hle : spare' ≤ spare) : Leads spare' s nodes t :=
  ⟨h.tokens, fun hs => (h.grown hs).weaken hle⟩

theorem step (h : Leads spare s nodes t) (hkind : t.cursor.peek.kind ≠ .endOfFile) :
    Leads (spare + 1) s nodes { t with cursor := t.cursor.advance } where
  tokens := by rw [← h.tokens, Cursor.tokens_advance]
  grown hs := by
    have hgrown := h.grown hs
    have hstep := hgrown.trans (Grown.step (hgrown.ahead hs) hkind)
    rwa [List.append_nil] at hstep

theorem opens_before (h : Leads spare s nodes t) {place : Location}
    (hplace : .endOfFile ∈ t.kinds → Opens t place) (hs : .endOfFile ∈ s.kinds) : Opens s place :=
  (h.grown hs).opens_before (hplace ((h.grown hs).ahead hs))

end Leads

/-! ## Sequences and single steps -/

/-- If `p` succeeds on `s`, the result and the state behind it have the property `Q`. -/
structure Builds (s : ParseState) (p : Parser α) (Q : α → ParseState → Prop) : Prop where
  of_ok : ∀ a t, p s = .ok a t → Q a t

/-- `p` numbers the nodes of its result. -/
def Grows (p : Parser α) (nodes : α → List Node) : Prop :=
  ∀ s, Builds s p fun a t => Leads 0 s (nodes a) t

namespace Builds

variable {s : ParseState} {p : Parser α} {f : α → Parser β} {Q Q' : α → ParseState → Prop}
  {R : β → ParseState → Prop}

theorem pure {a : α} (h : Q a s) : Builds s (Pure.pure a) Q := by
  constructor
  intro b t hrun
  obtain ⟨rfl, rfl⟩ := EStateM.Result.ok.inj hrun
  exact h

theorem imp (h : Builds s p Q) (hQ : ∀ a t, Q a t → Q' a t) : Builds s p Q' :=
  ⟨fun a t hrun => hQ a t (h.of_ok a t hrun)⟩

theorem bind (hp : Builds s p Q) (hf : ∀ a t, Q a t → Builds t (f a) R) :
    Builds s (p >>= f) R := by
  constructor
  intro b u hrun
  change EStateM.bind p f s = .ok b u at hrun
  rw [EStateM.bind] at hrun
  cases hfirst : p s with
  | error e t => simp [hfirst] at hrun
  | ok a t =>
      rw [hfirst] at hrun
      exact (hf a t (hp.of_ok a t hfirst)).of_ok b u hrun

theorem refuse (cause : ParseCause) : Builds s (Parser.refuse cause) Q :=
  ⟨fun _ _ hrun => nomatch hrun⟩

theorem expecting (what : Expectation) : Builds s (Parser.expecting what) Q :=
  refuse _

theorem peek {f : Token → Parser β} (h : Builds s (f s.cursor.peek) R) :
    Builds s (Parser.peek >>= f) R :=
  ⟨h.of_ok⟩

theorem next {kind : TokenKind} {f : Bool → Parser β}
    (hyes : s.cursor.peek.kind = kind → Builds s (f true) R)
    (hno : s.cursor.peek.kind ≠ kind → Builds s (f false) R) :
    Builds s (Parser.next kind >>= f) R := by
  have hrun : Builds s (f (decide (s.cursor.peek.kind = kind))) R := by
    by_cases hkind : s.cursor.peek.kind = kind
    · rw [decide_eq_true hkind]
      exact hyes hkind
    · rw [decide_eq_false hkind]
      exact hno hkind
  exact ⟨hrun.of_ok⟩

theorem budget {f : Nat → Parser β} (h : ∀ bound, Builds s (f bound) R) :
    Builds s (Parser.budget >>= f) R :=
  ⟨(h _).of_ok⟩

theorem get {f : ParseState → Parser β} (h : Builds s (f s) R) :
    Builds s (MonadState.get >>= f) R :=
  ⟨h.of_ok⟩

theorem spanFrom {first : Token} {f : Span → Parser β}
    (h : ∀ span : Span, span.start = first.span.start → Builds s (f span) R) :
    Builds s (Parser.spanFrom first >>= f) R :=
  ⟨(h (s.cursor.spanFrom first) rfl).of_ok⟩

end Builds

/-- If `p` succeeds, it has stepped over one token, which was no end mark. -/
def PassesToken (p : Parser α) : Prop :=
  ∀ s, Builds s p fun _ t =>
    s.cursor.peek.kind ≠ .endOfFile ∧ t = { s with cursor := s.cursor.advance }

theorem passes_reading {g : Cursor → Except ParseError (α × Cursor)}
    (hg : ∀ c a c', g c = .ok (a, c') → c.peek.kind ≠ .endOfFile ∧ c' = c.advance) :
    PassesToken (reading g) := by
  intro s
  constructor
  intro a t hrun
  simp only [reading] at hrun
  cases hread : g s.cursor with
  | error e => simp [hread] at hrun
  | ok result =>
      obtain ⟨b, c⟩ := result
      rw [hread] at hrun
      obtain ⟨-, rfl⟩ := EStateM.Result.ok.inj hrun
      obtain ⟨hkind, rfl⟩ := hg _ b c hread
      exact ⟨hkind, rfl⟩

theorem passes_punct (mark : Punct) (context : String) : PassesToken (punct mark context) := by
  intro s
  refine .bind (passes_reading (fun c a c' hread => ?_) s) fun _ _ ht => .pure ht
  simp only [Cursor.expectPunct] at hread
  split at hread
  · next hkind =>
    cases hread
    exact ⟨by simp [hkind], rfl⟩
  · cases hread

theorem passes_keyword (word : Keyword) (context : String) :
    PassesToken (keyword word context) := by
  intro s
  refine .bind (passes_reading (fun c a c' hread => ?_) s) fun _ _ ht => .pure ht
  simp only [Cursor.expectKeyword] at hread
  split at hread
  · next hkind =>
    cases hread
    exact ⟨by simp [hkind], rfl⟩
  · cases hread

theorem passes_identifier (context : String) : PassesToken (identifier context) := by
  refine passes_reading fun c a c' hread => ?_
  simp only [Cursor.expectIdentifier] at hread
  split at hread
  · next hkind =>
    cases hread
    exact ⟨by simp [hkind], rfl⟩
  · cases hread

namespace Builds

variable {s o : ParseState} {p : Parser α} {f : α → Parser β} {R : β → ParseState → Prop}
  {spare : Nat} {nodes : List Node}

theorem advance {f : Unit → Parser β} (h : Leads spare o nodes s) {k : TokenKind}
    (hkind : s.cursor.peek.kind = k) (hk : k ≠ .endOfFile)
    (hf : ∀ t, Leads (spare + 1) o nodes t → Builds t (f ()) R) :
    Builds s (Parser.advance >>= f) R :=
  ⟨(hf _ (h.step (hkind ▸ hk))).of_ok⟩

/-- One token, never an end mark. -/
theorem token (h : Leads spare o nodes s) (hp : PassesToken p)
    (hf : ∀ a t, Leads (spare + 1) o nodes t → Builds t (f a) R) : Builds s (p >>= f) R := by
  apply bind (hp s)
  rintro a t ⟨hkind, rfl⟩
  exact hf a _ (h.step hkind)

theorem punct {mark : Punct} {context : String} {f : Unit → Parser β} (h : Leads spare o nodes s)
    (hf : ∀ t, Leads (spare + 1) o nodes t → Builds t (f ()) R) :
    Builds s (Parser.punct mark context >>= f) R :=
  token h (passes_punct mark context) fun _ t ht => hf t ht

theorem keyword {word : Keyword} {context : String} {f : Unit → Parser β}
    (h : Leads spare o nodes s) (hf : ∀ t, Leads (spare + 1) o nodes t → Builds t (f ()) R) :
    Builds s (Parser.keyword word context >>= f) R :=
  token h (passes_keyword word context) fun _ t ht => hf t ht

theorem identifier {context : String} {f : String → Parser β} (h : Leads spare o nodes s)
    (hf : ∀ name t, Leads (spare + 1) o nodes t → Builds t (f name) R) :
    Builds s (Parser.identifier context >>= f) R :=
  token h (passes_identifier context) hf

/-- A subtree: its nodes come behind those of before. -/
theorem tree {below : α → List Node} (h : Leads spare o nodes s) (hp : Grows p below)
    (hf : ∀ a t, Leads spare o (nodes ++ below a) t → Builds t (f a) R) :
    Builds s (p >>= f) R :=
  bind (hp s) fun a t ht => hf a t (h.trans ht)

/-- Something without nodes. -/
theorem skip (h : Leads spare o nodes s) (hp : Grows p fun _ => [])
    (hf : ∀ a t, Leads spare o nodes t → Builds t (f a) R) :
    Builds s (p >>= f) R := by
  apply tree h hp
  intro a t ht
  rw [List.append_nil] at ht
  exact hf a t ht

theorem newNode {span : Span} {f : Node → Parser β} (h : Leads (spare + 1) o nodes s)
    (hopens : .endOfFile ∈ o.kinds → Opens o span.start)
    (hf : ∀ node t, Leads spare o (nodes ++ [node]) t → Builds t (f node) R) :
    Builds s (Parser.newNode span >>= f) R :=
  ⟨(hf ⟨s.nextId, span⟩ { s with nextId := s.nextId + 1 }
    ⟨h.tokens, fun hs => (h.grown hs).node (hopens hs)⟩).of_ok⟩

/-- A node that starts with the first token of the run. -/
theorem nodeFrom {f : Node → Parser β} (h : Leads (spare + 1) o nodes s)
    (hf : ∀ node t, Leads spare o (nodes ++ [node]) t → Builds t (f node) R) :
    Builds s (Parser.nodeFrom o.cursor.peek >>= f) R := by
  have hopens : .endOfFile ∈ o.kinds → Opens o (s.cursor.spanFrom o.cursor.peek).start :=
    fun ho => (h.grown ho).opens_first
  exact ⟨(newNode h hopens hf).of_ok⟩

end Builds

/-! ## Types and lists -/

theorem grows_valueTypeWithin (bound : Nat) : Grows (valueTypeWithin bound) fun _ => [] := by
  induction bound with
  | zero => exact fun s => .refuse _
  | succ bound ih =>
      intro s
      apply Builds.peek
      split
      · next hkind =>
        apply Builds.advance (.refl s) hkind nofun
        intro t ht
        apply Builds.next (fun _ => .refuse _)
        intro _
        exact .skip ht ih fun type u hu => .pure (hu.weaken (Nat.zero_le _))
      · exact .refuse _
      · next b hvoid hkind =>
        exact .advance (.refl s) hkind nofun fun t ht => .pure (ht.weaken (Nat.zero_le _))
      · exact .expecting _

theorem grows_valueType : Grows valueType fun _ => [] :=
  fun s => .budget fun bound => grows_valueTypeWithin bound s

theorem grows_resultType : Grows resultType fun _ => [] := by
  intro s
  apply Builds.next
  · intro hvoid
    exact .advance (.refl s) hvoid nofun fun t ht => .pure (ht.weaken (Nat.zero_le _))
  · exact fun _ => grows_valueType s

/-- A list numbers the nodes of its items one after the other. A property `P` of items that can be
told at any earlier state holds of all items at the start. -/
theorem builds_commaListWithin {item : Parser α} {nodes : α → List Node}
    {P : ParseState → α → Prop} (after : Expectation)
    (hitem : ∀ s, Builds s item fun a t => Leads 0 s (nodes a) t ∧ P s a)
    (hP : ∀ spare s ns t a, Leads spare s ns t → P t a → P s a) (bound : Nat) (s : ParseState) :
    Builds s (commaListWithin item after bound) fun as t =>
      Leads 1 s (as.flatMap nodes) t ∧ ∀ a ∈ as, P s a := by
  induction bound generalizing s with
  | zero => exact .refuse _
  | succ bound ih =>
      apply Builds.next
      · intro hclose
        exact .advance (.refl s) hclose nofun fun t ht => .pure ⟨ht, nofun⟩
      · intro _
        apply Builds.bind (hitem s)
        rintro first t ⟨hfirst, hPfirst⟩
        have hrest : ∀ spare u, Leads spare s (nodes first) u →
            Builds u (do return first :: (← commaListWithin item after bound)) fun as v =>
              Leads 1 s (as.flatMap nodes) v ∧ ∀ a ∈ as, P s a := by
          intro spare u hu
          apply Builds.bind (ih u)
          rintro rest v ⟨hrest, hPrest⟩
          apply Builds.pure
          constructor
          · exact (hu.trans hrest).weaken (Nat.le_add_left _ _)
          · rw [List.forall_mem_cons]
            exact ⟨hPfirst, fun a ha => hP _ _ _ _ a hu (hPrest a ha)⟩
        apply Builds.next
        · intro hcomma
          exact .advance hfirst hcomma nofun fun u hu => hrest _ u hu
        · intro _
          exact .next (fun _ => hrest _ t hfirst) fun _ => .expecting _

/-! ## Expressions -/

theorem grows_chain {operand : Parser (Expr Node)} (hoperand : Grows operand Expr.nodes)
    (bound : Nat) (level : List BinaryOp) : Grows (chain bound level operand) Expr.nodes := by
  have hchain : ∀ (bound : Nat) (left : Expr Node) (o s : ParseState), Leads 0 o left.nodes s →
      Builds s (chainWithin level operand bound left) fun e t => Leads 0 o e.nodes t := by
    intro bound
    induction bound with
    | zero => exact fun left o s _ => .refuse _
    | succ bound ih =>
        intro left o s hleft
        apply Builds.peek
        split
        · exact .pure hleft
        · next op hop =>
          obtain ⟨hkind, -⟩ := levelOp?_eq_some.mp hop
          apply Builds.advance hleft hkind nofun
          intro t ht
          apply Builds.tree ht hoperand
          intro right u hu
          apply Builds.newNode hu
          · exact fun ho => (hleft.grown ho).opens _ left.note_mem_nodes
          · exact fun node v hv => ih (.binary node op left right) o v hv
  intro s
  apply Builds.bind (hoperand s)
  exact fun left t ht => hchain bound left s t ht

theorem grows_casts {operand : Parser (Expr Node)} (hoperand : Grows operand Expr.nodes)
    (bound : Nat) : Grows (casts bound operand) Expr.nodes := by
  have hcasts : ∀ (bound : Nat) (inner : Expr Node) (o s : ParseState), Leads 0 o inner.nodes s →
      Builds s (castsWithin bound inner) fun e t => Leads 0 o e.nodes t := by
    intro bound
    induction bound with
    | zero => exact fun inner o s _ => .refuse _
    | succ bound ih =>
        intro inner o s hinner
        apply Builds.next
        · intro has
          apply Builds.advance hinner has nofun
          intro t ht
          apply Builds.skip ht grows_valueType
          intro target u hu
          apply Builds.get
          apply Builds.newNode hu
          · exact fun ho => (hinner.grown ho).opens _ inner.note_mem_nodes
          · exact fun node v hv => ih (.cast node inner target) o v hv
        · exact fun _ => .pure hinner
  intro s
  apply Builds.bind (hoperand s)
  exact fun inner t ht => hcasts bound inner s t ht

theorem grows_expressionOver {operand : Parser (Expr Node)} (hoperand : Grows operand Expr.nodes)
    (bound : Nat) : Grows (expressionOver bound operand) Expr.nodes := by
  have hlevels : ∀ levels : List (List BinaryOp),
      Grows (levels.foldr (chain bound) (casts bound operand)) Expr.nodes := by
    intro levels
    induction levels with
    | nil => exact grows_casts hoperand bound
    | cons level levels ih => exact grows_chain ih bound level
  exact hlevels _

theorem grows_numeric : Grows numeric Expr.nodes := by
  intro s
  apply Builds.peek
  split
  · next hkind =>
    apply Builds.advance (.refl s) hkind nofun
    intro t ht
    exact .newNode ht (fun hs => (ht.grown hs).opens_first) fun node u hu => .pure hu
  · exact .expecting _

theorem grows_nameOrCall {expression : Parser (Expr Node)}
    (hexpression : Grows expression Expr.nodes) (bound : Nat) :
    Grows (nameOrCall bound expression) Expr.nodes := by
  intro s
  apply Builds.peek
  apply Builds.identifier (.refl s)
  intro name t ht
  apply Builds.next
  · intro hopen
    apply Builds.advance ht hopen nofun
    intro u hu
    apply Builds.bind (builds_commaListWithin (P := fun _ _ => True) .argumentListEnd
      (fun v => (hexpression v).imp fun _ _ h => ⟨h, trivial⟩) (fun _ _ _ _ _ _ h => h) bound u)
    rintro args v ⟨hargs, -⟩
    apply Builds.nodeFrom (hu.trans hargs)
    intro node w hw
    apply Builds.pure
    rw [Expr.nodes, Expr.listNodes_eq, List.flatMap_map]
    exact hw.weaken (Nat.zero_le _)
  · intro _
    exact .newNode ht (fun hs => (ht.grown hs).opens_first) fun node u hu => .pure hu

theorem grows_parenthesized {expression : Parser (Expr Node)}
    (hexpression : Grows expression Expr.nodes) :
    Grows (parenthesized expression) Expr.nodes := by
  intro s
  apply Builds.peek
  apply Builds.punct (.refl s)
  intro t ht
  apply Builds.tree ht hexpression
  intro inner u hu
  apply Builds.punct hu
  intro v hv
  exact .nodeFrom hv fun node w hw => .pure (hw.weaken (Nat.zero_le _))

theorem grows_unary {operand : Parser (Expr Node)} (hoperand : Grows operand Expr.nodes) :
    Grows (unary operand) Expr.nodes := by
  intro s
  apply Builds.peek
  split
  · next mark hkind =>
    split
    · apply Builds.advance (.refl s) hkind nofun
      intro t ht
      apply Builds.tree ht hoperand
      intro inner u hu
      exact .newNode hu (fun hs => (ht.grown hs).opens_first) fun node v hv => .pure hv
    · exact .expecting _
  · exact .expecting _

/-- The next token chooses the form, so no number is lost on an attempt that fails. -/
theorem grows_operandWithin (bound : Nat) : Grows (operandWithin bound) Expr.nodes := by
  induction bound with
  | zero => exact fun s => .refuse _
  | succ bound ih =>
      have hexpression := grows_expressionOver ih bound
      intro s
      have hform : Builds s (operandForm bound s.cursor.peek.kind) fun e t =>
          Leads 0 s e.nodes t := by
        rw [operandForm.eq_def]
        split
        · exact grows_numeric s
        · exact grows_nameOrCall hexpression bound s
        · exact grows_parenthesized hexpression s
        · split
          · exact grows_unary ih s
          · exact .expecting _
        · exact .expecting _
      exact ⟨fun e t hrun => hform.of_ok e t (operandWithin_eq_ok hrun)⟩

theorem grows_expression : Grows expression Expr.nodes :=
  fun s => .budget fun bound => grows_expressionOver (grows_operandWithin bound) bound s

/-! ## Statements -/

theorem grows_statementsWithin {statement : Parser (Stmt Node)}
    (hstatement : Grows statement Stmt.nodes) (bound : Nat) :
    Grows (statementsWithin statement bound) Stmt.listNodes := by
  induction bound with
  | zero => exact fun s => .refuse _
  | succ bound ih =>
      intro s
      apply Builds.next
      · intro hclose
        exact .advance (.refl s) hclose nofun fun t ht => .pure (ht.weaken (Nat.zero_le _))
      · intro _
        apply Builds.next (fun _ => .expecting _)
        intro _
        apply Builds.bind (hstatement s)
        intro first t ht
        exact .tree ht ih fun rest u hu => .pure hu

theorem grows_blockOver {statement : Parser (Stmt Node)}
    (hstatement : Grows statement Stmt.nodes) :
    Grows (blockOver statement) Stmt.listNodes := by
  intro s
  apply Builds.punct (.refl s)
  intro t ht
  apply Builds.budget
  intro bound
  apply (grows_statementsWithin hstatement bound t).imp
  exact fun body u hu => (ht.trans hu).weaken (Nat.zero_le _)

theorem grows_condition (context : String) : Grows (condition context) Expr.nodes := by
  intro s
  apply Builds.punct (.refl s)
  intro t ht
  apply Builds.tree ht grows_expression
  intro guard u hu
  exact .punct hu fun v hv => .pure (hv.weaken (Nat.zero_le _))

theorem grows_returnStatement : Grows returnStatement Stmt.nodes := by
  have hvalue : Grows returnValue fun value => (value.map Expr.nodes).getD [] := by
    intro s
    apply Builds.next
    · exact fun _ => .pure (.refl s)
    · intro _
      apply Builds.bind (grows_expression s)
      exact fun value t ht => .pure ht
  intro s
  apply Builds.peek
  apply Builds.keyword (.refl s)
  intro t ht
  apply Builds.tree ht hvalue
  intro value u hu
  apply Builds.punct hu
  intro v hv
  exact .nodeFrom hv fun node w hw => .pure (hw.weaken (Nat.zero_le _))

theorem grows_declaration (kind : DeclKind) : Grows (declaration kind) Stmt.nodes := by
  intro s
  apply Builds.peek
  apply Builds.keyword (.refl s)
  intro t ht
  apply Builds.identifier ht
  intro name u hu
  apply Builds.punct hu
  intro v hv
  apply Builds.skip hv grows_valueType
  intro type w hw
  refine .next (fun hequal => ?_) fun _ => .expecting _
  apply Builds.advance hw hequal nofun
  intro x hx
  apply Builds.tree hx grows_expression
  intro initial y hy
  apply Builds.punct hy
  intro z hz
  exact .nodeFrom hz fun node last hlast => .pure (hlast.weaken (Nat.zero_le _))

theorem grows_expressionStatement : Grows expressionStatement Stmt.nodes := by
  intro s
  apply Builds.peek
  apply Builds.bind (grows_expression s)
  intro value t ht
  apply Builds.punct ht
  intro u hu
  exact .nodeFrom hu fun node v hv => .pure hv

section Blocks

variable {block : Parser (List (Stmt Node))} (hblock : Grows block Stmt.listNodes)
include hblock

theorem builds_arm (word : Keyword) (s : ParseState) :
    Builds s (arm block word) fun a t =>
      Leads 1 s (a.condition.nodes ++ Stmt.listNodes a.body) t := by
  apply Builds.peek
  apply Builds.keyword (.refl s)
  intro t ht
  apply Builds.tree ht (grows_condition _)
  intro guard u hu
  apply Builds.tree hu hblock
  intro body v hv
  exact .spanFrom fun span _ => .pure hv

omit hblock in
theorem armsNodes_cons (a : Arm Node) (rest : List (Arm Node)) :
    Stmt.armsNodes (a :: rest) =
      a.condition.nodes ++ Stmt.listNodes a.body ++ Stmt.armsNodes rest := by
  obtain ⟨condition, body, span⟩ := a
  rw [Stmt.armsNodes]

theorem grows_elifArmsWithin (bound : Nat) :
    Grows (elifArmsWithin block bound) Stmt.armsNodes := by
  induction bound with
  | zero => exact fun s => .refuse _
  | succ bound ih =>
      intro s
      apply Builds.next
      · intro _
        apply Builds.bind (builds_arm hblock .elif s)
        intro first t ht
        apply Builds.tree ht ih
        intro rest u hu
        apply Builds.pure
        rw [armsNodes_cons]
        exact hu.weaken (Nat.zero_le _)
      · exact fun _ => .pure (.refl s)

theorem grows_elseBody : Grows (elseBody block) Stmt.elseNodes := by
  intro s
  apply Builds.next
  · intro helse
    apply Builds.advance (.refl s) helse nofun
    intro t ht
    exact .tree ht hblock fun body u hu => .pure (hu.weaken (Nat.zero_le _))
  · exact fun _ => .pure (.refl s)

theorem grows_conditional : Grows (conditional block) Stmt.nodes := by
  intro s
  apply Builds.peek
  apply Builds.bind (builds_arm hblock .if_ s)
  intro first t ht
  apply Builds.budget
  intro bound
  apply Builds.tree ht (grows_elifArmsWithin hblock bound)
  intro arms u hu
  apply Builds.tree hu (grows_elseBody hblock)
  intro otherwise v hv
  apply Builds.nodeFrom hv
  intro node w hw
  apply Builds.pure
  rw [Stmt.nodes, armsNodes_cons]
  exact hw

theorem grows_loop : Grows (loop block) Stmt.nodes := by
  intro s
  apply Builds.peek
  apply Builds.keyword (.refl s)
  intro t ht
  apply Builds.tree ht (grows_condition _)
  intro guard u hu
  apply Builds.tree hu hblock
  intro body v hv
  exact .nodeFrom hv fun node w hw => .pure hw

theorem grows_statementOver : Grows (statementOver block) Stmt.nodes := by
  intro s
  apply Builds.peek
  split
  · exact grows_conditional hblock s
  · exact grows_loop hblock s
  · exact grows_returnStatement s
  · exact grows_declaration .var s
  · exact grows_declaration .const s
  · exact grows_expressionStatement s

end Blocks

theorem grows_statementWithin (bound : Nat) : Grows (statementWithin bound) Stmt.nodes := by
  induction bound with
  | zero => exact fun s => .refuse _
  | succ bound ih => exact grows_statementOver (grows_blockOver ih)

theorem grows_block : Grows block Stmt.listNodes :=
  fun s => .budget fun bound => grows_blockOver (grows_statementWithin bound) s

/-! ## Programs -/

/-- The parameter starts with a token to come. -/
def ParameterOpens (s : ParseState) (p : Parameter) : Prop :=
  .endOfFile ∈ s.kinds → Opens s p.span.start

theorem ParameterOpens.before {spare : Nat} {s t : ParseState} {nodes : List Node} {p : Parameter}
    (h : Leads spare s nodes t) (hp : ParameterOpens t p) : ParameterOpens s p :=
  fun hs => h.opens_before hp hs

theorem builds_parameter (s : ParseState) :
    Builds s parameter fun p t => Leads 0 s [] t ∧ ParameterOpens s p := by
  apply Builds.peek
  apply Builds.identifier (.refl s)
  intro name t ht
  apply Builds.punct ht
  intro u hu
  apply Builds.skip hu grows_valueType
  intro type v hv
  apply Builds.spanFrom
  intro span hspan
  apply Builds.pure
  refine ⟨hv.weaken (Nat.zero_le _), fun hs => ?_⟩
  rw [hspan]
  exact (hv.grown hs).opens_first

theorem builds_signature (s : ParseState) :
    Builds s signature fun g t => Leads 0 s [] t ∧ ∀ p ∈ g.parameters, ParameterOpens s p := by
  apply Builds.identifier (.refl s)
  intro name t ht
  apply Builds.punct ht
  intro u hu
  apply Builds.bind (Q := fun ps v => Leads 1 u (ps.flatMap fun _ => []) v ∧
    ∀ p ∈ ps, ParameterOpens u p)
  · apply Builds.budget
    exact fun bound => builds_commaListWithin .parameterListEnd builds_parameter
      (fun _ _ _ _ _ h hp => hp.before h) bound u
  · rintro parameters v ⟨hv, hopens⟩
    rw [List.flatMap_eq_nil_iff.mpr fun _ _ => rfl] at hv
    apply Builds.punct (hu.trans hv)
    intro w hw
    apply Builds.skip hw grows_resultType
    intro result x hx
    apply Builds.pure
    exact ⟨hx.weaken (Nat.zero_le _), fun p hp => (hopens p hp).before hu⟩

theorem grows_importPath : Grows importPath fun _ => [] := by
  intro s
  apply Builds.keyword (.refl s)
  intro t ht
  apply Builds.punct ht
  intro u hu
  apply Builds.identifier hu
  intro nameSpace v hv
  apply Builds.punct hv
  intro w hw
  apply Builds.identifier hw
  intro specifier x hx
  exact .punct hx fun y hy => .pure (hy.weaken (Nat.zero_le _))

/-- A definition that started at `o`, with its keywords already passed. -/
theorem builds_funcDef {spare : Nat} {o s : ParseState} (h : Leads (spare + 1) o [] s) :
    Builds s (funcDef o.cursor.peek) fun d t =>
      Leads 0 o (Stmt.listNodes d.body ++ [d.node]) t ∧
        ∀ p ∈ d.signature.parameters, ParameterOpens o p := by
  apply Builds.bind (builds_signature s)
  rintro header t ⟨ht, hopens⟩
  apply Builds.tree (h.trans ht) grows_block
  intro body u hu
  apply Builds.nodeFrom hu
  intro node v hv
  apply Builds.pure
  exact ⟨hv.weaken (Nat.zero_le _), fun p hp => (hopens p hp).before h⟩

theorem builds_funcImport {spare : Nat} {o s : ParseState} (h : Leads (spare + 1) o [] s) :
    Builds s (funcImport o.cursor.peek) fun i t =>
      Leads 0 o [i.node] t ∧ ∀ p ∈ i.signature.parameters, ParameterOpens o p := by
  apply Builds.skip h grows_importPath
  intro path t ht
  apply Builds.bind (builds_signature t)
  rintro header u ⟨hu, hopens⟩
  apply Builds.punct (ht.trans hu)
  intro v hv
  apply Builds.nodeFrom hv
  intro node w hw
  apply Builds.pure
  exact ⟨hw.weaken (Nat.zero_le _), fun p hp => (hopens p hp).before ht⟩

theorem builds_function (s : ParseState) :
    Builds s function fun f t =>
      Leads 0 s f.nodes t ∧ ∀ p ∈ f.signature.parameters, ParameterOpens s p := by
  apply Builds.peek
  apply Builds.keyword (.refl s)
  intro t ht
  apply Builds.peek
  split
  · apply Builds.bind (builds_funcImport ht)
    exact fun i u hu => .pure hu
  · next hexport =>
    apply Builds.advance ht hexport nofun
    intro u hu
    apply Builds.bind (builds_funcDef hu)
    exact fun d v hv => .pure hv
  · apply Builds.bind (builds_funcDef ht)
    exact fun d u hu => .pure hu

theorem grows_memoryKind : Grows memoryKind fun _ => [] := by
  intro s
  apply Builds.peek
  split
  · next hexport =>
    exact .advance (.refl s) hexport nofun fun t ht => .pure (ht.weaken (Nat.zero_le _))
  · exact .skip (.refl s) grows_importPath fun path t ht => .pure ht
  · exact .pure (.refl s)

theorem grows_memorySize : Grows memorySize fun _ => [] := by
  intro s
  apply Builds.peek
  split
  · next size hsize =>
    obtain ⟨digits, hkind, -⟩ := sizeOf?_eq_some hsize
    exact .advance (.refl s) hkind nofun fun t ht => .pure (ht.weaken (Nat.zero_le _))
  · exact .expecting _

theorem grows_memory : Grows memory fun m => [m.node] := by
  intro s
  apply Builds.peek
  apply Builds.keyword (.refl s)
  intro t ht
  apply Builds.skip ht grows_memoryKind
  intro kind u hu
  apply Builds.identifier hu
  intro name v hv
  apply Builds.punct hv
  intro w hw
  apply Builds.skip hw grows_memorySize
  intro size x hx
  apply Builds.punct hx
  intro y hy
  apply Builds.punct hy
  intro z hz
  exact .nodeFrom hz fun node last hlast => .pure (hlast.weaken (Nat.zero_le _))

theorem builds_declarationsWithin (bound : Nat) (order : List Declaration) {o s : ParseState}
    {done : Program Node} (horder : done.Order order)
    (h : Leads 0 o (order.flatMap Declaration.nodes) s)
    (hopens : ∀ f ∈ done.funcs, ∀ p ∈ f.signature.parameters, ParameterOpens o p) :
    Builds s (declarationsWithin bound done) fun p t =>
      t.cursor.peek.kind = .endOfFile ∧
        (∃ order, p.Order order ∧ Leads 0 o (order.flatMap Declaration.nodes) t) ∧
        ∀ f ∈ p.funcs, ∀ p ∈ f.signature.parameters, ParameterOpens o p := by
  induction bound generalizing order s done with
  | zero => exact .refuse _
  | succ bound ih =>
      apply Builds.peek
      split
      · next hend => exact .pure ⟨hend, ⟨order, horder, h⟩, hopens⟩
      · apply Builds.bind (builds_function s)
        rintro f t ⟨hf, hfOpens⟩
        apply ih (order ++ [.inl f])
        · exact ⟨by simp [horder.funcs], by simp [horder.memories]⟩
        · have hboth := h.trans hf
          rw [List.flatMap_append, List.flatMap_singleton]
          exact hboth
        · rw [List.forall_mem_append, List.forall_mem_singleton]
          exact ⟨hopens, fun p hp => (hfOpens p hp).before h⟩
      · split
        · apply Builds.tree h grows_memory
          intro m t hm
          apply ih (order ++ [.inr m])
          · exact ⟨by simp [horder.funcs], by simp [horder.memories]⟩
          · rw [List.flatMap_append, List.flatMap_singleton]
            exact hm
          · exact hopens
        · exact .refuse _
      · exact .expecting _

theorem builds_program (s : ParseState) :
    Builds s program fun p t =>
      t.cursor.peek.kind = .endOfFile ∧
        (∃ order, p.Order order ∧ Leads 0 s (order.flatMap Declaration.nodes) t) ∧
        ∀ f ∈ p.funcs, ∀ p ∈ f.signature.parameters, ParameterOpens s p := by
  apply Builds.budget
  intro bound
  apply builds_declarationsWithin bound [] ⟨rfl, rfl⟩ (.refl s)
  exact fun _ hnone => nomatch hnone

/-- A state that shows an end mark, but has none ahead, is at the end of an empty list or behind an
end mark. -/
theorem tokens_eq_nil_of_peek {c : Cursor} (hpeek : c.peek.kind = .endOfFile)
    (hend : .endOfFile ∉ c.tokens.map Token.kind) : c.tokens = [] := by
  obtain ⟨consumed, rest⟩ := c
  cases rest with
  | cons t rest =>
      apply absurd _ hend
      exact List.mem_map.mpr ⟨t, by simp [Cursor.tokens], hpeek⟩
  | nil =>
      cases consumed with
      | nil => rfl
      | cons t consumed =>
          apply absurd _ hend
          exact List.mem_map.mpr ⟨t, by simp [Cursor.tokens], hpeek⟩

end Parser

/-- What reading a list of tokens has numbered. Without an end mark, only the empty list can be
read. -/
theorem parseProgram_leads {tokens : List Token} {p : Program Node}
    (h : parseProgram tokens = .ok p) :
    (tokens = [] ∨ .endOfFile ∈ tokens.map Token.kind) ∧
      (∃ order t, p.Order order ∧
        Parser.Leads 0 ⟨.start tokens, 0⟩ (order.flatMap Declaration.nodes) t) ∧
      ∀ f ∈ p.funcs, ∀ parameter ∈ f.signature.parameters,
        Parser.ParameterOpens ⟨.start tokens, 0⟩ parameter := by
  simp only [parseProgram, Parser.run] at h
  cases hrun : Parser.program ⟨.start tokens, 0⟩ with
  | error e t => simp [hrun, Except.map] at h
  | ok q t =>
      rw [hrun] at h
      obtain rfl := Except.ok.inj h
      obtain ⟨hpeek, ⟨order, horder, hleads⟩, hopens⟩ := (Parser.builds_program _).of_ok q t hrun
      refine ⟨?_, ⟨order, t, horder, hleads⟩, hopens⟩
      have htokens : t.cursor.tokens = tokens := hleads.tokens
      by_cases hend : .endOfFile ∈ tokens.map Token.kind
      · exact .inr hend
      · left
        rw [← htokens] at hend
        rw [← htokens, Parser.tokens_eq_nil_of_peek hpeek hend]

end Wattle
