import Wattle.Proofs.Numbering

/-!
# Spans and the tokens under them

Everything in a program that has a span was read from a stretch of tokens, and its span reaches from
the first of them through the last. What stands inside it was read from parts of this stretch, one
behind the other. The spans are made in four ways, from a token, from the spans on both sides of an
operator, from the token read last, and for conversions from a span and the token read last; all of
them come to the same.
-/

namespace Wattle

/-! ## Regions of a program -/

/-- A part of a program that has a span. -/
inductive Region where
  | expr (e : Expr Node)
  | stmt (s : Stmt Node)
  | arm (a : Arm Node)
  | parameter (p : Parameter)
  | func (f : Func Node)
  | memory (m : Memory)

namespace Region

def span : Region → Span
  | expr e => e.span
  | stmt s => s.node.span
  | arm a => a.span
  | parameter p => p.span
  | func f => f.node.span
  | memory m => m.node.span

/-- The regions directly inside a region, in the order of the source. -/
def children : Region → List Region
  | expr (.name _ _) | expr (.number _ _ _) => []
  | expr (.call _ _ args) => args.map expr
  | expr (.unary _ _ inner) | expr (.paren _ inner) | expr (.cast _ inner _) => [expr inner]
  | expr (.binary _ _ left right) => [expr left, expr right]
  | stmt (.cond _ arms otherwise) => arms.map arm ++ (otherwise.getD []).map stmt
  | stmt (.loop _ condition body) => expr condition :: body.map stmt
  | stmt (.ret _ value) => value.toList.map expr
  | stmt (.declare _ _ _ _ initial) => [expr initial]
  | stmt (.expr _ value) => [expr value]
  | arm a => expr a.condition :: a.body.map stmt
  | func (.plain d) | func (.exported d) => d.signature.parameters.map parameter ++ d.body.map stmt
  | func (.imported i) => i.signature.parameters.map parameter
  | parameter _ | memory _ => []

end Region

def Declaration.region : Declaration → Region
  | .inl f => .func f
  | .inr m => .memory m

/-- The span reaches from the first of the tokens through the last. -/
def Span.Covers (span : Span) (read : List Token) : Prop :=
  ∃ first last, read.head? = some first ∧ read.getLast? = some last ∧
    span = ⟨first.span.start, last.span.stop⟩

mutual

/-- The region was read from these tokens: its span covers them, and what is inside it was read from
parts of them. -/
inductive Laid : List Token → Region → Prop where
  | mk {read : List Token} {r : Region} (covers : r.span.Covers read)
      (inside : LaidAll read r.children) : Laid read r

/-- The regions were read from stretches of the tokens, one behind the other. -/
inductive LaidAll : List Token → List Region → Prop where
  | nil (read : List Token) : LaidAll read []
  | gap {read : List Token} {rs : List Region} (token : Token) (behind : LaidAll read rs) :
      LaidAll (token :: read) rs
  | cons {read others : List Token} {r : Region} {rs : List Region} (first : Laid read r)
      (behind : LaidAll others rs) : LaidAll (read ++ others) (r :: rs)

end

theorem Laid.covers {read : List Token} {r : Region} (h : Laid read r) : r.span.Covers read := by
  cases h with
  | mk covers _ => exact covers

namespace LaidAll

variable {read others : List Token} {r : Region} {rs rs' : List Region}

theorem gaps (read : List Token) (h : LaidAll others rs) : LaidAll (read ++ others) rs := by
  induction read with
  | nil => exact h
  | cons token read ih => exact .gap token ih

theorem append : {read : List Token} → {rs : List Region} → LaidAll read rs →
    LaidAll others rs' → LaidAll (read ++ others) (rs ++ rs')
  | _, _, .nil read, h' => h'.gaps read
  | _, _, .gap token behind, h' => .gap token (append behind h')
  | _, _, .cons first behind, h' => by
      rw [List.append_assoc]
      exact .cons first (append behind h')

theorem single (h : Laid read r) : LaidAll read [r] := by
  have hnil := LaidAll.cons h (.nil [])
  rwa [List.append_nil] at hnil

end LaidAll

namespace Parser

variable {α β : Type}

/-! ## Tokens passed -/

/-- From `o` to `c` a cursor passed the tokens `read`, none of them an end mark. -/
structure Passed (o : Cursor) (read : List Token) (c : Cursor) : Prop where
  rest : o.rest = read ++ c.rest
  consumed : c.consumed = read.reverse ++ o.consumed
  marks : ∀ token ∈ read, token.kind ≠ .endOfFile

namespace Passed

variable {o c d : Cursor} {read others : List Token}

theorem refl (c : Cursor) : Passed c [] c :=
  ⟨rfl, rfl, nofun⟩

theorem trans (h : Passed o read c) (h' : Passed c others d) : Passed o (read ++ others) d where
  rest := by rw [h.rest, h'.rest, List.append_assoc]
  consumed := by rw [h'.consumed, h.consumed, List.reverse_append, List.append_assoc]
  marks := List.forall_mem_append.mpr ⟨h.marks, h'.marks⟩

theorem ahead (h : Passed o read c) (ho : .endOfFile ∈ o.rest.map Token.kind) :
    .endOfFile ∈ c.rest.map Token.kind := by
  rw [h.rest, List.map_append, List.mem_append] at ho
  apply ho.resolve_left
  intro hmem
  obtain ⟨token, htoken, hkind⟩ := List.mem_map.mp hmem
  exact h.marks token htoken hkind

theorem step (hc : .endOfFile ∈ c.rest.map Token.kind) (hkind : c.peek.kind ≠ .endOfFile) :
    Passed c [c.peek] c.advance := by
  obtain ⟨consumed, rest⟩ := c
  cases rest with
  | nil => simp at hc
  | cons token rest =>
      simp only [Cursor.peek] at hkind
      refine ⟨?_, ?_, by simpa [Cursor.peek] using hkind⟩ <;>
        simp [Cursor.advance, Cursor.peek, hkind]

theorem head?_eq (h : Passed o read c) (hread : read ≠ []) : read.head? = some o.peek := by
  cases read with
  | nil => exact absurd rfl hread
  | cons token read => simp [Cursor.peek, h.rest]

theorem previous?_eq (h : Passed o read c) (hread : read ≠ []) : c.previous? = read.getLast? := by
  rw [Cursor.previous?, h.consumed, List.head?_append, List.head?_reverse,
    List.getLast?_eq_some_getLast hread]
  rfl

/-- What was passed is covered by the span from the token where it began to the one read last. -/
theorem covers (h : Passed o read c) (hread : read ≠ []) (fallback : Location) :
    Span.Covers ⟨o.peek.span.start, c.endOr fallback⟩ read := by
  refine ⟨_, _, h.head?_eq hread, List.getLast?_eq_some_getLast hread, ?_⟩
  rw [Cursor.endOr, h.previous?_eq hread, List.getLast?_eq_some_getLast hread]
  rfl

/-- Only one span covers what was passed. -/
theorem span_eq {span : Span} (h : Passed o read c) (hspan : span.Covers read) :
    span = ⟨o.peek.span.start, c.endOr span.stop⟩ := by
  obtain ⟨first, last, hfirst, hlast, rfl⟩ := hspan
  have hread : read ≠ [] := by
    rintro rfl
    cases hfirst
  rw [h.head?_eq hread] at hfirst
  rw [Cursor.endOr, h.previous?_eq hread, hlast, Option.some.inj hfirst]
  rfl

end Passed

/-- With an end mark ahead of `o`, at least `count` tokens were passed from there to `s`, and the
regions were read from stretches of these. -/
def Spread (count : Nat) (o : ParseState) (rs : List Region) (s : ParseState) : Prop :=
  .endOfFile ∈ o.kinds →
    ∃ read, Passed o.cursor read s.cursor ∧ count ≤ read.length ∧ LaidAll read rs

/-- With an end mark ahead of `o`, the region was read from the tokens between there and `s`. -/
def Framed (o : ParseState) (r : Region) (s : ParseState) : Prop :=
  .endOfFile ∈ o.kinds → ∃ read, Passed o.cursor read s.cursor ∧ Laid read r

/-- The regions in the result of `p` are read from at least `count` tokens. -/
def Spreads (count : Nat) (p : Parser α) (rs : α → List Region) : Prop :=
  ∀ s, Builds s p fun a t => Spread count s (rs a) t

/-- The result of `p` is read from the tokens that `p` passes. -/
def Frames (p : Parser α) (r : α → Region) : Prop :=
  ∀ s, Builds s p fun a t => Framed s (r a) t

namespace Spread

variable {o s t : ParseState} {count count' : Nat} {rs rs' : List Region} {p : Parser α}
  {f : α → Parser β} {R : β → ParseState → Prop}

theorem refl (s : ParseState) : Spread 0 s [] s :=
  fun _ => ⟨[], .refl _, Nat.le_refl _, .nil []⟩

theorem trans (h : Spread count o rs s) (h' : Spread count' s rs' t) :
    Spread (count + count') o (rs ++ rs') t := by
  intro ho
  obtain ⟨read, hpassed, hcount, hlaid⟩ := h ho
  obtain ⟨others, hpassed', hcount', hlaid'⟩ := h' (hpassed.ahead ho)
  refine ⟨read ++ others, hpassed.trans hpassed', ?_, hlaid.append hlaid'⟩
  rw [List.length_append]
  exact Nat.add_le_add hcount hcount'

theorem weaken (h : Spread count o rs s) (hle : count' ≤ count) : Spread count' o rs s := by
  intro ho
  obtain ⟨read, hpassed, hcount, hlaid⟩ := h ho
  exact ⟨read, hpassed, Nat.le_trans hle hcount, hlaid⟩

theorem step (h : Spread count o rs s) (hkind : s.cursor.peek.kind ≠ .endOfFile) :
    Spread (count + 1) o rs { s with cursor := s.cursor.advance } := by
  have hstep : Spread 1 s [] { s with cursor := s.cursor.advance } :=
    fun hs => ⟨_, .step hs hkind, Nat.le_refl _, .nil _⟩
  have hboth := h.trans hstep
  rwa [List.append_nil] at hboth

theorem advance {f : Unit → Parser β} (h : Spread count o rs s) {k : TokenKind}
    (hkind : s.cursor.peek.kind = k) (hk : k ≠ .endOfFile)
    (hf : ∀ t, Spread (count + 1) o rs t → Builds t (f ()) R) :
    Builds s (Parser.advance >>= f) R :=
  ⟨(hf _ (h.step (hkind ▸ hk))).of_ok⟩

theorem token (h : Spread count o rs s) (hp : PassesToken p)
    (hf : ∀ a t, Spread (count + 1) o rs t → Builds t (f a) R) : Builds s (p >>= f) R := by
  apply Builds.bind (hp s)
  rintro a t ⟨hkind, rfl⟩
  exact hf a _ (h.step hkind)

theorem trees {below : α → List Region} (h : Spread count o rs s) (hp : Spreads count' p below)
    (hf : ∀ a t, Spread (count + count') o (rs ++ below a) t → Builds t (f a) R) :
    Builds s (p >>= f) R :=
  .bind (hp s) fun a t ht => hf a t (h.trans ht)

/-- Something without regions. -/
theorem skip (h : Spread count o rs s) (hp : Spreads count' p fun _ => [])
    (hf : ∀ a t, Spread (count + count') o rs t → Builds t (f a) R) : Builds s (p >>= f) R := by
  apply h.trees hp
  intro a t ht
  rw [List.append_nil] at ht
  exact hf a t ht

end Spread

theorem Framed.spread {o s : ParseState} {r : Region} (h : Framed o r s) : Spread 1 o [r] s := by
  intro ho
  obtain ⟨read, hpassed, hlaid⟩ := h ho
  obtain ⟨first, _, hfirst, -, -⟩ := hlaid.covers
  exact ⟨read, hpassed, List.length_pos_of_mem (List.mem_of_head? hfirst), .single hlaid⟩

theorem Frames.spreads {p : Parser α} {r : α → Region} (h : Frames p r) :
    Spreads 1 p fun a => [r a] :=
  fun s => (h s).imp fun _ _ => Framed.spread

theorem Spread.ahead {o s : ParseState} {count : Nat} {rs : List Region}
    (h : Spread count o rs s) (ho : .endOfFile ∈ o.kinds) : .endOfFile ∈ s.kinds := by
  obtain ⟨read, hpassed, -, -⟩ := h ho
  exact hpassed.ahead ho

namespace Framed

variable {o s : ParseState} {r : Region} (h : Framed o r s) (ho : .endOfFile ∈ o.kinds)
include h ho

theorem span_eq : r.span = ⟨o.cursor.peek.span.start, s.cursor.endOr r.span.stop⟩ := by
  obtain ⟨read, hpassed, hlaid⟩ := h ho
  exact hpassed.span_eq hlaid.covers

theorem start_eq : r.span.start = o.cursor.peek.span.start := by
  rw [h.span_eq ho]

theorem stop_eq : r.span.stop = s.cursor.endOr r.span.stop := by
  conv_lhs => rw [h.span_eq ho]

end Framed

/-! ## The four ways to make a span -/

/-- A region that is one token. -/
theorem framed_token {s : ParseState} {r : Region} (hkind : s.cursor.peek.kind ≠ .endOfFile)
    (hchildren : r.children = []) (hspan : r.span = s.cursor.peek.span) :
    Framed s r { s with cursor := s.cursor.advance } := by
  refine fun hs => ⟨_, .step hs hkind, ?_, hchildren ▸ .nil _⟩
  exact ⟨_, _, rfl, rfl, hspan⟩

/-- A region around what was read since `o`: its span starts there and ends with the token read
last. -/
theorem Spread.close {o s : ParseState} {count : Nat} {r : Region}
    (h : Spread (count + 1) o r.children s)
    (hstart : .endOfFile ∈ o.kinds → r.span.start = o.cursor.peek.span.start)
    (hstop : .endOfFile ∈ o.kinds → ∃ fallback, r.span.stop = s.cursor.endOr fallback) :
    Framed o r s := by
  intro ho
  obtain ⟨read, hpassed, hcount, hlaid⟩ := h ho
  obtain ⟨fallback, hstop⟩ := hstop ho
  have hread : read ≠ [] := List.ne_nil_of_length_pos (by omega)
  refine ⟨read, hpassed, ?_, hlaid⟩
  have hspan : r.span = ⟨o.cursor.peek.span.start, s.cursor.endOr fallback⟩ := by
    rw [← hstart ho, ← hstop]
  rw [hspan]
  exact hpassed.covers hread fallback

/-- A region that ends with another one. -/
theorem Spread.closeWith {o m s : ParseState} {count : Nat} {rs : List Region} {r last : Region}
    (h : Spread count o rs m) (hlast : Framed m last s) (hchildren : r.children = rs ++ [last])
    (hstart : .endOfFile ∈ o.kinds → r.span.start = o.cursor.peek.span.start)
    (hstop : r.span.stop = last.span.stop) : Framed o r s := by
  have hall : Spread (count + 1) o r.children s := hchildren ▸ h.trans hlast.spread
  apply hall.close hstart
  intro ho
  exact ⟨_, hstop.trans (hlast.stop_eq (h.ahead ho))⟩

section Nodes

variable {o s : ParseState} {count : Nat} {rs : List Region} {R : β → ParseState → Prop}

theorem Spread.spanFrom {f : Span → Parser β} (h : Spread (count + 1) o rs s)
    (hf : ∀ span, (∀ r : Region, r.children = rs → r.span = span → Framed o r s) →
      Builds s (f span) R) :
    Builds s (Parser.spanFrom o.cursor.peek >>= f) R := by
  refine ⟨(hf (s.cursor.spanFrom o.cursor.peek) fun r hchildren hspan => ?_).of_ok⟩
  have hall : Spread (count + 1) o r.children s := hchildren ▸ h
  exact hall.close (fun _ => by rw [hspan]; rfl) fun _ => ⟨_, by rw [hspan]; rfl⟩

theorem Spread.nodeFrom {f : Node → Parser β} (h : Spread (count + 1) o rs s)
    (hf : ∀ node t, (∀ r : Region, r.children = rs → r.span = node.span → Framed o r t) →
      Builds t (f node) R) :
    Builds s (Parser.nodeFrom o.cursor.peek >>= f) R := by
  have hspan : Builds s (do f (← newNode (← Parser.spanFrom o.cursor.peek))) R := by
    apply h.spanFrom
    intro span hframed
    exact ⟨(hf ⟨s.nextId, span⟩ { s with nextId := s.nextId + 1 } hframed).of_ok⟩
  exact ⟨hspan.of_ok⟩

/-- A new node does not move the cursor. -/
theorem builds_newNode {span : Span} {f : Node → Parser β}
    (hf : ∀ id, Builds { s with nextId := s.nextId + 1 } (f ⟨id, span⟩) R) :
    Builds s (newNode span >>= f) R :=
  ⟨(hf s.nextId).of_ok⟩

theorem builds_advance {f : Unit → Parser β}
    (hf : Builds { s with cursor := s.cursor.advance } (f ()) R) :
    Builds s (advance >>= f) R :=
  ⟨hf.of_ok⟩

end Nodes

/-! ## Types and lists -/

theorem spreads_valueTypeWithin (bound : Nat) :
    Spreads 1 (valueTypeWithin bound) fun _ => [] := by
  induction bound with
  | zero => exact fun s => .refuse _
  | succ bound ih =>
      intro s
      apply Builds.peek
      split
      · next hkind =>
        apply (Spread.refl s).advance hkind nofun
        intro t ht
        apply Builds.next (fun _ => .refuse _)
        intro _
        exact ht.skip ih fun type u hu => .pure (hu.weaken (Nat.le_add_left _ _))
      · exact .refuse _
      · next hkind => exact (Spread.refl s).advance hkind nofun fun t ht => .pure ht
      · exact .expecting _

theorem spreads_valueType : Spreads 1 valueType fun _ => [] :=
  fun s => .budget fun bound => spreads_valueTypeWithin bound s

theorem spreads_resultType : Spreads 1 resultType fun _ => [] := by
  intro s
  apply Builds.next
  · exact fun hvoid => (Spread.refl s).advance hvoid nofun fun t ht => .pure ht
  · exact fun _ => spreads_valueType s

theorem spreads_commaListWithin {item : Parser α} {r : α → Region} (hitem : Frames item r)
    (after : Expectation) (bound : Nat) :
    Spreads 1 (commaListWithin item after bound) fun as => as.map r := by
  induction bound with
  | zero => exact fun s => .refuse _
  | succ bound ih =>
      intro s
      apply Builds.next
      · exact fun hclose => (Spread.refl s).advance hclose nofun fun t ht => .pure ht
      · intro _
        apply Builds.bind (hitem s)
        intro first t ht
        have hrest : ∀ count u, Spread count s [r first] u →
            Builds u (do return first :: (← commaListWithin item after bound)) fun as v =>
              Spread 1 s (as.map r) v :=
          fun count u hu => hu.trees ih fun rest v hv => .pure (hv.weaken (Nat.le_add_left _ _))
        apply Builds.next
        · exact fun hcomma => ht.spread.advance hcomma nofun fun u hu => hrest _ u hu
        · exact fun _ => .next (fun _ => hrest _ t ht.spread) fun _ => .expecting _

/-! ## Expressions -/

section Operands

variable {operand : Parser (Expr Node)} (hoperand : Frames operand .expr)
include hoperand

theorem frames_chain (bound : Nat) (level : List BinaryOp) :
    Frames (chain bound level operand) .expr := by
  have hchain : ∀ (bound : Nat) (left : Expr Node) (o s : ParseState), Framed o (.expr left) s →
      Builds s (chainWithin level operand bound left) fun e t => Framed o (.expr e) t := by
    intro bound
    induction bound with
    | zero => exact fun left o s _ => .refuse _
    | succ bound ih =>
        intro left o s hleft
        apply Builds.peek
        split
        · exact .pure hleft
        · next op hop =>
          obtain ⟨hkind, -⟩ := levelOp?_eq_some.mp hop
          apply hleft.spread.advance hkind nofun
          intro t ht
          apply Builds.bind (hoperand t)
          intro right u hright
          apply builds_newNode
          intro id
          apply ih
          exact ht.closeWith hright rfl (fun ho => hleft.start_eq ho) rfl
  intro s
  apply Builds.bind (hoperand s)
  exact fun left t ht => hchain bound left s t ht

theorem frames_casts (bound : Nat) : Frames (casts bound operand) .expr := by
  have hcasts : ∀ (bound : Nat) (inner : Expr Node) (o s : ParseState), Framed o (.expr inner) s →
      Builds s (castsWithin bound inner) fun e t => Framed o (.expr e) t := by
    intro bound
    induction bound with
    | zero => exact fun inner o s _ => .refuse _
    | succ bound ih =>
        intro inner o s hinner
        apply Builds.next
        · intro has
          apply hinner.spread.advance has nofun
          intro t ht
          apply ht.skip spreads_valueType
          intro target u hu
          apply Builds.get
          apply builds_newNode
          intro id
          apply ih
          exact hu.close (fun ho => hinner.start_eq ho) fun _ => ⟨_, rfl⟩
        · exact fun _ => .pure hinner
  intro s
  apply Builds.bind (hoperand s)
  exact fun inner t ht => hcasts bound inner s t ht

theorem frames_levels (bound : Nat) (levels : List (List BinaryOp)) :
    Frames (levels.foldr (chain bound) (casts bound operand)) .expr := by
  induction levels with
  | nil => exact frames_casts hoperand bound
  | cons level levels ih => exact frames_chain ih bound level

theorem frames_unary : Frames (unary operand) .expr := by
  intro s
  apply Builds.peek
  split
  · next mark hkind =>
    split
    · apply (Spread.refl s).advance hkind nofun
      intro t ht
      apply Builds.bind (hoperand t)
      intro inner u hinner
      apply builds_newNode
      intro id
      exact .pure (ht.closeWith hinner rfl (fun _ => rfl) rfl)
    · exact .expecting _
  · exact .expecting _

end Operands

theorem frames_numeric : Frames numeric .expr := by
  intro s
  apply Builds.peek
  split
  · next hkind =>
    have hmark : s.cursor.peek.kind ≠ .endOfFile := by simp [hkind]
    apply builds_advance
    apply builds_newNode
    exact fun id => .pure (framed_token hmark rfl rfl)
  · exact .expecting _

section Parts

variable {expression : Parser (Expr Node)} (hexpression : Frames expression .expr)
include hexpression

theorem frames_nameOrCall (bound : Nat) : Frames (nameOrCall bound expression) .expr := by
  intro s
  apply Builds.peek
  apply Builds.bind (passes_identifier _ s)
  rintro name t ⟨hmark, rfl⟩
  apply Builds.next
  · intro hopen
    apply ((Spread.refl s).step hmark).advance hopen nofun
    intro u hu
    apply hu.trees (spreads_commaListWithin hexpression .argumentListEnd bound)
    intro args v hv
    exact hv.nodeFrom fun node w hw => .pure (hw _ rfl rfl)
  · intro _
    apply builds_newNode
    exact fun id => .pure (framed_token hmark rfl rfl)

theorem frames_parenthesized : Frames (parenthesized expression) .expr := by
  intro s
  apply Builds.peek
  apply (Spread.refl s).token (passes_punct _ _)
  intro _ t ht
  apply ht.trees hexpression.spreads
  intro inner u hu
  apply hu.token (passes_punct _ _)
  intro _ v hv
  exact hv.nodeFrom fun node w hw => .pure (hw _ rfl rfl)

end Parts

theorem frames_operandWithin (bound : Nat) : Frames (operandWithin bound) .expr := by
  induction bound with
  | zero => exact fun s => .refuse _
  | succ bound ih =>
      have hexpression : Frames (expressionOver bound (operandWithin bound)) .expr :=
        frames_levels ih bound _
      intro s
      have hform : Builds s (operandForm bound s.cursor.peek.kind) fun e t =>
          Framed s (.expr e) t := by
        rw [operandForm.eq_def]
        split
        · exact frames_numeric s
        · exact frames_nameOrCall hexpression bound s
        · exact frames_parenthesized hexpression s
        · split
          · exact frames_unary ih s
          · exact .expecting _
        · exact .expecting _
      exact ⟨fun e t hrun => hform.of_ok e t (operandWithin_eq_ok hrun)⟩

theorem frames_expression : Frames expression .expr :=
  fun s => .budget fun bound => frames_levels (frames_operandWithin bound) bound _ s

theorem frames_wholeExpression : Frames wholeExpression .expr := by
  intro s
  apply Builds.bind (frames_expression s)
  exact fun value t ht => .next (fun _ => .pure ht) fun _ => .expecting _

/-! ## Statements -/

theorem spreads_statementsWithin {statement : Parser (Stmt Node)}
    (hstatement : Frames statement .stmt) (bound : Nat) :
    Spreads 1 (statementsWithin statement bound) fun body => body.map .stmt := by
  induction bound with
  | zero => exact fun s => .refuse _
  | succ bound ih =>
      intro s
      apply Builds.next
      · exact fun hclose => (Spread.refl s).advance hclose nofun fun t ht => .pure ht
      · intro _
        apply Builds.next (fun _ => .expecting _)
        intro _
        apply Builds.bind (hstatement s)
        intro first t ht
        exact ht.spread.trees ih fun rest u hu => .pure (hu.weaken (Nat.le_add_left _ _))

theorem spreads_blockOver {statement : Parser (Stmt Node)} (hstatement : Frames statement .stmt) :
    Spreads 1 (blockOver statement) fun body => body.map .stmt := by
  intro s
  apply (Spread.refl s).token (passes_punct _ _)
  intro _ t ht
  apply Builds.budget
  intro bound
  apply (spreads_statementsWithin hstatement bound t).imp
  exact fun body u hu => (ht.trans hu).weaken (Nat.le_add_left _ _)

theorem spreads_condition (context : String) :
    Spreads 1 (condition context) fun e => [.expr e] := by
  intro s
  apply (Spread.refl s).token (passes_punct _ _)
  intro _ t ht
  apply ht.trees frames_expression.spreads
  intro guard u hu
  apply hu.token (passes_punct _ _)
  exact fun _ v hv => .pure (hv.weaken (Nat.le_add_left _ _))

theorem frames_returnStatement : Frames returnStatement .stmt := by
  have hvalue : Spreads 0 returnValue fun value => value.toList.map .expr := by
    intro s
    apply Builds.next
    · exact fun _ => .pure (.refl s)
    · intro _
      apply Builds.bind (frames_expression s)
      exact fun value t ht => .pure (ht.spread.weaken (Nat.zero_le _))
  intro s
  apply Builds.peek
  apply (Spread.refl s).token (passes_keyword _ _)
  intro _ t ht
  apply ht.trees hvalue
  intro value u hu
  apply hu.token (passes_punct _ _)
  intro _ v hv
  exact hv.nodeFrom fun node w hw => .pure (hw _ rfl rfl)

theorem frames_declaration (kind : DeclKind) : Frames (declaration kind) .stmt := by
  intro s
  apply Builds.peek
  apply (Spread.refl s).token (passes_keyword _ _)
  intro _ t ht
  apply ht.token (passes_identifier _)
  intro name u hu
  apply hu.token (passes_punct _ _)
  intro _ v hv
  apply hv.skip spreads_valueType
  intro type w hw
  refine .next (fun hequal => ?_) fun _ => .expecting _
  apply hw.advance hequal nofun
  intro x hx
  apply hx.trees frames_expression.spreads
  intro initial y hy
  apply hy.token (passes_punct _ _)
  intro _ z hz
  exact hz.nodeFrom fun node last hlast => .pure (hlast _ rfl rfl)

theorem frames_expressionStatement : Frames expressionStatement .stmt := by
  intro s
  apply Builds.peek
  apply Builds.bind (frames_expression s)
  intro value t ht
  apply ht.spread.token (passes_punct _ _)
  intro _ u hu
  exact hu.nodeFrom fun node v hv => .pure (hv _ rfl rfl)

section Blocks

variable {block : Parser (List (Stmt Node))}
  (hblock : Spreads 1 block fun body => body.map .stmt)
include hblock

theorem frames_arm (word : Keyword) : Frames (arm block word) .arm := by
  intro s
  apply Builds.peek
  apply (Spread.refl s).token (passes_keyword _ _)
  intro _ t ht
  apply ht.trees (spreads_condition _)
  intro guard u hu
  apply hu.trees hblock
  intro body v hv
  exact hv.spanFrom fun span hframed => .pure (hframed _ rfl rfl)

theorem spreads_elifArmsWithin (bound : Nat) :
    Spreads 0 (elifArmsWithin block bound) fun arms => arms.map .arm := by
  induction bound with
  | zero => exact fun s => .refuse _
  | succ bound ih =>
      intro s
      apply Builds.next
      · intro _
        apply Builds.bind (frames_arm hblock .elif s)
        intro first t ht
        exact ht.spread.trees ih fun rest u hu => .pure (hu.weaken (Nat.zero_le _))
      · exact fun _ => .pure (.refl s)

theorem spreads_elseBody :
    Spreads 0 (elseBody block) fun otherwise => (otherwise.getD []).map .stmt := by
  intro s
  apply Builds.next
  · intro helse
    apply (Spread.refl s).advance helse nofun
    intro t ht
    exact ht.trees hblock fun body u hu => .pure (hu.weaken (Nat.zero_le _))
  · exact fun _ => .pure (.refl s)

theorem frames_conditional : Frames (conditional block) .stmt := by
  intro s
  apply Builds.peek
  apply Builds.bind (frames_arm hblock .if_ s)
  intro first t ht
  apply Builds.budget
  intro bound
  apply ht.spread.trees (spreads_elifArmsWithin hblock bound)
  intro arms u hu
  apply hu.trees (spreads_elseBody hblock)
  intro otherwise v hv
  exact hv.nodeFrom fun node w hw => .pure (hw _ rfl rfl)

theorem frames_loop : Frames (loop block) .stmt := by
  intro s
  apply Builds.peek
  apply (Spread.refl s).token (passes_keyword _ _)
  intro _ t ht
  apply ht.trees (spreads_condition _)
  intro guard u hu
  apply hu.trees hblock
  intro body v hv
  exact hv.nodeFrom fun node w hw => .pure (hw _ rfl rfl)

theorem frames_statementOver : Frames (statementOver block) .stmt := by
  intro s
  apply Builds.peek
  split
  · exact frames_conditional hblock s
  · exact frames_loop hblock s
  · exact frames_returnStatement s
  · exact frames_declaration .var s
  · exact frames_declaration .const s
  · exact frames_expressionStatement s

end Blocks

theorem frames_statementWithin (bound : Nat) : Frames (statementWithin bound) .stmt := by
  induction bound with
  | zero => exact fun s => .refuse _
  | succ bound ih => exact frames_statementOver (spreads_blockOver ih)

theorem spreads_block : Spreads 1 block fun body => body.map .stmt :=
  fun s => .budget fun bound => spreads_blockOver (frames_statementWithin bound) s

/-! ## Programs -/

theorem frames_parameter : Frames parameter .parameter := by
  intro s
  apply Builds.peek
  apply (Spread.refl s).token (passes_identifier _)
  intro name t ht
  apply ht.token (passes_punct _ _)
  intro _ u hu
  apply hu.skip spreads_valueType
  intro type v hv
  exact hv.spanFrom fun span hframed => .pure (hframed _ rfl rfl)

theorem spreads_signature : Spreads 1 signature fun g => g.parameters.map .parameter := by
  intro s
  apply (Spread.refl s).token (passes_identifier _)
  intro name t ht
  apply ht.token (passes_punct _ _)
  intro _ u hu
  have hlist : Spreads 1 (commaList parameter .parameterListEnd) fun ps => ps.map .parameter :=
    fun v => .budget fun bound => spreads_commaListWithin frames_parameter _ bound v
  apply hu.trees hlist
  intro parameters v hv
  apply hv.token (passes_punct _ _)
  intro _ w hw
  exact hw.skip spreads_resultType fun result x hx => .pure (hx.weaken (Nat.le_add_left _ _))

theorem spreads_importPath : Spreads 1 importPath fun _ => [] := by
  intro s
  apply (Spread.refl s).token (passes_keyword _ _)
  intro _ t ht
  apply ht.token (passes_punct _ _)
  intro _ u hu
  apply hu.token (passes_identifier _)
  intro nameSpace v hv
  apply hv.token (passes_punct _ _)
  intro _ w hw
  apply hw.token (passes_identifier _)
  intro specifier x hx
  apply hx.token (passes_punct _ _)
  exact fun _ y hy => .pure (hy.weaken (Nat.le_add_left _ _))

/-- A definition that started at `o`, with its keywords already passed. -/
theorem builds_funcDef_framed {count : Nat} {o s : ParseState} (h : Spread count o [] s) :
    Builds s (funcDef o.cursor.peek) fun d t => ∀ r : Region,
      r.children = d.signature.parameters.map .parameter ++ d.body.map .stmt →
      r.span = d.node.span → Framed o r t := by
  apply h.trees spreads_signature
  intro header t ht
  apply ht.trees spreads_block
  intro body u hu
  exact hu.nodeFrom fun node v hv => .pure hv

theorem builds_funcImport_framed {count : Nat} {o s : ParseState} (h : Spread count o [] s) :
    Builds s (funcImport o.cursor.peek) fun i t => Framed o (.func (.imported i)) t := by
  apply h.skip spreads_importPath
  intro path t ht
  apply ht.trees spreads_signature
  intro header u hu
  apply hu.token (passes_punct _ _)
  intro _ v hv
  exact hv.nodeFrom fun node w hw => .pure (hw _ rfl rfl)

theorem frames_function : Frames function .func := by
  intro s
  apply Builds.peek
  apply (Spread.refl s).token (passes_keyword _ _)
  intro _ t ht
  apply Builds.peek
  split
  · apply Builds.bind (builds_funcImport_framed ht)
    exact fun i u hu => .pure hu
  · next hexport =>
    apply ht.advance hexport nofun
    intro u hu
    apply Builds.bind (builds_funcDef_framed hu)
    exact fun d v hv => .pure (hv _ rfl rfl)
  · apply Builds.bind (builds_funcDef_framed ht)
    exact fun d u hu => .pure (hu _ rfl rfl)

theorem frames_memory : Frames memory .memory := by
  have hkind : Spreads 0 memoryKind fun _ => [] := by
    intro s
    apply Builds.peek
    split
    · next hexport =>
      exact (Spread.refl s).advance hexport nofun fun t ht => .pure (ht.weaken (Nat.zero_le _))
    · exact (Spread.refl s).skip spreads_importPath fun path t ht =>
        .pure (ht.weaken (Nat.zero_le _))
    · exact .pure (.refl s)
  have hsize : Spreads 1 memorySize fun _ => [] := by
    intro s
    apply Builds.peek
    split
    · next size hsize =>
      obtain ⟨digits, hkind, -⟩ := sizeOf?_eq_some hsize
      exact (Spread.refl s).advance hkind nofun fun t ht => .pure ht
    · exact .expecting _
  intro s
  apply Builds.peek
  apply (Spread.refl s).token (passes_keyword _ _)
  intro _ t ht
  apply ht.skip hkind
  intro kind u hu
  apply hu.token (passes_identifier _)
  intro name v hv
  apply hv.token (passes_punct _ _)
  intro _ w hw
  apply hw.skip hsize
  intro size x hx
  apply hx.token (passes_punct _ _)
  intro _ y hy
  apply hy.token (passes_punct _ _)
  intro _ z hz
  exact hz.nodeFrom fun node last hlast => .pure (hlast _ rfl rfl)

theorem builds_declarationsWithin_spread (bound : Nat) (order : List Declaration)
    {o s : ParseState} {done : Program Node} (horder : done.Order order)
    (h : Spread 0 o (order.map Declaration.region) s) :
    Builds s (declarationsWithin bound done) fun p t =>
      ∃ order, p.Order order ∧ Spread 0 o (order.map Declaration.region) t := by
  induction bound generalizing order s done with
  | zero => exact .refuse _
  | succ bound ih =>
      apply Builds.peek
      split
      · exact .pure ⟨order, horder, h⟩
      · apply h.trees frames_function.spreads
        intro f t ht
        apply ih (order ++ [.inl f])
        · exact ⟨by simp [horder.funcs], by simp [horder.memories]⟩
        · rw [List.map_append]
          exact ht.weaken (Nat.zero_le _)
      · split
        · apply h.trees frames_memory.spreads
          intro m t ht
          apply ih (order ++ [.inr m])
          · exact ⟨by simp [horder.funcs], by simp [horder.memories]⟩
          · rw [List.map_append]
            exact ht.weaken (Nat.zero_le _)
        · exact .refuse _
      · exact .expecting _

end Parser

/-- The declarations of a program are read from stretches of the tokens, one behind the other. -/
theorem parseProgram_laid {tokens : List Token} {p : Program Node}
    (hend : .endOfFile ∈ tokens.map Token.kind) (h : parseProgram tokens = .ok p) :
    ∃ order read, p.Order order ∧ read <+: tokens ∧ (∀ t ∈ read, t.kind ≠ .endOfFile) ∧
      LaidAll read (order.map Declaration.region) := by
  simp only [parseProgram, Parser.run] at h
  cases hrun : Parser.program ⟨.start tokens, 0⟩ with
  | error e t => simp [hrun, Except.map] at h
  | ok q t =>
      rw [hrun] at h
      obtain rfl := Except.ok.inj h
      have hprogram : Parser.Builds ⟨.start tokens, 0⟩ Parser.program _ :=
        .budget fun bound =>
          Parser.builds_declarationsWithin_spread bound [] ⟨rfl, rfl⟩ (.refl ⟨.start tokens, 0⟩)
      obtain ⟨order, horder, hspread⟩ := hprogram.of_ok q t hrun
      obtain ⟨read, hpassed, -, hlaid⟩ := hspread hend
      exact ⟨order, read, horder, ⟨_, hpassed.rest.symm⟩, hpassed.marks, hlaid⟩

end Wattle
