import Mathlib.Order.Defs.PartialOrder
import Wattle.Proofs.LexicalStructure
import Wattle.Proofs.LongLines
import Wattle.Proofs.TokenSpans

/-!
# Spans lie in each other

A span that a reading function makes covers the tokens that the function passes, and no others. The
tokens of a text follow each other, so what was read from a part of them lies inside what was read
from all of them, and what was read one behind the other stands so in the text.
-/

namespace Wattle

/-! ## Places in a list of tokens -/

/-- The cursor is somewhere in the list of tokens, and has not passed an end mark. -/
structure Cursor.In (c : Cursor) (tokens : List Token) : Prop where
  tokens : c.tokens = tokens
  marks : ∀ token ∈ c.consumed, token.kind ≠ .endOfFile

namespace Parser

variable {α : Type}

/-- Where `p` succeeds in a list of tokens with an end mark, the span of its result starts where the
first token that was passed starts, and stops where the last one stops. -/
def SpansTokens (p : Parser α) (span : α → Span) : Prop :=
  ∀ (tokens : List Token) (s t : ParseState) (a : α), .endOfFile ∈ tokens.map Token.kind →
    s.cursor.In tokens → p s = .ok a t →
    t.cursor.In tokens ∧ s.cursor.position < t.cursor.position ∧
      ∃ first last, tokens[s.cursor.position]? = some first ∧
        tokens[t.cursor.position - 1]? = some last ∧
        span a = ⟨first.span.start, last.span.stop⟩

/-- Tokens that were passed stand in the list between the two places. -/
theorem Passed.getElem? {o c : Cursor} {read : List Token} (h : Passed o read c) {i : Nat}
    (hi : i < read.length) : o.tokens[o.position + i]? = read[i]? := by
  rw [Cursor.tokens, Cursor.position, h.rest, ← List.length_reverse,
    List.getElem?_append_right (Nat.le_add_right _ _), Nat.add_sub_cancel_left,
    List.getElem?_append_left hi]

theorem Passed.position_eq {o c : Cursor} {read : List Token} (h : Passed o read c) :
    c.position = o.position + read.length := by
  rw [Cursor.position, h.consumed, List.length_append, List.length_reverse, Nat.add_comm]
  rfl

theorem Passed.tokens_eq {o c : Cursor} {read : List Token} (h : Passed o read c) :
    c.tokens = o.tokens := by
  simp [Cursor.tokens, h.rest, h.consumed]

theorem Frames.spansTokens {p : Parser α} {r : α → Region} (h : Frames p r) :
    SpansTokens p fun a => (r a).span := by
  intro tokens s t a hend hs hrun
  have hahead : .endOfFile ∈ s.kinds := by
    rw [← hs.tokens, Cursor.tokens, List.map_append, List.mem_append] at hend
    apply hend.resolve_left
    intro hmem
    obtain ⟨token, htoken, hkind⟩ := List.mem_map.mp hmem
    exact hs.marks token (List.mem_reverse.mp htoken) hkind
  obtain ⟨read, hpassed, ⟨first, last, hfirst, hlast, hspan⟩, -⟩ := (h s).of_ok a t hrun hahead
  have hpos : 0 < read.length := List.length_pos_of_mem (List.mem_of_head? hfirst)
  have hposition := hpassed.position_eq
  refine ⟨⟨hpassed.tokens_eq.trans hs.tokens, ?_⟩, by omega, first, last, ?_, ?_, hspan⟩
  · rw [hpassed.consumed, List.forall_mem_append]
    exact ⟨fun token htoken => hpassed.marks token (List.mem_reverse.mp htoken), hs.marks⟩
  · rw [← hs.tokens, ← Nat.add_zero s.cursor.position, hpassed.getElem? hpos, ← hfirst,
      List.head?_eq_getElem?]
  · have hback : t.cursor.position - 1 = s.cursor.position + (read.length - 1) := by omega
    rw [← hs.tokens, hback, hpassed.getElem? (by omega), ← hlast, List.getLast?_eq_getElem?]

/-! ## Reading functions -/

/-- The functions that read an expression: the forms of an operand, operands with conversions, and
chains of operators. -/
inductive ReadsExpression : Parser (Expr Node) → Prop where
  | numeric : ReadsExpression numeric
  | nameOrCall (bound : Nat) {p : Parser (Expr Node)} (h : ReadsExpression p) :
      ReadsExpression (nameOrCall bound p)
  | parenthesized {p : Parser (Expr Node)} (h : ReadsExpression p) :
      ReadsExpression (parenthesized p)
  | unary {p : Parser (Expr Node)} (h : ReadsExpression p) : ReadsExpression (unary p)
  | operandWithin (bound : Nat) : ReadsExpression (operandWithin bound)
  | casts (bound : Nat) {p : Parser (Expr Node)} (h : ReadsExpression p) :
      ReadsExpression (casts bound p)
  | chain (bound : Nat) (level : List BinaryOp) {p : Parser (Expr Node)}
      (h : ReadsExpression p) : ReadsExpression (chain bound level p)
  | expression : ReadsExpression expression
  | wholeExpression : ReadsExpression wholeExpression

mutual

/-- The functions that read a statement. -/
inductive ReadsStatement : Parser (Stmt Node) → Prop where
  | conditional {block : Parser (List (Stmt Node))} (h : ReadsBlock block) :
      ReadsStatement (conditional block)
  | loop {block : Parser (List (Stmt Node))} (h : ReadsBlock block) : ReadsStatement (loop block)
  | returnStatement : ReadsStatement returnStatement
  | declaration (kind : DeclKind) : ReadsStatement (declaration kind)
  | expressionStatement : ReadsStatement expressionStatement
  | statementOver {block : Parser (List (Stmt Node))} (h : ReadsBlock block) :
      ReadsStatement (statementOver block)
  | statementWithin (bound : Nat) : ReadsStatement (statementWithin bound)
  | statement : ReadsStatement statement

/-- The functions that read statements in braces. -/
inductive ReadsBlock : Parser (List (Stmt Node)) → Prop where
  | blockOver {p : Parser (Stmt Node)} (h : ReadsStatement p) : ReadsBlock (blockOver p)
  | block : ReadsBlock block

end

theorem ReadsExpression.frames {p : Parser (Expr Node)} (h : ReadsExpression p) :
    Frames p .expr := by
  induction h with
  | numeric => exact frames_numeric
  | nameOrCall bound _ ih => exact frames_nameOrCall ih bound
  | parenthesized _ ih => exact frames_parenthesized ih
  | unary _ ih => exact frames_unary ih
  | operandWithin bound => exact frames_operandWithin bound
  | casts bound _ ih => exact frames_casts ih bound
  | chain bound level _ ih => exact frames_chain ih bound level
  | expression => exact frames_expression
  | wholeExpression => exact frames_wholeExpression

mutual

theorem ReadsStatement.frames : {p : Parser (Stmt Node)} → ReadsStatement p → Frames p .stmt
  | _, .conditional h => frames_conditional h.spreads
  | _, .loop h => frames_loop h.spreads
  | _, .returnStatement => frames_returnStatement
  | _, .declaration kind => frames_declaration kind
  | _, .expressionStatement => frames_expressionStatement
  | _, .statementOver h => frames_statementOver h.spreads
  | _, .statementWithin bound => frames_statementWithin bound
  | _, .statement => fun s => .budget fun bound => frames_statementWithin bound s

theorem ReadsBlock.spreads : {p : Parser (List (Stmt Node))} → ReadsBlock p →
    Spreads 1 p fun body => body.map .stmt
  | _, .blockOver h => spreads_blockOver h.frames
  | _, .block => spreads_block

end

end Parser

/-! ## Tokens in order -/

instance : Preorder Location where
  le_refl l := Location.le_iff.mpr (.inr ⟨rfl, Nat.le_refl _⟩)
  le_trans l m n h h' := by
    rw [Location.le_iff] at *
    omega
  lt_iff_le_not_ge l m := by
    rw [Location.le_iff, Location.le_iff, Location.lt_iff]
    omega

/-- The tokens have characters, and stand one behind the other. -/
structure InOrder (read : List Token) : Prop where
  nonempty : ∀ t ∈ read, t.span.start < t.span.stop
  ordered : read.Pairwise fun t u => t.span.stop ≤ u.span.start

namespace InOrder

variable {read part others : List Token}

theorem of_infix (h : InOrder read) (hpart : part <:+: read) : InOrder part :=
  ⟨fun t ht => h.nonempty t (hpart.subset ht), h.ordered.sublist hpart.sublist⟩

theorem start_le (h : InOrder read) {first t : Token} (hfirst : read.head? = some first)
    (ht : t ∈ read) : first.span.start ≤ t.span.start := by
  cases read with
  | nil => cases hfirst
  | cons u read =>
      obtain rfl := Option.some.inj hfirst
      rcases List.mem_cons.mp ht with rfl | ht
      · exact le_refl _
      · have hbefore := (List.pairwise_cons.mp h.ordered).1 t ht
        exact le_trans (le_of_lt (h.nonempty _ List.mem_cons_self)) hbefore

theorem le_stop (h : InOrder read) {last t : Token} (hlast : read.getLast? = some last)
    (ht : t ∈ read) : t.span.stop ≤ last.span.stop := by
  obtain ⟨before, rfl⟩ := List.getLast?_eq_some_iff.mp hlast
  rcases List.mem_append.mp ht with ht | ht
  · have hlater := (List.pairwise_append.mp h.ordered).2.2 t ht last List.mem_cons_self
    have hproper := h.nonempty last (List.mem_append_right _ List.mem_cons_self)
    exact le_trans hlater (le_of_lt hproper)
  · obtain rfl := List.mem_singleton.mp ht
    exact le_refl _

end InOrder

/-- Without its end mark, a text has its tokens in order, if its places can be counted. -/
theorem tokenize_inOrder {source : String} {tokens read : List Token}
    (haddress : Addressable (lines source.toList)) (h : tokenize source = .ok tokens)
    (hread : read <+: tokens) (hmarks : ∀ t ∈ read, t.kind ≠ .endOfFile) : InOrder read := by
  obtain ⟨body, hbody, rfl⟩ := tokenize_eq_ok.mp h
  obtain ⟨-, stands, ordered, -⟩ := Lexer.lexLines_tokenizes haddress hbody
  constructor
  · intro t ht
    exact (stands t (hread.subset ht) (hmarks t ht)).start_lt_stop haddress
  · exact (ordered.sublist hread.sublist).imp And.right

/-! ## Regions in order -/

namespace Span

/-- The span lies inside the other. -/
def Within (inner outer : Span) : Prop :=
  outer.start ≤ inner.start ∧ inner.stop ≤ outer.stop

/-- The span ends before the other begins. -/
def Before (left right : Span) : Prop :=
  left.stop ≤ right.start

end Span

namespace Span.Covers

variable {span inner : Span} {read part others : List Token}

theorem proper (h : span.Covers read) (hread : InOrder read) : span.start < span.stop := by
  obtain ⟨first, last, hfirst, hlast, rfl⟩ := h
  have hmem := List.mem_of_head? hfirst
  exact lt_of_lt_of_le (hread.nonempty first hmem) (hread.le_stop hlast hmem)

theorem within (h : span.Covers read) (hinner : inner.Covers part) (hpart : part <:+: read)
    (hread : InOrder read) : inner.Within span := by
  obtain ⟨first, last, hfirst, hlast, rfl⟩ := h
  obtain ⟨first', last', hfirst', hlast', rfl⟩ := hinner
  exact ⟨hread.start_le hfirst (hpart.subset (List.mem_of_head? hfirst')),
    hread.le_stop hlast (hpart.subset (List.mem_of_getLast? hlast'))⟩

theorem before (h : span.Covers read) (hinner : inner.Covers part) (hpart : part <:+: others)
    (hread : InOrder (read ++ others)) : span.Before inner := by
  obtain ⟨first, last, hfirst, hlast, rfl⟩ := h
  obtain ⟨first', last', hfirst', hlast', rfl⟩ := hinner
  exact (List.pairwise_append.mp hread.ordered).2.2 last (List.mem_of_getLast? hlast) first'
    (hpart.subset (List.mem_of_head? hfirst'))

end Span.Covers

namespace LaidAll

theorem exists_laid {r : Region} : {read : List Token} → {rs : List Region} → LaidAll read rs →
    r ∈ rs → ∃ part, part <:+: read ∧ Laid part r
  | _, _, .gap token behind, hr => by
      obtain ⟨part, hpart, hlaid⟩ := exists_laid behind hr
      exact ⟨part, hpart.trans (List.suffix_cons _ _).isInfix, hlaid⟩
  | _, _, .cons first behind, hr => by
      rcases List.mem_cons.mp hr with rfl | hr
      · exact ⟨_, (List.prefix_append _ _).isInfix, first⟩
      · obtain ⟨part, hpart, hlaid⟩ := exists_laid behind hr
        exact ⟨part, hpart.trans (List.suffix_append _ _).isInfix, hlaid⟩

theorem pairwise : {read : List Token} → {rs : List Region} → LaidAll read rs → InOrder read →
    rs.Pairwise fun a b => a.span.Before b.span
  | _, _, .nil _, _ => .nil
  | _, _, .gap _ behind, hread => pairwise behind (hread.of_infix (List.suffix_cons _ _).isInfix)
  | _, _, .cons first behind, hread => by
      have hbehind := pairwise behind (hread.of_infix (List.suffix_append _ _).isInfix)
      refine List.pairwise_cons.mpr ⟨fun b hb => ?_, hbehind⟩
      obtain ⟨part, hpart, hlaid⟩ := exists_laid behind hb
      exact first.covers.before hlaid.covers hpart hread

end LaidAll

namespace Region

/-- `Below root r`: the region `r` is `root` itself or stands inside it. -/
inductive Below (root : Region) : Region → Prop where
  | refl : Below root root
  | child {middle r : Region} (h : Below root middle) (hr : r ∈ middle.children) : Below root r

/-- The span of the region is proper, what is directly inside lies within it, and these are
disjoint and in order. -/
structure Nests (r : Region) : Prop where
  proper : r.span.start < r.span.stop
  within : ∀ child ∈ r.children, child.span.Within r.span
  disjoint : r.children.Pairwise fun a b => a.span.Before b.span

end Region

theorem Laid.exists_below {read : List Token} {root r : Region} (h : Laid read root)
    (hr : root.Below r) : ∃ part, part <:+: read ∧ Laid part r := by
  induction hr with
  | refl => exact ⟨read, List.infix_refl _, h⟩
  | child _ hchild ih =>
      obtain ⟨part, hpart, ⟨-, inside⟩⟩ := ih
      obtain ⟨inner, hinner, hlaid⟩ := inside.exists_laid hchild
      exact ⟨inner, hinner.trans hpart, hlaid⟩

theorem Laid.nests {read : List Token} {r : Region} (h : Laid read r) (hread : InOrder read) :
    r.Nests := by
  obtain ⟨covers, inside⟩ := h
  refine ⟨covers.proper hread, fun child hchild => ?_, inside.pairwise hread⟩
  obtain ⟨part, hpart, hlaid⟩ := inside.exists_laid hchild
  exact covers.within hlaid.covers hpart hread

open Wattle.Parser

/-- In a list of tokens with an end mark, whatever reads an expression, a statement, an arm, a
parameter, a function or a memory gives it the span from the first token that it passes through the
last. So in a source that can be read and whose places can be counted, the declarations stand one
behind the other, and all that is inside something lies within its span, disjoint and in order. -/
theorem spans_cover_tokens_and_nest :
    (∀ p, ReadsExpression p → SpansTokens p Expr.span) ∧
    (∀ p, ReadsStatement p → SpansTokens p fun s => s.node.span) ∧
    (∀ block word, ReadsBlock block → SpansTokens (arm block word) Arm.span) ∧
    SpansTokens parameter Parameter.span ∧
    SpansTokens function (fun f => f.node.span) ∧
    SpansTokens memory (fun m => m.node.span) ∧
    ∀ source tokens p, Addressable (lines source.toList) → tokenize source = .ok tokens →
      parseProgram tokens = .ok p →
      ∃ order, p.Order order ∧
        (order.map Declaration.region).Pairwise (fun a b => a.span.Before b.span) ∧
        ∀ d ∈ order, ∀ r, d.region.Below r → r.Nests := by
  refine ⟨fun p h => h.frames.spansTokens, fun p h => h.frames.spansTokens,
    fun block word h => (frames_arm h.spreads word).spansTokens, frames_parameter.spansTokens,
    frames_function.spansTokens, frames_memory.spansTokens, ?_⟩
  intro source tokens p haddress htokens hp
  obtain ⟨order, read, horder, hprefix, hmarks, hlaid⟩ :=
    parseProgram_laid (endOfFile_mem_of_tokenize htokens) hp
  have hread := tokenize_inOrder haddress htokens hprefix hmarks
  refine ⟨order, horder, hlaid.pairwise hread, fun d hd r hr => ?_⟩
  obtain ⟨part, hpart, hdeclared⟩ := hlaid.exists_laid (List.mem_map_of_mem hd)
  obtain ⟨inner, hinner, hlaid'⟩ := hdeclared.exists_below hr
  exact hlaid'.nests (hread.of_infix (hinner.trans hpart))

/-- A function with a conditional. Its span covers the whole text, from `func` to the brace, and all
that is inside it lies within and in order. -/
theorem spans_of_nested_statements :
    let source := "func f(x: i32): i32 \x7b if (x) \x7b return -x; \x7d return x + 1; \x7d"
    ∃ tokens f t p g, tokenize source = .ok tokens ∧ function ⟨.start tokens, 0⟩ = .ok f t ∧
      (∃ first last, tokens[0]? = some first ∧ tokens[t.cursor.position - 1]? = some last ∧
        f.node.span = ⟨first.span.start, last.span.stop⟩) ∧
      parseProgram tokens = .ok p ∧ p.funcs = [g] ∧ g.node.span = ⟨⟨1, 1⟩, ⟨1, 60⟩⟩ ∧
      f.node.span = g.node.span ∧
      ∀ r, (Declaration.region (.inl g)).Below r → r.Nests := by
  intro source
  have hrun : (tokenize source).map (fun tokens =>
      (match function ⟨.start tokens, 0⟩ with
        | .ok f _ => some f.node.span
        | .error _ _ => none,
      match parseProgram tokens with
        | .ok p => p.funcs.map fun g => g.node.span
        | .error _ => [])) = .ok (some ⟨⟨1, 1⟩, ⟨1, 60⟩⟩, [⟨⟨1, 1⟩, ⟨1, 60⟩⟩]) := by
    decide +kernel
  obtain ⟨tokens, htokens, hfacts⟩ := except_map_eq_ok.mp hrun
  obtain ⟨hfunc, hparse⟩ := Prod.mk.inj hfacts
  split at hfunc
  · next f t hf =>
    split at hparse
    · next p hp =>
      obtain ⟨g, hfuncs, hspan⟩ := List.map_eq_singleton_iff.mp hparse
      obtain ⟨-, -, -, -, hspans, -, hnests⟩ := spans_cover_tokens_and_nest
      obtain ⟨order, horder, -, hall⟩ :=
        hnests source tokens p (addressable_of_length (by decide +kernel)) htokens hp
      obtain ⟨-, -, hcovers⟩ := hspans tokens _ t f (endOfFile_mem_of_tokenize htokens)
        ⟨rfl, List.forall_mem_nil _⟩ hf
      have hmem : .inl g ∈ order :=
        horder.func_mem (hfuncs ▸ List.mem_singleton_self g)
      exact ⟨tokens, f, t, p, g, htokens, hf, hcovers, hp, hfuncs, hspan,
        (Option.some.inj hfunc).trans hspan.symm, hall _ hmem⟩
    · cases hparse
  · cases hfunc

/-- In a line that is too long the second of two statements has the place of the first. -/
theorem statements_of_long_line_overlap :
    let source := longLine "func f(): void \x7b return;".toList "return; \x7d".toList 17
    let span : Span := ⟨⟨1, 18⟩, ⟨1, 25⟩⟩
    ∃ tokens p g, tokenize source = .ok tokens ∧ parseProgram tokens = .ok p ∧ p.funcs = [g] ∧
      (Declaration.region (.inl g)).children.map Region.span = [span, span] ∧
      ¬ span.Before span ∧ ¬ (Declaration.region (.inl g)).Nests := by
  intro source span
  have hrun : (tokenize source).map (fun tokens =>
      match parseProgram tokens with
      | .ok p => p.funcs.map fun g => (Declaration.region (.inl g)).children.map Region.span
      | .error _ => []) = .ok [[span, span]] := by
    rw [tokenize_longLine (by decide +kernel) (by simp)]
    decide +kernel
  obtain ⟨tokens, htokens, hparse⟩ := except_map_eq_ok.mp hrun
  have hbefore : ¬ span.Before span := by
    rw [Span.Before, Location.le_iff]
    decide
  split at hparse
  · next p hp =>
    obtain ⟨g, hfuncs, hspans⟩ := List.map_eq_singleton_iff.mp hparse
    refine ⟨tokens, p, g, htokens, hp, hfuncs, hspans, hbefore, fun hnests => hbefore ?_⟩
    have hpairs := List.pairwise_map.mpr hnests.disjoint
    rw [hspans] at hpairs
    exact List.rel_of_pairwise_cons hpairs List.mem_cons_self
  · cases hparse

end Wattle
