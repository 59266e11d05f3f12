import Wattle.Parse.Program
import Wattle.Proofs.Success
import Wattle.Proofs.Unplaced

/-!
# Reading does not depend on places

Two lists of tokens of the same kinds are read alike, wherever the tokens stand, as long as no two
tokens of a list stand at the same place. A parser looks at places only to tell whether an attempt
failed at the token it started with; where places are distinct, this asks whether the attempt read
anything.
-/

namespace Wattle.Parser

variable {α β : Type} {T T' : List Token}

/-- Two lists of tokens of the same kinds, in both of which places are distinct. -/
structure SameKinds (T T' : List Token) : Prop where
  kinds : T.map Token.kind = T'.map Token.kind
  distinct : (T.map Token.span).Nodup
  distinct' : (T'.map Token.span).Nodup

/-- States at the same position of two lists of tokens, with an end mark ahead. -/
structure Twins (T T' : List Token) (s s' : ParseState) : Prop where
  tokens : s.cursor.tokens = T
  tokens' : s'.cursor.tokens = T'
  position : s.cursor.position = s'.cursor.position
  nextId : s.nextId = s'.nextId
  ahead : .endOfFile ∈ s.cursor.rest.map Token.kind

/-- Errors of the same cause at the same position of two lists of tokens. -/
structure SameFault (T T' : List Token) (e e' : ParseError) : Prop where
  cause : e.cause = e'.cause
  found : ∃ index : Nat, T[index]? = some e.found ∧ T'[index]? = some e'.found

/-- From twin states both parsers succeed, with results related by `R` and in twin states, or both
fail at the same position for the same cause. -/
def Alike (T T' : List Token) (R : α → α → Prop) (p p' : Parser α) : Prop :=
  ∀ s s', Twins T T' s s' →
    match p s, p' s' with
    | .ok a t, .ok a' t' => R a a' ∧ Twins T T' t t'
    | .error e t, .error e' t' => SameFault T T' e e' ∧ t.nextId = t'.nextId
    | _, _ => False

/-! ## Twin states -/

theorem SameKinds.kind_eq (h : SameKinds T T') {index : Nat} {t t' : Token}
    (ht : T[index]? = some t) (ht' : T'[index]? = some t') : t.kind = t'.kind := by
  have hkinds := congrArg (fun kinds => kinds[index]?) h.kinds
  simpa [ht, ht'] using hkinds

theorem span_eq_iff {index index' : Nat} {t t' : Token} (hdistinct : (T.map Token.span).Nodup)
    (ht : T[index]? = some t) (ht' : T[index']? = some t') : t.span = t'.span ↔ index = index' := by
  constructor
  · intro hspan
    have hlt : index < (T.map Token.span).length := by
      simpa using (List.getElem?_eq_some_iff.mp ht).1
    apply (List.getElem?_inj hlt hdistinct).mp
    simp [ht, ht', hspan]
  · rintro rfl
    rw [Option.some.inj (ht.symm.trans ht')]

namespace Twins

variable {s s' : ParseState}

/-- Both states show a token, at the same position and of the same kind. -/
theorem next (hkinds : SameKinds T T') (h : Twins T T' s s') :
    ∃ t rest t' rest', s.cursor.rest = t :: rest ∧ s'.cursor.rest = t' :: rest' ∧
      T[s.cursor.position]? = some t ∧ T'[s.cursor.position]? = some t' ∧ t.kind = t'.kind := by
  have hlength := congrArg List.length hkinds.kinds
  have hposition := h.position
  have htokens := h.tokens
  have htokens' := h.tokens'
  simp only [Cursor.position, Cursor.tokens] at hposition htokens htokens' ⊢
  cases hrest : s.cursor.rest with
  | nil => exact absurd h.ahead (by simp [hrest])
  | cons t rest =>
      rw [hrest] at htokens
      cases hrest' : s'.cursor.rest with
      | nil =>
          rw [hrest'] at htokens'
          simp [← htokens, ← htokens'] at hlength
          omega
      | cons t' rest' =>
          rw [hrest'] at htokens'
          have ht : T[s.cursor.consumed.length]? = some t := by simp [← htokens]
          have ht' : T'[s.cursor.consumed.length]? = some t' := by
            rw [hposition]
            simp [← htokens']
          exact ⟨t, rest, t', rest', rfl, rfl, ht, ht', hkinds.kind_eq ht ht'⟩

theorem peek (hkinds : SameKinds T T') (h : Twins T T' s s') :
    T[s.cursor.position]? = some s.cursor.peek ∧ T'[s.cursor.position]? = some s'.cursor.peek ∧
      s.cursor.peek.kind = s'.cursor.peek.kind := by
  obtain ⟨t, rest, t', rest', hrest, hrest', ht, ht', hkind⟩ := h.next hkinds
  have hpeek : s.cursor.peek = t := by simp [Cursor.peek, hrest]
  have hpeek' : s'.cursor.peek = t' := by simp [Cursor.peek, hrest']
  rw [hpeek, hpeek']
  exact ⟨ht, ht', hkind⟩

theorem advance (hkinds : SameKinds T T') (h : Twins T T' s s') :
    Twins T T' { s with cursor := s.cursor.advance } { s' with cursor := s'.cursor.advance } := by
  obtain ⟨t, rest, t', rest', hrest, hrest', -, -, hkind⟩ := h.next hkinds
  refine ⟨by simpa using h.tokens, by simpa using h.tokens', ?_, h.nextId, ?_⟩
  · have hposition := h.position
    simp only [Cursor.advance, hrest, hrest', ← hkind, Cursor.position] at hposition ⊢
    split
    · exact hposition
    · simp [hposition]
  · have hahead := h.ahead
    simp only [Cursor.advance, hrest] at hahead ⊢
    split
    · simpa [hrest] using hahead
    · next hend => simpa [Ne.symm hend] using hahead

theorem setId (h : Twins T T' s s') {n n' : Nat} (hn : n = n') :
    Twins T T' { s with nextId := n } { s' with nextId := n' } :=
  ⟨h.tokens, h.tokens', h.position, hn, h.ahead⟩

theorem length_rest (hkinds : SameKinds T T') (h : Twins T T' s s') :
    s.cursor.rest.length = s'.cursor.rest.length := by
  have hlength := congrArg List.length hkinds.kinds
  have hposition := h.position
  have htokens := congrArg List.length h.tokens
  have htokens' := congrArg List.length h.tokens'
  simp only [Cursor.position, Cursor.tokens, List.length_append, List.length_reverse,
    List.length_map] at hlength hposition htokens htokens'
  omega

end Twins

/-! ## Sequences and single steps -/

namespace Alike

variable {R : α → α → Prop} {S : β → β → Prop} {p p' : Parser α} {f f' : α → Parser β}

theorem pure {a a' : α} (h : R a a') : Alike T T' R (Pure.pure a) (Pure.pure a') :=
  fun _ _ hs => ⟨h, hs⟩

theorem bind (hp : Alike T T' R p p') (hf : ∀ a a', R a a' → Alike T T' S (f a) (f' a')) :
    Alike T T' S (p >>= f) (p' >>= f') := by
  intro s s' hs
  have hfirst := hp s s' hs
  simp only [Bind.bind, EStateM.bind]
  revert hfirst
  cases p s with
  | ok a t =>
      cases p' s' with
      | ok a' t' => exact fun hfirst => hf a a' hfirst.1 t t' hfirst.2
      | error e' t' => exact False.elim
  | error e t =>
      cases p' s' with
      | ok a' t' => exact False.elim
      | error e' t' => exact id

end Alike

section Steps

variable (hkinds : SameKinds T T')
include hkinds

theorem alike_peek : Alike T T' (fun t t' => t.kind = t'.kind) peek peek :=
  fun _ _ hs => ⟨(hs.peek hkinds).2.2, hs⟩

theorem alike_next (kind : TokenKind) : Alike T T' Eq (next kind) (next kind) := by
  refine .bind (alike_peek hkinds) fun t t' ht => .pure ?_
  rw [ht]

theorem alike_advance : Alike T T' Eq advance advance :=
  fun _ _ hs => ⟨rfl, hs.advance hkinds⟩

theorem alike_refuse (R : α → α → Prop) (cause : ParseCause) :
    Alike T T' R (refuse cause) (refuse cause) := by
  intro s s' hs
  obtain ⟨ht, ht', -⟩ := hs.peek hkinds
  exact ⟨⟨rfl, _, ht, ht'⟩, hs.nextId⟩

theorem alike_expecting (R : α → α → Prop) (what : Expectation) :
    Alike T T' R (expecting what) (expecting what) :=
  alike_refuse hkinds R _

/-- A reading function that goes by the kind of the next token reads alike. -/
theorem alike_reading {R : α → α → Prop} {f : Cursor → Except ParseError (α × Cursor)}
    (hf : ∀ c c' : Cursor, c.peek.kind = c'.peek.kind →
      (∃ a a', f c = .ok (a, c.advance) ∧ f c' = .ok (a', c'.advance) ∧ R a a') ∨
      ∃ cause, f c = .error ⟨cause, c.peek⟩ ∧ f c' = .error ⟨cause, c'.peek⟩) :
    Alike T T' R (reading f) (reading f) := by
  intro s s' hs
  obtain ⟨ht, ht', hkind⟩ := hs.peek hkinds
  simp only [reading]
  rcases hf s.cursor s'.cursor hkind with ⟨a, a', ha, ha', hR⟩ | ⟨cause, he, he'⟩
  · rw [ha, ha']
    exact ⟨hR, hs.advance hkinds⟩
  · rw [he, he']
    exact ⟨⟨rfl, _, ht, ht'⟩, hs.nextId⟩

theorem alike_punct (mark : Punct) (context : String) :
    Alike T T' Eq (punct mark context) (punct mark context) := by
  refine .bind (R := fun _ _ => True) (alike_reading hkinds ?_) fun _ _ _ => .pure rfl
  intro c c' hkind
  simp only [Cursor.expectPunct, ← hkind]
  split
  · exact .inl ⟨_, _, rfl, rfl, trivial⟩
  · exact .inr ⟨_, rfl, rfl⟩

theorem alike_keyword (word : Keyword) (context : String) :
    Alike T T' Eq (keyword word context) (keyword word context) := by
  refine .bind (R := fun _ _ => True) (alike_reading hkinds ?_) fun _ _ _ => .pure rfl
  intro c c' hkind
  simp only [Cursor.expectKeyword, ← hkind]
  split
  · exact .inl ⟨_, _, rfl, rfl, trivial⟩
  · exact .inr ⟨_, rfl, rfl⟩

theorem alike_identifier (context : String) :
    Alike T T' Eq (identifier context) (identifier context) := by
  apply alike_reading hkinds
  intro c c' hkind
  simp only [Cursor.expectIdentifier, ← hkind]
  split
  · exact .inl ⟨_, _, rfl, rfl, rfl⟩
  · exact .inr ⟨_, rfl, rfl⟩

theorem alike_budget : Alike T T' Eq budget budget := by
  intro s s' hs
  exact ⟨congrArg (· + 1) (hs.length_rest hkinds), hs⟩

/-- An attempt that fails is given up for another one on both sides or on neither, because the
token it failed at is the first one on both sides or on neither. -/
theorem alike_orElseHere {R : α → α → Prop} {p p' q q' : Parser α} (hp : Alike T T' R p p')
    (hq : Alike T T' R q q') : Alike T T' R (orElseHere p q) (orElseHere p' q') := by
  intro s s' hs
  obtain ⟨ht, ht', -⟩ := hs.peek hkinds
  have hfirst := hp s s' hs
  simp only [orElseHere]
  revert hfirst
  cases p s with
  | ok a t =>
      cases p' s' with
      | ok a' t' => exact id
      | error e' t' => exact False.elim
  | error e t =>
      cases p' s' with
      | ok a' t' => exact False.elim
      | error e' t' =>
          rintro ⟨⟨hcause, index, hfound, hfound'⟩, hid⟩
          have hspan := span_eq_iff hkinds.distinct hfound ht
          have hspan' := span_eq_iff hkinds.distinct' hfound' ht'
          dsimp only
          by_cases hhere : index = s.cursor.position
          · rw [if_pos (hspan.mpr hhere), if_pos (hspan'.mpr hhere)]
            exact hq _ _ (hs.setId hid)
          · rw [if_neg (mt hspan.mp hhere), if_neg (mt hspan'.mp hhere)]
            exact ⟨⟨hcause, index, hfound, hfound'⟩, hid⟩

end Steps

theorem alike_get : Alike T T' (fun _ _ => True) (get : Parser ParseState) get :=
  fun _ _ hs => ⟨trivial, hs⟩

theorem alike_newNode (span span' : Span) :
    Alike T T' (fun n n' => n.unplaced = n'.unplaced) (newNode span) (newNode span') := by
  intro s s' hs
  have hid := hs.nextId
  refine ⟨?_, hs.setId (congrArg (· + 1) hid)⟩
  simp only [Node.unplaced, hid]

theorem alike_spanFrom (first first' : Token) :
    Alike T T' (fun _ _ => True) (spanFrom first) (spanFrom first') :=
  .bind alike_get fun _ _ _ => .pure trivial

theorem alike_nodeFrom (first first' : Token) :
    Alike T T' (fun n n' => n.unplaced = n'.unplaced) (nodeFrom first) (nodeFrom first') :=
  .bind (alike_spanFrom first first') fun _ _ _ => alike_newNode _ _

/-! ## Phrases -/

section Phrases

variable (hkinds : SameKinds T T')
include hkinds

theorem alike_commaListWithin {R : α → α → Prop} {item item' : Parser α}
    (hitem : Alike T T' R item item') (after : Expectation) (bound : Nat) :
    Alike T T' (List.Forall₂ R) (commaListWithin item after bound)
      (commaListWithin item' after bound) := by
  induction bound with
  | zero => exact alike_refuse hkinds _ _
  | succ bound ih =>
      refine .bind (alike_next hkinds _) ?_
      rintro closed - rfl
      split
      · exact .bind (alike_advance hkinds) fun _ _ _ => .pure .nil
      · refine .bind hitem fun first first' hfirst => ?_
        have hrest : Alike T T' (List.Forall₂ R)
            (do
              let rest ← commaListWithin item after bound
              return first :: rest)
            (do
              let rest ← commaListWithin item' after bound
              return first' :: rest) :=
          .bind ih fun rest rest' hrest => .pure (.cons hfirst hrest)
        refine .bind (alike_next hkinds _) ?_
        rintro comma - rfl
        split
        · exact .bind (alike_advance hkinds) fun _ _ _ => hrest
        · refine .bind (alike_next hkinds _) ?_
          rintro close - rfl
          split
          · exact hrest
          · exact alike_expecting hkinds _ _

theorem alike_valueTypeWithin (bound : Nat) :
    Alike T T' Eq (valueTypeWithin bound) (valueTypeWithin bound) := by
  induction bound with
  | zero => exact alike_refuse hkinds _ _
  | succ bound ih =>
      refine .bind (alike_peek hkinds) ?_
      rintro ⟨kind, span⟩ ⟨-, span'⟩ rfl
      dsimp only
      split
      · refine .bind (alike_advance hkinds) fun _ _ _ => .bind (alike_next hkinds _) ?_
        rintro isVoid - rfl
        split
        · exact alike_refuse hkinds _ _
        · exact .bind ih fun type type' htype => .pure (congrArg Ty.pointer htype)
      · exact alike_refuse hkinds _ _
      · exact .bind (alike_advance hkinds) fun _ _ _ => .pure rfl
      · exact alike_expecting hkinds _ _

theorem alike_valueType : Alike T T' Eq valueType valueType := by
  refine .bind (alike_budget hkinds) ?_
  rintro bound - rfl
  exact alike_valueTypeWithin hkinds bound

theorem alike_resultType : Alike T T' Eq resultType resultType := by
  refine .bind (alike_next hkinds _) ?_
  rintro isVoid - rfl
  split
  · exact .bind (alike_advance hkinds) fun _ _ _ => .pure rfl
  · exact alike_valueType hkinds

end Phrases

/-! ## Expressions -/

/-- The expressions are the same but for their places. -/
def SameExpr (e e' : Expr Node) : Prop :=
  e.map Node.unplaced = e'.map Node.unplaced

theorem mapList_eq_of_same {es es' : List (Expr Node)} (h : List.Forall₂ SameExpr es es') :
    Expr.mapList Node.unplaced es = Expr.mapList Node.unplaced es' := by
  induction h with
  | nil => rfl
  | cons hfirst _ ih => rw [Expr.mapList, Expr.mapList, hfirst, ih]

section Expressions

variable (hkinds : SameKinds T T')
include hkinds

theorem alike_chainWithin {operand operand' : Parser (Expr Node)}
    (hoperand : Alike T T' SameExpr operand operand') (level : List BinaryOp) (bound : Nat)
    {left left' : Expr Node} (hleft : SameExpr left left') :
    Alike T T' SameExpr (chainWithin level operand bound left)
      (chainWithin level operand' bound left') := by
  induction bound generalizing left left' with
  | zero => exact alike_refuse hkinds _ _
  | succ bound ih =>
      refine .bind (alike_peek hkinds) fun t t' ht => ?_
      have hop : levelOp? level t = levelOp? level t' := by simp only [levelOp?, ht]
      rw [hop]
      split
      · exact .pure hleft
      · refine .bind (alike_advance hkinds) fun _ _ _ => ?_
        refine .bind hoperand fun right right' hright => ?_
        refine .bind (alike_newNode _ _) fun node node' hnode => ih ?_
        simp only [SameExpr, Expr.map] at hleft hright ⊢
        rw [hnode, hleft, hright]

theorem alike_castsWithin (bound : Nat) {operand operand' : Expr Node}
    (hoperand : SameExpr operand operand') :
    Alike T T' SameExpr (castsWithin bound operand) (castsWithin bound operand') := by
  induction bound generalizing operand operand' with
  | zero => exact alike_refuse hkinds _ _
  | succ bound ih =>
      refine .bind (alike_next hkinds _) ?_
      rintro isCast - rfl
      split
      · refine .bind (alike_advance hkinds) fun _ _ _ => .bind (alike_valueType hkinds) ?_
        rintro target - rfl
        refine .bind alike_get fun _ _ _ => .bind (alike_newNode _ _) fun node node' hnode => ih ?_
        simp only [SameExpr, Expr.map] at hoperand ⊢
        rw [hnode, hoperand]
      · exact .pure hoperand

theorem alike_expressionOver {operand operand' : Parser (Expr Node)}
    (hoperand : Alike T T' SameExpr operand operand') (bound : Nat) :
    Alike T T' SameExpr (expressionOver bound operand) (expressionOver bound operand') := by
  have hlevels : ∀ levels : List (List BinaryOp), Alike T T' SameExpr
      (levels.foldr (chain bound) (casts bound operand))
      (levels.foldr (chain bound) (casts bound operand')) := by
    intro levels
    induction levels with
    | nil => exact .bind hoperand fun e e' he => alike_castsWithin hkinds bound he
    | cons level levels ih =>
        exact .bind ih fun e e' he => alike_chainWithin hkinds ih level bound he
  exact hlevels _

theorem alike_numeric : Alike T T' SameExpr numeric numeric := by
  refine .bind (alike_peek hkinds) ?_
  rintro ⟨kind, span⟩ ⟨-, span'⟩ rfl
  dsimp only
  split
  · refine .bind (alike_advance hkinds) fun _ _ _ => ?_
    refine .bind (alike_newNode _ _) fun node node' hnode => ?_
    exact .pure (by simp only [SameExpr, Expr.map, hnode])
  · exact alike_expecting hkinds _ _

theorem alike_nameOrCall {expression expression' : Parser (Expr Node)}
    (hexpression : Alike T T' SameExpr expression expression') (bound : Nat) :
    Alike T T' SameExpr (nameOrCall bound expression) (nameOrCall bound expression') := by
  refine .bind (alike_peek hkinds) fun first first' _ => .bind (alike_identifier hkinds _) ?_
  rintro name - rfl
  refine .bind (alike_next hkinds _) ?_
  rintro isCall - rfl
  split
  · refine .bind (alike_advance hkinds) fun _ _ _ => ?_
    refine .bind (alike_commaListWithin hkinds hexpression _ bound) fun args args' hargs => ?_
    refine .bind (alike_nodeFrom _ _) fun node node' hnode => .pure ?_
    simp only [SameExpr, Expr.map, hnode, mapList_eq_of_same hargs]
  · refine .bind (alike_newNode _ _) fun node node' hnode => .pure ?_
    simp only [SameExpr, Expr.map, hnode]

theorem alike_parenthesized {expression expression' : Parser (Expr Node)}
    (hexpression : Alike T T' SameExpr expression expression') :
    Alike T T' SameExpr (parenthesized expression) (parenthesized expression') := by
  refine .bind (alike_peek hkinds) fun first first' _ => ?_
  refine .bind (alike_punct hkinds _ _) fun _ _ _ => .bind hexpression fun inner inner' hinner => ?_
  refine .bind (alike_punct hkinds _ _) fun _ _ _ => ?_
  refine .bind (alike_nodeFrom _ _) fun node node' hnode => .pure ?_
  simp only [SameExpr, Expr.map] at hinner ⊢
  rw [hnode, hinner]

theorem alike_unary {operand operand' : Parser (Expr Node)}
    (hoperand : Alike T T' SameExpr operand operand') :
    Alike T T' SameExpr (unary operand) (unary operand') := by
  refine .bind (alike_peek hkinds) ?_
  rintro ⟨kind, span⟩ ⟨-, span'⟩ rfl
  dsimp only
  split
  · split
    · refine .bind (alike_advance hkinds) fun _ _ _ => .bind hoperand fun inner inner' hinner => ?_
      refine .bind (alike_newNode _ _) fun node node' hnode => .pure ?_
      simp only [SameExpr, Expr.map] at hinner ⊢
      rw [hnode, hinner]
    · exact alike_expecting hkinds _ _
  · exact alike_expecting hkinds _ _

theorem alike_operandWithin (bound : Nat) :
    Alike T T' SameExpr (operandWithin bound) (operandWithin bound) := by
  induction bound with
  | zero => exact alike_refuse hkinds _ _
  | succ bound ih =>
      have hexpression := alike_expressionOver hkinds ih bound
      exact alike_orElseHere hkinds (alike_numeric hkinds) <|
        alike_orElseHere hkinds (alike_nameOrCall hkinds hexpression bound) <|
        alike_orElseHere hkinds (alike_parenthesized hkinds hexpression) <|
        alike_orElseHere hkinds (alike_unary hkinds ih) (alike_expecting hkinds _ _)

theorem alike_expression : Alike T T' SameExpr expression expression := by
  refine .bind (alike_budget hkinds) ?_
  rintro bound - rfl
  exact alike_expressionOver hkinds (alike_operandWithin hkinds bound) bound

end Expressions

/-! ## Statements -/

/-- The statements are the same but for their places. -/
def SameStmt (s s' : Stmt Node) : Prop :=
  s.unplaced Node.unplaced = s'.unplaced Node.unplaced

def SameBody (body body' : List (Stmt Node)) : Prop :=
  Stmt.listUnplaced Node.unplaced body = Stmt.listUnplaced Node.unplaced body'

def SameArm (a a' : Arm Node) : Prop :=
  Stmt.armUnplaced Node.unplaced a = Stmt.armUnplaced Node.unplaced a'

def SameArms (arms arms' : List (Arm Node)) : Prop :=
  Stmt.armsUnplaced Node.unplaced arms = Stmt.armsUnplaced Node.unplaced arms'

def SameElse (body body' : Option (List (Stmt Node))) : Prop :=
  Stmt.elseUnplaced Node.unplaced body = Stmt.elseUnplaced Node.unplaced body'

section Statements

variable (hkinds : SameKinds T T')
include hkinds

theorem alike_statementsWithin {statement statement' : Parser (Stmt Node)}
    (hstatement : Alike T T' SameStmt statement statement') (bound : Nat) :
    Alike T T' SameBody (statementsWithin statement bound) (statementsWithin statement' bound) := by
  induction bound with
  | zero => exact alike_refuse hkinds _ _
  | succ bound ih =>
      refine .bind (alike_next hkinds _) ?_
      rintro closed - rfl
      split
      · exact .bind (alike_advance hkinds) fun _ _ _ => .pure rfl
      · refine .bind (alike_next hkinds _) ?_
        rintro ended - rfl
        split
        · exact alike_expecting hkinds _ _
        · refine .bind hstatement fun first first' hfirst => ?_
          refine .bind ih fun rest rest' hrest => .pure ?_
          simp only [SameStmt, SameBody, Stmt.listUnplaced] at hfirst hrest ⊢
          rw [hfirst, hrest]

theorem alike_blockOver {statement statement' : Parser (Stmt Node)}
    (hstatement : Alike T T' SameStmt statement statement') :
    Alike T T' SameBody (blockOver statement) (blockOver statement') := by
  refine .bind (alike_punct hkinds _ _) fun _ _ _ => .bind (alike_budget hkinds) ?_
  rintro bound - rfl
  exact alike_statementsWithin hkinds hstatement bound

theorem alike_condition (context : String) :
    Alike T T' SameExpr (condition context) (condition context) := by
  refine .bind (alike_punct hkinds _ _) fun _ _ _ => ?_
  refine .bind (alike_expression hkinds) fun value value' hvalue => ?_
  exact .bind (alike_punct hkinds _ _) fun _ _ _ => .pure hvalue

theorem alike_returnValue :
    Alike T T' (fun v v' => v.map (Expr.map Node.unplaced) = v'.map (Expr.map Node.unplaced))
      returnValue returnValue := by
  refine .bind (alike_next hkinds _) ?_
  rintro ended - rfl
  split
  · exact .pure rfl
  · refine .bind (alike_expression hkinds) fun value value' hvalue => .pure ?_
    exact congrArg some hvalue

theorem alike_returnStatement : Alike T T' SameStmt returnStatement returnStatement := by
  refine .bind (alike_peek hkinds) fun first first' _ => ?_
  refine .bind (alike_keyword hkinds _ _) fun _ _ _ => ?_
  refine .bind (alike_returnValue hkinds) fun value value' hvalue => ?_
  refine .bind (alike_punct hkinds _ _) fun _ _ _ => ?_
  refine .bind (alike_nodeFrom _ _) fun node node' hnode => .pure ?_
  simp only [SameStmt, Stmt.unplaced]
  rw [hnode, hvalue]

theorem alike_declaration (kind : DeclKind) :
    Alike T T' SameStmt (declaration kind) (declaration kind) := by
  refine .bind (alike_peek hkinds) fun first first' _ => ?_
  refine .bind (alike_keyword hkinds _ _) fun _ _ _ => .bind (alike_identifier hkinds _) ?_
  rintro name - rfl
  refine .bind (alike_punct hkinds _ _) fun _ _ _ => .bind (alike_valueType hkinds) ?_
  rintro type - rfl
  refine .bind (alike_next hkinds _) ?_
  rintro initialized - rfl
  split
  · refine .bind (alike_advance hkinds) fun _ _ _ => ?_
    refine .bind (alike_expression hkinds) fun initial initial' hinitial => ?_
    refine .bind (alike_punct hkinds _ _) fun _ _ _ => ?_
    refine .bind (alike_nodeFrom _ _) fun node node' hnode => .pure ?_
    simp only [SameExpr, SameStmt, Stmt.unplaced] at hinitial ⊢
    rw [hnode, hinitial]
  · exact alike_expecting hkinds _ _

theorem alike_expressionStatement :
    Alike T T' SameStmt expressionStatement expressionStatement := by
  refine .bind (alike_peek hkinds) fun first first' _ => ?_
  refine .bind (alike_expression hkinds) fun value value' hvalue => ?_
  refine .bind (alike_punct hkinds _ _) fun _ _ _ => ?_
  refine .bind (alike_nodeFrom _ _) fun node node' hnode => .pure ?_
  simp only [SameExpr, SameStmt, Stmt.unplaced] at hvalue ⊢
  rw [hnode, hvalue]

section Blocks

variable {block block' : Parser (List (Stmt Node))} (hblock : Alike T T' SameBody block block')
include hblock

theorem alike_arm (word : Keyword) : Alike T T' SameArm (arm block word) (arm block' word) := by
  refine .bind (alike_peek hkinds) fun first first' _ => ?_
  refine .bind (alike_keyword hkinds _ _) fun _ _ _ => ?_
  refine .bind (alike_condition hkinds _) fun guard guard' hguard => ?_
  refine .bind hblock fun body body' hbody => ?_
  refine .bind (alike_spanFrom _ _) fun _ _ _ => .pure ?_
  simp only [SameExpr, SameBody, SameArm, Stmt.armUnplaced] at hguard hbody ⊢
  rw [hguard, hbody]

theorem alike_elifArmsWithin (bound : Nat) :
    Alike T T' SameArms (elifArmsWithin block bound) (elifArmsWithin block' bound) := by
  induction bound with
  | zero => exact alike_refuse hkinds _ _
  | succ bound ih =>
      refine .bind (alike_next hkinds _) ?_
      rintro more - rfl
      split
      · refine .bind (alike_arm hkinds hblock _) fun first first' hfirst => ?_
        refine .bind ih fun rest rest' hrest => .pure ?_
        simp only [SameArm, SameArms, Stmt.armsUnplaced] at hfirst hrest ⊢
        rw [hfirst, hrest]
      · exact .pure rfl

theorem alike_elseBody : Alike T T' SameElse (elseBody block) (elseBody block') := by
  refine .bind (alike_next hkinds _) ?_
  rintro more - rfl
  split
  · refine .bind (alike_advance hkinds) fun _ _ _ => .bind hblock fun body body' hbody => .pure ?_
    exact congrArg some hbody
  · exact .pure rfl

theorem alike_conditional : Alike T T' SameStmt (conditional block) (conditional block') := by
  refine .bind (alike_peek hkinds) fun first first' _ => ?_
  refine .bind (alike_arm hkinds hblock _) fun firstArm firstArm' hfirst => ?_
  refine .bind (alike_budget hkinds) ?_
  rintro bound - rfl
  refine .bind (alike_elifArmsWithin hkinds hblock bound) fun arms arms' harms => ?_
  refine .bind (alike_elseBody hkinds hblock) fun otherwise otherwise' hotherwise => ?_
  refine .bind (alike_nodeFrom _ _) fun node node' hnode => .pure ?_
  simp only [SameArm, SameArms, SameElse, SameStmt, Stmt.unplaced, Stmt.armsUnplaced]
    at hfirst harms hotherwise ⊢
  rw [hnode, hfirst, harms, hotherwise]

theorem alike_loop : Alike T T' SameStmt (loop block) (loop block') := by
  refine .bind (alike_peek hkinds) fun first first' _ => ?_
  refine .bind (alike_keyword hkinds _ _) fun _ _ _ => ?_
  refine .bind (alike_condition hkinds _) fun guard guard' hguard => ?_
  refine .bind hblock fun body body' hbody => ?_
  refine .bind (alike_nodeFrom _ _) fun node node' hnode => .pure ?_
  simp only [SameExpr, SameBody, SameStmt, Stmt.unplaced] at hguard hbody ⊢
  rw [hnode, hguard, hbody]

theorem alike_statementOver :
    Alike T T' SameStmt (statementOver block) (statementOver block') := by
  refine .bind (alike_peek hkinds) ?_
  rintro ⟨kind, span⟩ ⟨-, span'⟩ rfl
  dsimp only
  split
  · exact alike_conditional hkinds hblock
  · exact alike_loop hkinds hblock
  · exact alike_returnStatement hkinds
  · exact alike_declaration hkinds _
  · exact alike_declaration hkinds _
  · exact alike_expressionStatement hkinds

end Blocks

theorem alike_statementWithin (bound : Nat) :
    Alike T T' SameStmt (statementWithin bound) (statementWithin bound) := by
  induction bound with
  | zero => exact alike_refuse hkinds _ _
  | succ bound ih => exact alike_statementOver hkinds (alike_blockOver hkinds ih)

theorem alike_block : Alike T T' SameBody block block := by
  refine .bind (alike_budget hkinds) ?_
  rintro bound - rfl
  exact alike_blockOver hkinds (alike_statementWithin hkinds bound)

end Statements

/-! ## Programs -/

section Programs

variable (hkinds : SameKinds T T')
include hkinds

theorem alike_parameter :
    Alike T T' (fun q q' => q.unplaced = q'.unplaced) parameter parameter := by
  refine .bind (alike_peek hkinds) fun first first' _ => .bind (alike_identifier hkinds _) ?_
  rintro name - rfl
  refine .bind (alike_punct hkinds _ _) fun _ _ _ => .bind (alike_valueType hkinds) ?_
  rintro type - rfl
  exact .bind (alike_spanFrom _ _) fun _ _ _ => .pure rfl

theorem alike_signature :
    Alike T T' (fun q q' => q.unplaced = q'.unplaced) signature signature := by
  refine .bind (alike_identifier hkinds _) ?_
  rintro name - rfl
  refine .bind (alike_punct hkinds _ _) fun _ _ _ => ?_
  have hlist : Alike T T' (List.Forall₂ fun q q' => q.unplaced = q'.unplaced)
      (commaList parameter .parameterListEnd) (commaList parameter .parameterListEnd) := by
    refine .bind (alike_budget hkinds) ?_
    rintro bound - rfl
    exact alike_commaListWithin hkinds (alike_parameter hkinds) _ bound
  refine .bind hlist fun parameters parameters' hparameters => ?_
  refine .bind (alike_punct hkinds _ _) fun _ _ _ => .bind (alike_resultType hkinds) ?_
  rintro result - rfl
  refine .pure ?_
  have hmap : parameters.map Parameter.unplaced = parameters'.map Parameter.unplaced := by
    rw [← List.forall₂_eq_eq_eq, List.forall₂_map_left_iff, List.forall₂_map_right_iff]
    exact hparameters
  simp only [Signature.unplaced, hmap]

theorem alike_importPath : Alike T T' Eq importPath importPath := by
  refine .bind (alike_keyword hkinds _ _) fun _ _ _ => ?_
  refine .bind (alike_punct hkinds _ _) fun _ _ _ => ?_
  refine .bind (alike_identifier hkinds _) ?_
  rintro nameSpace - rfl
  refine .bind (alike_punct hkinds _ _) fun _ _ _ => .bind (alike_identifier hkinds _) ?_
  rintro specifier - rfl
  exact .bind (alike_punct hkinds _ _) fun _ _ _ => .pure rfl

theorem alike_funcDef (first first' : Token) :
    Alike T T' (fun d d' => d.unplaced Node.unplaced = d'.unplaced Node.unplaced)
      (funcDef first) (funcDef first') := by
  refine .bind (alike_signature hkinds) fun header header' hheader => ?_
  refine .bind (alike_block hkinds) fun body body' hbody => ?_
  refine .bind (alike_nodeFrom _ _) fun node node' hnode => .pure ?_
  simp only [SameBody, FuncDef.unplaced] at hbody ⊢
  rw [hnode, hheader, hbody]

theorem alike_function :
    Alike T T' (fun f f' => f.unplaced Node.unplaced = f'.unplaced Node.unplaced)
      function function := by
  refine .bind (alike_peek hkinds) fun first first' _ => ?_
  refine .bind (alike_keyword hkinds _ _) fun _ _ _ => .bind (alike_peek hkinds) ?_
  rintro ⟨kind, span⟩ ⟨-, span'⟩ rfl
  dsimp only
  have hdefinition := alike_funcDef hkinds first first'
  split
  · refine .bind (R := fun i i' => (⟨i.node.unplaced, i.signature.unplaced, i.path⟩ : FuncImport) =
      ⟨i'.node.unplaced, i'.signature.unplaced, i'.path⟩) ?_
      fun _ _ h => .pure (congrArg Func.imported h)
    refine .bind (alike_importPath hkinds) ?_
    rintro path - rfl
    refine .bind (alike_signature hkinds) fun header header' hheader => ?_
    refine .bind (alike_punct hkinds _ _) fun _ _ _ => ?_
    refine .bind (alike_nodeFrom _ _) fun node node' hnode => .pure ?_
    dsimp only
    rw [hnode, hheader]
  · refine .bind (alike_advance hkinds) fun _ _ _ => ?_
    exact .bind hdefinition fun _ _ h => .pure (congrArg Func.exported h)
  · exact .bind hdefinition fun _ _ h => .pure (congrArg Func.plain h)

theorem alike_memory : Alike T T' (fun m m' => m.unplaced = m'.unplaced) memory memory := by
  refine .bind (alike_peek hkinds) fun first first' _ => ?_
  refine .bind (alike_keyword hkinds _ _) fun _ _ _ => ?_
  refine .bind (R := Eq) ?_ ?_
  · refine .bind (alike_peek hkinds) ?_
    rintro ⟨kind, span⟩ ⟨-, span'⟩ rfl
    dsimp only
    split
    · exact .bind (alike_advance hkinds) fun _ _ _ => .pure rfl
    · exact .bind (alike_importPath hkinds) fun _ _ h => .pure (congrArg MemoryKind.imported h)
    · exact .pure rfl
  rintro kind - rfl
  refine .bind (alike_identifier hkinds _) ?_
  rintro name - rfl
  refine .bind (alike_punct hkinds _ _) fun _ _ _ => .bind (R := Eq) ?_ ?_
  · refine .bind (alike_peek hkinds) fun t t' ht => ?_
    have hsize : sizeOf? t = sizeOf? t' := by simp only [sizeOf?, ht]
    rw [hsize]
    split
    · exact .bind (alike_advance hkinds) fun _ _ _ => .pure rfl
    · exact alike_expecting hkinds _ _
  rintro size - rfl
  refine .bind (alike_punct hkinds _ _) fun _ _ _ => .bind (alike_punct hkinds _ _) fun _ _ _ => ?_
  refine .bind (alike_nodeFrom _ _) fun node node' hnode => .pure ?_
  simp only [Memory.unplaced, hnode]

theorem alike_declarationsWithin (bound : Nat) {done done' : Program Node}
    (hdone : done.unplaced Node.unplaced = done'.unplaced Node.unplaced) :
    Alike T T' (fun p p' => p.unplaced Node.unplaced = p'.unplaced Node.unplaced)
      (declarationsWithin bound done) (declarationsWithin bound done') := by
  induction bound generalizing done done' with
  | zero => exact alike_refuse hkinds _ _
  | succ bound ih =>
      have hfuncs := congrArg Program.funcs hdone
      have hmemories := congrArg Program.memories hdone
      simp only [Program.unplaced] at hfuncs hmemories
      refine .bind (alike_peek hkinds) ?_
      rintro ⟨kind, span⟩ ⟨-, span'⟩ rfl
      dsimp only
      split
      · exact .pure hdone
      · refine .bind (alike_function hkinds) fun func func' hfunc => ih ?_
        simp only [Program.unplaced, List.map_append, List.map_cons, hfuncs, hmemories, hfunc,
          List.map_nil]
      · have hempty : done.memories.isEmpty = done'.memories.isEmpty := by
          have hlength := congrArg List.isEmpty hmemories
          simpa only [List.isEmpty_map] using hlength
        rw [hempty]
        split
        · refine .bind (alike_memory hkinds) fun declared declared' hdeclared => ih ?_
          simp only [Program.unplaced, List.map_append, List.map_cons, hfuncs, hmemories,
            hdeclared, List.map_nil]
        · exact alike_refuse hkinds _ _
      · exact alike_expecting hkinds _ _

theorem alike_program :
    Alike T T' (fun p p' => p.unplaced Node.unplaced = p'.unplaced Node.unplaced)
      program program := by
  refine .bind (alike_budget hkinds) ?_
  rintro bound - rfl
  exact alike_declarationsWithin hkinds bound rfl

end Programs

end Wattle.Parser
