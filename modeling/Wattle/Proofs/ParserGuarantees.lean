import Mathlib.Data.List.Nodup
import Wattle.Parse.Program
import Wattle.Proofs.DeclaredLocals
import Wattle.Proofs.VoidFree

/-!
# What reading guarantees

Reading refuses `void` wherever a value is meant, and gives every node a number of its own. Both
are properties of single parsers that their combinations keep. A parser is described by what it
gives when the numbers from `low` on are unused: a result that has a property, which may speak of
the next unused number.
-/

namespace Wattle

/-- Whether the token, if it is a number, has a type with values. -/
def TokenKind.hasValue : TokenKind → Bool
  | number _ type => type ≠ .void
  | _ => true

namespace Parser

variable {α β : Type}

/-- Whether all tokens, read or to come, are such as a text can have. -/
def Sound (s : ParseState) : Prop :=
  ∀ t ∈ s.cursor.tokens, t.kind.hasValue = true

/-- Started where `low` is the next number, `p` fails or gives a result with the property `Q`,
which is also told the next number at the end. -/
def Gives (low : Nat) (p : Parser α) (Q : α → Nat → Prop) : Prop :=
  ∀ s, Sound s → s.nextId = low →
    match p s with
    | .ok a t => Sound t ∧ low ≤ t.nextId ∧ Q a t.nextId
    | .error _ t => low ≤ t.nextId

def Still (p : Parser α) : Prop :=
  ∀ low, Gives low p fun _ high => high = low

namespace Gives

variable {low : Nat} {p : Parser α} {f : α → Parser β} {Q Q' : α → Nat → Prop}
  {R : β → Nat → Prop}

theorem pure {a : α} (h : Q a low) : Gives low (Pure.pure a) Q := by
  intro s hs hlow
  exact ⟨hs, Nat.le_of_eq hlow.symm, hlow ▸ h⟩

theorem imp (h : Gives low p Q) (hQ : ∀ a high, low ≤ high → Q a high → Q' a high) :
    Gives low p Q' := by
  intro s hs hlow
  have hp := h s hs hlow
  cases hrun : p s with
  | error e t =>
      rw [hrun] at hp
      exact hp
  | ok a t =>
      rw [hrun] at hp
      exact ⟨hp.1, hp.2.1, hQ a _ hp.2.1 hp.2.2⟩

theorem bind (hp : Gives low p Q)
    (hf : ∀ a middle, low ≤ middle → Q a middle → Gives middle (f a) R) :
    Gives low (p >>= f) R := by
  intro s hs hlow
  have hfirst := hp s hs hlow
  simp only [Bind.bind, EStateM.bind]
  cases hrun : p s with
  | error e t =>
      rw [hrun] at hfirst
      exact hfirst
  | ok a t =>
      rw [hrun] at hfirst
      obtain ⟨ht, hle, hQ⟩ := hfirst
      have hsecond := hf a t.nextId hle hQ t ht rfl
      dsimp only
      cases hrest : f a t with
      | error e u =>
          rw [hrest] at hsecond
          exact Nat.le_trans hle hsecond
      | ok b u =>
          rw [hrest] at hsecond
          exact ⟨hsecond.1, Nat.le_trans hle hsecond.2.1, hsecond.2.2⟩

theorem skip (hp : Still p) (hf : ∀ a, Gives low (f a) R) : Gives low (p >>= f) R :=
  bind (hp low) fun a _ _ hmiddle => hmiddle ▸ hf a

end Gives

/-! ## Single steps -/

theorem peek_mem (c : Cursor) : c.peek ∈ c.tokens ∨ c.peek = Cursor.noToken := by
  obtain ⟨consumed, rest⟩ := c
  cases rest with
  | cons t rest => exact .inl (by simp [Cursor.peek, Cursor.tokens])
  | nil =>
      cases consumed with
      | nil => exact .inr rfl
      | cons t consumed => exact .inl (by simp [Cursor.peek, Cursor.tokens])

theorem sound_peek {s : ParseState} (hs : Sound s) : s.cursor.peek.kind.hasValue = true := by
  rcases peek_mem s.cursor with hmem | hnone
  · exact hs _ hmem
  · rw [hnone]
    rfl

theorem sound_advance {s : ParseState} (hs : Sound s) :
    Sound { s with cursor := s.cursor.advance } := by
  intro t ht
  exact hs t (by simpa using ht)

theorem gives_peek (low : Nat) :
    Gives low peek fun t high => t.kind.hasValue = true ∧ high = low := by
  intro s hs hlow
  exact ⟨hs, Nat.le_of_eq hlow.symm, sound_peek hs, hlow⟩

theorem still_peek : Still peek :=
  fun low => (gives_peek low).imp fun _ _ _ h => h.2

theorem still_next (kind : TokenKind) : Still (next kind) :=
  fun _ => .skip still_peek fun _ => .pure rfl

theorem still_advance : Still advance := by
  intro low s hs hlow
  exact ⟨sound_advance hs, Nat.le_of_eq hlow.symm, hlow⟩

theorem gives_refuse (low : Nat) (cause : ParseCause) (Q : α → Nat → Prop) :
    Gives low (refuse cause) Q :=
  .skip still_peek fun _ _ _ hlow => Nat.le_of_eq hlow.symm

theorem gives_expecting (low : Nat) (what : Expectation) (Q : α → Nat → Prop) :
    Gives low (expecting what) Q :=
  gives_refuse low _ Q

theorem still_reading {f : Cursor → Except ParseError (α × Cursor)}
    (h : ∀ c a d, f c = .ok (a, d) → d = c.advance) : Still (reading f) := by
  intro low s hs hlow
  simp only [reading]
  cases hf : f s.cursor with
  | error e => exact Nat.le_of_eq hlow.symm
  | ok r =>
      obtain ⟨a, c⟩ := r
      obtain rfl := h _ _ _ hf
      exact ⟨sound_advance hs, Nat.le_of_eq hlow.symm, hlow⟩

theorem still_punct (mark : Punct) (context : String) : Still (punct mark context) := by
  refine fun low => .skip (still_reading ?_) fun _ => .pure rfl
  intro c a d h
  simp only [Cursor.expectPunct] at h
  split at h
  · cases h
    rfl
  · cases h

theorem still_keyword (word : Keyword) (context : String) : Still (keyword word context) := by
  refine fun low => .skip (still_reading ?_) fun _ => .pure rfl
  intro c a d h
  simp only [Cursor.expectKeyword] at h
  split at h
  · cases h
    rfl
  · cases h

theorem still_identifier (context : String) : Still (identifier context) := by
  refine still_reading ?_
  intro c a d h
  simp only [Cursor.expectIdentifier] at h
  split at h
  · cases h
    rfl
  · cases h

theorem still_get : Still (get : Parser ParseState) :=
  fun _ _ hs hlow => ⟨hs, Nat.le_of_eq hlow.symm, hlow⟩

theorem still_spanFrom (first : Token) : Still (spanFrom first) :=
  fun _ => .skip still_get fun _ => .pure rfl

theorem still_budget : Still budget :=
  fun _ => .skip still_get fun _ => .pure rfl

theorem gives_newNode (low : Nat) (span : Span) :
    Gives low (newNode span) fun n high => n.id = low ∧ high = low + 1 := by
  intro s hs hlow
  subst hlow
  exact ⟨hs, Nat.le_succ _, rfl, rfl⟩

theorem gives_nodeFrom (low : Nat) (first : Token) :
    Gives low (nodeFrom first) fun n high => n.id = low ∧ high = low + 1 :=
  .skip (still_spanFrom first) fun span => gives_newNode low span

theorem gives_orElseHere {p other : Parser α} {P : α → Prop}
    (hp : ∀ low, Gives low p fun a _ => P a) (ho : ∀ low, Gives low other fun a _ => P a)
    (low : Nat) : Gives low (orElseHere p other) fun a _ => P a := by
  intro s hs hlow
  have hfirst := hp low s hs hlow
  simp only [orElseHere]
  cases hrun : p s with
  | ok a t =>
      rw [hrun] at hfirst
      exact hfirst
  | error e t =>
      rw [hrun] at hfirst
      by_cases hspan : e.found.span = s.cursor.peek.span
      · have hsecond := ho t.nextId { s with nextId := t.nextId } hs rfl
        simp only [hspan, if_true]
        cases hother : other { s with nextId := t.nextId } with
        | error e' u =>
            rw [hother] at hsecond
            exact Nat.le_trans hfirst hsecond
        | ok a u =>
            rw [hother] at hsecond
            exact ⟨hsecond.1, Nat.le_trans hfirst hsecond.2.1, hsecond.2.2⟩
      · simp only [hspan, if_false]
        exact hfirst

theorem gives_commaListWithin {item : Parser α} {P : α → Prop} (after : Expectation)
    (hitem : ∀ low, Gives low item fun a _ => P a) (bound low : Nat) :
    Gives low (commaListWithin item after bound) fun as _ => ∀ a ∈ as, P a := by
  induction bound generalizing low with
  | zero => exact gives_refuse low _ _
  | succ bound ih =>
      refine .skip (still_next _) fun closed => ?_
      split
      · exact .skip still_advance fun _ => .pure (by simp)
      · refine .bind (hitem low) fun first middle _ hfirst => ?_
        have hrest : Gives middle (do
            let rest ← commaListWithin item after bound
            return first :: rest) fun as _ => ∀ a ∈ as, P a := by
          refine .bind (ih middle) fun rest high _ hrest => .pure ?_
          intro a ha
          rcases List.mem_cons.mp ha with rfl | ha
          · exact hfirst
          · exact hrest a ha
        refine .skip (still_next _) fun comma => ?_
        split
        · exact .skip still_advance fun _ => hrest
        · refine .skip (still_next _) fun close => ?_
          split
          · exact hrest
          · exact gives_expecting middle _ _

theorem gives_commaList {item : Parser α} {P : α → Prop} (after : Expectation)
    (hitem : ∀ low, Gives low item fun a _ => P a) (low : Nat) :
    Gives low (commaList item after) fun as _ => ∀ a ∈ as, P a :=
  .skip still_budget fun bound => gives_commaListWithin after hitem bound low

/-! ## Types -/

theorem gives_valueTypeWithin (bound low : Nat) :
    Gives low (valueTypeWithin bound) fun t high => t.voidFree = true ∧ high = low := by
  induction bound with
  | zero => exact gives_refuse low _ _
  | succ bound ih =>
      refine .skip still_peek fun t => ?_
      split
      · refine .skip still_advance fun _ => .skip (still_next _) fun isVoid => ?_
        split
        · exact gives_refuse low _ _
        · exact .bind ih fun t middle _ ht => .pure ht
      · exact gives_refuse low _ _
      · next b hb _ => exact .skip still_advance fun _ => .pure ⟨by simpa using hb, rfl⟩
      · exact gives_expecting low _ _

theorem gives_valueType (low : Nat) :
    Gives low valueType fun t high => t.voidFree = true ∧ high = low :=
  .skip still_budget fun bound => gives_valueTypeWithin bound low

theorem gives_resultType (low : Nat) :
    Gives low resultType fun t high => t.isResult = true ∧ high = low := by
  refine .skip (still_next _) fun isVoid => ?_
  split
  · exact .skip still_advance fun _ => .pure ⟨rfl, rfl⟩
  · exact (gives_valueType low).imp fun t _ _ ht => ⟨Ty.isResult_of_voidFree ht.1, ht.2⟩

/-! ## Expressions -/

/-- `p` reads expressions without `void` in them. -/
def ReadsValues (p : Parser (Expr Node)) : Prop :=
  ∀ low, Gives low p fun e _ => e.voidFree = true

theorem gives_chainWithin {level : List BinaryOp} {operand : Parser (Expr Node)}
    (hoperand : ReadsValues operand) (bound low : Nat) {left : Expr Node}
    (hleft : left.voidFree = true) :
    Gives low (chainWithin level operand bound left) fun e _ => e.voidFree = true := by
  induction bound generalizing low left with
  | zero => exact gives_refuse low _ _
  | succ bound ih =>
      refine .skip still_peek fun t => ?_
      split
      · exact .pure hleft
      · refine .skip still_advance fun _ => .bind (hoperand low) fun right middle _ hright => ?_
        refine .bind (gives_newNode middle _) fun node high _ _ => ih high ?_
        simp [Expr.voidFree, hleft, hright]

theorem readsValues_chain (bound : Nat) (level : List BinaryOp) {operand : Parser (Expr Node)}
    (hoperand : ReadsValues operand) : ReadsValues (chain bound level operand) :=
  fun low => .bind (hoperand low) fun _ middle _ hleft =>
    gives_chainWithin hoperand bound middle hleft

theorem gives_castsWithin (bound low : Nat) {operand : Expr Node}
    (hoperand : operand.voidFree = true) :
    Gives low (castsWithin bound operand) fun e _ => e.voidFree = true := by
  induction bound generalizing low operand with
  | zero => exact gives_refuse low _ _
  | succ bound ih =>
      refine .skip (still_next _) fun isCast => ?_
      split
      · refine .skip still_advance fun _ => .bind (gives_valueType low) fun target middle _ ht => ?_
        refine .skip still_get fun state => .bind (gives_newNode middle _) fun node high _ _ => ?_
        exact ih high (by simp [Expr.voidFree, hoperand, ht.1])
      · exact .pure hoperand

theorem readsValues_casts (bound : Nat) {operand : Parser (Expr Node)}
    (hoperand : ReadsValues operand) : ReadsValues (casts bound operand) :=
  fun low => .bind (hoperand low) fun _ middle _ hfirst => gives_castsWithin bound middle hfirst

theorem readsValues_expressionOver (bound : Nat) {operand : Parser (Expr Node)}
    (hoperand : ReadsValues operand) : ReadsValues (expressionOver bound operand) := by
  have hlevels : ∀ levels : List (List BinaryOp),
      ReadsValues (levels.foldr (chain bound) (casts bound operand)) := by
    intro levels
    induction levels with
    | nil => exact readsValues_casts bound hoperand
    | cons level levels ih => exact readsValues_chain bound level ih
  exact hlevels _

theorem readsValues_numeric : ReadsValues numeric := by
  refine fun low => .bind (gives_peek low) fun first middle _ hfirst => ?_
  split
  · next digits type hkind =>
    refine .skip still_advance fun _ => .bind (gives_newNode middle _) fun node high _ _ => ?_
    have hvalue := hfirst.1
    rw [hkind] at hvalue
    exact .pure hvalue
  · exact gives_expecting middle _ _

theorem listVoidFree_of_forall {args : List (Expr Node)} (h : ∀ a ∈ args, a.voidFree = true) :
    Expr.listVoidFree args = true := by
  induction args with
  | nil => rfl
  | cons a args ih =>
      rw [Expr.listVoidFree, h a List.mem_cons_self,
        ih fun b hb => h b (List.mem_cons_of_mem _ hb)]
      rfl

theorem readsValues_nameOrCall (bound : Nat) {expression : Parser (Expr Node)}
    (h : ReadsValues expression) : ReadsValues (nameOrCall bound expression) := by
  refine fun low => .skip still_peek fun first => .skip (still_identifier _) fun name => ?_
  refine .skip (still_next _) fun isCall => ?_
  split
  · refine .skip still_advance fun _ => ?_
    refine .bind (gives_commaListWithin _ h bound low) fun args middle _ hargs => ?_
    exact .bind (gives_nodeFrom middle _) fun node high _ _ => .pure (listVoidFree_of_forall hargs)
  · exact .bind (gives_newNode low _) fun node high _ _ => .pure rfl

theorem readsValues_parenthesized {expression : Parser (Expr Node)} (h : ReadsValues expression) :
    ReadsValues (parenthesized expression) := by
  refine fun low => .skip still_peek fun first => .skip (still_punct _ _) fun _ => ?_
  refine .bind (h low) fun inner middle _ hinner => .skip (still_punct _ _) fun _ => ?_
  exact .bind (gives_nodeFrom middle _) fun node high _ _ => .pure hinner

theorem readsValues_unary {operand : Parser (Expr Node)} (h : ReadsValues operand) :
    ReadsValues (unary operand) := by
  refine fun low => .skip still_peek fun first => ?_
  split
  · split
    · refine .skip still_advance fun _ => .bind (h low) fun inner middle _ hinner => ?_
      exact .bind (gives_newNode middle _) fun node high _ _ => .pure hinner
    · exact gives_expecting low _ _
  · exact gives_expecting low _ _

theorem readsValues_operandWithin (bound : Nat) : ReadsValues (operandWithin bound) := by
  induction bound with
  | zero => exact fun low => gives_refuse low _ _
  | succ bound ih =>
      have hexpression := readsValues_expressionOver bound ih
      exact gives_orElseHere readsValues_numeric <|
        gives_orElseHere (readsValues_nameOrCall bound hexpression) <|
        gives_orElseHere (readsValues_parenthesized hexpression) <|
        gives_orElseHere (readsValues_unary ih) fun low => gives_expecting low _ _

theorem readsValues_expression : ReadsValues expression :=
  fun low => .skip still_budget fun bound =>
    readsValues_expressionOver bound (readsValues_operandWithin bound) low

/-! ## Statements -/

/-- The declarations have distinct numbers from `low` up to but not including `high`. -/
structure Numbered (low high : Nat) (locals : List LocalDecl) : Prop where
  distinct : (locals.map LocalDecl.id).Nodup
  range : ∀ l ∈ locals, low ≤ l.id ∧ l.id < high

theorem Numbered.nil (low high : Nat) : Numbered low high [] :=
  ⟨List.nodup_nil, by simp⟩

theorem Numbered.widen {low low' high high' : Nat} {locals : List LocalDecl}
    (h : Numbered low high locals) (hlow : low' ≤ low) (hhigh : high ≤ high') :
    Numbered low' high' locals := by
  refine ⟨h.distinct, fun l hl => ?_⟩
  obtain ⟨h₁, h₂⟩ := h.range l hl
  omega

theorem Numbered.append {low middle high : Nat} {xs ys : List LocalDecl}
    (hx : Numbered low middle xs) (hy : Numbered middle high ys) (hlow : low ≤ middle)
    (hhigh : middle ≤ high) : Numbered low high (xs ++ ys) := by
  constructor
  · rw [List.map_append, List.nodup_append]
    refine ⟨hx.distinct, hy.distinct, ?_⟩
    intro a ha b hb hab
    obtain ⟨x, hxmem, rfl⟩ := List.mem_map.mp ha
    obtain ⟨y, hymem, rfl⟩ := List.mem_map.mp hb
    have h₁ := (hx.range x hxmem).2
    have h₂ := (hy.range y hymem).1
    omega
  · intro l hl
    rcases List.mem_append.mp hl with hl | hl
    · exact (hx.widen (Nat.le_refl _) hhigh).range l hl
    · exact (hy.widen hlow (Nat.le_refl _)).range l hl

/-- `p` reads trees without `void` values, whose declarations are numbered in the order in which
they are read. -/
def ReadsBody (p : Parser α) (voidFree : α → Bool) (locals : α → List LocalDecl) : Prop :=
  ∀ low, Gives low p fun a high => voidFree a = true ∧ Numbered low high (locals a)

theorem readsBody_statementsWithin {statement : Parser (Stmt Node)}
    (h : ReadsBody statement Stmt.voidFree Stmt.locals) (bound : Nat) :
    ReadsBody (statementsWithin statement bound) Stmt.listVoidFree Stmt.listLocals := by
  induction bound with
  | zero => exact fun low => gives_refuse low _ _
  | succ bound ih =>
      refine fun low => .skip (still_next _) fun closed => ?_
      split
      · exact .skip still_advance fun _ => .pure ⟨rfl, .nil _ _⟩
      · refine .skip (still_next _) fun ended => ?_
        split
        · exact gives_expecting low _ _
        · refine .bind (h low) fun first middle hlow hfirst => ?_
          refine .bind (ih middle) fun rest high hhigh hrest => .pure ⟨?_, ?_⟩
          · simp [Stmt.listVoidFree, hfirst.1, hrest.1]
          · exact hfirst.2.append hrest.2 hlow hhigh

theorem readsBody_blockOver {statement : Parser (Stmt Node)}
    (h : ReadsBody statement Stmt.voidFree Stmt.locals) :
    ReadsBody (blockOver statement) Stmt.listVoidFree Stmt.listLocals :=
  fun low => .skip (still_punct _ _) fun _ => .skip still_budget fun bound =>
    readsBody_statementsWithin h bound low

theorem readsValues_condition (context : String) : ReadsValues (condition context) := by
  refine fun low => .skip (still_punct _ _) fun _ => ?_
  refine .bind (readsValues_expression low) fun value middle _ hvalue => ?_
  exact .skip (still_punct _ _) fun _ => .pure hvalue

section Blocks

variable {block : Parser (List (Stmt Node))}
  (h : ReadsBody block Stmt.listVoidFree Stmt.listLocals)

include h

theorem readsBody_arm (word : Keyword) :
    ReadsBody (arm block word) Stmt.armVoidFree Stmt.armLocals := by
  refine fun low => .skip still_peek fun first => .skip (still_keyword _ _) fun _ => ?_
  refine .bind (readsValues_condition _ low) fun guard middle hlow hguard => ?_
  refine .bind (h middle) fun body high _ hbody => .skip (still_spanFrom _) fun span => .pure ?_
  exact ⟨by simp [Stmt.armVoidFree, hguard, hbody.1], hbody.2.widen hlow (Nat.le_refl _)⟩

theorem readsBody_elifArmsWithin (bound : Nat) :
    ReadsBody (elifArmsWithin block bound) Stmt.armsVoidFree Stmt.armsLocals := by
  induction bound with
  | zero => exact fun low => gives_refuse low _ _
  | succ bound ih =>
      refine fun low => .skip (still_next _) fun another => ?_
      split
      · refine .bind (readsBody_arm h .elif low) fun first middle hlow hfirst => ?_
        refine .bind (ih middle) fun rest high hhigh hrest => .pure ⟨?_, ?_⟩
        · simp [Stmt.armsVoidFree, hfirst.1, hrest.1]
        · exact hfirst.2.append hrest.2 hlow hhigh
      · exact .pure ⟨rfl, .nil _ _⟩

theorem readsBody_elseBody : ReadsBody (elseBody block) Stmt.elseVoidFree Stmt.elseLocals := by
  refine fun low => .skip (still_next _) fun present => ?_
  split
  · exact .skip still_advance fun _ => .bind (h low) fun body high _ hbody => .pure hbody
  · exact .pure ⟨rfl, .nil _ _⟩

theorem readsBody_conditional : ReadsBody (conditional block) Stmt.voidFree Stmt.locals := by
  refine fun low => .skip still_peek fun first => ?_
  refine .bind (readsBody_arm h .if_ low) fun firstArm m₁ h₁ hfirst => ?_
  refine .skip still_budget fun bound => ?_
  refine .bind (readsBody_elifArmsWithin h bound m₁) fun others m₂ h₂ hothers => ?_
  refine .bind (readsBody_elseBody h m₂) fun otherwise m₃ h₃ hlast => ?_
  refine .bind (gives_nodeFrom m₃ _) fun node high h₄ _ => .pure ⟨?_, ?_⟩
  · simp [Stmt.voidFree, Stmt.armsVoidFree, hfirst.1, hothers.1, hlast.1]
  · have harms := hfirst.2.append hothers.2 h₁ h₂
    exact harms.append (hlast.2.widen (Nat.le_refl _) h₄) (Nat.le_trans h₁ h₂)
      (Nat.le_trans h₃ h₄)

theorem readsBody_loop : ReadsBody (loop block) Stmt.voidFree Stmt.locals := by
  refine fun low => .skip still_peek fun first => .skip (still_keyword _ _) fun _ => ?_
  refine .bind (readsValues_condition _ low) fun guard m₁ h₁ hguard => ?_
  refine .bind (h m₁) fun body m₂ _ hbody => .bind (gives_nodeFrom m₂ _) fun node high h₃ _ => ?_
  exact .pure ⟨by simp [Stmt.voidFree, hguard, hbody.1], hbody.2.widen h₁ h₃⟩

end Blocks

theorem readsBody_returnStatement : ReadsBody returnStatement Stmt.voidFree Stmt.locals := by
  have hvalue : ∀ low, Gives low returnValue fun v _ => v.all Expr.voidFree = true := by
    refine fun low => .skip (still_next _) fun bare => ?_
    split
    · exact .pure rfl
    · exact .bind (readsValues_expression low) fun e high _ he => .pure (by simpa using he)
  refine fun low => .skip still_peek fun first => .skip (still_keyword _ _) fun _ => ?_
  refine .bind (hvalue low) fun value middle _ hv => .skip (still_punct _ _) fun _ => ?_
  exact .bind (gives_nodeFrom middle _) fun node high _ _ => .pure ⟨hv, .nil _ _⟩

theorem readsBody_declaration (kind : DeclKind) :
    ReadsBody (declaration kind) Stmt.voidFree Stmt.locals := by
  refine fun low => .skip still_peek fun first => .skip (still_keyword _ _) fun _ => ?_
  refine .skip (still_identifier _) fun name => .skip (still_punct _ _) fun _ => ?_
  refine .bind (gives_valueType low) fun type m₁ h₁ htype => .skip (still_next _) fun present => ?_
  split
  · refine .skip still_advance fun _ => ?_
    refine .bind (readsValues_expression m₁) fun initial m₂ h₂ hinitial => ?_
    refine .skip (still_punct _ _) fun _ => .bind (gives_nodeFrom m₂ _) fun node high h₃ hnode => ?_
    refine .pure ⟨by simp [Stmt.voidFree, htype.1, hinitial], ?_⟩
    refine ⟨List.nodup_singleton _, fun l hl => ?_⟩
    obtain rfl := List.mem_singleton.mp hl
    obtain ⟨hid, rfl⟩ := hnode
    dsimp only
    omega
  · exact gives_expecting m₁ _ _

theorem readsBody_expressionStatement :
    ReadsBody expressionStatement Stmt.voidFree Stmt.locals := by
  refine fun low => .skip still_peek fun first => ?_
  refine .bind (readsValues_expression low) fun value middle _ hvalue => ?_
  refine .skip (still_punct _ _) fun _ => .bind (gives_nodeFrom middle _) fun node high _ _ => ?_
  exact .pure ⟨hvalue, .nil _ _⟩

theorem readsBody_statementWithin (bound : Nat) :
    ReadsBody (statementWithin bound) Stmt.voidFree Stmt.locals := by
  induction bound with
  | zero => exact fun low => gives_refuse low _ _
  | succ bound ih =>
      have hblock := readsBody_blockOver ih
      refine fun low => .skip still_peek fun t => ?_
      split
      · exact readsBody_conditional hblock low
      · exact readsBody_loop hblock low
      · exact readsBody_returnStatement low
      · exact readsBody_declaration .var low
      · exact readsBody_declaration .const low
      · exact readsBody_expressionStatement low

theorem readsBody_block : ReadsBody block Stmt.listVoidFree Stmt.listLocals :=
  fun low => .skip still_budget fun bound =>
    readsBody_blockOver (readsBody_statementWithin bound) low

end Parser

/-! ## Programs -/

def Func.DistinctLocals {α : Type} (f : Func α) : Prop :=
  ∀ d ∈ f.definition?, ((Stmt.listLocals d.2.body).map LocalDecl.id).Nodup

namespace Parser

theorem gives_parameter (low : Nat) :
    Gives low parameter fun p _ => p.type.voidFree = true := by
  refine .skip still_peek fun first => .skip (still_identifier _) fun name => ?_
  refine .skip (still_punct _ _) fun _ => .bind (gives_valueType low) fun type high _ htype => ?_
  exact .skip (still_spanFrom _) fun span => .pure htype.1

theorem gives_signature (low : Nat) : Gives low signature fun s _ => s.voidFree = true := by
  refine .skip (still_identifier _) fun name => .skip (still_punct _ _) fun _ => ?_
  refine .bind (gives_commaList _ gives_parameter low) fun parameters m _ hps => ?_
  refine .skip (still_punct _ _) fun _ => .bind (gives_resultType m) fun result high _ hr => ?_
  refine .pure ?_
  rw [Signature.voidFree, hr.1, Bool.and_true, List.all_eq_true]
  exact hps

theorem still_importPath : Still importPath :=
  fun _ => .skip (still_keyword _ _) fun _ => .skip (still_punct _ _) fun _ =>
    .skip (still_identifier _) fun _ => .skip (still_punct _ _) fun _ =>
    .skip (still_identifier _) fun _ => .skip (still_punct _ _) fun _ => .pure rfl

theorem gives_funcDef (first : Token) (low : Nat) :
    Gives low (funcDef first) fun d _ => d.signature.voidFree = true ∧
      Stmt.listVoidFree d.body = true ∧ ((Stmt.listLocals d.body).map LocalDecl.id).Nodup := by
  refine .bind (gives_signature low) fun header m₁ _ hheader => ?_
  refine .bind (readsBody_block m₁) fun body m₂ _ hbody => ?_
  exact .bind (gives_nodeFrom m₂ _) fun node high _ _ => .pure ⟨hheader, hbody.1, hbody.2.distinct⟩

theorem gives_funcImport (first : Token) (low : Nat) :
    Gives low (funcImport first) fun i _ => i.signature.voidFree = true := by
  refine .skip still_importPath fun path => .bind (gives_signature low) fun header m _ hheader => ?_
  refine .skip (still_punct _ _) fun _ => .bind (gives_nodeFrom m _) fun node high _ _ => ?_
  exact .pure hheader

theorem gives_function (low : Nat) :
    Gives low function fun f _ => f.voidFree = true ∧ f.DistinctLocals := by
  refine .skip still_peek fun first => .skip (still_keyword _ _) fun _ => ?_
  refine .skip still_peek fun t => ?_
  split
  · refine .bind (gives_funcImport first low) fun i high _ hi => .pure ⟨?_, ?_⟩
    · simpa [Func.voidFree, Func.definition?, Func.signature] using hi
    · simp [Func.DistinctLocals, Func.definition?]
  · refine .skip still_advance fun _ => .bind (gives_funcDef first low) fun d high _ hd => ?_
    refine .pure ⟨?_, ?_⟩
    · simp [Func.voidFree, Func.definition?, Func.signature, hd.1, hd.2.1]
    · simpa [Func.DistinctLocals, Func.definition?] using hd.2.2
  · refine .bind (gives_funcDef first low) fun d high _ hd => .pure ⟨?_, ?_⟩
    · simp [Func.voidFree, Func.definition?, Func.signature, hd.1, hd.2.1]
    · simpa [Func.DistinctLocals, Func.definition?] using hd.2.2

theorem gives_memory (low : Nat) : Gives low memory fun _ _ => True := by
  have hkind : Still memoryKind := by
    refine fun low => .skip still_peek fun t => ?_
    split
    · exact .skip still_advance fun _ => .pure rfl
    · exact .skip still_importPath fun _ => .pure rfl
    · exact .pure rfl
  have hsize : Still memorySize := by
    refine fun low => .skip still_peek fun t => ?_
    split
    · exact .skip still_advance fun _ => .pure rfl
    · exact gives_expecting low _ _
  refine .skip still_peek fun first => .skip (still_keyword _ _) fun _ => ?_
  refine .skip hkind fun kind => .skip (still_identifier _) fun name => ?_
  refine .skip (still_punct _ _) fun _ => .skip hsize fun size => ?_
  refine .skip (still_punct _ _) fun _ => .skip (still_punct _ _) fun _ => ?_
  exact .bind (gives_nodeFrom low _) fun node high _ _ => .pure trivial

theorem gives_declarationsWithin (bound low : Nat) {done : Program Node}
    (hdone : ∀ f ∈ done.funcs, f.voidFree = true ∧ f.DistinctLocals) :
    Gives low (declarationsWithin bound done) fun p _ =>
      ∀ f ∈ p.funcs, f.voidFree = true ∧ f.DistinctLocals := by
  induction bound generalizing low done with
  | zero => exact gives_refuse low _ _
  | succ bound ih =>
      refine .skip still_peek fun t => ?_
      split
      · exact .pure hdone
      · refine .bind (gives_function low) fun func middle _ hfunc => ih middle ?_
        intro f hf
        rcases List.mem_append.mp hf with hf | hf
        · exact hdone f hf
        · obtain rfl := List.mem_singleton.mp hf
          exact hfunc
      · split
        · exact .bind (gives_memory low) fun memory middle _ _ => ih middle hdone
        · exact gives_refuse low _ _
      · exact gives_expecting low _ _

end Parser

/-- A program that was read has no `void` values, and its declarations have numbers of their
own. -/
theorem parseProgram_sound {tokens : List Token} {p : Program Node}
    (htokens : ∀ t ∈ tokens, t.kind.hasValue = true) (h : parseProgram tokens = .ok p) :
    p.voidFree = true ∧ ∀ f ∈ p.funcs, f.DistinctLocals := by
  have hprogram : Parser.Gives 0 Parser.program fun p _ =>
      ∀ f ∈ p.funcs, f.voidFree = true ∧ f.DistinctLocals :=
    .skip Parser.still_budget fun bound => Parser.gives_declarationsWithin bound 0 (by simp)
  have hrun := hprogram ⟨.start tokens, 0⟩ (by simpa [Parser.Sound] using htokens) rfl
  simp only [parseProgram, Parser.run] at h
  cases hresult : Parser.program ⟨.start tokens, 0⟩ with
  | error e t =>
      rw [hresult] at h
      cases h
  | ok q t =>
      rw [hresult] at h hrun
      cases h
      exact ⟨List.all_eq_true.mpr fun f hf => (hrun.2.2 f hf).1, fun f hf => (hrun.2.2 f hf).2⟩

end Wattle
