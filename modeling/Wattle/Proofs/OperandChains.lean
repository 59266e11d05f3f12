import Wattle.Proofs.Grammar

/-!
# Chains of operands

An expression is written as a chain: operands, each with its conversions, and an operator between
any two of them. How a chain is grouped is said here without a parser. The chain is divided at the
last of its loosest operators, and each of the two parts is grouped in the same way. The tokens of a
chain determine its operands and its operators, so there is one way only to read them.
-/

namespace Wattle

/-! ## Grouping by levels -/

/-- How tightly an operator binds. The loosest operator is assignment. -/
def BinaryOp.level : BinaryOp → Nat
  | assign => 0
  | less | lessEqual | greater | greaterEqual => 1
  | equal | notEqual => 2
  | bitAnd | bitOr | bitXor => 3
  | leftShift | rightShift => 4
  | add | sub => 5
  | mul | div | rem => 6

section Dividing

variable {β : Type} {rest before behind : List (BinaryOp × β)} {root : BinaryOp × β}

/-- Divide operators with their right operands at the last of the loosest operators: what stands
before it, the operator with its operand, and what stands behind. -/
def divide? : List (BinaryOp × β) →
    Option (List (BinaryOp × β) × (BinaryOp × β) × List (BinaryOp × β))
  | [] => none
  | r :: rest =>
    match divide? rest with
    | none => some ([], r, [])
    | some (before, root, behind) =>
      if r.1.level < root.1.level then some ([], r, rest) else some (r :: before, root, behind)

theorem divide?_eq_none : divide? rest = none ↔ rest = [] := by
  cases rest with
  | nil => simp [divide?]
  | cons r rest =>
      refine iff_of_false ?_ nofun
      rw [divide?]
      split
      · nofun
      · split <;> nofun

/-- Nothing before the root is looser, and everything behind it is tighter. -/
theorem divide?_sound (h : divide? rest = some (before, root, behind)) :
    rest = before ++ root :: behind ∧ (∀ r ∈ before, root.1.level ≤ r.1.level) ∧
      ∀ r ∈ behind, root.1.level < r.1.level := by
  induction rest generalizing before root behind with
  | nil => cases h
  | cons r rest ih =>
      rw [divide?] at h
      split at h
      · next hnone =>
        obtain rfl := divide?_eq_none.mp hnone
        cases h
        simp
      · next before' root' behind' hsome =>
        obtain ⟨rfl, hbefore, hbehind⟩ := ih hsome
        split at h
        · next hlooser =>
          cases h
          refine ⟨rfl, nofun, List.forall_mem_append.mpr ⟨?_, List.forall_mem_cons.mpr ⟨hlooser, ?_⟩⟩⟩
          · exact fun r' hr' => Nat.lt_of_lt_of_le hlooser (hbefore r' hr')
          · exact fun r' hr' => Nat.lt_trans hlooser (hbehind r' hr')
        · next htighter =>
          cases h
          exact ⟨rfl, List.forall_mem_cons.mpr ⟨Nat.le_of_not_lt htighter, hbefore⟩, hbehind⟩

/-- Only one place is such a root. -/
theorem divide?_append (hbefore : ∀ r ∈ before, root.1.level ≤ r.1.level)
    (hbehind : ∀ r ∈ behind, root.1.level < r.1.level) :
    divide? (before ++ root :: behind) = some (before, root, behind) := by
  induction before with
  | nil =>
      rw [List.nil_append, divide?]
      split
      · next hnone => rw [divide?_eq_none.mp hnone]
      · next before' root' behind' hsome =>
        obtain ⟨rfl, -, -⟩ := divide?_sound hsome
        exact if_pos (hbehind root' (List.mem_append_right _ List.mem_cons_self))
  | cons r before ih =>
      obtain ⟨hr, hbefore⟩ := List.forall_mem_cons.mp hbefore
      rw [List.cons_append, divide?, ih hbefore]
      exact if_neg (Nat.not_lt_of_le hr)

end Dividing

/-- The tree of operands joined by operators: the operand if there is one only, and otherwise the
last of the loosest operators with the trees of the parts before it and behind it. -/
def group (first : Expr Unit) (rest : List (BinaryOp × Expr Unit)) : Expr Unit :=
  match _hdivided : divide? rest with
  | none => first
  | some (before, (op, middle), behind) =>
    .binary () op (group first before) (group middle behind)
termination_by rest.length
decreasing_by
  all_goals
    obtain ⟨rfl, -, -⟩ := divide?_sound _hdivided
    simp only [List.length_append, List.length_cons]
    omega

theorem group_nil (first : Expr Unit) : group first [] = first := by
  rw [group]
  rfl

theorem group_append {first middle : Expr Unit} {op : BinaryOp}
    {before behind : List (BinaryOp × Expr Unit)} (hbefore : ∀ r ∈ before, op.level ≤ r.1.level)
    (hbehind : ∀ r ∈ behind, op.level < r.1.level) :
    group first (before ++ (op, middle) :: behind) =
      .binary () op (group first before) (group middle behind) := by
  have hdivided : divide? (before ++ (op, middle) :: behind) = some (before, (op, middle), behind) :=
    divide?_append hbefore hbehind
  rw [group]
  split
  · next hnone => rw [hdivided] at hnone; cases hnone
  · next hsome =>
    rw [hdivided] at hsome
    cases hsome
    rfl

/-! ## Chains and their tokens -/

mutual

/-- An operand without its conversions. -/
inductive Prefixed where
  | number (digits : String) (type : BaseType)
  | name (id : String)
  /-- A call, possibly with a comma behind the last argument. -/
  | call (callee : String) (args : List Chain) (trailing : Bool)
  | paren (inner : Chain)
  /-- A prefix operator takes an operand without conversions. -/
  | unary (op : UnaryOp) (operand : Prefixed)

/-- Operands, each with the types that it is converted to, and the operators between them. -/
inductive Chain where
  | last (first : Prefixed) (targets : List Ty)
  | join (first : Prefixed) (targets : List Ty) (op : BinaryOp) (rest : Chain)

end

/-- The tokens of the conversions behind an operand. -/
def conversionTokens (targets : List Ty) : List TokenKind :=
  targets.flatMap fun target => .keyword .as_ :: target.yield

mutual

def Prefixed.tokens : Prefixed → List TokenKind
  | .number digits type => [.number digits type]
  | .name id => [.identifier id]
  | .call callee args trailing =>
    .identifier callee :: .punct .leftParen ::
      (commaSeparated trailing (Chain.tokensEach args) ++ [.punct .rightParen])
  | .paren inner => .punct .leftParen :: (inner.tokens ++ [.punct .rightParen])
  | .unary op operand => .operator op.operator :: operand.tokens

def Chain.tokens : Chain → List TokenKind
  | .last first targets => first.tokens ++ conversionTokens targets
  | .join first targets op rest =>
    first.tokens ++ (conversionTokens targets ++ .operator op.operator :: rest.tokens)

def Chain.tokensEach : List Chain → List (List TokenKind)
  | [] => []
  | c :: rest => c.tokens :: Chain.tokensEach rest

end

/-- The operand under its conversions, the first one innermost. -/
def converted (operand : Expr Unit) (targets : List Ty) : Expr Unit :=
  targets.foldl (.cast ()) operand

mutual

def Prefixed.tree : Prefixed → Expr Unit
  | .number digits type => .number () digits type
  | .name id => .name () id
  | .call callee args _ => .call () callee (Chain.trees args)
  | .paren inner => .paren () (group inner.operands.1 inner.operands.2)
  | .unary op operand => .unary () op operand.tree

/-- The trees of the operands of a chain: the first one, and the others with the operators in front
of them. -/
def Chain.operands : Chain → Expr Unit × List (BinaryOp × Expr Unit)
  | .last first targets => (converted first.tree targets, [])
  | .join first targets op rest =>
    (converted first.tree targets, (op, rest.operands.1) :: rest.operands.2)

def Chain.trees : List Chain → List (Expr Unit)
  | [] => []
  | c :: rest => group c.operands.1 c.operands.2 :: Chain.trees rest

end

/-- The tree that a chain is grouped to. -/
def Chain.tree (c : Chain) : Expr Unit :=
  group c.operands.1 c.operands.2

/-! ## Joining chains -/

namespace Chain

/-- One chain, an operator and another chain. -/
def append : Chain → BinaryOp → Chain → Chain
  | last first targets, op, right => join first targets op right
  | join first targets op' rest, op, right => join first targets op' (rest.append op right)

theorem tokens_append (op : BinaryOp) (right : Chain) : (left : Chain) →
    (left.append op right).tokens = left.tokens ++ .operator op.operator :: right.tokens
  | .last first targets => by simp [append, tokens]
  | .join first targets op' rest => by simp [append, tokens, tokens_append op right rest]

theorem operands_append (op : BinaryOp) (right : Chain) : (left : Chain) →
    (left.append op right).operands =
      (left.operands.1, left.operands.2 ++ (op, right.operands.1) :: right.operands.2)
  | .last first targets => by simp [append, operands]
  | .join first targets op' rest => by simp [append, operands, operands_append op right rest]

/-- An operator that is no tighter than those before it and looser than those behind it is the root
of the joined chain. -/
theorem tree_append {op : BinaryOp} {left right : Chain}
    (hleft : ∀ r ∈ left.operands.2, op.level ≤ r.1.level)
    (hright : ∀ r ∈ right.operands.2, op.level < r.1.level) :
    (left.append op right).tree = .binary () op left.tree right.tree := by
  rw [tree, operands_append, group_append hleft hright, tree, tree]

end Chain

/-! ## The tokens determine the operands -/

theorem Ty.yield_append_inj {t t' : Ty} {r r' : List TokenKind}
    (h : t.yield ++ r = t'.yield ++ r') : t = t' ∧ r = r' := by
  induction t generalizing t' with
  | base b =>
      cases t' with
      | base b' => simpa [yield] using h
      | pointer t' => simp [yield] at h
  | pointer t ih =>
      cases t' with
      | base b' => simp [yield] at h
      | pointer t' =>
          obtain ⟨rfl, rfl⟩ := ih (List.cons.inj h).2
          exact ⟨rfl, rfl⟩

theorem conversionTokens_append_inj {targets targets' : List Ty} {r r' : List TokenKind}
    (hr : r.head? ≠ some (.keyword .as_)) (hr' : r'.head? ≠ some (.keyword .as_))
    (h : conversionTokens targets ++ r = conversionTokens targets' ++ r') :
    targets = targets' ∧ r = r' := by
  induction targets generalizing targets' with
  | nil =>
      cases targets' with
      | nil => exact ⟨rfl, h⟩
      | cons target' targets' =>
          obtain rfl : r = _ := h
          exact absurd rfl hr
  | cons target targets ih =>
      cases targets' with
      | nil =>
          obtain rfl : _ = r' := h
          exact absurd rfl hr'
      | cons target' targets' =>
          simp only [conversionTokens, List.flatMap_cons, List.cons_append, List.append_assoc,
            List.cons.injEq, true_and] at h
          obtain ⟨rfl, hrest⟩ := Ty.yield_append_inj h
          obtain ⟨rfl, rfl⟩ := ih hrest
          exact ⟨rfl, rfl⟩

/-- Neither a conversion nor the arguments of a call come next. -/
structure EndsOperand (r : List TokenKind) : Prop where
  conversion : r.head? ≠ some (.keyword .as_)
  arguments : r.head? ≠ some (.punct .leftParen)

theorem EndsOperand.operator (mark : Operator) (r : List TokenKind) :
    EndsOperand (.operator mark :: r) :=
  ⟨by simp, by simp⟩

/-- What may stand behind an argument or behind the expression in parentheses. -/
def Closes (r : List TokenKind) : Prop :=
  ∀ k, r.head? = some k → k = .punct .comma ∨ k = .punct .rightParen

namespace Closes

theorem comma (r : List TokenKind) : Closes (.punct .comma :: r) := by
  rintro k ⟨⟩
  exact .inl rfl

theorem rightParen (r : List TokenKind) : Closes (.punct .rightParen :: r) := by
  rintro k ⟨⟩
  exact .inr rfl

theorem endsOperand {r : List TokenKind} (h : Closes r) : EndsOperand r :=
  ⟨fun hk => (h _ hk).elim nofun nofun, fun hk => (h _ hk).elim nofun nofun⟩

theorem not_operator {mark : Operator} {r : List TokenKind} : ¬ Closes (.operator mark :: r) :=
  fun h => (h _ rfl).elim nofun nofun

end Closes

/-- An operand with its conversions is determined if the operand alone is. -/
theorem operand_append_inj {first first' : Prefixed} {targets targets' : List Ty}
    {r r' : List TokenKind}
    (hfirst : ∀ {r r' : List TokenKind}, r.head? ≠ some (.punct .leftParen) →
      r'.head? ≠ some (.punct .leftParen) → first.tokens ++ r = first'.tokens ++ r' →
      first.tree = first'.tree ∧ r = r')
    (hr : EndsOperand r) (hr' : EndsOperand r')
    (h : first.tokens ++ (conversionTokens targets ++ r) =
      first'.tokens ++ (conversionTokens targets' ++ r')) :
    first.tree = first'.tree ∧ targets = targets' ∧ r = r' := by
  have hclosed : ∀ (targets : List Ty) {r : List TokenKind}, EndsOperand r →
      (conversionTokens targets ++ r).head? ≠ some (.punct .leftParen) := by
    intro targets r hr
    cases targets with
    | nil => exact hr.arguments
    | cons target targets => simp [conversionTokens]
  obtain ⟨htree, hrest⟩ := hfirst (hclosed targets hr) (hclosed targets' hr') h
  exact ⟨htree, conversionTokens_append_inj hr.conversion hr'.conversion hrest⟩

theorem Prefixed.tokens_starts (p : Prefixed) : StartsWith (· ≠ .punct .rightParen) p.tokens := by
  cases p <;> exact ⟨_, _, rfl, nofun⟩

theorem Chain.tokens_starts (c : Chain) : StartsWith (· ≠ .punct .rightParen) c.tokens := by
  cases c <;> exact (Prefixed.tokens_starts _).append _

/-- What stands in a list behind its first item. -/
theorem commaSeparated_cons (trailing : Bool) (item : List TokenKind)
    (rest : List (List TokenKind)) :
    commaSeparated trailing (item :: rest) = item ++
      if rest = [] ∧ trailing = false then [] else .punct .comma :: commaSeparated trailing rest := by
  cases rest with
  | nil => cases trailing <;> simp [commaSeparated]
  | cons next rest => simp [commaSeparated]

theorem closes_behind_item (trailing : Bool) (rest : List (List TokenKind)) (r : List TokenKind) :
    Closes ((if rest = [] ∧ trailing = false then []
      else .punct .comma :: commaSeparated trailing rest) ++ ([.punct .rightParen] ++ r)) := by
  split
  · exact .rightParen r
  · exact .comma _

theorem Chain.tokensEach_eq_nil {cs : List Chain} : Chain.tokensEach cs = [] ↔ cs = [] := by
  cases cs <;> simp [Chain.tokensEach]

theorem Chain.arguments_start (c : Chain) (cs : List Chain) (trailing : Bool)
    {r r' : List TokenKind} :
    commaSeparated trailing (Chain.tokensEach (c :: cs)) ++ r ≠ .punct .rightParen :: r' := by
  intro h
  obtain ⟨k, rest, hstart, hk⟩ := c.tokens_starts
  rw [Chain.tokensEach, commaSeparated_cons, hstart] at h
  exact hk (List.cons.inj h).1

mutual

/-- Behind an operand without conversions may stand anything but an opening parenthesis, which would
make a name the function of a call. -/
theorem Prefixed.tokens_append_inj : (p p' : Prefixed) → {r r' : List TokenKind} →
    r.head? ≠ some (.punct .leftParen) → r'.head? ≠ some (.punct .leftParen) →
    p.tokens ++ r = p'.tokens ++ r' → p.tree = p'.tree ∧ r = r'
  | .number digits type, p', r, r', _, _, h => by
      cases p' with
      | number digits' type' =>
          obtain ⟨⟨⟩, rfl⟩ := List.cons.inj h
          exact ⟨rfl, rfl⟩
      | name _ | call _ _ _ | paren _ | unary _ _ => cases (List.cons.inj h).1
  | .name id, p', r, r', hr, _, h => by
      cases p' with
      | name id' =>
          obtain ⟨⟨⟩, rfl⟩ := List.cons.inj h
          exact ⟨rfl, rfl⟩
      | call callee args trailing =>
          obtain rfl : r = _ := (List.cons.inj h).2
          exact absurd rfl hr
      | number _ _ | paren _ | unary _ _ => cases (List.cons.inj h).1
  | .call callee args trailing, p', r, r', _, hr', h => by
      cases p' with
      | call callee' args' trailing' =>
          simp only [Prefixed.tokens, List.cons_append, List.append_assoc, List.cons.injEq,
            TokenKind.identifier.injEq, true_and] at h
          obtain ⟨rfl, hlists⟩ := h
          obtain ⟨htrees, rfl⟩ := Chain.tokensEach_append_inj args args' hlists
          exact ⟨by rw [Prefixed.tree, Prefixed.tree, htrees], rfl⟩
      | name id' =>
          obtain rfl : _ = r' := (List.cons.inj h).2
          exact absurd rfl hr'
      | number _ _ | paren _ | unary _ _ => cases (List.cons.inj h).1
  | .paren inner, p', r, r', _, _, h => by
      cases p' with
      | paren inner' =>
          simp only [Prefixed.tokens, List.cons_append, List.append_assoc, List.cons.injEq,
            true_and] at h
          obtain ⟨hoperands, hrest⟩ := Chain.tokens_append_inj inner inner'
            (.rightParen _) (.rightParen _) h
          exact ⟨by rw [Prefixed.tree, Prefixed.tree, hoperands], (List.cons.inj hrest).2⟩
      | number _ _ | name _ | call _ _ _ | unary _ _ => cases (List.cons.inj h).1
  | .unary op operand, p', r, r', hr, hr', h => by
      cases p' with
      | unary op' operand' =>
          obtain ⟨hop, hoperand⟩ := List.cons.inj h
          obtain rfl := UnaryOp.operator_injective (TokenKind.operator.inj hop)
          obtain ⟨htree, rfl⟩ := Prefixed.tokens_append_inj operand operand' hr hr' hoperand
          exact ⟨by rw [Prefixed.tree, Prefixed.tree, htree], rfl⟩
      | number _ _ | name _ | call _ _ _ | paren _ => cases (List.cons.inj h).1

theorem Chain.tokens_append_inj : (c c' : Chain) → {r r' : List TokenKind} → Closes r →
    Closes r' → c.tokens ++ r = c'.tokens ++ r' → c.operands = c'.operands ∧ r = r'
  | .last first targets, c', r, r', hr, hr', h => by
      cases c' with
      | last first' targets' =>
          simp only [Chain.tokens, List.append_assoc] at h
          obtain ⟨htree, rfl, rfl⟩ := operand_append_inj
            (Prefixed.tokens_append_inj first first') hr.endsOperand hr'.endsOperand h
          exact ⟨by rw [Chain.operands, Chain.operands, htree], rfl⟩
      | join first' targets' op rest =>
          simp only [Chain.tokens, List.append_assoc, List.cons_append] at h
          obtain ⟨-, -, rfl⟩ := operand_append_inj
            (Prefixed.tokens_append_inj first first') hr.endsOperand (.operator _ _) h
          exact absurd hr Closes.not_operator
  | .join first targets op rest, c', r, r', hr, hr', h => by
      cases c' with
      | last first' targets' =>
          simp only [Chain.tokens, List.append_assoc, List.cons_append] at h
          obtain ⟨-, -, rfl⟩ := operand_append_inj
            (Prefixed.tokens_append_inj first first') (.operator _ _) hr'.endsOperand h
          exact absurd hr' Closes.not_operator
      | join first' targets' op' rest' =>
          simp only [Chain.tokens, List.append_assoc, List.cons_append] at h
          obtain ⟨htree, rfl, hjoined⟩ := operand_append_inj
            (Prefixed.tokens_append_inj first first') (.operator _ _) (.operator _ _) h
          obtain ⟨hop, hothers⟩ := List.cons.inj hjoined
          obtain rfl := BinaryOp.operator_injective (TokenKind.operator.inj hop)
          obtain ⟨hoperands, rfl⟩ := Chain.tokens_append_inj rest rest' hr hr' hothers
          exact ⟨by rw [Chain.operands, Chain.operands, htree, hoperands], rfl⟩

theorem Chain.tokensEach_append_inj : (cs cs' : List Chain) → {trailing trailing' : Bool} →
    {r r' : List TokenKind} →
    commaSeparated trailing (Chain.tokensEach cs) ++ ([.punct .rightParen] ++ r) =
      commaSeparated trailing' (Chain.tokensEach cs') ++ ([.punct .rightParen] ++ r') →
    Chain.trees cs = Chain.trees cs' ∧ r = r'
  | [], cs', trailing, trailing', r, r', h => by
      cases cs' with
      | nil => exact ⟨rfl, (List.cons.inj h).2⟩
      | cons c' cs' => exact absurd h.symm (Chain.arguments_start c' cs' trailing')
  | c :: cs, cs', trailing, trailing', r, r', h => by
      cases cs' with
      | nil => exact absurd h (Chain.arguments_start c cs trailing)
      | cons c' cs' =>
          simp only [Chain.tokensEach, commaSeparated_cons, List.append_assoc] at h
          obtain ⟨hoperands, hbehind⟩ := Chain.tokens_append_inj c c'
            (closes_behind_item _ _ _) (closes_behind_item _ _ _) h
          rw [Chain.trees, Chain.trees, hoperands]
          split at hbehind
          · next hlast =>
            split at hbehind
            · next hlast' =>
              rw [Chain.tokensEach_eq_nil.mp hlast.1, Chain.tokensEach_eq_nil.mp hlast'.1]
              exact ⟨rfl, (List.cons.inj hbehind).2⟩
            · cases (List.cons.inj hbehind).1
          · split at hbehind
            · cases (List.cons.inj hbehind).1
            · obtain ⟨htrees, rfl⟩ :=
                Chain.tokensEach_append_inj cs cs' (List.cons.inj hbehind).2
              exact ⟨by rw [htrees], rfl⟩

end

/-- There is one way only to see tokens as a chain of operands. -/
theorem Chain.tree_eq_of_tokens_eq {c c' : Chain} (h : c.tokens = c'.tokens) :
    c.tree = c'.tree := by
  have hnothing : Closes [] := nofun
  have hsame := (Chain.tokens_append_inj c c' hnothing hnothing (by rw [h])).1
  rw [Chain.tree, Chain.tree, hsame]

end Wattle
