import Wattle.Proofs.LexicalStructure
import Wattle.Proofs.OperandChains
import Wattle.Proofs.ParserSound

/-!
# Precedence

The reader of expressions descends level by level and joins the operands of a level from left to
right. What it reads is a chain of operands, and the tree it gives is the one that the chain is
grouped to: the invariant of a level is that its operators are no looser than the level.
-/

namespace Wattle

/-- The form of a tree, without the notes. -/
def Expr.shape {α : Type} (e : Expr α) : Expr Unit :=
  e.map fun _ => ()

/-- The levels of a list are numbered from `k` on. -/
def BinaryOp.Numbered : Nat → List (List BinaryOp) → Prop
  | _, [] => True
  | k, level :: rest => (∀ op ∈ level, op.level = k) ∧ Numbered (k + 1) rest

theorem BinaryOp.numbered_levels : Numbered 0 levels := by
  simp [Numbered, levels, level]

namespace Parser

/-- What is read is a chain with operators of the levels from `k` on, and the result is its tree. -/
def ReadsChain (k : Nat) (p : Parser (Expr Node)) : Prop :=
  ∀ s, Reads s p fun e ks _ =>
    ∃ c : Chain, ks = c.tokens ∧ e.shape = c.tree ∧ ∀ r ∈ c.operands.2, k ≤ r.1.level

/-- What is read is an operand without conversions, and the result is its tree. -/
def ReadsPrefixed (p : Parser (Expr Node)) : Prop :=
  ∀ s, Reads s p fun e ks _ => ∃ q : Prefixed, ks = q.tokens ∧ e.shape = q.tree

/-- A type has no commas. -/
theorem drops_valueType {ks : List TokenKind} (h : Derives .valueType ks) : Drops ks ks := by
  generalize hphrase : Phrase.valueType = phrase at h
  induction h with
  | pointerType _ ih => exact (ih hphrase).cons nofun
  | baseType _ => exact .single nofun
  | _ => cases hphrase

theorem reads_valueType (s : ParseState) :
    Reads s valueType fun type ks _ => ks = type.yield := by
  refine (parses_valueType s).imp ?_
  rintro type ks t ⟨hderives, hdrops⟩
  have hsame := (drops_valueType hderives []).symm.trans (hdrops [])
  exact List.append_cancel_right hsame

/-- Behind `left`, which has the form of the chain `c`, the operators of the level and their right
operands make the chain longer. -/
theorem reads_chainWithin {operand : Parser (Expr Node)} {level : List BinaryOp} {k : Nat}
    (hlevel : ∀ op ∈ level, op.level = k) (hoperand : ReadsChain (k + 1) operand) (bound : Nat)
    {left : Expr Node} {c : Chain} (hleft : left.shape = c.tree)
    (hc : ∀ r ∈ c.operands.2, k ≤ r.1.level) (s : ParseState) :
    Reads s (chainWithin level operand bound left) fun e ks _ =>
      ∃ c' : Chain, c.tokens ++ ks = c'.tokens ∧ e.shape = c'.tree ∧
        ∀ r ∈ c'.operands.2, k ≤ r.1.level := by
  induction bound generalizing left c s with
  | zero => exact .refuse _
  | succ bound ih =>
      refine .peek ?_
      split
      · exact .pure ⟨c, List.append_nil _, hleft, hc⟩
      · next op hop =>
        obtain ⟨hkind, hmem⟩ := levelOp?_eq_some.mp hop
        obtain rfl := hlevel op hmem
        refine .advance hkind nofun fun t _ => .bind (hoperand t) ?_
        rintro right _ u - ⟨d, rfl, hright, hd⟩
        refine .newNode fun node v _ _ => ?_
        have hshape : (Expr.binary node op left right).shape = (c.append op d).tree := by
          rw [Chain.tree_append hc hd, ← hleft, ← hright]
          rfl
        have hjoined : ∀ r ∈ (c.append op d).operands.2, op.level ≤ r.1.level := by
          rw [Chain.operands_append]
          refine List.forall_mem_append.mpr ⟨hc, List.forall_mem_cons.mpr ⟨Nat.le_refl _, ?_⟩⟩
          exact fun r hr => Nat.le_of_succ_le (hd r hr)
        have hrest := ih hshape hjoined v
        rw [Chain.tokens_append] at hrest
        simpa using hrest

theorem readsChain_chain {operand : Parser (Expr Node)} {level : List BinaryOp} {k : Nat}
    (hlevel : ∀ op ∈ level, op.level = k) (hoperand : ReadsChain (k + 1) operand) (bound : Nat) :
    ReadsChain k (chain bound level operand) := by
  intro s
  refine .bind (hoperand s) ?_
  rintro left _ t - ⟨c, rfl, hleft, hc⟩
  refine (reads_chainWithin hlevel hoperand bound hleft
    (fun r hr => Nat.le_of_succ_le (hc r hr)) t).imp ?_
  rintro e ks u ⟨c', hks, hshape, hc'⟩
  exact ⟨c', hks, hshape, hc'⟩

/-- Behind an operand that is converted to some types already, further conversions follow. -/
theorem reads_castsWithin (q : Prefixed) (bound : Nat) {targets : List Ty} {inner : Expr Node}
    (hinner : inner.shape = converted q.tree targets) (s : ParseState) :
    Reads s (castsWithin bound inner) fun e ks _ =>
      ∃ targets', conversionTokens targets ++ ks = conversionTokens targets' ∧
        e.shape = converted q.tree targets' := by
  induction bound generalizing targets inner s with
  | zero => exact .refuse _
  | succ bound ih =>
      refine .next (fun has => ?_) fun _ => .pure ⟨targets, List.append_nil _, hinner⟩
      refine .advance has nofun fun t _ => .bind (reads_valueType t) ?_
      rintro target _ u - rfl
      refine .get (.newNode fun node v _ _ => ?_)
      have hcast : (Expr.cast node inner target).shape = converted q.tree (targets ++ [target]) := by
        change Expr.cast () inner.shape target = _
        rw [hinner, converted, converted, List.foldl_append]
        rfl
      have hrest := ih hcast v
      simpa [conversionTokens] using hrest

theorem readsChain_casts {operand : Parser (Expr Node)} (hoperand : ReadsPrefixed operand)
    (bound k : Nat) : ReadsChain k (casts bound operand) := by
  intro s
  refine .bind (hoperand s) ?_
  rintro inner _ t - ⟨q, rfl, hinner⟩
  have hunconverted : inner.shape = converted q.tree [] := hinner
  refine (reads_castsWithin q bound hunconverted t).imp ?_
  rintro e ks u ⟨targets, hks, hshape⟩
  refine ⟨.last q targets, ?_, ?_, nofun⟩
  · rw [Chain.tokens, ← hks]
    rfl
  · rw [hshape, Chain.tree, Chain.operands, group_nil]

theorem readsChain_expressionOver {operand : Parser (Expr Node)}
    (hoperand : ReadsPrefixed operand) (bound : Nat) :
    ReadsChain 0 (expressionOver bound operand) := by
  have hlevels : ∀ (levels : List (List BinaryOp)) (k : Nat), BinaryOp.Numbered k levels →
      ReadsChain k (levels.foldr (chain bound) (casts bound operand)) := by
    intro levels
    induction levels with
    | nil => exact fun k _ => readsChain_casts hoperand bound k
    | cons level levels ih =>
        rintro k ⟨hlevel, hrest⟩
        exact readsChain_chain hlevel (ih (k + 1) hrest) bound
  exact hlevels _ 0 BinaryOp.numbered_levels

theorem readsPrefixed_numeric : ReadsPrefixed numeric := by
  intro s
  refine .peek ?_
  split
  · next digits type hkind =>
    refine .advance hkind nofun fun t _ => .newNode fun node u _ _ => .pure ?_
    exact ⟨.number digits type, rfl, rfl⟩
  · exact .expecting _

/-- The arguments of a call, each with its chain. -/
theorem exists_chains {args : List (Expr Node)} {phrases : List (List TokenKind)}
    (h : List.Forall₂ (fun e ks => ∃ c : Chain, ks = c.tokens ∧ e.shape = c.tree) args phrases) :
    ∃ cs, phrases = Chain.tokensEach cs ∧ Expr.mapList (fun _ => ()) args = Chain.trees cs := by
  induction h with
  | nil => exact ⟨[], rfl, rfl⟩
  | cons hfirst _ ih =>
      obtain ⟨c, rfl, hshape⟩ := hfirst
      obtain ⟨cs, rfl, hshapes⟩ := ih
      refine ⟨c :: cs, rfl, ?_⟩
      rw [Expr.mapList, Chain.trees, hshapes, ← Chain.tree, ← hshape, Expr.shape]

section Nested

variable {expression operand : Parser (Expr Node)}

theorem readsPrefixed_nameOrCall (hexpression : ReadsChain 0 expression) (bound : Nat) :
    ReadsPrefixed (nameOrCall bound expression) := by
  intro s
  refine .peek (.identifier fun name t _ => .next (fun hopen => ?_) fun _ => ?_)
  · refine .advance hopen nofun fun u _ => ?_
    have hargument : ∀ s, Reads s expression fun e ks _ =>
        ∃ c : Chain, ks = c.tokens ∧ e.shape = c.tree :=
      fun s => (hexpression s).imp fun e ks t ⟨c, hks, hshape, _⟩ => ⟨c, hks, hshape⟩
    refine .bind (reads_listWithin hargument _ bound u) ?_
    rintro args _ v - ⟨phrases, trailing, rfl, heach⟩
    obtain ⟨cs, rfl, hshapes⟩ := exists_chains heach
    refine .nodeFrom fun node w _ _ => .pure ⟨.call name cs trailing, ?_, ?_⟩
    · rw [List.append_nil]
      rfl
    · rw [Prefixed.tree, ← hshapes]
      rfl
  · exact .newNode fun node u _ _ => .pure ⟨.name name, rfl, rfl⟩

theorem readsPrefixed_parenthesized (hexpression : ReadsChain 0 expression) :
    ReadsPrefixed (parenthesized expression) := by
  intro s
  refine .peek (.punct fun t _ => .bind (hexpression t) ?_)
  rintro inner _ u - ⟨c, rfl, hinner, -⟩
  refine .punct fun v _ => .nodeFrom fun node w _ _ => .pure ⟨.paren c, rfl, ?_⟩
  rw [Prefixed.tree, ← Chain.tree, ← hinner]
  rfl

/-- A prefix operator leaves the conversions behind its operand to what it is an operand of. -/
theorem readsPrefixed_unary (hoperand : ReadsPrefixed operand) :
    ReadsPrefixed (unary operand) := by
  intro s
  refine .peek ?_
  split
  · next mark hkind =>
    split
    · next op hop =>
      rw [← UnaryOp.operator_of_ofOperator? hop] at hkind
      refine .advance hkind nofun fun t _ => .bind (hoperand t) ?_
      rintro inner _ u - ⟨q, rfl, hinner⟩
      refine .newNode fun node v _ _ => .pure ⟨.unary op q, ?_, ?_⟩
      · rw [List.append_nil]
        rfl
      · rw [Prefixed.tree, ← hinner]
        rfl
    · exact .expecting _
  · exact .expecting _

end Nested

theorem readsPrefixed_operandWithin (bound : Nat) : ReadsPrefixed (operandWithin bound) := by
  induction bound with
  | zero => exact fun s => .refuse _
  | succ bound ih =>
      have hexpression := readsChain_expressionOver ih bound
      intro s
      exact .orElseHere (readsPrefixed_numeric s) fun _ =>
        .orElseHere (readsPrefixed_nameOrCall hexpression bound _) fun _ =>
        .orElseHere (readsPrefixed_parenthesized hexpression _) fun _ =>
        .orElseHere (readsPrefixed_unary ih _) fun _ => .expecting _

theorem readsChain_expression : ReadsChain 0 expression :=
  fun s => .budget fun bound =>
    readsChain_expressionOver (readsPrefixed_operandWithin bound) bound s

end Parser

/-- What is read as an expression is a chain of operands, and the tree is the one that this chain is
grouped to, in whatever way the tokens are seen as a chain. -/
theorem expressions_are_grouped_by_levels {s t : ParseState} {e : Expr Node}
    (hend : .endOfFile ∈ s.kinds) (h : Parser.expression s = .ok e t) :
    (∃ c : Chain, s.kinds = c.tokens ++ t.kinds) ∧
      ∀ c : Chain, s.kinds = c.tokens ++ t.kinds → e.shape = c.tree := by
  have hread := Parser.readsChain_expression s hend
  rw [h] at hread
  obtain ⟨-, _, -, hkinds, c, rfl, hshape, -⟩ := hread
  refine ⟨⟨c, hkinds⟩, fun c' hkinds' => ?_⟩
  have htokens : c.tokens = c'.tokens := List.append_cancel_right (hkinds.symm.trans hkinds')
  exact hshape.trans (Chain.tree_eq_of_tokens_eq htokens)

/-- Operators of five levels, two of them at the same one, and a prefix operator in front of an
operand with two conversions. -/
theorem minus_signs_are_grouped_to_the_left :
    ∃ tokens e t, tokenize "a = -b as i64 as *u32 * c - d - 1 < e == f;" = .ok tokens ∧
      Parser.expression ⟨.start tokens, 0⟩ = .ok e t ∧
      e.shape = .binary () .assign (.name () "a")
        (.binary () .less
          (.binary () .sub
            (.binary () .sub
              (.binary () .mul
                (.cast () (.cast () (.unary () .negate (.name () "b")) (.base .i64))
                  (.pointer (.base .u32)))
                (.name () "c"))
              (.name () "d"))
            (.number () "1" .i32))
          (.binary () .equal (.name () "e") (.name () "f"))) := by
  have hread : (tokenize "a = -b as i64 as *u32 * c - d - 1 < e == f;").map (fun tokens =>
      (tokens.map Token.kind, (Parser.run Parser.expression tokens).map fun r =>
        r.2.rest.map Token.kind)) =
      .ok ([.identifier "a", .operator .equal, .operator .minus, .identifier "b", .keyword .as_,
        .base .i64, .keyword .as_, .operator .star, .base .u32, .operator .star, .identifier "c",
        .operator .minus, .identifier "d", .operator .minus, .number "1" .i32, .operator .less,
        .identifier "e", .operator .equalEqual, .identifier "f", .punct .semicolon, .endOfFile],
        .ok [.punct .semicolon, .endOfFile]) := by
    decide +kernel
  obtain ⟨tokens, htokens, hboth⟩ := except_map_eq_ok.mp hread
  obtain ⟨hkinds, hrun⟩ := Prod.mk.inj hboth
  cases hexpression : Parser.expression ⟨.start tokens, 0⟩ with
  | error e t => simp [Parser.run, hexpression, Except.map] at hrun
  | ok e t =>
      have hrest : t.kinds = [.punct .semicolon, .endOfFile] := by
        simpa [Parser.run, hexpression, Except.map, ParseState.kinds] using hrun
      have hstart : ParseState.kinds ⟨.start tokens, 0⟩ = tokens.map Token.kind := rfl
      refine ⟨tokens, e, t, htokens, hexpression, ?_⟩
      rw [(expressions_are_grouped_by_levels (endOfFile_mem_of_tokenize htokens) hexpression).2
        (.join (.name "a") [] .assign
          (.join (.unary .negate (.name "b")) [.base .i64, .pointer (.base .u32)] .mul
            (.join (.name "c") [] .sub (.join (.name "d") [] .sub (.join (.number "1" .i32) [] .less
              (.join (.name "e") [] .equal (.last (.name "f") [])))))))
        (by rw [hstart, hkinds, hrest]; rfl)]
      simp [Chain.tree, Chain.operands, Prefixed.tree, converted, group, divide?, BinaryOp.level]

end Wattle
