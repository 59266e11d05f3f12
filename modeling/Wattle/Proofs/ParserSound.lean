import Wattle.Proofs.Reading

/-!
# What is read is a sentence

Whatever a parser accepts is a phrase of its kind, and the tree it gives spells the tokens that it
read, but for trailing commas.
-/

namespace Wattle

namespace Parser

variable {α : Type}

/-! ## Types -/

theorem parses_valueTypeWithin (bound : Nat) :
    Parses .valueType (valueTypeWithin bound) Ty.yield := by
  induction bound with
  | zero => exact fun s => .refuse _
  | succ bound ih =>
      intro s
      refine .peek ?_
      split
      · next hkind =>
        refine .advance hkind nofun fun t _ => .next (fun _ => .refuse _) fun _ => ?_
        refine .phrase ih fun type ks u _ hderives hdrops => .pure ?_
        rw [List.append_nil]
        exact ⟨.pointerType hderives, hdrops.cons nofun⟩
      · exact .refuse _
      · next b hvoid hkind =>
        exact .advance hkind nofun fun t _ => .pure ⟨.baseType hvoid, .single nofun⟩
      · exact .expecting _

theorem parses_valueType : Parses .valueType valueType Ty.yield :=
  fun s => .budget fun bound => parses_valueTypeWithin bound s

theorem parses_resultType : Parses .resultType resultType Ty.yield := by
  intro s
  refine .next (fun hvoid => ?_) fun _ => ?_
  · exact .advance hvoid nofun fun t _ => .pure ⟨.voidResult, .single nofun⟩
  · exact (parses_valueType s).imp fun type ks t h => ⟨.valueResult h.1, h.2⟩

/-! ## Expressions -/

theorem levelOp?_eq_some {level : List BinaryOp} {t : Token} {op : BinaryOp} :
    levelOp? level t = some op ↔ t.kind = .operator op.operator ∧ op ∈ level := by
  obtain ⟨kind, span⟩ := t
  cases kind with
  | operator mark =>
      simp only [levelOp?, Option.filter_eq_some_iff, List.contains_iff_mem,
        TokenKind.operator.injEq]
      constructor
      · rintro ⟨hop, hmem⟩
        exact ⟨(BinaryOp.operator_of_ofOperator? hop).symm, hmem⟩
      · rintro ⟨rfl, hmem⟩
        exact ⟨BinaryOp.ofOperator?_operator op, hmem⟩
  | _ => simp [levelOp?]

theorem parses_chain {operand : Parser (Expr Node)}
    (hoperand : Parses .expression operand Expr.yield) (bound : Nat) (level : List BinaryOp) :
    Parses .expression (chain bound level operand) Expr.yield := by
  have hchain : ∀ (bound : Nat) (left : Expr Node) (past : List TokenKind) (s : ParseState),
      Derives .expression past → Drops past left.yield →
      Reads s (chainWithin level operand bound left) fun e ks _ =>
        Derives .expression (past ++ ks) ∧ Drops (past ++ ks) e.yield := by
    intro bound
    induction bound with
    | zero => exact fun left past s _ _ => .refuse _
    | succ bound ih =>
        intro left past s hderives hdrops
        refine .peek ?_
        split
        · refine .pure ?_
          rw [List.append_nil]
          exact ⟨hderives, hdrops⟩
        · next op hop =>
          obtain ⟨hkind, -⟩ := levelOp?_eq_some.mp hop
          refine .advance hkind nofun fun t _ => ?_
          refine .phrase hoperand fun right ks u _ hright hdropsRight => ?_
          refine .newNode fun node v _ _ => ?_
          have hjoined := ih (.binary node op left right) _ v (hderives.join op hright)
            (hdrops.append (hdropsRight.cons nofun))
          simpa using hjoined
  intro s
  refine .phrase hoperand fun left past t _ hderives hdrops => ?_
  exact hchain bound left past t hderives hdrops

theorem parses_casts {operand : Parser (Expr Node)} (hoperand : Parses .prefixed operand Expr.yield)
    (bound : Nat) : Parses .operand (casts bound operand) Expr.yield := by
  have hcasts : ∀ (bound : Nat) (inner : Expr Node) (past : List TokenKind) (s : ParseState),
      Derives .operand past → Drops past inner.yield →
      Reads s (castsWithin bound inner) fun e ks _ =>
        Derives .operand (past ++ ks) ∧ Drops (past ++ ks) e.yield := by
    intro bound
    induction bound with
    | zero => exact fun inner past s _ _ => .refuse _
    | succ bound ih =>
        intro inner past s hderives hdrops
        refine .next (fun has => ?_) fun _ => ?_
        · refine .advance has nofun fun t _ => ?_
          refine .phrase parses_valueType fun target ks u _ htarget hdropsTarget => ?_
          refine .get (.newNode fun node v _ _ => ?_)
          have hcast := ih (.cast node inner target) _ v (hderives.cast htarget)
            (hdrops.append (hdropsTarget.cons nofun))
          simpa using hcast
        · refine .pure ?_
          rw [List.append_nil]
          exact ⟨hderives, hdrops⟩
  intro s
  refine .phrase hoperand fun inner past t _ hderives hdrops => ?_
  exact hcasts bound inner past t hderives.uncast hdrops

theorem parses_expressionOver {operand : Parser (Expr Node)}
    (hoperand : Parses .prefixed operand Expr.yield) (bound : Nat) :
    Parses .expression (expressionOver bound operand) Expr.yield := by
  have hlevels : ∀ levels : List (List BinaryOp),
      Parses .expression (levels.foldr (chain bound) (casts bound operand)) Expr.yield := by
    intro levels
    induction levels with
    | nil =>
        exact fun s => (parses_casts hoperand bound s).imp fun e ks t h => ⟨h.1.alone, h.2⟩
    | cons level levels ih => exact parses_chain ih bound level
  exact hlevels _

theorem parses_numeric : Parses .prefixed numeric Expr.yield := by
  intro s
  refine .peek ?_
  split
  · next hkind =>
    refine .advance hkind nofun fun t _ => .newNode fun node u _ _ => .pure ?_
    exact ⟨.number, .single nofun⟩
  · exact .expecting _

theorem yields_eq_map (es : List (Expr α)) : Expr.yields es = es.map Expr.yield := by
  induction es with
  | nil => rfl
  | cons e es ih => rw [Expr.yields, List.map_cons, ih]

theorem parses_nameOrCall {expression : Parser (Expr Node)}
    (hexpression : Parses .expression expression Expr.yield) (bound : Nat) :
    Parses .prefixed (nameOrCall bound expression) Expr.yield := by
  intro s
  refine .peek (.identifier fun name t _ => .next (fun hopen => ?_) fun _ => ?_)
  · refine .advance hopen nofun fun u _ => ?_
    refine .bind (reads_commaListWithin hexpression _ bound u) ?_
    rintro args _ v - ⟨phrases, trailing, rfl, heach⟩
    refine .nodeFrom fun node w _ _ => .pure ?_
    rw [List.append_nil]
    refine ⟨.call heach.derives, ?_⟩
    have hlist := Drops.commaSeparated (t := trailing) heach.drops
      fun ks hks => (heach.derives ks hks).argument_starts
    rw [← yields_eq_map] at hlist
    exact .cons nofun (.cons nofun hlist)
  · exact .newNode fun node u _ _ => .pure ⟨.name, .single nofun⟩

theorem parses_parenthesized {expression : Parser (Expr Node)}
    (hexpression : Parses .expression expression Expr.yield) :
    Parses .prefixed (parenthesized expression) Expr.yield := by
  intro s
  refine .peek (.punct fun t _ => .phrase hexpression fun inner ks u _ hderives hdrops => ?_)
  refine .punct fun v _ => .nodeFrom fun node w _ _ => .pure ?_
  exact ⟨.paren hderives, (hdrops.append .rightParen).cons nofun⟩

theorem parses_unary {operand : Parser (Expr Node)}
    (hoperand : Parses .prefixed operand Expr.yield) :
    Parses .prefixed (unary operand) Expr.yield := by
  intro s
  refine .peek ?_
  split
  · next mark hkind =>
    split
    · next op hop =>
      rw [← UnaryOp.operator_of_ofOperator? hop] at hkind
      refine .advance hkind nofun fun t _ => ?_
      refine .phrase hoperand fun inner ks u _ hderives hdrops => ?_
      refine .newNode fun node v _ _ => .pure ?_
      rw [List.append_nil]
      exact ⟨.unary hderives, hdrops.cons nofun⟩
    · exact .expecting _
  · exact .expecting _

theorem parses_operandWithin (bound : Nat) :
    Parses .prefixed (operandWithin bound) Expr.yield := by
  induction bound with
  | zero => exact fun s => .refuse _
  | succ bound ih =>
      have hexpression := parses_expressionOver ih bound
      intro s
      exact .orElseHere (parses_numeric s) fun _ =>
        .orElseHere (parses_nameOrCall hexpression bound _) fun _ =>
        .orElseHere (parses_parenthesized hexpression _) fun _ =>
        .orElseHere (parses_unary ih _) fun _ => .expecting _

theorem parses_expression : Parses .expression expression Expr.yield :=
  fun s => .budget fun bound => parses_expressionOver (parses_operandWithin bound) bound s

/-! ## Statements -/

theorem reads_statementsWithin {statement : Parser (Stmt Node)}
    (hstatement : Parses .statement statement Stmt.yield) (bound : Nat) (s : ParseState) :
    Reads s (statementsWithin statement bound) fun body ks _ =>
      ∃ phrases, ks = phrases.flatten ++ [.punct .rightBrace] ∧
        ParsesEach .statement Stmt.yield body phrases := by
  induction bound generalizing s with
  | zero => exact .refuse _
  | succ bound ih =>
      refine .next (fun hclose => ?_) fun _ => .next (fun _ => .expecting _) fun _ => ?_
      · exact .advance hclose nofun fun t _ => .pure ⟨[], rfl, .nil⟩
      · refine .phrase hstatement fun first ks t _ hderives hdrops => .bind (ih t) ?_
        rintro rest _ u - ⟨phrases, rfl, heach⟩
        exact .pure ⟨ks :: phrases, by simp, .cons ⟨hderives, hdrops⟩ heach⟩

theorem drops_body {body : List (Stmt Node)} {phrases : List (List TokenKind)}
    (h : ParsesEach .statement Stmt.yield body phrases) :
    Drops phrases.flatten (Stmt.listYield body) := by
  induction h with
  | nil => exact .nil
  | cons hfirst _ ih => exact hfirst.2.append ih

theorem parses_blockOver {statement : Parser (Stmt Node)}
    (hstatement : Parses .statement statement Stmt.yield) :
    Parses .block (blockOver statement) fun body => braced (Stmt.listYield body) := by
  intro s
  refine .punct fun t _ => .budget fun bound => ?_
  refine (reads_statementsWithin hstatement bound t).imp ?_
  rintro body _ u ⟨phrases, rfl, heach⟩
  exact ⟨.block heach.derives, ((drops_body heach).append .rightBrace).cons nofun⟩

/-- A condition in parentheses. -/
theorem reads_condition (context : String) (s : ParseState) :
    Reads s (condition context) fun guard ks _ =>
      ∃ inner, ks = .punct .leftParen :: (inner ++ [.punct .rightParen]) ∧
        Derives .expression inner ∧ Drops inner guard.yield := by
  refine .punct fun t _ => .phrase parses_expression fun guard ks u _ hderives hdrops => ?_
  exact .punct fun v _ => .pure ⟨ks, rfl, hderives, hdrops⟩

theorem parses_returnStatement : Parses .statement returnStatement Stmt.yield := by
  intro s
  refine .peek (.keyword fun t _ => .bind (Q := fun value ks _ =>
    ∃ phrase : Option (List TokenKind), ks = phrase.getD [] ∧
      (∀ v ∈ phrase, Derives .expression v) ∧ Drops ks ((value.map Expr.yield).getD [])) ?_ ?_)
  · refine .next (fun _ => .pure ⟨none, rfl, nofun, .nil⟩) fun _ => ?_
    refine .phrase parses_expression fun value ks u _ hderives hdrops => .pure ?_
    rw [List.append_nil]
    exact ⟨some ks, rfl, by simpa using hderives, hdrops⟩
  · rintro value _ u - ⟨phrase, rfl, hderives, hdrops⟩
    refine .punct fun v _ => .nodeFrom fun node w _ _ => .pure ?_
    exact ⟨.ret hderives, (hdrops.append .semicolon).cons nofun⟩

theorem parses_declaration (kind : DeclKind) :
    Parses .statement (declaration kind) Stmt.yield := by
  intro s
  refine .peek (.keyword fun t _ => .identifier fun name u _ => .punct fun v _ => ?_)
  refine .phrase parses_valueType fun type ks w _ htype hdropsType => ?_
  refine .next (fun hequal => ?_) fun _ => .expecting _
  refine .advance hequal nofun fun x _ => ?_
  refine .phrase parses_expression fun initial ks' y _ hinitial hdrops => ?_
  refine .punct fun z _ => .nodeFrom fun node _ _ _ => .pure ?_
  refine ⟨.declare htype hinitial, ?_⟩
  have hvalue := hdropsType.append ((hdrops.append .semicolon).cons (k := .operator .equal) nofun)
  exact .cons nofun (.cons nofun (.cons nofun hvalue))

theorem parses_expressionStatement : Parses .statement expressionStatement Stmt.yield := by
  intro s
  refine .peek (.phrase parses_expression fun value ks t _ hderives hdrops => ?_)
  refine .punct fun u _ => .nodeFrom fun node v _ _ => .pure ?_
  exact ⟨.expr hderives, hdrops.append .semicolon⟩

section Blocks

variable {block : Parser (List (Stmt Node))}
  (hblock : Parses .block block fun body => braced (Stmt.listYield body))
include hblock

/-- The tokens of an arm behind its keyword. -/
def armYield (a : Arm Node) : List TokenKind :=
  .punct .leftParen :: (a.condition.yield ++ .punct .rightParen :: braced (Stmt.listYield a.body))

omit hblock in
theorem armsYield_cons (word : Keyword) (a : Arm Node) (rest : List (Arm Node)) :
    Stmt.armsYield word (a :: rest) =
      .keyword word :: (armYield a ++ Stmt.armsYield .elif rest) := by
  obtain ⟨condition, body, span⟩ := a
  simp [Stmt.armsYield, armYield]

omit hblock in
theorem drops_guarded {guard body : List TokenKind} {condition : Expr Node}
    {statements : List (Stmt Node)} (hguard : Drops guard condition.yield)
    (hbody : Drops body (braced (Stmt.listYield statements))) (span : Span) :
    Drops (.punct .leftParen :: (guard ++ .punct .rightParen :: body))
      (armYield ⟨condition, statements, span⟩) :=
  (hguard.append (hbody.cons (k := .punct .rightParen) nofun)).cons nofun

theorem reads_arm (word : Keyword) (s : ParseState) :
    Reads s (arm block word) fun a ks _ =>
      ∃ phrase, ks = .keyword word :: phrase ∧ Derives .guarded phrase ∧
        Drops phrase (armYield a) := by
  refine .peek (.keyword fun t _ => .bind (reads_condition _ t) ?_)
  rintro guard _ u - ⟨inner, rfl, hguard, hdropsGuard⟩
  refine .phrase hblock fun body ks v _ hbody hdropsBody => .spanFrom fun span => .pure ?_
  refine ⟨_, by simp, .guarded hguard hbody, drops_guarded hdropsGuard hdropsBody span⟩

theorem reads_elifArmsWithin (bound : Nat) (s : ParseState) :
    Reads s (elifArmsWithin block bound) fun arms ks _ =>
      ∃ phrases : List (List TokenKind), ks = phrases.flatMap (.keyword .elif :: ·) ∧
        (∀ phrase ∈ phrases, Derives .guarded phrase) ∧ Drops ks (Stmt.armsYield .elif arms) := by
  induction bound generalizing s with
  | zero => exact .refuse _
  | succ bound ih =>
      refine .next (fun _ => ?_) fun _ => .pure ⟨[], rfl, nofun, .nil⟩
      refine .bind (reads_arm hblock _ s) ?_
      rintro first _ t - ⟨phrase, rfl, hfirst, hdropsFirst⟩
      refine .bind (ih t) ?_
      rintro rest _ u - ⟨phrases, rfl, hrest, hdropsRest⟩
      refine .pure ⟨phrase :: phrases, by simp, ?_, ?_⟩
      · exact List.forall_mem_cons.mpr ⟨hfirst, hrest⟩
      · rw [armsYield_cons, List.append_nil]
        exact (hdropsFirst.append hdropsRest).cons nofun

theorem reads_elseBody (s : ParseState) :
    Reads s (elseBody block) fun otherwise ks _ =>
      ∃ phrase : Option (List TokenKind), ks = phrase.elim [] (.keyword .else_ :: ·) ∧
        (∀ body ∈ phrase, Derives .block body) ∧ Drops ks (Stmt.elseYield otherwise) := by
  refine .next (fun helse => ?_) fun _ => .pure ⟨none, rfl, nofun, .nil⟩
  refine .advance helse nofun fun t _ => ?_
  refine .phrase hblock fun body ks u _ hderives hdrops => .pure ?_
  rw [List.append_nil]
  exact ⟨some ks, rfl, by simpa using hderives, hdrops.cons nofun⟩

theorem parses_conditional : Parses .statement (conditional block) Stmt.yield := by
  intro s
  refine .peek (.bind (reads_arm hblock _ s) ?_)
  rintro first _ t - ⟨phrase, rfl, hfirst, hdropsFirst⟩
  refine .budget fun bound => .bind (reads_elifArmsWithin hblock bound t) ?_
  rintro arms _ u - ⟨phrases, rfl, harms, hdropsArms⟩
  refine .bind (reads_elseBody hblock u) ?_
  rintro otherwise _ v - ⟨last, rfl, hlast, hdropsLast⟩
  refine .nodeFrom fun node w _ _ => .pure ?_
  rw [List.append_nil]
  refine ⟨.cond hfirst harms hlast, ?_⟩
  simp only [Stmt.yield, armsYield_cons, List.cons_append, List.append_assoc]
  exact (hdropsFirst.append (hdropsArms.append hdropsLast)).cons nofun

theorem parses_loop : Parses .statement (loop block) Stmt.yield := by
  intro s
  refine .peek (.keyword fun t _ => .bind (reads_condition _ t) ?_)
  rintro guard _ u - ⟨inner, rfl, hguard, hdropsGuard⟩
  refine .phrase hblock fun body ks v _ hbody hdropsBody => ?_
  refine .nodeFrom fun node w _ _ => .pure ?_
  have hloop := Derives.loop (.guarded hguard hbody)
  have hdrops := (drops_guarded hdropsGuard hdropsBody node.span).cons (k := .keyword .while_) nofun
  exact ⟨by simpa using hloop, by simpa [armYield, Stmt.yield] using hdrops⟩

theorem parses_statementOver : Parses .statement (statementOver block) Stmt.yield := by
  intro s
  refine .peek ?_
  split
  · exact parses_conditional hblock s
  · exact parses_loop hblock s
  · exact parses_returnStatement s
  · exact parses_declaration .var s
  · exact parses_declaration .const s
  · exact parses_expressionStatement s

end Blocks

theorem parses_statementWithin (bound : Nat) :
    Parses .statement (statementWithin bound) Stmt.yield := by
  induction bound with
  | zero => exact fun s => .refuse _
  | succ bound ih => exact parses_statementOver (parses_blockOver ih)

theorem parses_block : Parses .block block fun body => braced (Stmt.listYield body) :=
  fun s => .budget fun bound => parses_blockOver (parses_statementWithin bound) s

/-! ## Programs -/

theorem parses_parameter : Parses .parameter parameter Parameter.yield := by
  intro s
  refine .peek (.identifier fun name t _ => .punct fun u _ => ?_)
  refine .phrase parses_valueType fun type ks v _ hderives hdrops => .spanFrom fun span => .pure ?_
  rw [List.append_nil]
  exact ⟨.parameter hderives, .cons nofun (.cons nofun hdrops)⟩

theorem parses_signature : Parses .signature signature Signature.yield := by
  intro s
  refine .identifier fun name t _ => .punct fun u _ => .bind (Q := _) (.budget fun bound =>
    reads_commaListWithin parses_parameter .parameterListEnd bound u) ?_
  rintro parameters _ v - ⟨phrases, trailing, rfl, heach⟩
  refine .punct fun w _ => .phrase parses_resultType fun result ks x _ hresult hdrops => .pure ?_
  have hlist := Drops.commaSeparated (t := trailing) heach.drops
    fun ks hks => (heach.derives ks hks).parameter_starts
  have hrest := hlist.append (hdrops.cons (k := .punct .colon) nofun)
  rw [List.append_assoc, List.append_assoc] at hrest
  rw [List.append_nil, List.append_assoc]
  exact ⟨.signature heach.derives hresult, .cons nofun (.cons nofun hrest)⟩

theorem parses_importPath : Parses .importPath importPath ImportPath.yield := by
  intro s
  refine .keyword fun _ _ => .punct fun _ _ => .identifier fun nameSpace _ _ => .punct fun _ _ => ?_
  refine .identifier fun specifier _ _ => .punct fun _ _ => .pure ⟨.importPath, ?_⟩
  exact .cons nofun (.cons nofun (.cons nofun (.cons nofun (.cons nofun .rightParen))))

/-- The number of a declaration is newer than those in use before it. -/
theorem reads_funcDef (first : Token) (s : ParseState) :
    Reads s (funcDef first) fun d ks t =>
      (∃ header body, ks = header ++ body ∧ Derives .signature header ∧ Derives .block body) ∧
        Drops ks (d.signature.yield ++ braced (Stmt.listYield d.body)) ∧
        s.nextId ≤ d.node.id ∧ d.node.id < t.nextId := by
  refine .phrase parses_signature fun header ks t hid hheader hdropsHeader => ?_
  refine .phrase parses_block fun body ks' u hid' hbody hdropsBody => ?_
  refine .nodeFrom fun node v hlow hhigh => .pure ?_
  rw [List.append_nil]
  refine ⟨⟨ks, ks', rfl, hheader, hbody⟩, hdropsHeader.append hdropsBody, ?_, hhigh⟩
  exact Nat.le_trans hid (Nat.le_trans hid' hlow)

theorem reads_funcImport (first : Token) (s : ParseState) :
    Reads s (funcImport first) fun i ks t =>
      (∃ path header, ks = path ++ (header ++ [.punct .semicolon]) ∧ Derives .importPath path ∧
        Derives .signature header) ∧
        Drops ks (i.path.yield ++ (i.signature.yield ++ [.punct .semicolon])) ∧
        s.nextId ≤ i.node.id ∧ i.node.id < t.nextId := by
  refine .phrase parses_importPath fun path ks t hid hpath hdropsPath => ?_
  refine .phrase parses_signature fun header ks' u hid' hheader hdropsHeader => ?_
  refine .punct fun v hid'' => .nodeFrom fun node w hlow hhigh => .pure ?_
  refine ⟨⟨ks, ks', rfl, hpath, hheader⟩, hdropsPath.append (hdropsHeader.append .semicolon), ?_,
    hhigh⟩
  exact Nat.le_trans hid (Nat.le_trans hid' (Nat.le_trans hid'' hlow))

theorem reads_function (s : ParseState) :
    Reads s function fun f ks t =>
      Derives .function ks ∧ Drops ks f.yield ∧ s.nextId ≤ f.node.id ∧ f.node.id < t.nextId := by
  refine .peek (.keyword fun t hid => .peek ?_)
  split
  · refine .bind (reads_funcImport _ t) ?_
    rintro i _ u - ⟨⟨path, header, rfl, hpath, hheader⟩, hdrops, hlow, hhigh⟩
    refine .pure ?_
    rw [List.append_nil]
    exact ⟨.importedFunction hpath hheader, hdrops.cons nofun, Nat.le_trans hid hlow, hhigh⟩
  · next hexport =>
    refine .advance hexport nofun fun u hid' => .bind (reads_funcDef _ u) ?_
    rintro d _ v - ⟨⟨header, body, rfl, hheader, hbody⟩, hdrops, hlow, hhigh⟩
    refine .pure ?_
    rw [List.append_nil]
    refine ⟨.exportedFunction hheader hbody, .cons nofun (hdrops.cons nofun), ?_, hhigh⟩
    exact Nat.le_trans hid (Nat.le_trans hid' hlow)
  · refine .bind (reads_funcDef _ t) ?_
    rintro d _ v - ⟨⟨header, body, rfl, hheader, hbody⟩, hdrops, hlow, hhigh⟩
    refine .pure ?_
    rw [List.append_nil]
    exact ⟨.plainFunction hheader hbody, hdrops.cons nofun, Nat.le_trans hid hlow, hhigh⟩

theorem parses_memoryKind : Parses .modifier memoryKind MemoryKind.yield := by
  intro s
  refine .peek ?_
  split
  · next hexport =>
    exact .advance hexport nofun fun t _ => .pure ⟨.exportModifier, .single nofun⟩
  · refine .phrase parses_importPath fun path ks t _ hpath hdrops => .pure ?_
    rw [List.append_nil]
    exact ⟨.importModifier hpath, hdrops⟩
  · exact .pure ⟨.noModifier, .nil⟩

theorem readBelow_lt {bound value : Nat} {text : List Char}
    (h : Text.readBelow bound text = some value) : value < bound := by
  simp only [Text.readBelow, Option.ite_none_right_eq_some, Option.some.injEq] at h
  obtain ⟨⟨-, -, hlt⟩, rfl⟩ := h
  exact hlt

theorem sizeOf?_eq_some {t : Token} {size : UInt32} (h : sizeOf? t = some size) :
    ∃ digits, t.kind = .number digits .i32 ∧ Spells digits size := by
  obtain ⟨kind, span⟩ := t
  simp only [sizeOf?] at h
  split at h
  · next digits =>
    obtain ⟨value, hread, rfl⟩ := Option.map_eq_some_iff.mp h
    refine ⟨digits, rfl, ?_⟩
    rw [Spells, hread, UInt32.toNat_ofNat_of_lt' (readBelow_lt hread)]
  · cases h

theorem reads_memory (s : ParseState) :
    Reads s memory fun m ks t =>
      (∃ digits, Spells digits m.size ∧ Drops ks (m.yield digits)) ∧ Derives .memory ks ∧
        s.nextId ≤ m.node.id ∧ m.node.id < t.nextId := by
  refine .peek (.keyword fun t hid => ?_)
  refine .phrase parses_memoryKind fun kind ks u hid' hkind hdrops => ?_
  refine .identifier fun name v hid₁ => .punct fun w hid₂ => ?_
  refine .bind (Q := fun size ks _ => ∃ digits, ks = [.number digits .i32] ∧ Spells digits size)
    ?_ ?_
  · refine .peek ?_
    split
    · next size hsize =>
      obtain ⟨digits, hdigits, hspells⟩ := sizeOf?_eq_some hsize
      exact .advance hdigits nofun fun x _ => .pure ⟨digits, rfl, hspells⟩
    · exact .expecting _
  · rintro size _ x hid₃ ⟨digits, rfl, hspells⟩
    refine .punct fun y hid₄ => .punct fun z hid₅ => .nodeFrom fun node _ hlow hhigh => .pure ?_
    refine ⟨⟨digits, hspells, ?_⟩, .memory hkind hspells, by dsimp only; omega, hhigh⟩
    have htail : Drops
        [.identifier name, .punct .leftParen, .number digits .i32, .punct .rightParen,
          .punct .semicolon]
        [.identifier name, .punct .leftParen, .number digits .i32, .punct .rightParen,
          .punct .semicolon] :=
      .cons nofun (.cons nofun (.cons nofun (.cons nofun .semicolon)))
    exact (hdrops.append htail).cons nofun

section Merging

variable {γ : Type} {le : γ → γ → Bool} {xs ys : List γ}

theorem merge_append_left {a : γ} (h : ∀ y ∈ ys, le a y = false) :
    (xs ++ [a]).merge ys le = xs.merge ys le ++ [a] := by
  fun_induction List.merge xs ys le with
  | case1 ys =>
      induction ys with
      | nil => simp
      | cons y ys ih =>
          obtain ⟨hy, hys⟩ := List.forall_mem_cons.mp h
          have hrest := ih hys
          simp only [List.nil_append] at hrest ⊢
          simp [hy, hrest]
  | case2 xs => simp
  | case3 x xs y ys hle ih => simp [hle, ih h]
  | case4 x xs y ys hle ih =>
      have hrest := ih (List.forall_mem_cons.mp h).2
      rw [List.cons_append] at hrest
      simp [hle, hrest]

theorem merge_append_right {b : γ} (h : ∀ x ∈ xs, le x b = true) :
    xs.merge (ys ++ [b]) le = xs.merge ys le ++ [b] := by
  fun_induction List.merge xs ys le with
  | case1 ys => simp
  | case2 xs =>
      apply List.merge_of_le
      simpa using h
  | case3 x xs y ys hle ih =>
      have hrest := ih (List.forall_mem_cons.mp h).2
      rw [List.cons_append] at hrest
      simp [hle, hrest]
  | case4 x xs y ys hle ih => simp [hle, ih h]

end Merging

theorem yield_add_func {done : Program Node} {f : Func Node} {digits : String} {limit : Nat}
    (hids : ∀ m ∈ done.memories, m.node.id < limit) (hlow : limit ≤ f.node.id) :
    Program.yield digits { done with funcs := done.funcs ++ [f] } =
      done.yield digits ++ f.yield := by
  have hlast : ∀ y ∈ done.memories.map fun m => (m.node.id, m.yield digits),
      numberedBefore (f.node.id, f.yield) y = false := by
    intro y hy
    obtain ⟨m, hm, rfl⟩ := List.mem_map.mp hy
    have hm' := hids m hm
    exact decide_eq_false (by dsimp only; omega)
  simp only [Program.yield, List.map_append, List.map_cons, List.map_nil, merge_append_left hlast,
    List.flatMap_append, List.flatMap_cons, List.flatMap_nil, List.append_nil]

theorem yield_add_memory {done : Program Node} {m : Memory} {digits digits' : String} {limit : Nat}
    (hnone : done.memories = []) (hids : ∀ f ∈ done.funcs, f.node.id < limit)
    (hlow : limit ≤ m.node.id) :
    Program.yield digits { done with memories := done.memories ++ [m] } =
      done.yield digits' ++ m.yield digits := by
  have hlast : ∀ x ∈ done.funcs.map fun f => (f.node.id, f.yield),
      numberedBefore x (m.node.id, m.yield digits) = true := by
    intro x hx
    obtain ⟨f, hf, rfl⟩ := List.mem_map.mp hx
    have hf' := hids f hf
    exact decide_eq_true (by dsimp only; omega)
  simp only [Program.yield, List.map_append, List.map_cons, List.map_nil, merge_append_right hlast,
    List.flatMap_append, List.flatMap_cons, List.flatMap_nil, List.append_nil, hnone]

/-- What has been read so far: `done` are the declarations in the tokens `past`, all of them
numbered below `limit`. -/
structure Written (done : Program Node) (past : List TokenKind) (limit : Nat) : Prop where
  derives : ∃ before : List (List TokenKind), (∀ f ∈ before, Derives .function f) ∧
    (done.memories = [] ∧ past = before.flatten ∨
      done.memories ≠ [] ∧ ∃ (declared : List TokenKind) (after : List (List TokenKind)),
        Derives .memory declared ∧ (∀ f ∈ after, Derives .function f) ∧
          past = before.flatten ++ (declared ++ after.flatten))
  spelled : ∃ digits, (∀ m ∈ done.memories, Spells digits m.size) ∧ Drops past (done.yield digits)
  funcIds : ∀ f ∈ done.funcs, f.node.id < limit
  memoryIds : ∀ m ∈ done.memories, m.node.id < limit

namespace Written

variable {done : Program Node} {past ks : List TokenKind} {limit limit' : Nat}

theorem start (limit : Nat) : Written ⟨[], []⟩ [] limit where
  derives := ⟨[], nofun, .inl ⟨rfl, rfl⟩⟩
  spelled := ⟨"", nofun, by simpa [Program.yield] using Drops.nil⟩
  funcIds := nofun
  memoryIds := nofun

theorem program (h : Written done past limit) : Derives .program past := by
  obtain ⟨before, hbefore, ⟨-, rfl⟩ | ⟨-, declared, after, hdeclared, hafter, rfl⟩⟩ := h.derives
  · exact .functions hbefore
  · exact .withMemory hbefore hdeclared hafter

/-- A function is added at the end, in the list as in the tokens. -/
theorem func (h : Written done past limit) {f : Func Node} (hderives : Derives .function ks)
    (hdrops : Drops ks f.yield) (hlow : limit ≤ f.node.id) (hhigh : f.node.id < limit') :
    Written { done with funcs := done.funcs ++ [f] } (past ++ ks) limit' where
  derives := by
    obtain ⟨before, hbefore, ⟨hnone, rfl⟩ | ⟨hsome, declared, after, hdeclared, hafter, rfl⟩⟩ :=
      h.derives
    · refine ⟨before ++ [ks], ?_, .inl ⟨hnone, by simp⟩⟩
      exact List.forall_mem_append.mpr ⟨hbefore, List.forall_mem_singleton.mpr hderives⟩
    · refine ⟨before, hbefore, .inr ⟨hsome, declared, after ++ [ks], hdeclared, ?_, by simp⟩⟩
      exact List.forall_mem_append.mpr ⟨hafter, List.forall_mem_singleton.mpr hderives⟩
  spelled := by
    obtain ⟨digits, hsizes, hpast⟩ := h.spelled
    refine ⟨digits, hsizes, ?_⟩
    rw [yield_add_func h.memoryIds hlow]
    exact hpast.append hdrops
  funcIds := by
    intro g hg
    rcases List.mem_append.mp hg with hg | hg
    · have hg' := h.funcIds g hg
      omega
    · rwa [List.mem_singleton.mp hg]
  memoryIds := by
    intro m hm
    have hm' := h.memoryIds m hm
    omega

/-- A memory is added at the end, in the list as in the tokens. -/
theorem memory (h : Written done past limit) (hnone : done.memories = []) {m : Memory}
    {digits : String} (hderives : Derives .memory ks) (hsize : Spells digits m.size)
    (hdrops : Drops ks (m.yield digits)) (hlow : limit ≤ m.node.id) (hhigh : m.node.id < limit') :
    Written { done with memories := done.memories ++ [m] } (past ++ ks) limit' where
  derives := by
    obtain ⟨before, hbefore, ⟨-, rfl⟩ | ⟨hsome, -⟩⟩ := h.derives
    · exact ⟨before, hbefore, .inr ⟨by simp, ks, [], hderives, nofun, by simp⟩⟩
    · exact absurd hnone hsome
  spelled := by
    obtain ⟨digits', -, hpast⟩ := h.spelled
    refine ⟨digits, by simpa [hnone] using hsize, ?_⟩
    rw [yield_add_memory hnone h.funcIds hlow]
    exact hpast.append hdrops
  funcIds := by
    intro f hf
    have hf' := h.funcIds f hf
    omega
  memoryIds := by
    rw [hnone]
    exact List.forall_mem_singleton.mpr hhigh

end Written

theorem reads_declarationsWithin (bound : Nat) {done : Program Node} {past : List TokenKind}
    {s : ParseState} (hdone : Written done past s.nextId) :
    Reads s (declarationsWithin bound done) fun p ks t =>
      t.cursor.peek.kind = .endOfFile ∧ ∃ limit, Written p (past ++ ks) limit := by
  induction bound generalizing done past s with
  | zero => exact .refuse _
  | succ bound ih =>
      refine .peek ?_
      split
      · next hend =>
        refine .pure ⟨hend, s.nextId, ?_⟩
        rwa [List.append_nil]
      · refine .bind (reads_function s) ?_
        rintro f ks t - ⟨hderives, hdrops, hlow, hhigh⟩
        have hnext := ih (hdone.func hderives hdrops hlow hhigh)
        simpa only [List.append_assoc] using hnext
      · split
        · next hempty =>
          refine .bind (reads_memory s) ?_
          rintro m ks t - ⟨⟨digits, hsize, hdrops⟩, hderives, hlow, hhigh⟩
          have hnone := List.isEmpty_iff.mp hempty
          have hnext := ih (hdone.memory hnone hderives hsize hdrops hlow hhigh)
          simpa only [List.append_assoc] using hnext
        · exact .refuse _
      · exact .expecting _

theorem reads_program (s : ParseState) :
    Reads s program fun p ks t =>
      t.cursor.peek.kind = .endOfFile ∧ ∃ limit, Written p ks limit := by
  refine .budget fun bound => ?_
  have hstart := Written.start s.nextId
  exact reads_declarationsWithin bound hstart

end Parser

/-- What is read is a sentence, and it is what the program spells. -/
theorem parseProgram_reads_sentence {tokens : List Token} {p : Program Node}
    (hend : .endOfFile ∈ tokens.map Token.kind) (h : parseProgram tokens = .ok p) :
    Derives .program (sentence tokens) ∧
      ∃ digits, (∀ m ∈ p.memories, Spells digits m.size) ∧
        p.yield digits = dropTrailingCommas (sentence tokens) := by
  have hrun := Parser.reads_program ⟨.start tokens, 0⟩ hend
  simp only [parseProgram, Parser.run] at h
  cases hp : Parser.program ⟨.start tokens, 0⟩ with
  | error e t => simp [hp, Except.map] at h
  | ok q t =>
      rw [hp] at h hrun
      obtain rfl := Except.ok.inj h
      obtain ⟨-, ks, hno, hkinds, hstop, limit, hwritten⟩ := hrun
      have hahead : .endOfFile ∈ t.kinds := by
        have hmem : .endOfFile ∈ ks ++ t.kinds := hkinds ▸ hend
        exact (List.mem_append.mp hmem).resolve_left hno
      have hsentence : sentence tokens = ks := by
        have htokens : tokens.map Token.kind = ks ++ t.kinds := hkinds
        have hall : ∀ k ∈ ks, decide (k ≠ .endOfFile) = true := by
          intro k hk
          apply decide_eq_true
          rintro rfl
          exact hno hk
        rw [sentence, htokens, Parser.kinds_eq_cons hahead, hstop,
          List.takeWhile_append_of_pos hall]
        simp
      rw [hsentence]
      obtain ⟨digits, hsizes, hdrops⟩ := hwritten.spelled
      refine ⟨hwritten.program, digits, hsizes, ?_⟩
      have hall := hdrops []
      simpa [dropTrailingCommas] using hall.symm

end Wattle
