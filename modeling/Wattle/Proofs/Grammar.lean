import Wattle.Parse.Program
import Wattle.Proofs.Success

/-!
# The grammar

Which sequences of tokens are the phrases of the language, apart from where the tokens stand. The
rules say nothing about how a phrase is found. Beside them stands the way back: the tokens that a
tree spells.
-/

namespace Wattle

/-! ## Lists of phrases -/

/-- Items with a comma between any two of them, and with another one behind the last if `trailing`
says so. -/
def commaSeparated (trailing : Bool) : List (List TokenKind) → List TokenKind
  | [] => []
  | [item] => item ++ if trailing then [.punct .comma] else []
  | item :: next :: rest => item ++ .punct .comma :: commaSeparated trailing (next :: rest)

/-- Leave out every comma directly in front of a closing parenthesis. -/
def dropTrailingCommas : List TokenKind → List TokenKind
  | [] => []
  | k :: rest =>
    if k = .punct .comma ∧ rest.head? = some (.punct .rightParen) then dropTrailingCommas rest
    else k :: dropTrailingCommas rest

def braced (body : List TokenKind) : List TokenKind :=
  .punct .leftBrace :: (body ++ [.punct .rightBrace])

/-- The digits are a spelling of the number. -/
def Spells (digits : String) (size : UInt32) : Prop :=
  Text.readBelow (Text.twoTo 32) digits.toList = some size.toNat

/-! ## Phrases -/

/-- The kinds of phrases. -/
inductive Phrase where
  | valueType | resultType
  | prefixed | operand | expression
  | guarded | block | statement
  | parameter | signature | importPath | modifier
  | function | memory | program

/-- `Derives phrase ks`: the tokens `ks` form a phrase of the given kind. -/
inductive Derives : Phrase → List TokenKind → Prop where
  | pointerType {target : List TokenKind} (h : Derives .valueType target) :
      Derives .valueType (.operator .star :: target)
  | baseType {b : BaseType} (value : b ≠ .void) : Derives .valueType [.base b]
  | voidResult : Derives .resultType [.base .void]
  | valueResult {ks : List TokenKind} (h : Derives .valueType ks) : Derives .resultType ks
  | number {digits : String} {type : BaseType} : Derives .prefixed [.number digits type]
  | name {id : String} : Derives .prefixed [.identifier id]
  | call {id : String} {args : List (List TokenKind)} {trailing : Bool}
      (h : ∀ arg ∈ args, Derives .expression arg) :
      Derives .prefixed
        (.identifier id :: .punct .leftParen ::
          (commaSeparated trailing args ++ [.punct .rightParen]))
  | paren {inner : List TokenKind} (h : Derives .expression inner) :
      Derives .prefixed (.punct .leftParen :: (inner ++ [.punct .rightParen]))
  | unary {op : UnaryOp} {inner : List TokenKind} (h : Derives .prefixed inner) :
      Derives .prefixed (.operator op.operator :: inner)
  | operand {first : List TokenKind} {targets : List (List TokenKind)}
      (h : Derives .prefixed first) (htargets : ∀ target ∈ targets, Derives .valueType target) :
      Derives .operand (first ++ targets.flatMap (.keyword .as_ :: ·))
  | expression {first : List TokenKind} {rest : List (BinaryOp × List TokenKind)}
      (h : Derives .operand first) (hrest : ∀ r ∈ rest, Derives .operand r.2) :
      Derives .expression (first ++ rest.flatMap fun r => .operator r.1.operator :: r.2)
  | guarded {guard body : List TokenKind} (h : Derives .expression guard)
      (hbody : Derives .block body) :
      Derives .guarded (.punct .leftParen :: (guard ++ .punct .rightParen :: body))
  | block {body : List (List TokenKind)} (h : ∀ s ∈ body, Derives .statement s) :
      Derives .block (braced body.flatten)
  | cond {first : List TokenKind} {arms : List (List TokenKind)}
      {otherwise : Option (List TokenKind)} (h : Derives .guarded first)
      (harms : ∀ arm ∈ arms, Derives .guarded arm)
      (hotherwise : ∀ body ∈ otherwise, Derives .block body) :
      Derives .statement
        (.keyword .if_ :: (first ++ (arms.flatMap (.keyword .elif :: ·) ++
          otherwise.elim [] (.keyword .else_ :: ·))))
  | loop {arm : List TokenKind} (h : Derives .guarded arm) :
      Derives .statement (.keyword .while_ :: arm)
  | declare {kind : DeclKind} {name : String} {type initial : List TokenKind}
      (htype : Derives .valueType type) (h : Derives .expression initial) :
      Derives .statement
        (.keyword (Parser.declarationWord kind) :: .identifier name :: .punct .colon ::
          (type ++ .operator .equal :: (initial ++ [.punct .semicolon])))
  | ret {value : Option (List TokenKind)} (h : ∀ v ∈ value, Derives .expression v) :
      Derives .statement (.keyword .return_ :: (value.getD [] ++ [.punct .semicolon]))
  | expr {value : List TokenKind} (h : Derives .expression value) :
      Derives .statement (value ++ [.punct .semicolon])
  | parameter {name : String} {type : List TokenKind} (h : Derives .valueType type) :
      Derives .parameter (.identifier name :: .punct .colon :: type)
  | signature {name : String} {parameters : List (List TokenKind)} {trailing : Bool}
      {result : List TokenKind} (h : ∀ p ∈ parameters, Derives .parameter p)
      (hresult : Derives .resultType result) :
      Derives .signature
        (.identifier name :: .punct .leftParen ::
          (commaSeparated trailing parameters ++
            .punct .rightParen :: .punct .colon :: result))
  | importPath {nameSpace specifier : String} :
      Derives .importPath
        [.keyword .import_, .punct .leftParen, .identifier nameSpace, .punct .doubleColon,
          .identifier specifier, .punct .rightParen]
  | plainFunction {header body : List TokenKind} (h : Derives .signature header)
      (hbody : Derives .block body) :
      Derives .function (.keyword .func :: (header ++ body))
  | exportedFunction {header body : List TokenKind} (h : Derives .signature header)
      (hbody : Derives .block body) :
      Derives .function (.keyword .func :: .keyword .export_ :: (header ++ body))
  | importedFunction {path header : List TokenKind} (hpath : Derives .importPath path)
      (h : Derives .signature header) :
      Derives .function (.keyword .func :: (path ++ (header ++ [.punct .semicolon])))
  | noModifier : Derives .modifier []
  | exportModifier : Derives .modifier [.keyword .export_]
  | importModifier {path : List TokenKind} (h : Derives .importPath path) :
      Derives .modifier path
  | memory {modifier : List TokenKind} {name digits : String} {size : UInt32}
      (hmodifier : Derives .modifier modifier)
      (hsize : Spells digits size) :
      Derives .memory
        (.keyword .memory :: (modifier ++ [.identifier name, .punct .leftParen,
          .number digits .i32, .punct .rightParen, .punct .semicolon]))
  | functions {before : List (List TokenKind)} (h : ∀ f ∈ before, Derives .function f) :
      Derives .program before.flatten
  | withMemory {before after : List (List TokenKind)} {declared : List TokenKind}
      (hbefore : ∀ f ∈ before, Derives .function f) (h : Derives .memory declared)
      (hafter : ∀ f ∈ after, Derives .function f) :
      Derives .program (before.flatten ++ (declared ++ after.flatten))

/-- The kinds of the tokens in front of the first end mark. -/
def sentence (tokens : List Token) : List TokenKind :=
  (tokens.map Token.kind).takeWhile (· ≠ .endOfFile)

theorem sentence_append_end {tokens : List Token} (h : .endOfFile ∈ tokens.map Token.kind) :
    ∃ more, tokens.map Token.kind = sentence tokens ++ .endOfFile :: more := by
  rw [sentence]
  generalize tokens.map Token.kind = kinds at h ⊢
  induction kinds with
  | nil => cases h
  | cons k rest ih =>
      by_cases hk : k = .endOfFile
      · exact ⟨rest, by simp [hk]⟩
      · obtain ⟨more, hmore⟩ := ih ((List.mem_cons.mp h).resolve_left (Ne.symm hk))
        exact ⟨more, by simpa [hk] using hmore⟩

namespace Derives

/-- Two expressions joined by an operator are an expression, whichever binds tighter. -/
theorem join {left right : List TokenKind} (hleft : Derives .expression left) (op : BinaryOp)
    (hright : Derives .expression right) :
    Derives .expression (left ++ .operator op.operator :: right) := by
  cases hleft with
  | @expression first rest hfirst hrest =>
      cases hright with
      | @expression first' rest' hfirst' hrest' =>
          have hjoined : Derives .expression (first ++ (rest ++ (op, first') :: rest').flatMap
              fun r => .operator r.1.operator :: r.2) := by
            refine .expression hfirst fun r hr => ?_
            rcases List.mem_append.mp hr with hr | hr
            · exact hrest r hr
            · rcases List.mem_cons.mp hr with rfl | hr
              · exact hfirst'
              · exact hrest' r hr
          simpa using hjoined

theorem cast {operand target : List TokenKind} (hoperand : Derives .operand operand)
    (htarget : Derives .valueType target) :
    Derives .operand (operand ++ .keyword .as_ :: target) := by
  cases hoperand with
  | @operand first targets hfirst htargets =>
      have hcast : Derives .operand
          (first ++ (targets ++ [target]).flatMap (.keyword .as_ :: ·)) := by
        refine .operand hfirst fun type htype => ?_
        rcases List.mem_append.mp htype with htype | htype
        · exact htargets type htype
        · rwa [List.mem_singleton.mp htype]
      simpa using hcast

theorem uncast {ks : List TokenKind} (h : Derives .prefixed ks) : Derives .operand ks := by
  have hoperand : Derives .operand (ks ++ [].flatMap (.keyword .as_ :: ·)) := .operand h nofun
  rwa [List.flatMap_nil, List.append_nil] at hoperand

theorem alone {ks : List TokenKind} (h : Derives .operand ks) : Derives .expression ks := by
  have hexpression : Derives .expression (ks ++ [].flatMap fun r : BinaryOp × List TokenKind =>
      .operator r.1.operator :: r.2) := .expression h nofun
  rwa [List.flatMap_nil, List.append_nil] at hexpression

end Derives

/-! ## How phrases start -/

/-- Whether a phrase that is an operand may start with the token. -/
def TokenKind.opensOperand : TokenKind → Bool
  | number _ _ | identifier _ | punct .leftParen => true
  | operator mark => (UnaryOp.ofOperator? mark).isSome
  | _ => false

/-- The tokens start with one that has the property. -/
def StartsWith (P : TokenKind → Prop) (ks : List TokenKind) : Prop :=
  ∃ k rest, ks = k :: rest ∧ P k

namespace StartsWith

variable {P P' : TokenKind → Prop} {ks : List TokenKind}

theorem cons {k : TokenKind} (h : P k) : StartsWith P (k :: ks) :=
  ⟨k, ks, rfl, h⟩

theorem append (h : StartsWith P ks) (more : List TokenKind) : StartsWith P (ks ++ more) := by
  obtain ⟨k, rest, rfl, hk⟩ := h
  exact ⟨k, rest ++ more, rfl, hk⟩

theorem imp (h : StartsWith P ks) (hP : ∀ k, P k → P' k) : StartsWith P' ks := by
  obtain ⟨k, rest, rfl, hk⟩ := h
  exact ⟨k, rest, rfl, hP k hk⟩

theorem ne_nil (h : StartsWith P ks) : ks ≠ [] := by
  obtain ⟨k, rest, rfl, -⟩ := h
  exact List.cons_ne_nil k rest

end StartsWith

theorem TokenKind.ne_rightParen_of_opensOperand {k : TokenKind} (h : k.opensOperand = true) :
    k ≠ .punct .rightParen := by
  rintro rfl
  cases h

theorem Derives.prefixed_starts {ks : List TokenKind} (h : Derives .prefixed ks) :
    StartsWith (·.opensOperand = true) ks := by
  cases h with
  | number => exact .cons rfl
  | name => exact .cons rfl
  | call => exact .cons rfl
  | paren => exact .cons rfl
  | unary => exact .cons (by simp [TokenKind.opensOperand, UnaryOp.ofOperator?_operator])

theorem Derives.operand_starts {ks : List TokenKind} (h : Derives .operand ks) :
    StartsWith (·.opensOperand = true) ks := by
  cases h with
  | operand hfirst => exact hfirst.prefixed_starts.append _

theorem Derives.expression_starts {ks : List TokenKind} (h : Derives .expression ks) :
    StartsWith (·.opensOperand = true) ks := by
  cases h with
  | expression hfirst => exact hfirst.operand_starts.append _

/-- A list that goes on with an argument does not end there. -/
theorem Derives.argument_starts {ks : List TokenKind} (h : Derives .expression ks) :
    StartsWith (· ≠ .punct .rightParen) ks :=
  h.expression_starts.imp fun _ => TokenKind.ne_rightParen_of_opensOperand

/-- A list that goes on with a parameter does not end there. -/
theorem Derives.parameter_starts {ks : List TokenKind} (h : Derives .parameter ks) :
    StartsWith (· ≠ .punct .rightParen) ks := by
  cases h with
  | parameter => exact .cons nofun

theorem Derives.valueType_starts {ks : List TokenKind} (h : Derives .valueType ks) :
    StartsWith (· ≠ .base .void) ks := by
  cases h with
  | pointerType => exact .cons nofun
  | baseType hvalue =>
      apply StartsWith.cons
      rintro ⟨⟩
      exact hvalue rfl

theorem Derives.function_starts {ks : List TokenKind} (h : Derives .function ks) :
    StartsWith (· = .keyword .func) ks := by
  cases h with
  | plainFunction => exact .cons rfl
  | exportedFunction => exact .cons rfl
  | importedFunction => exact .cons rfl

/-- Whether a statement may start with the token. -/
def TokenKind.opensStatement : TokenKind → Bool
  | keyword .if_ | keyword .while_ | keyword .return_ | keyword .var | keyword .const => true
  | k => k.opensOperand

theorem TokenKind.opensStatement_of_opensOperand {k : TokenKind} (h : k.opensOperand = true) :
    k.opensStatement = true := by
  cases k with
  | keyword word => cases h
  | _ => exact h

theorem Derives.statement_starts {ks : List TokenKind} (h : Derives .statement ks) :
    StartsWith (·.opensStatement = true) ks := by
  cases h with
  | cond => exact .cons rfl
  | loop => exact .cons rfl
  | @declare kind => cases kind <;> exact .cons rfl
  | ret => exact .cons rfl
  | expr hvalue =>
      have hopens := hvalue.expression_starts
      exact (hopens.imp fun _ => TokenKind.opensStatement_of_opensOperand).append _

/-! ## What trees spell -/

def Ty.yield : Ty → List TokenKind
  | base b => [.base b]
  | pointer t => .operator .star :: t.yield

namespace Expr

variable {α : Type}

mutual

/-- The tokens of an expression, in order and without trailing commas. -/
def yield : Expr α → List TokenKind
  | name _ id => [.identifier id]
  | number _ digits type => [.number digits type]
  | call _ callee args =>
    .identifier callee :: .punct .leftParen ::
      (commaSeparated false (yields args) ++ [.punct .rightParen])
  | unary _ op operand => .operator op.operator :: operand.yield
  | binary _ op left right => left.yield ++ .operator op.operator :: right.yield
  | paren _ inner => .punct .leftParen :: (inner.yield ++ [.punct .rightParen])
  | cast _ operand target => operand.yield ++ .keyword .as_ :: target.yield

def yields : List (Expr α) → List (List TokenKind)
  | [] => []
  | e :: rest => e.yield :: yields rest

end

end Expr

namespace Stmt

variable {α : Type}

mutual

def yield : Stmt α → List TokenKind
  | cond _ arms otherwise => armsYield .if_ arms ++ elseYield otherwise
  | loop _ condition body =>
    .keyword .while_ :: .punct .leftParen ::
      (condition.yield ++ .punct .rightParen :: braced (listYield body))
  | ret _ value =>
    .keyword .return_ :: ((value.map Expr.yield).getD [] ++ [.punct .semicolon])
  | declare _ kind name type initial =>
    .keyword (Parser.declarationWord kind) :: .identifier name :: .punct .colon ::
      (type.yield ++ .operator .equal :: (initial.yield ++ [.punct .semicolon]))
  | expr _ value => value.yield ++ [.punct .semicolon]

def listYield : List (Stmt α) → List TokenKind
  | [] => []
  | s :: rest => s.yield ++ listYield rest

/-- Arms, the first of which opens with the given keyword and the others with `elif`. -/
def armsYield (word : Keyword) : List (Arm α) → List TokenKind
  | [] => []
  | ⟨condition, body, _⟩ :: rest =>
    .keyword word :: .punct .leftParen ::
      (condition.yield ++ .punct .rightParen :: (braced (listYield body) ++ armsYield .elif rest))

def elseYield : Option (List (Stmt α)) → List TokenKind
  | none => []
  | some body => .keyword .else_ :: braced (listYield body)

end

end Stmt

def Parameter.yield (p : Parameter) : List TokenKind :=
  .identifier p.name :: .punct .colon :: p.type.yield

def Signature.yield (s : Signature) : List TokenKind :=
  .identifier s.name :: .punct .leftParen ::
    (commaSeparated false (s.parameters.map Parameter.yield) ++
      .punct .rightParen :: .punct .colon :: s.result.yield)

def ImportPath.yield (path : ImportPath) : List TokenKind :=
  [.keyword .import_, .punct .leftParen, .identifier path.nameSpace, .punct .doubleColon,
    .identifier path.specifier, .punct .rightParen]

def Func.yield {α : Type} : Func α → List TokenKind
  | plain d => .keyword .func :: (d.signature.yield ++ braced (Stmt.listYield d.body))
  | exported d =>
    .keyword .func :: .keyword .export_ :: (d.signature.yield ++ braced (Stmt.listYield d.body))
  | imported i => .keyword .func :: (i.path.yield ++ (i.signature.yield ++ [.punct .semicolon]))

def MemoryKind.yield : MemoryKind → List TokenKind
  | plain => []
  | exported => [.keyword .export_]
  | imported path => path.yield

/-- The tokens of a memory declaration, given the digits of its size: a memory keeps the number
only, and a number has many spellings. -/
def Memory.yield (digits : String) (m : Memory) : List TokenKind :=
  .keyword .memory :: (m.kind.yield ++ [.identifier m.name, .punct .leftParen,
    .number digits .i32, .punct .rightParen, .punct .semicolon])

/-- The number of `a` is not larger than that of `b`. -/
def numberedBefore (a b : Nat × List TokenKind) : Bool :=
  a.1 ≤ b.1

/-- The tokens of a program, given the digits of the size of its memory. Declarations stand in the
order of their numbers. -/
def Program.yield {α : Type} (digits : String) (p : Program α) : List TokenKind :=
  ((p.funcs.map fun f => (f.node.id, f.yield)).merge
    (p.memories.map fun m => (m.node.id, m.yield digits)) numberedBefore).flatMap Prod.snd

end Wattle
