import Wattle.Compile
import Wattle.Proofs.LexicalStructure
import Wattle.Proofs.LongLines
import Wattle.Proofs.ParserLayout
import Wattle.Proofs.UnplacedCode

/-!
# The layout of a text does not matter

Two texts with the same tokens in the same order compile to the same module text or are refused
for the same reason, however their tokens are spread over lines and columns. Reading gives the
same program up to places; checking and lowering do not look at places.
-/

namespace Wattle

/-- The diagnostic without the place that it names. -/
def Diagnostic.withoutPlace : Diagnostic → Diagnostic
  | inSource phase _ message => inSource phase ⟨0, 0⟩ message
  | internal message => internal message
  | inputOutput message => inputOutput message

/-- The stages behind the lexer, each with the error that it ends in. -/
theorem compile_eq_of_tokenize {source : String} {tokens : List Token}
    (h : tokenize source = .ok tokens) :
    compile source =
      match parseProgram tokens with
      | .error e => .error (.grammar e)
      | .ok p =>
        match checkProgram p with
        | .error e => .error (.rules e)
        | .ok t =>
          match lowerProgram t with
          | .error e => .error (.lowering e)
          | .ok m => .ok m.text := by
  simp only [compile, Compile.wasmModule, Compile.typedProgram, Compile.program, Compile.tokens, h,
    Except.mapError, bind, Except.bind, Except.map]
  cases parseProgram tokens with
  | error e => rfl
  | ok p =>
      dsimp only
      cases checkProgram p with
      | error e => rfl
      | ok t =>
          dsimp only
          cases lowerProgram t <;> rfl

/-- Tokens of the same kinds at distinct places are read to the same program up to places, or
refused at tokens of the same kind for the same cause. -/
theorem parseProgram_same_kinds {T T' : List Token} (hkinds : Parser.SameKinds T T')
    (hahead : .endOfFile ∈ T.map Token.kind) :
    (∃ p p', parseProgram T = .ok p ∧ parseProgram T' = .ok p' ∧
      p.unplaced Node.unplaced = p'.unplaced Node.unplaced) ∨
    ∃ e e', parseProgram T = .error e ∧ parseProgram T' = .error e' ∧ e.message = e'.message := by
  have hstart : Parser.Twins T T' ⟨.start T, 0⟩ ⟨.start T', 0⟩ := ⟨rfl, rfl, rfl, rfl, hahead⟩
  have hrun := Parser.alike_program hkinds _ _ hstart
  simp only [parseProgram, Parser.run]
  revert hrun
  cases Parser.program ⟨.start T, 0⟩ with
  | ok p t =>
      cases Parser.program ⟨.start T', 0⟩ with
      | ok p' t' => exact fun hrun => .inl ⟨p, p', rfl, rfl, hrun.1⟩
      | error e' t' => exact False.elim
  | error e t =>
      cases Parser.program ⟨.start T', 0⟩ with
      | ok p' t' => exact False.elim
      | error e' t' =>
          rintro ⟨⟨hcause, index, hfound, hfound'⟩, -⟩
          have hkind := hkinds.kind_eq hfound hfound'
          exact .inr ⟨e, e', rfl, rfl, by simp only [ParseError.message, hcause, hkind]⟩

/-- Programs that are the same up to places are checked to the same result up to places. -/
theorem checkProgram_same_unplaced {p p' : Program Node}
    (h : p.unplaced Node.unplaced = p'.unplaced Node.unplaced) :
    (∃ t t', checkProgram p = .ok t ∧ checkProgram p' = .ok t' ∧
      t.unplaced TypedNode.unplaced = t'.unplaced TypedNode.unplaced) ∨
    ∃ e e', checkProgram p = .error e ∧ checkProgram p' = .error e' ∧
      e.violation = e'.violation := by
  have hsame : Check.forget (Program.unplaced TypedNode.unplaced) (checkProgram p) =
      Check.forget (Program.unplaced TypedNode.unplaced) (checkProgram p') := by
    rw [← checkProgram_unplaced, h, checkProgram_unplaced]
  revert hsame
  cases checkProgram p with
  | ok t =>
      cases checkProgram p' with
      | ok t' => exact fun hsame => .inl ⟨t, t', rfl, rfl, Except.ok.inj hsame⟩
      | error e' => exact fun hsame => nomatch hsame
  | error e =>
      cases checkProgram p' with
      | ok t' => exact fun hsame => nomatch hsame
      | error e' =>
          intro hsame
          have hviolation := congrArg CheckError.violation (Except.error.inj hsame)
          exact .inr ⟨e, e', rfl, rfl, hviolation⟩

/-- Texts of the same tokens compile alike, if no two tokens of one text have the same place. Where
lines and columns can be counted in 32 bits, no two have. -/
theorem compile_independent_of_layout :
    (∀ source tokens, Addressable (lines source.toList) → tokenize source = .ok tokens →
      (tokens.map Token.span).Nodup) ∧
    ∀ source source' tokens tokens', tokenize source = .ok tokens → tokenize source' = .ok tokens' →
      (tokens.map Token.span).Nodup → (tokens'.map Token.span).Nodup →
      tokens.map Token.kind = tokens'.map Token.kind →
      (∃ text, compile source = .ok text ∧ compile source' = .ok text) ∨
      ∃ e e', compile source = .error e ∧ compile source' = .error e' ∧
        e.diagnostic.withoutPlace = e'.diagnostic.withoutPlace := by
  refine ⟨fun source tokens haddress h => tokenize_spans_nodup haddress h, ?_⟩
  intro source source' tokens tokens' h h' hdistinct hdistinct' hkinds
  have hsame : Parser.SameKinds tokens tokens' := ⟨hkinds, hdistinct, hdistinct'⟩
  have hahead : .endOfFile ∈ tokens.map Token.kind := by
    obtain ⟨body, -, rfl⟩ := tokenize_eq_ok.mp h
    simp [Token.endAt]
  rw [compile_eq_of_tokenize h, compile_eq_of_tokenize h']
  rcases parseProgram_same_kinds hsame hahead with ⟨p, p', hp, hp', hunplaced⟩ |
    ⟨e, e', he, he', hmessage⟩
  · rw [hp, hp']
    dsimp only
    rcases checkProgram_same_unplaced hunplaced with ⟨t, t', ht, ht', htyped⟩ |
      ⟨e, e', he, he', hviolation⟩
    · have hlower : lowerProgram t = lowerProgram t' := by
        rw [← lowerProgram_unplaced t, htyped, lowerProgram_unplaced t']
      rw [ht, ht']
      dsimp only
      rw [hlower]
      cases lowerProgram t' with
      | ok m => exact .inl ⟨m.text, rfl, rfl⟩
      | error e => exact .inr ⟨.lowering e, .lowering e, rfl, rfl, rfl⟩
    · rw [he, he']
      refine .inr ⟨.rules e, .rules e', rfl, rfl, ?_⟩
      simp only [CompileError.diagnostic, Diagnostic.withoutPlace, hviolation]
  · rw [he, he']
    refine .inr ⟨.grammar e, .grammar e', rfl, rfl, ?_⟩
    simp only [CompileError.diagnostic, Diagnostic.withoutPlace, hmessage]

/-- An unknown name is refused for the same reason on the first line and on the second. -/
theorem unknown_name_refused_on_any_line :
    ∃ e e', compile "func f(): void { x; }" = .error e ∧
      compile "func f ( ) : void // no x\n { x; }" = .error e' ∧
      e.diagnostic.location? = some ⟨1, 18⟩ ∧ e'.diagnostic.location? = some ⟨2, 4⟩ ∧
      e.diagnostic.withoutPlace = e'.diagnostic.withoutPlace := by
  have hread : (tokenize "func f(): void { x; }").map (List.map Token.kind) =
      .ok [.keyword .func, .identifier "f", .punct .leftParen, .punct .rightParen, .punct .colon,
        .base .void, .punct .leftBrace, .identifier "x", .punct .semicolon, .punct .rightBrace,
        .endOfFile] := by
    decide +kernel
  have hread' : (tokenize "func f ( ) : void // no x\n { x; }").map (List.map Token.kind) =
      (tokenize "func f(): void { x; }").map (List.map Token.kind) := by
    decide +kernel
  have hplaces : (compile "func f(): void { x; }").mapError (·.diagnostic.location?) =
        .error (some ⟨1, 18⟩) ∧
      (compile "func f ( ) : void // no x\n { x; }").mapError (·.diagnostic.location?) =
        .error (some ⟨2, 4⟩) := by
    decide +kernel
  obtain ⟨tokens, htokens, hkinds⟩ := except_map_eq_ok.mp hread
  obtain ⟨tokens', htokens', hkinds'⟩ := except_map_eq_ok.mp (hread'.trans hread)
  obtain ⟨e, he, hplace⟩ := except_mapError_eq_error.mp hplaces.1
  obtain ⟨e', he', hplace'⟩ := except_mapError_eq_error.mp hplaces.2
  obtain ⟨hplaced, halike⟩ := compile_independent_of_layout
  have hdistinct := hplaced _ _ (addressable_of_length (by decide +kernel)) htokens
  have hdistinct' := hplaced _ _ (addressable_of_length (by decide +kernel)) htokens'
  rcases halike _ _ _ _ htokens htokens' hdistinct hdistinct' (hkinds.trans hkinds'.symm) with
    ⟨text, htext, -⟩ | ⟨d, d', hd, hd', hsame⟩
  · exact nomatch he.symm.trans htext
  · obtain rfl := Except.error.inj (he.symm.trans hd)
    obtain rfl := Except.error.inj (he'.symm.trans hd')
    exact ⟨e, e', he, he', hplace, hplace', hsame⟩

/-- What reading the tokens as a program is refused for. -/
def refusal? (tokens : List Token) : Option String :=
  match parseProgram tokens with
  | .ok _ => none
  | .error e => some e.message

theorem compile_of_refusal? {source : String} {message : String}
    (h : (tokenize source).map refusal? = .ok (some message)) :
    ∃ tokens e, tokenize source = .ok tokens ∧ compile source = .error e ∧
      e.diagnostic.withoutPlace = .inSource .grammar ⟨0, 0⟩ message := by
  obtain ⟨tokens, htokens, hrefused⟩ := except_map_eq_ok.mp h
  rw [refusal?] at hrefused
  split at hrefused
  · cases hrefused
  · next e he =>
    refine ⟨tokens, .grammar e, htokens, ?_, ?_⟩
    · rw [compile_eq_of_tokenize htokens, he]
    · rw [← Option.some.inj hrefused]
      rfl

/-- In a line that is too long the name `b` has the place of the parenthesis, so the missing
parenthesis behind `a` is taken for the wrong beginning of an operand. -/
theorem refusal_of_long_line_differs :
    let long := longLine "func f(): void \x7b (a".toList "b); \x7d".toList 17
    let short := "func f(): void \x7b (a b); \x7d"
    ∃ tokens tokens' e e', tokenize long = .ok tokens ∧ tokenize short = .ok tokens' ∧
      tokens.map Token.kind = tokens'.map Token.kind ∧
      compile long = .error e ∧ compile short = .error e' ∧
      e.diagnostic.withoutPlace = .inSource .grammar ⟨0, 0⟩ "Expected expression, found '('" ∧
      e'.diagnostic.withoutPlace = .inSource .grammar ⟨0, 0⟩
        "Expected ')' in parenthesized expression, found identifier 'b'" := by
  intro long short
  have hread : tokenize long = _ := tokenize_longLine (by decide +kernel) (by simp)
  have hkinds : (tokenize long).map (List.map Token.kind) =
      (tokenize short).map (List.map Token.kind) := by
    rw [hread]
    decide +kernel
  have hlong : (tokenize long).map refusal? = .ok (some "Expected expression, found '('") := by
    rw [hread]
    decide +kernel
  have hshort : (tokenize short).map refusal? =
      .ok (some "Expected ')' in parenthesized expression, found identifier 'b'") := by
    decide +kernel
  obtain ⟨tokens, e, htokens, he, hmessage⟩ := compile_of_refusal? hlong
  obtain ⟨tokens', e', htokens', he', hmessage'⟩ := compile_of_refusal? hshort
  rw [htokens, htokens'] at hkinds
  exact ⟨tokens, tokens', e, e', htokens, htokens', Except.ok.inj hkinds, he, he', hmessage,
    hmessage'⟩

end Wattle
