import Wattle.Proofs.Completion
import Wattle.Proofs.LexicalStructure
import Wattle.Proofs.Lookahead
import Wattle.Proofs.ParserComplete

/-!
# Failures are at the first wrong token

What has been read when a program is refused can be completed to a program, and no program starts
with these tokens and the one that is refused. So a failure is at the first token that no program
has at its place, behind the tokens before it.
-/

namespace Wattle

/-! ## Phrases have no end marks -/

theorem endOfFile_not_mem_commaSeparated {trailing : Bool} {items : List (List TokenKind)}
    (h : ∀ item ∈ items, .endOfFile ∉ item) : .endOfFile ∉ commaSeparated trailing items := by
  fun_induction commaSeparated trailing items with
  | case1 => exact List.not_mem_nil
  | case2 item => cases trailing <;> simpa using h
  | case3 item next rest ih =>
      obtain ⟨hitem, hrest⟩ := List.forall_mem_cons.mp h
      simpa [hitem] using ih hrest

theorem Derives.endOfFile_not_mem {phrase : Phrase} {ks : List TokenKind}
    (h : Derives phrase ks) : .endOfFile ∉ ks := by
  induction h with
  | baseType | voidResult | number | name | importPath | noModifier | exportModifier => simp
  | valueResult _ ih | importModifier _ ih => exact ih
  | pointerType _ ih | unary _ ih | paren _ ih | loop _ ih | expr _ ih | parameter _ ih =>
      simpa using ih
  | memory _ _ ih => simpa using ih
  | guarded _ _ ih ih' | declare _ _ ih ih' | plainFunction _ _ ih ih'
  | exportedFunction _ _ ih ih' | importedFunction _ _ ih ih' => simp [ih, ih']
  | call _ ih => simpa using endOfFile_not_mem_commaSeparated ih
  | signature _ _ ih ih' => simpa [ih'] using endOfFile_not_mem_commaSeparated ih
  | operand _ _ ih ih' => simpa [ih] using ih'
  | expression _ _ ih ih' => simpa [ih] using ih'
  | block _ ih => simpa [braced] using ih
  | @cond _ _ otherwise _ _ _ ih ih' ih'' =>
      cases otherwise with
      | none => simpa [ih] using ih'
      | some body =>
          have hbody := ih'' body rfl
          simpa [ih, hbody] using ih'
  | @ret value _ ih =>
      cases value with
      | none => simp
      | some ks => simpa using ih ks rfl
  | functions _ ih => simpa using ih
  | withMemory _ _ _ ih ih' ih'' => simpa [ih'] using ⟨ih, ih''⟩

/-! ## The first wrong token -/

/-- Some program has these tokens at its start. -/
def StartsProgram (first : List Token) : Prop :=
  ∃ rest p, parseProgram (first ++ rest) = .ok p

/-- Tokens of some kinds, wherever they stand, complete these to a program that ends with its only
end mark. -/
def Completable (first : List Token) : Prop :=
  ∃ more, .endOfFile ∉ first.map Token.kind ++ more ∧
    ∀ rest : List Token, rest.map Token.kind = more ++ [.endOfFile] →
      ∃ p, parseProgram (first ++ rest) = .ok p

theorem Completable.startsProgram {first : List Token} (h : Completable first) :
    StartsProgram first := by
  obtain ⟨more, -, hread⟩ := h
  have hkinds : ∀ kinds : List TokenKind,
      (kinds.map fun kind => (⟨kind, .point ⟨1, 1⟩⟩ : Token)).map Token.kind = kinds := by
    intro kinds
    rw [List.map_map]
    exact List.map_id _
  obtain ⟨p, hp⟩ := hread _ (hkinds _)
  exact ⟨_, p, hp⟩

theorem StartsProgram.of_append {first more : List Token} (h : StartsProgram (first ++ more)) :
    StartsProgram first := by
  obtain ⟨rest, p, hread⟩ := h
  rw [List.append_assoc] at hread
  exact ⟨more ++ rest, p, hread⟩

/-- What begins a program by its kinds is completed by the kinds that are missing. -/
theorem completable_of_begins {first : List Token}
    (h : Begins .program (first.map Token.kind)) : Completable first := by
  obtain ⟨more, hmore⟩ := h
  refine ⟨more, hmore.endOfFile_not_mem, fun rest hkinds => ?_⟩
  have hahead : ParseState.kinds ⟨.start (first ++ rest), 0⟩ =
      first.map Token.kind ++ more ++ .endOfFile :: [] := by
    change (first ++ rest).map Token.kind = _
    rw [List.map_append, hkinds, List.append_assoc]
  obtain ⟨p, t, hrun, -⟩ := Parser.runs_program hmore ⟨.start (first ++ rest), 0⟩ hahead
  refine ⟨p, ?_⟩
  rw [parseProgram, Parser.run, hrun]
  rfl

/-- The tokens in front of a failure begin a program. -/
theorem begins_before_failure {tokens : List Token} (hended : WellEnded tokens)
    {e : ParseError} {s : ParseState} (h : Parser.program ⟨.start tokens, 0⟩ = .error e s)
    (htokens : s.cursor.tokens = tokens) :
    Begins .program ((tokens.take s.cursor.position).map Token.kind) := by
  have hahead : .endOfFile ∈ ParseState.kinds ⟨.start tokens, 0⟩ := by
    obtain ⟨body, stop, rfl, hstop, -⟩ := hended.ends
    exact List.mem_map.mpr ⟨stop, List.mem_append_right _ (List.mem_singleton_self stop), hstop⟩
  obtain ⟨ks, hkinds, hbegins⟩ := (Parser.viable_program.continues _).stops hahead h
  have hread : tokens.take s.cursor.position = s.cursor.consumed.reverse := by
    rw [← htokens, Cursor.tokens, Cursor.position, ← List.length_reverse, List.take_left]
  have hboth : ks ++ s.kinds = s.cursor.consumed.reverse.map Token.kind ++ s.kinds := by
    rw [← hkinds, ParseState.kinds, ParseState.kinds, ← List.map_append]
    exact congrArg (List.map Token.kind) htokens.symm
  rw [List.nil_append, List.append_cancel_right hboth] at hbegins
  rwa [hread]

theorem tokenize_wellEnded {source : String} {tokens : List Token}
    (haddress : Addressable (lines source.toList)) (h : tokenize source = .ok tokens) :
    WellEnded tokens := by
  refine ⟨tokenize_spans_nodup haddress h, ?_⟩
  obtain ⟨body, hbody, rfl⟩ := tokenize_eq_ok.mp h
  exact ⟨body, _, rfl, rfl, fun t ht => (Lexer.lexLines_standsFor hbody ht).1⟩

/-- The tokens of a text whose lines and columns can be counted in 32 bits are well ended. Where
well-ended tokens are refused, the failure is at one of them. Whatever follows that token, the
failure is the same; and the first tokens, however many, start a program exactly if that token is
not among them. Then some kinds of tokens complete them, wherever these stand. -/
theorem failure_is_at_first_wrong_token :
    (∀ source tokens, Addressable (lines source.toList) → tokenize source = .ok tokens →
      WellEnded tokens) ∧
    ∀ tokens e, WellEnded tokens → parseProgram tokens = .error e →
      ∃ k : Nat, tokens[k]? = some e.found ∧ e.cause ≠ .endless ∧
        (∀ rest, parseProgram (tokens.take (k + 1) ++ rest) = .error e) ∧
        (∀ j, StartsProgram (tokens.take j) ↔ j ≤ k) ∧
        ∀ j ≤ k, Completable (tokens.take j) := by
  refine ⟨fun source tokens => tokenize_wellEnded, fun tokens e hended h => ?_⟩
  obtain ⟨s, hrun⟩ := parseProgram_eq_error.mp h
  obtain ⟨htokens, hfound, hcause, hsame⟩ := program_stops_alike hended hrun
  have hsplit : ∀ {i j}, i ≤ j → tokens.take i ++ (tokens.take j).drop i = tokens.take j := by
    intro i j hle
    have hboth := List.take_append_drop i (tokens.take j)
    rwa [List.take_take, Nat.min_eq_left hle] at hboth
  have hfails : ∀ rest, parseProgram (tokens.take (s.cursor.position + 1) ++ rest) = .error e := by
    intro rest
    apply hsame
    have hlength := (List.getElem?_eq_some_iff.mp hfound).1
    rw [List.take_append_of_le_length (by rw [List.length_take]; omega), List.take_take,
      Nat.min_self]
  have hcompletable : ∀ j ≤ s.cursor.position, Completable (tokens.take j) := by
    intro j hle
    have hbegins := begins_before_failure hended hrun htokens
    rw [← hsplit hle, List.map_append] at hbegins
    exact completable_of_begins hbegins.of_append
  refine ⟨s.cursor.position, hfound, hcause, hfails, fun j => ⟨fun hstarts => ?_, fun hle => ?_⟩,
    hcompletable⟩
  · -- a program with more tokens would start with the refused one
    apply Nat.le_of_not_lt
    intro hlt
    rw [← hsplit hlt] at hstarts
    obtain ⟨rest, p, hread⟩ := hstarts.of_append
    rw [hfails rest] at hread
    cases hread
  · exact (hcompletable j hle).startsProgram

/-- Behind `1 +` in parentheses an operand is missing. The failure is at the semicolon, although
neither the parenthesis nor the block is closed in front of it. -/
theorem missing_operand_is_first_wrong_token :
    ∃ tokens e, tokenize "func f(): i32 \x7b return (1 + ; \x7d" = .ok tokens ∧
      parseProgram tokens = .error e ∧ e.message = "Expected expression, found ';'" ∧
      tokens[11]? = some e.found ∧ StartsProgram (tokens.take 11) ∧
      ¬ StartsProgram (tokens.take 12) ∧
      ∀ rest, parseProgram (tokens.take 12 ++ rest) = .error e := by
  have hfails : (tokenize "func f(): i32 \x7b return (1 + ; \x7d").map (fun tokens =>
      ((parseProgram tokens).map fun _ => ()).mapError fun e =>
        (e.message, decide (tokens[11]? = some e.found))) =
      .ok (.error ("Expected expression, found ';'", true)) := by
    decide +kernel
  obtain ⟨tokens, htokens, hparse⟩ := except_map_eq_ok.mp hfails
  obtain ⟨e, hrefused, he⟩ := except_mapError_eq_error.mp hparse
  have hread := except_map_eq_error.mp hrefused
  obtain ⟨hmessage, hfound⟩ := Prod.mk.inj he
  obtain ⟨hlexed, hfirst⟩ := failure_is_at_first_wrong_token
  have hended := hlexed _ tokens (addressable_of_length (by decide +kernel)) htokens
  obtain ⟨k, hk, -, hsame, hstarts, -⟩ := hfirst tokens e hended hread
  obtain rfl : k = 11 := (Parser.span_eq_iff hended.distinct hk (of_decide_eq_true hfound)).mp rfl
  refine ⟨tokens, e, htokens, hread, hmessage, hk, (hstarts 11).mpr (Nat.le_refl _), ?_, hsame⟩
  rw [hstarts]
  decide

end Wattle
