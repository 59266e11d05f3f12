import Wattle.Proofs.OperandChains
import Wattle.Proofs.ParserComplete
import Wattle.Proofs.SpelledTokens
import Wattle.Proofs.TokenSpans
import Wattle.Proofs.VoidFree

/-!
# Types in source spelling

A type is written the way it is read: a star for each pointer and a name, with nothing in between.
Stars are never read together or with the name behind them, so a written type has exactly the
tokens of the type. A result type is read from these tokens and no others, and the types that can
be read are those in which no pointer leads to `void`.
-/

namespace Wattle

/-! ## The tokens of a written type -/

namespace Lexer

theorem longest?_star (rest : List Char) :
    Mark.longest? ('*' :: rest) = some (.operator .star) := by
  have hone : Mark.ofSpelling? ['*'] = some (.operator .star) := by decide
  cases rest with
  | nil => exact hone
  | cons d rest =>
      have htwo : Mark.ofSpelling? ['*', d] = none := by
        rw [Mark.ofSpelling?_eq_none]
        intro m
        cases m with
        | punct p => cases p <;> simp [Mark.spelling, Punct.spelling]
        | operator o => cases o <;> simp [Mark.spelling, Operator.spelling]
      rw [Mark.longest?_cons_cons, htwo, Option.none_or, hone]

theorem RowReads.star {row : List Char} {kinds : List TokenKind} (h : RowReads row kinds) :
    RowReads ('*' :: row) (.operator .star :: kinds) := by
  intro line index
  obtain ⟨tokens, htokens, rfl⟩ := h line (index + 1)
  refine ⟨⟨.operator .star, .ofIndices line index (index + 1)⟩ :: tokens, ?_, rfl⟩
  have hlength : (Mark.operator .star).spelling.length = 1 := rfl
  rw [pieces_mark (by decide) (longest?_star row), hlength, List.drop_succ_cons, List.drop_zero,
    List.mapM_cons, htokens]
  rfl

end Lexer

namespace Ty

open Lexer

theorem toList_text_pointer (t : Ty) : (pointer t).text.toList = '*' :: t.text.toList := by
  simp [text]

theorem spells_text (t : Ty) :
    t.text.toList ≠ [] ∧ (∀ c ∈ t.text.toList, c = '*' ∨ Word.isNameChar c = true) ∧
      RowReads t.text.toList t.yield := by
  induction t with
  | base b =>
      have hletters : b.name.toList.all Word.isNameChar = true := by cases b <;> decide
      have hspells := Spells.base b
      exact ⟨hspells.nonempty, fun c hc => .inr (List.all_eq_true.mp hletters c hc), hspells.reads⟩
  | pointer t ih =>
      obtain ⟨-, hchars, hreads⟩ := ih
      rw [toList_text_pointer]
      exact ⟨List.cons_ne_nil _ _, List.forall_mem_cons.mpr ⟨.inl rfl, hchars⟩, hreads.star⟩

/-- A written type is read as the tokens of the type. -/
theorem tokenize_text (t : Ty) :
    ∃ read place, tokenize t.text = .ok (read ++ [.endAt place]) ∧
      read.map Token.kind = t.yield := by
  obtain ⟨hnonempty, hchars, hreads⟩ := t.spells_text
  have hvisible : ∀ c ∈ t.text.toList, Text.isBlank c = false := by
    intro c hc
    rcases hchars c hc with rfl | hname
    · decide
    · exact not_isBlank_of_isNameChar hname
  have hslash : '/' ∉ t.text.toList := by
    intro hmem
    rcases hchars _ hmem with h | h <;> exact absurd h (by decide)
  have hlines := lines_append_of_visible hnonempty hvisible []
  rw [List.append_nil] at hlines
  have hrow : RowReads (cutComment t.text.toList) t.yield := by
    rwa [cutComment_of_not_mem hslash]
  have hrows : RowsRead (lines t.text.toList) t.yield := by
    rw [hlines, ← List.append_nil t.yield]
    exact .cons hrow .nil
  obtain ⟨read, hread, hkinds⟩ := hrows.exists_lexLines 0
  exact ⟨read, _, tokenize_eq_ok.mpr ⟨read, hread, rfl⟩, hkinds⟩

end Ty

/-! ## The types that are read -/

theorem derives_valueType_iff {ks : List TokenKind} :
    Derives .valueType ks ↔ ∃ t : Ty, t.voidFree = true ∧ t.yield = ks := by
  constructor
  · intro h
    generalize hphrase : Phrase.valueType = phrase at h
    induction h with
    | pointerType _ ih =>
        obtain ⟨t, hfree, rfl⟩ := ih hphrase
        exact ⟨.pointer t, hfree, rfl⟩
    | @baseType b hvalue => exact ⟨.base b, (Ty.voidFree_base b).mpr hvalue, rfl⟩
    | _ => cases hphrase
  · rintro ⟨t, hfree, rfl⟩
    induction t with
    | base b => exact .baseType ((Ty.voidFree_base b).mp hfree)
    | pointer t ih => exact .pointerType (ih hfree)

theorem derives_resultType_iff {ks : List TokenKind} :
    Derives .resultType ks ↔ ∃ t : Ty, t.isResult = true ∧ t.yield = ks := by
  constructor
  · intro h
    cases h with
    | voidResult => exact ⟨.void, rfl, rfl⟩
    | valueResult hvalue =>
        obtain ⟨t, hfree, rfl⟩ := derives_valueType_iff.mp hvalue
        exact ⟨t, Ty.isResult_of_voidFree hfree, rfl⟩
  · rintro ⟨t, hresult, rfl⟩
    by_cases hvoid : t = .void
    · subst hvoid
      exact .voidResult
    · exact .valueResult (derives_valueType_iff.mpr ⟨t, Ty.voidFree_of_isResult hresult hvoid, rfl⟩)

theorem Ty.drops_yield (t : Ty) : Drops t.yield t.yield := by
  induction t with
  | base b => exact .single nofun
  | pointer t ih => exact ih.cons nofun

namespace Parser

theorem run_eq_ok {α : Type} {p : Parser α} {tokens : List Token} {a : α} {c : Cursor} :
    run p tokens = .ok (a, c) ↔ ∃ u, p ⟨.start tokens, 0⟩ = .ok a u ∧ u.cursor = c := by
  simp only [run]
  cases p ⟨.start tokens, 0⟩ <;> simp

/-- With an end mark ahead, a result type is read from its own tokens. -/
theorem resultType_eq_ok {s u : ParseState} {t : Ty} (hend : .endOfFile ∈ s.kinds)
    (h : resultType s = .ok t u) :
    t.isResult = true ∧ ∃ read, Passed s.cursor read u.cursor ∧ read.map Token.kind = t.yield := by
  obtain ⟨read, hpassed, -, -⟩ := (spreads_resultType s).of_ok t u h hend
  have hparses := parses_resultType s hend
  rw [h] at hparses
  obtain ⟨-, ks, -, hkinds, hderives, hdrops⟩ := hparses
  obtain ⟨t', hresult, rfl⟩ := derives_resultType_iff.mp hderives
  obtain rfl : t' = t := by
    have hsame := (t'.drops_yield []).symm.trans (hdrops [])
    exact (Ty.yield_append_inj hsame).1
  refine ⟨hresult, read, hpassed, ?_⟩
  rw [ParseState.kinds, hpassed.rest, List.map_append] at hkinds
  exact List.append_cancel_right hkinds

theorem exists_resultType {s : ParseState} {t : Ty} {rest : List TokenKind}
    (hresult : t.isResult = true) (hend : .endOfFile ∈ rest) (hs : s.kinds = t.yield ++ rest) :
    ∃ u, resultType s = .ok t u := by
  have hderives := derives_resultType_iff.mpr ⟨t, hresult, rfl⟩
  obtain ⟨t', u, hok, -⟩ := runs_resultType hderives s hs
  have hahead : .endOfFile ∈ s.kinds := hs ▸ List.mem_append_right _ hend
  obtain ⟨-, read, hpassed, hread⟩ := resultType_eq_ok hahead hok
  rw [ParseState.kinds, hpassed.rest, List.map_append, hread] at hs
  obtain ⟨rfl, -⟩ := Ty.yield_append_inj hs
  exact ⟨u, hok⟩

end Parser

/-- A type in which no pointer leads to `void` is read from its written form as it is, up to the
end of the text. From any tokens with an end mark, what is read is such a type, and the tokens
passed are those of its written form. -/
theorem types_are_read_as_written :
    (∀ t : Ty, t.isResult = true → ∃ tokens c place,
      tokenize t.text = .ok tokens ∧ Parser.run Parser.resultType tokens = .ok (t, c) ∧
        c.tokens = tokens ∧ c.rest = [.endAt place]) ∧
    ∀ tokens t c, .endOfFile ∈ tokens.map Token.kind →
      Parser.run Parser.resultType tokens = .ok (t, c) →
      t.isResult = true ∧ c.tokens = tokens ∧
        ∃ written place, tokenize t.text = .ok (written ++ [.endAt place]) ∧
          c.consumed.reverse.map Token.kind = written.map Token.kind := by
  have hsound : ∀ tokens t c, .endOfFile ∈ tokens.map Token.kind →
      Parser.run Parser.resultType tokens = .ok (t, c) →
      t.isResult = true ∧ c.tokens = tokens ∧ c.consumed.reverse.map Token.kind = t.yield := by
    intro tokens t c hend hrun
    obtain ⟨u, hok, rfl⟩ := Parser.run_eq_ok.mp hrun
    have hahead : .endOfFile ∈ ParseState.kinds ⟨.start tokens, 0⟩ := hend
    obtain ⟨hresult, read, hpassed, hread⟩ := Parser.resultType_eq_ok hahead hok
    have hconsumed : u.cursor.consumed.reverse = read := by
      rw [hpassed.consumed, List.reverse_append, List.reverse_reverse]
      rfl
    refine ⟨hresult, ?_, hconsumed ▸ hread⟩
    rw [Cursor.tokens, hconsumed, ← hpassed.rest]
    rfl
  constructor
  · intro t hresult
    obtain ⟨written, place, htokens, hkinds⟩ := t.tokenize_text
    have hahead : ParseState.kinds ⟨.start (written ++ [.endAt place]), 0⟩ =
        t.yield ++ [.endOfFile] := by
      rw [ParseState.kinds, Cursor.start, List.map_append, hkinds]
      rfl
    obtain ⟨u, hok⟩ := Parser.exists_resultType hresult List.mem_cons_self hahead
    have hrun : Parser.run Parser.resultType (written ++ [.endAt place]) = .ok (t, u.cursor) :=
      Parser.run_eq_ok.mpr ⟨u, hok, rfl⟩
    obtain ⟨-, hlist, hconsumed⟩ := hsound _ t _ (endOfFile_mem_of_tokenize htokens) hrun
    refine ⟨_, u.cursor, place, htokens, hrun, hlist, ?_⟩
    have hlength : u.cursor.consumed.reverse.length = written.length := by
      rw [← List.length_map Token.kind, hconsumed, ← hkinds, List.length_map]
    exact (List.append_inj hlist hlength).2
  · intro tokens t c hend hrun
    obtain ⟨hresult, hlist, hconsumed⟩ := hsound tokens t c hend hrun
    obtain ⟨written, place, htokens, hkinds⟩ := t.tokenize_text
    exact ⟨hresult, hlist, written, place, htokens, hconsumed.trans hkinds.symm⟩

/-- Two stars that are read apart, and a type in front of an end mark that is not the last token. -/
theorem pointer_before_end_mark_is_read :
    let mark (kind : TokenKind) : Token := ⟨kind, .point ⟨1, 1⟩⟩
    let tokens := [mark (.operator .star), mark (.base .u64), mark .endOfFile, mark (.base .void)]
    (∃ tokens c place, tokenize "**f32" = .ok tokens ∧
      Parser.run Parser.resultType tokens = .ok (.pointer (.pointer (.base .f32)), c) ∧
        c.tokens = tokens ∧ c.rest = [.endAt place]) ∧
    ∃ c written place, Parser.run Parser.resultType tokens = .ok (.pointer (.base .u64), c) ∧
      tokenize "*u64" = .ok (written ++ [.endAt place]) ∧
        c.consumed.reverse.map Token.kind = written.map Token.kind := by
  intro mark tokens
  obtain ⟨hwritten, hread⟩ := types_are_read_as_written
  refine ⟨hwritten (.pointer (.pointer (.base .f32))) (by decide), ?_⟩
  have hrun : Parser.run Parser.resultType tokens = .ok (.pointer (.base .u64),
      ⟨[mark (.base .u64), mark (.operator .star)], [mark .endOfFile, mark (.base .void)]⟩) := by
    decide
  obtain ⟨-, -, written, place, htokens, hkinds⟩ := hread tokens _ _ (by decide) hrun
  exact ⟨_, written, place, hrun, htokens, hkinds⟩

end Wattle
