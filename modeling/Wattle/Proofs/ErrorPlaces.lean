import Mathlib.Data.List.Infix
import Wattle.Compile
import Wattle.Proofs.BlamedPlaces
import Wattle.Proofs.DenseNumbers
import Wattle.Proofs.ParserLayout

/-!
# Errors point into the source

An error in a source text has a place, and that place is the start of something in the text: of the
word that makes no token, of the token that could not be accepted, or of a token that starts the
node or parameter to blame. So the diagnostic always shows a line and a caret under it. This is so
if the lines and columns of the text can be counted in 32 bits.
-/

namespace Wattle

/-! ## The token to blame -/

/-- The token that reading refuses is one of those read. -/
theorem parseProgram_found_mem {tokens : List Token} {e : ParseError}
    (hdistinct : (tokens.map Token.span).Nodup) (hend : .endOfFile ∈ tokens.map Token.kind)
    (h : parseProgram tokens = .error e) : e.found ∈ tokens := by
  have hsame : Parser.SameKinds tokens tokens := ⟨rfl, hdistinct, hdistinct⟩
  have hrun := Parser.alike_program hsame ⟨.start tokens, 0⟩ ⟨.start tokens, 0⟩
    ⟨rfl, rfl, rfl, rfl, hend⟩
  simp only [parseProgram, Parser.run] at h
  cases hprogram : Parser.program ⟨.start tokens, 0⟩ with
  | ok p t => simp [hprogram, Except.map] at h
  | error e' t =>
      rw [hprogram] at h hrun
      obtain rfl := Except.error.inj h
      obtain ⟨⟨-, index, hfound, -⟩, -⟩ := hrun
      exact List.mem_of_getElem? hfound

/-- What checking blames starts with a token, other than the end mark. -/
theorem checkProgram_blames_token {tokens : List Token} {p : Program Node} {e : CheckError}
    (hend : .endOfFile ∈ tokens.map Token.kind) (hread : parseProgram tokens = .ok p)
    (h : checkProgram p = .error e) :
    ∃ t ∈ tokens, t.kind ≠ .endOfFile ∧ t.span.start = e.location := by
  obtain ⟨-, ⟨order, u, horder, hleads⟩, hparameters⟩ := parseProgram_leads hread
  have hopens := (hleads.grown hend).opens
  apply checkProgram_blames (P := Parser.Opens ⟨.start tokens, 0⟩) _ _ _ h
  · intro f hf n hn
    exact hopens n (List.mem_flatMap.mpr ⟨_, horder.func_mem hf, hn⟩)
  · exact fun f hf parameter hparameter => hparameters f hf parameter hparameter hend
  · intro m hm
    exact hopens _ (List.mem_flatMap.mpr ⟨_, horder.memory_mem hm, List.mem_singleton_self _⟩)

/-! ## Places in a text -/

/-- The text spells the token: it is its mark, or a word that is classified as the token. -/
def Token.IsSpelled (t : Token) (text : List Char) : Prop :=
  (∃ m : Mark, t.kind = m.kind ∧ text = m.spelling) ∨ Word.classify text = .ok t.kind

/-- The place is at one of the characters of the line `row` of a text, or just behind the last. -/
structure PlacedIn (rows : List (List Char)) (row : List Char) (l : Location) : Prop where
  line : 1 ≤ l.line.toNat ∧ l.line.toNat ≤ rows.length
  onLine : rows[l.line.toNat - 1]? = some row
  column : 1 ≤ l.column.toNat ∧ l.column.toNat ≤ row.length + 1

/-- The characters from the place `l` of the line `row` on start with `text`. -/
def StartsAt (row : List Char) (l : Location) (text : List Char) : Prop :=
  text ≠ [] ∧ text <+: row.drop (l.column.toNat - 1)

/-- The token is one of the source and starts in the line `row`: the end mark behind the last
character, and any other token with the characters that spell it. -/
def TokenIn (source : String) (row : List Char) (t : Token) : Prop :=
  (∃ tokens, tokenize source = .ok tokens ∧ t ∈ tokens) ∧
    (t.kind = .endOfFile ↔ t.span.start.column.toNat = row.length + 1) ∧
    (t.kind ≠ .endOfFile → ∃ text, t.IsSpelled text ∧ StartsAt row t.span.start text)

/-- What an error in the source blames stands in the line `row`. -/
def Blamed (source : String) (row : List Char) : CompileError → Prop
  | .lexical e => ∃ text, Word.classify text = .error e.fault ∧ StartsAt row e.location text ∧
      Lexer.WordAt ((lines source.toList).map Lexer.cutComment) e.location text
  | .grammar e => TokenIn source row e.found
  | .rules e => ∃ t, t.span.start = e.location ∧ t.kind ≠ .endOfFile ∧ TokenIn source row t
  | .lowering _ => False

theorem StartsAt.column_le {row text : List Char} {l : Location} (h : StartsAt row l text)
    (hpos : 1 ≤ l.column.toNat) : l.column.toNat ≤ row.length := by
  have hle := h.2.length_le
  have hlength := List.length_pos_iff.mpr h.1
  rw [List.length_drop] at hle
  omega

theorem startsAt_extract {row code : List Char} (hcode : code <+: row) {start stop : Nat}
    (hlt : start < stop) (hle : stop ≤ code.length) {l : Location}
    (hcolumn : l.column.toNat = start + 1) : StartsAt row l (code.extract start stop) := by
  rw [StartsAt, hcolumn, Nat.add_sub_cancel, List.extract_eq_take_drop]
  constructor
  · apply List.ne_nil_of_length_pos
    rw [List.length_take, List.length_drop]
    omega
  · exact (List.take_prefix _ _).trans (hcode.drop start)

/-- A line of a text that is cut at its comment starts with what is left of it. -/
theorem exists_row_of_code {rows : List (List Char)} {index : Nat} {code : List Char}
    (h : (rows.map Lexer.cutComment)[index]? = some code) :
    ∃ row, rows[index]? = some row ∧ code <+: row := by
  rw [List.getElem?_map] at h
  obtain ⟨row, hrow, rfl⟩ := Option.map_eq_some_iff.mp h
  exact ⟨row, hrow, (Lexer.withoutComment_cutComment row).start⟩

theorem placedIn_of_index {rows : List (List Char)} (haddress : Addressable rows)
    {row : List Char} {index place : Nat} (hrow : rows[index]? = some row)
    (hplace : place ≤ row.length) : PlacedIn rows row ⟨ordinal index, ordinal place⟩ := by
  have hindex := (List.getElem?_eq_some_iff.mp hrow).1
  have hline := haddress.toNat_line hindex
  have hcolumn := haddress.toNat_column hrow hplace
  refine ⟨by dsimp only; omega, ?_, by dsimp only; omega⟩
  dsimp only
  rw [hline, Nat.add_sub_cancel, hrow]

theorem wordAt_placed {rows : List (List Char)} (haddress : Addressable rows) {l : Location}
    {text : List Char} (h : Lexer.WordAt (rows.map Lexer.cutComment) l text) :
    ∃ row, PlacedIn rows row l ∧ StartsAt row l text := by
  obtain ⟨index, code, start, stop, hcode, hword, rfl, rfl⟩ := h
  obtain ⟨row, hrow, hprefix⟩ := exists_row_of_code hcode
  have hlt := hword.nonempty
  have hinside := (hword.inside (stop - 1) (by omega) (by omega)).inside
  have hle := hprefix.length_le
  exact ⟨row, placedIn_of_index haddress hrow (by omega),
    startsAt_extract hprefix hlt (by omega) (haddress.toNat_column hrow (by omega))⟩

theorem standsFor_placed {rows : List (List Char)} (haddress : Addressable rows) {t : Token}
    (h : Lexer.StandsFor (rows.map Lexer.cutComment) t) :
    ∃ row text, PlacedIn rows row t.span.start ∧ t.IsSpelled text ∧
      StartsAt row t.span.start text := by
  obtain ⟨index, code, start, stop, hcode, hspan, hlt, hle, hspelled⟩ := h
  obtain ⟨row, hrow, hprefix⟩ := exists_row_of_code hcode
  have hlength := hprefix.length_le
  rw [hspan]
  refine ⟨row, code.extract start stop, placedIn_of_index haddress hrow (by omega), ?_,
    startsAt_extract hprefix hlt hle (haddress.toNat_column hrow (by omega))⟩
  rcases hspelled with ⟨m, hkind, htext, -⟩ | ⟨-, hclass⟩
  · exact .inl ⟨m, hkind, htext⟩
  · exact .inr hclass

theorem endsAt_placed {rows : List (List Char)} (haddress : Addressable rows)
    {finish : Location} (h : Lexer.EndsAt rows finish) (hrows : rows ≠ []) :
    ∃ row, PlacedIn rows row finish ∧ finish.column.toNat = row.length + 1 := by
  rcases h with ⟨hnone, -⟩ | ⟨row, hrow, rfl⟩
  · exact absurd hnone hrows
  · rw [List.getLast?_eq_getElem?] at hrow
    exact ⟨row, placedIn_of_index haddress hrow (Nat.le_refl _),
      haddress.toNat_column hrow (Nat.le_refl _)⟩

/-- Every token of a text stands in one of its lines, unless the text has no lines. -/
theorem tokenIn_of_mem {source : String} {tokens : List Token} {t : Token}
    (haddress : Addressable (lines source.toList)) (h : tokenize source = .ok tokens)
    (ht : t ∈ tokens) (hlines : lines source.toList ≠ []) :
    ∃ row, PlacedIn (lines source.toList) row t.span.start ∧ TokenIn source row t := by
  obtain ⟨body, hbody, rfl⟩ := tokenize_eq_ok.mp h
  have htokenizes := Lexer.lexLines_tokenizes haddress hbody
  have hmem : ∃ tokens, tokenize source = .ok tokens ∧ t ∈ tokens := ⟨_, h, ht⟩
  by_cases hkind : t.kind = .endOfFile
  · obtain ⟨body', finish, htokens, hothers, hfinish⟩ := htokenizes.ends
    rw [htokens] at ht
    rcases List.mem_append.mp ht with hother | hlast
    · exact absurd hkind (hothers t hother)
    · obtain rfl := List.mem_singleton.mp hlast
      obtain ⟨row, hplaced, hcolumn⟩ := endsAt_placed haddress hfinish hlines
      exact ⟨row, hplaced, hmem, ⟨fun _ => hcolumn, fun _ => rfl⟩, fun hne => absurd rfl hne⟩
  · obtain ⟨row, text, hplaced, hspelled, hstarts⟩ :=
      standsFor_placed haddress (htokenizes.stands t ht hkind)
    refine ⟨row, hplaced, hmem, ⟨fun hend => absurd hend hkind, ?_⟩,
      fun _ => ⟨text, hspelled, hstarts⟩⟩
    intro hcolumn
    have hle := hstarts.column_le hplaced.column.1
    omega

/-! ## The place of an error -/

/-- The stage that fails, on what the stages before it give. -/
theorem compile_eq_error {source : String} {e : CompileError} (h : compile source = .error e) :
    (∃ fault, e = .lexical fault ∧ tokenize source = .error fault) ∨
      (∃ tokens, tokenize source = .ok tokens ∧
        ((∃ fault, e = .grammar fault ∧ parseProgram tokens = .error fault) ∨
          ∃ p fault, e = .rules fault ∧ parseProgram tokens = .ok p ∧
            checkProgram p = .error fault)) ∨
      ∃ fault, e = .lowering fault := by
  simp only [compile, Compile.wasmModule, Compile.typedProgram, Compile.program, Compile.tokens,
    except_map_eq_error, except_bind_eq_error, except_bind_eq_ok, except_mapError_eq_error,
    except_mapError_eq_ok] at h
  rcases h with ((⟨fault, hfault, rfl⟩ | ⟨tokens, htokens, fault, hfault, rfl⟩) |
    ⟨p, ⟨tokens, htokens, hp⟩, fault, hfault, rfl⟩) | ⟨_, _, fault, _, rfl⟩
  · exact .inl ⟨fault, rfl, hfault⟩
  · exact .inr (.inl ⟨tokens, htokens, .inl ⟨fault, rfl, hfault⟩⟩)
  · exact .inr (.inl ⟨tokens, htokens, .inr ⟨p, fault, rfl, hp, hfault⟩⟩)
  · exact .inr (.inr ⟨fault, rfl⟩)

/-- A text without lines is an empty program. -/
theorem tokenize_of_no_lines {source : String} (h : lines source.toList = []) :
    tokenize source = .ok [.endAt ⟨1, 1⟩] := by
  rw [tokenize, h]
  rfl

theorem blamed_in_line {source : String} {e : CompileError} {location : Location}
    (haddress : Addressable (lines source.toList)) (h : compile source = .error e)
    (hlocation : e.diagnostic.location? = some location) :
    ∃ row, PlacedIn (lines source.toList) row location ∧ Blamed source row e := by
  rcases compile_eq_error h with ⟨fault, rfl, hlex⟩ | ⟨tokens, htokens, hlater⟩ | ⟨fault, rfl⟩
  · obtain rfl := Option.some.inj hlocation
    obtain ⟨text, hword, hclass⟩ :=
      Lexer.exists_word_of_lexLines_eq_error (tokenize_eq_error.mp hlex)
    obtain ⟨row, hplaced, hstarts⟩ := wordAt_placed haddress hword
    exact ⟨row, hplaced, text, hclass, hstarts, hword⟩
  · have hend := endOfFile_mem_of_tokenize htokens
    rcases hlater with ⟨fault, rfl, hparse⟩ | ⟨p, fault, rfl, hparse, hcheck⟩
    · obtain rfl := Option.some.inj hlocation
      have hfound := parseProgram_found_mem (tokenize_spans_nodup haddress htokens) hend hparse
      apply tokenIn_of_mem haddress htokens hfound
      intro hnone
      obtain rfl := Except.ok.inj (htokens.symm.trans (tokenize_of_no_lines hnone))
      cases hparse
    · obtain rfl := Option.some.inj hlocation
      obtain ⟨t, ht, hkind, hstart⟩ := checkProgram_blames_token hend hparse hcheck
      have hlines : lines source.toList ≠ [] := by
        intro hnone
        obtain rfl := Except.ok.inj (htokens.symm.trans (tokenize_of_no_lines hnone))
        obtain rfl := List.mem_singleton.mp ht
        exact hkind rfl
      obtain ⟨row, hplaced, hin⟩ := tokenIn_of_mem haddress htokens ht hlines
      rw [hstart] at hplaced
      exact ⟨row, hplaced, t, hstart, hkind, hin⟩
  · cases hlocation

/-- In a text whose lines and columns can be counted in 32 bits, such as any of fewer than
`2 ^ 32 - 1` characters (`addressable_of_length`), an error other than in lowering has a place, and
blames a word or a token that starts there, in a line of the source. Only the end mark stands behind
the last character of a line. The diagnostic shows that line behind a gutter, and under it, behind a
gutter as wide, a caret below the place. -/
theorem located_errors_point_into_source {source : String} {e : CompileError}
    (haddress : Addressable (lines source.toList)) (h : compile source = .error e)
    (hlocated : ∀ cause, e ≠ .lowering cause) (fileName : String) :
    ∃ location row, e.diagnostic.location? = some location ∧
      PlacedIn (lines source.toList) row location ∧ Blamed source row e ∧
      e.diagnostic.render source fileName =
        s!"{fileName}:{location}: {e.diagnostic}" ++ "\n" ++
          (toString location.line ++ " | ") ++ String.ofList row ++ "\n" ++
          (String.ofList (List.replicate (toString location.line).length ' ') ++ " | ") ++
          String.ofList (List.replicate (location.column.toNat - 1) ' ') ++ "^" := by
  obtain ⟨location, hlocation⟩ : ∃ location, e.diagnostic.location? = some location := by
    cases e with
    | lowering cause => exact absurd rfl (hlocated cause)
    | lexical _ | grammar _ | rules _ => exact ⟨_, rfl⟩
  obtain ⟨row, hplaced, hblamed⟩ := blamed_in_line haddress h hlocation
  refine ⟨location, row, hlocation, hplaced, hblamed, ?_⟩
  simp only [Diagnostic.render, hlocation, hplaced.onLine, Diagnostic.excerpt]
  simp only [String.append_assoc, toString]

/-- A missing brace is noticed at the end, behind a comment on the last line. -/
theorem missing_brace_points_behind_last_comment :
    ∃ e row, compile "func f(): void \x7b // open\n\n  // end" = .error e ∧
      e.diagnostic.location? = some ⟨3, 9⟩ ∧
      PlacedIn (lines "func f(): void \x7b // open\n\n  // end".toList) row ⟨3, 9⟩ ∧
      Blamed "func f(): void \x7b // open\n\n  // end" row e ∧
      e.diagnostic.render "func f(): void \x7b // open\n\n  // end" "a.w" =
        "a.w:3:9: Parse error at 3:9: Expected '\x7d' to close block, found end of file\n" ++
          "3 |   // end\n" ++
          "  |         ^" := by
  have hfails : (compile "func f(): void \x7b // open\n\n  // end").mapError (fun e =>
      (e.diagnostic.location?,
        e.diagnostic.render "func f(): void \x7b // open\n\n  // end" "a.w")) =
      .error (some ⟨3, 9⟩,
        "a.w:3:9: Parse error at 3:9: Expected '\x7d' to close block, found end of file\n" ++
          "3 |   // end\n" ++
          "  |         ^") := by
    decide +kernel
  obtain ⟨e, he, hboth⟩ := except_mapError_eq_error.mp hfails
  obtain ⟨hlocation, hrender⟩ := Prod.mk.inj hboth
  have hlocated : ∀ cause, e ≠ .lowering cause := by
    rintro cause rfl
    cases hlocation
  obtain ⟨location, row, hplace, hplaced, hblamed, -⟩ :=
    located_errors_point_into_source (addressable_of_length (by decide +kernel)) he hlocated "a.w"
  obtain rfl : location = ⟨3, 9⟩ := Option.some.inj (hplace.symm.trans hlocation)
  exact ⟨e, row, he, hlocation, hplaced, hblamed, hrender⟩

end Wattle
