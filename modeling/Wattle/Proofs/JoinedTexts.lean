import Wattle.Proofs.LexicalStructure

/-!
# Texts one below another

Reading does not look beyond the end of a line: no word, mark or comment goes on in the next one.
So a text that stands below another, with a line feed between the two, is read as it is by itself,
only further down. The upper text loses nothing but a carriage return at its end, which becomes
part of the line end and is blank anyway.
-/

namespace Wattle

/-! ## Blanks within a line -/

namespace Mark

theorem not_isBlank_of_mem_spelling {m : Mark} {c : Char} (h : c ∈ m.spelling) :
    Text.isBlank c = false := by
  have hall : m.spelling.all (!Text.isBlank ·) = true := by
    cases m with
    | punct p => cases p <;> decide
    | operator o => cases o <;> decide
  simpa using List.all_eq_true.mp hall c h

/-- A mark that ends before a blank is read without looking at the blank. -/
theorem longest?_append_blank (behind : List Char) {row : List Char} {b : Char} (hrow : row ≠ [])
    (hblank : Text.isBlank b = true) : longest? (row ++ b :: behind) = longest? row := by
  match row, hrow with
  | [c], _ =>
      have hnone : ofSpelling? [c, b] = none := by
        rw [ofSpelling?_eq_none]
        intro m hm
        have hnot := not_isBlank_of_mem_spelling (m := m) (c := b) (by simp [hm])
        rw [hblank] at hnot
        cases hnot
      rw [List.singleton_append, longest?_cons_cons, hnone, Option.none_or]
      rfl
  | c :: d :: rest, _ => rfl

end Mark

namespace Lexer

theorem pieces_blank (index : Nat) {b : Char} (hblank : Text.isBlank b = true)
    (rest : List Char) : pieces index (b :: rest) = pieces (index + 1) rest := by
  cases rest with
  | nil => simp [pieces, hblank]
  | cons c rest => simp [pieces, hblank]

theorem pieces_mark {index : Nat} {c : Char} {rest : List Char} {m : Mark}
    (hblank : Text.isBlank c = false) (hm : Mark.longest? (c :: rest) = some m) :
    pieces index (c :: rest) = .mark index m ::
      pieces (index + m.spelling.length) ((c :: rest).drop m.spelling.length) := by
  cases rest with
  | nil =>
      have hle := (Mark.longest?_eq_some hm).written.length_le
      rcases m.length_spelling with hlen | hlen <;> simp_all [pieces]
  | cons d rest =>
      rcases m.length_spelling with hlen | hlen <;> simp [pieces, hblank, hm, hlen]

theorem pieces_char {index : Nat} {c : Char} {rest : List Char}
    (hblank : Text.isBlank c = false) (hm : Mark.longest? (c :: rest) = none) :
    pieces index (c :: rest) = prependChar index c (pieces (index + 1) rest) := by
  cases rest with
  | nil => simp [pieces, hblank, hm, prependChar]
  | cons d rest => simp [pieces, hblank, hm]

/-- A character joins no word that stands apart from it. -/
theorem prependChar_append {index place : Nat} {c : Char} {row : List Char}
    (ps : List Piece) (hplace : index + 1 < place) :
    prependChar index c (ps ++ pieces place row) =
      prependChar index c ps ++ pieces place row := by
  match ps with
  | .mark _ _ :: _ => rfl
  | .word next text :: others =>
      simp only [List.cons_append, prependChar]
      split <;> rfl
  | [] =>
      rw [List.nil_append]
      cases hpieces : pieces place row with
      | nil => rfl
      | cons p others =>
          cases p with
          | mark _ _ => rfl
          | word next text =>
              have hbounds := (divided_pieces place row).bounds (hpieces ▸ List.mem_cons_self)
              simp only [Piece.start] at hbounds
              simp only [prependChar]
              rw [if_neg (by omega)]
              rfl

/-- The pieces before a blank and the pieces behind it do not depend on each other. -/
theorem pieces_append_blank (index : Nat) (row behind : List Char) {b : Char}
    (hblank : Text.isBlank b = true) :
    pieces index (row ++ b :: behind) =
      pieces index row ++ pieces (index + row.length + 1) behind := by
  induction hlength : row.length using Nat.strongRecOn generalizing index row with
  | ind n ih =>
      subst hlength
      match row with
      | [] => exact pieces_blank index hblank behind
      | c :: rest =>
          have hrest := ih rest.length (by simp) (index + 1) rest rfl
          rw [Nat.add_right_comm index 1] at hrest
          cases hc : Text.isBlank c with
          | true =>
              rw [List.cons_append, pieces_blank index hc, pieces_blank index hc, hrest]
              rfl
          | false =>
              have hsame := Mark.longest?_append_blank behind (List.cons_ne_nil c rest) hblank
              rw [List.cons_append] at hsame ⊢
              cases hm : Mark.longest? (c :: rest) with
              | none =>
                  rw [pieces_char hc (hsame.trans hm), pieces_char hc hm, hrest,
                    prependChar_append _ (by omega)]
                  rfl
              | some m =>
                  have hle := (Mark.longest?_eq_some hm).written.length_le
                  have hpos : 0 < m.spelling.length := by
                    rcases m.length_spelling with hlen | hlen <;> omega
                  have hothers := ih _ (by rw [List.length_drop]; omega)
                    (index + m.spelling.length) ((c :: rest).drop m.spelling.length) rfl
                  rw [List.length_drop, Nat.add_assoc index, Nat.add_sub_cancel' hle] at hothers
                  rw [pieces_mark hc (hsame.trans hm), pieces_mark hc hm, ← List.cons_append,
                    List.drop_append_of_le_length hle, hothers]
                  rfl

/-! ## The end of a line -/

/-- A carriage return at the end of a line is cut off with a comment, or stays behind the rest. -/
theorem cutComment_append_return (row : List Char) :
    cutComment (row ++ ['\r']) = cutComment row ∨
      cutComment (row ++ ['\r']) = cutComment row ++ ['\r'] := by
  fun_induction cutComment row with
  | case1 => exact .inr rfl
  | case2 rest => exact .inl rfl
  | case3 c rest hslash ih =>
      have hcons : cutComment (c :: (rest ++ ['\r'])) = c :: cutComment (rest ++ ['\r']) := by
        cases rest with
        | nil => simp [cutComment]
        | cons d rest =>
            simp only [List.cons_append]
            rw [cutComment]
            rintro tail rfl heq
            exact hslash rest rfl (by rw [(List.cons.inj heq).1])
      rw [List.cons_append, hcons]
      rcases ih with h | h
      · exact .inl (by rw [h])
      · exact .inr (by rw [h, List.cons_append])

/-- A carriage return at the end of a line makes no difference. -/
theorem lexLine_append_return (line : UInt32) (row : List Char) :
    lexLine line (row ++ ['\r']) = lexLine line row := by
  have hblank : Text.isBlank '\r' = true := by decide
  rcases cutComment_append_return row with h | h
  · rw [lexLine, lexLine, h]
  · rw [lexLine, lexLine, h, pieces_append_blank 0 (cutComment row) [] hblank, pieces,
      List.append_nil]

end Lexer

/-! ## The lines of two texts -/

/-- Lines with some text in front of the first one. -/
def prependToFirst (text : List Char) : List (List Char) → List (List Char)
  | [] => [text]
  | row :: rows => (text ++ row) :: rows

/-- A character that does not belong to a line end stands in front of the first line behind it. -/
theorem lines_cons {c : Char} {rest : List Char} (hfeed : c ≠ '\n')
    (hreturn : c = '\r' → rest.head? ≠ some '\n') :
    lines (c :: rest) = prependToFirst [c] (lines rest) := by
  rw [lines]
  · cases lines rest <;> rfl
  · exact hfeed
  · rintro tail rfl rfl
    exact hreturn rfl rfl

/-- A carriage return before a line feed is part of the line end. -/
theorem lines_return {rest : List Char} (h : rest.head? = some '\n') :
    lines ('\r' :: rest) = lines rest := by
  obtain ⟨tail, rfl⟩ := List.head?_eq_some_iff.mp h
  rfl

/-- Closing a text with a line feed ends its last line, without a carriage return there, or adds
an empty line to a text whose lines have all ended. -/
theorem lines_append_feed (text : List Char) :
    ∃ rows last, lines (text ++ ['\n']) = rows ++ [last] ∧
      (lines text = rows ∧ last = [] ∨ lines text = rows ++ [last] ∨
        lines text = rows ++ [last ++ ['\r']]) := by
  induction text with
  | nil => exact ⟨[], [], rfl, .inl ⟨rfl, rfl⟩⟩
  | cons c rest ih =>
      obtain ⟨rows, last, hclosed, hopen⟩ := ih
      by_cases hfeed : c = '\n'
      · subst hfeed
        refine ⟨[] :: rows, last, by simp [lines, hclosed], ?_⟩
        simpa [lines] using hopen
      by_cases hreturn : c = '\r' ∧ (rest ++ ['\n']).head? = some '\n'
      · obtain ⟨rfl, hhead⟩ := hreturn
        cases rest with
        | nil => exact ⟨[], [], rfl, .inr (.inr rfl)⟩
        | cons d rest =>
            rw [List.cons_append, lines_return hhead, lines_return (by simpa using hhead)]
            exact ⟨rows, last, hclosed, hopen⟩
      · have hclosed' : lines (c :: (rest ++ ['\n'])) = prependToFirst [c] (rows ++ [last]) := by
          rw [lines_cons hfeed fun hc hhead => hreturn ⟨hc, hhead⟩, hclosed]
        have hopen' : lines (c :: rest) = prependToFirst [c] (lines rest) :=
          lines_cons hfeed fun hc hhead => hreturn ⟨hc, by simp [List.head?_append, hhead]⟩
        rw [List.cons_append, hclosed', hopen']
        cases rows with
        | nil =>
            refine ⟨[], c :: last, rfl, .inr ?_⟩
            rcases hopen with ⟨h, rfl⟩ | h | h
            · exact .inl (by rw [h]; rfl)
            · exact .inl (by rw [h]; rfl)
            · exact .inr (by rw [h]; rfl)
        | cons row rows =>
            refine ⟨(c :: row) :: rows, last, rfl, ?_⟩
            rcases hopen with ⟨h, rfl⟩ | h | h
            · exact .inl ⟨by rw [h]; rfl, rfl⟩
            · exact .inr (.inl (by rw [h]; rfl))
            · exact .inr (.inr (by rw [h]; rfl))

theorem length_lines_append_feed (text : List Char) :
    (lines (text ++ ['\n'])).length = text.count '\n' + 1 := by
  induction text with
  | nil => rfl
  | cons c rest ih =>
      by_cases hfeed : c = '\n'
      · subst hfeed
        simp [lines, ih]
      rw [List.count_cons_of_ne hfeed, ← ih, List.cons_append]
      by_cases hreturn : c = '\r' ∧ (rest ++ ['\n']).head? = some '\n'
      · obtain ⟨rfl, hhead⟩ := hreturn
        rw [lines_return hhead]
      · rw [lines_cons hfeed fun hc hhead => hreturn ⟨hc, hhead⟩]
        obtain ⟨rows, last, hclosed, -⟩ := lines_append_feed rest
        rw [hclosed]
        cases rows <;> rfl

/-- What stands behind a line feed is divided into lines by itself. -/
theorem lines_append (above below : List Char) :
    lines (above ++ '\n' :: below) = lines (above ++ ['\n']) ++ lines below := by
  induction above with
  | nil => rfl
  | cons c rest ih =>
      have hhead : (rest ++ '\n' :: below).head? = (rest ++ ['\n']).head? := by
        simp [List.head?_append]
      rw [List.cons_append, List.cons_append]
      by_cases hfeed : c = '\n'
      · subst hfeed
        simp [lines, ih]
      by_cases hreturn : c = '\r' ∧ (rest ++ ['\n']).head? = some '\n'
      · obtain ⟨rfl, hreturn⟩ := hreturn
        rw [lines_return hreturn, lines_return (hhead.trans hreturn), ih]
      · have hother : c = '\r' → (rest ++ ['\n']).head? ≠ some '\n' :=
          fun hc hnext => hreturn ⟨hc, hnext⟩
        rw [lines_cons hfeed hother, lines_cons hfeed (hhead ▸ hother), ih]
        obtain ⟨rows, last, hclosed, -⟩ := lines_append_feed rest
        rw [hclosed]
        cases rows <;> rfl

namespace Lexer

theorem lexLines_append (index : Nat) (above below : List (List Char)) :
    lexLines index (above ++ below) = do
      let first ← lexLines index above
      let others ← lexLines (index + above.length) below
      return first ++ others := by
  induction above generalizing index with
  | nil =>
      change lexLines index below = lexLines index below >>= fun others => pure ([] ++ others)
      simp
  | cons row rows ih =>
      rw [List.cons_append, lexLines, lexLines, ih, List.length_cons, Nat.add_right_comm,
        Nat.add_assoc index]
      simp only [bind_assoc, pure_bind, List.append_assoc]

/-- A line feed at the end of a text makes no difference to its tokens. -/
theorem lexLines_append_feed (index : Nat) (text : List Char) :
    lexLines index (lines (text ++ ['\n'])) = lexLines index (lines text) := by
  obtain ⟨rows, last, hclosed, ⟨hopen, rfl⟩ | hopen | hopen⟩ := lines_append_feed text
  · have hempty : lexLines (index + rows.length) [[]] = .ok [] := rfl
    rw [hclosed, hopen, lexLines_append, hempty]
    cases lexLines index rows with
    | error e => rfl
    | ok tokens => simp [bind, Except.bind, pure, Except.pure]
  · rw [hclosed, hopen]
  · rw [hclosed, hopen, lexLines_append, lexLines_append]
    simp only [lexLines, lexLine_append_return]

end Lexer

/-! ## Texts further down -/

def LexError.down (count : Nat) (e : LexError) : LexError :=
  { e with location := e.location.down count }

namespace Lexer

/-- What is read of a text that begins `count` lines further down. -/
def movedDown (count : Nat) (outcome : Except LexError (List Token)) :
    Except LexError (List Token) :=
  (outcome.map (List.map (Token.down count))).mapError (LexError.down count)

theorem movedDown_bind {count : Nat} {x : Except LexError (List Token)}
    {f f' : List Token → Except LexError (List Token)}
    (h : ∀ tokens, f' (tokens.map (Token.down count)) = movedDown count (f tokens)) :
    movedDown count x >>= f' = movedDown count (x >>= f) := by
  cases x with
  | error e => rfl
  | ok tokens => exact h tokens

theorem tokenOf_down (count : Nat) (line : UInt32) (p : Piece) :
    tokenOf (line + .ofNat count) p =
      ((tokenOf line p).map (Token.down count)).mapError (LexError.down count) := by
  cases p with
  | mark start m => rfl
  | word start text =>
      simp only [tokenOf]
      cases Word.classify text <;> rfl

theorem mapM_tokenOf_down (count : Nat) (line : UInt32) (ps : List Piece) :
    ps.mapM (tokenOf (line + .ofNat count)) = movedDown count (ps.mapM (tokenOf line)) := by
  induction ps with
  | nil => rfl
  | cons p ps ih =>
      rw [List.mapM_cons, List.mapM_cons, ih, tokenOf_down]
      cases tokenOf line p with
      | error e => rfl
      | ok t => exact movedDown_bind fun tokens => rfl

theorem lexLines_down (count index : Nat) (rows : List (List Char)) :
    lexLines (index + count) rows = movedDown count (lexLines index rows) := by
  induction rows generalizing index with
  | nil => rfl
  | cons row rows ih =>
      rw [lexLines, lexLines, Nat.add_right_comm, ih, lexLine, lexLine, ordinal_add,
        mapM_tokenOf_down]
      refine movedDown_bind fun here => movedDown_bind fun below => ?_
      simp only [movedDown, Except.map, Except.mapError, pure, Except.pure, List.map_append]

/-- Only the end of a text is marked as its end. -/
theorem filter_of_lexLines {rows : List (List Char)} {body : List Token}
    (h : lexLines 0 rows = .ok body) (finish : Location) :
    (body ++ [Token.endAt finish]).filter (fun t => t.kind ≠ .endOfFile) = body := by
  have hkinds : ∀ t ∈ body, decide (t.kind ≠ .endOfFile) = true := fun t ht =>
    decide_eq_true (lexLines_standsFor h ht).1
  rw [List.filter_append, List.filter_eq_self.mpr hkinds]
  simp [Token.endAt]

/-- The lines of two texts one below the other are read one text after the other. -/
theorem lexLines_joined (above below : List Char) :
    lexLines 0 (lines (above ++ '\n' :: below)) = do
      let first ← lexLines 0 (lines above)
      let others ← movedDown (above.count '\n' + 1) (lexLines 0 (lines below))
      return first ++ others := by
  rw [lines_append, lexLines_append, lexLines_append_feed, length_lines_append_feed, lexLines_down]

end Lexer

open Lexer

/-! ## Lines of the lower text -/

theorem toNat_ordinal_down {index count : Nat} (h : index + count + 1 < UInt32.size) :
    (ordinal index + .ofNat count).toNat = (ordinal index).toNat + count := by
  rw [← ordinal_add, toNat_ordinal h, toNat_ordinal (by omega)]
  omega

/-- The lines of the lower text come behind those of the upper one. -/
theorem length_lines_joined (above below : List Char) :
    (lines (above ++ '\n' :: below)).length = above.count '\n' + 1 + (lines below).length := by
  rw [lines_append, List.length_append, length_lines_append_feed]

/-- Moved down by `count` lines, the place is on the line whose number is larger by `count`. -/
def Location.FallsBy (count : Nat) (l : Location) : Prop :=
  (l.down count).line.toNat = l.line.toNat + count ∧ (l.down count).column = l.column

theorem fallsBy_ordinal {index count : Nat} {column : UInt32}
    (h : index + count + 1 < UInt32.size) : Location.FallsBy count ⟨ordinal index, column⟩ :=
  ⟨toNat_ordinal_down h, rfl⟩

/-- A text below another one is read as if it stood alone, except that it stands further down: by
the number of line feeds above it, the one between the texts included. Whatever stops the reading
of the upper text stops that of both; otherwise whatever stops that of the lower text does. If
nothing does, the tokens of the upper text come first, then those of the lower one. Lines are
counted in 32 bits here as everywhere; if there are few enough for that, the tokens of the lower
text, or what stops its reading, stand on lines with numbers that are larger by just as much. -/
theorem texts_are_read_one_below_the_other (above below : String) :
    let down := above.toList.count '\n' + 1
    (∃ finish, tokenize (above ++ "\n" ++ below) = do
      let first ← tokenize above
      let others ← (tokenize below).mapError (LexError.down down)
      return first.filter (·.kind ≠ .endOfFile) ++
        (others.filter (·.kind ≠ .endOfFile)).map (Token.down down) ++ [.endAt finish]) ∧
    ((lines (above ++ "\n" ++ below).toList).length < UInt32.size →
      (∀ e, tokenize below = .error e → e.location.FallsBy down) ∧
      ∀ tokens, tokenize below = .ok tokens → ∀ t ∈ tokens, t.kind ≠ .endOfFile →
        t.span.start.FallsBy down ∧ t.span.stop.FallsBy down) := by
  intro down
  have htext : (above ++ "\n" ++ below).toList = above.toList ++ '\n' :: below.toList := by simp
  constructor
  · refine ⟨endOf (lines (above ++ "\n" ++ below).toList), ?_⟩
    have hjoined := lexLines_joined above.toList below.toList
    rw [← htext] at hjoined
    simp only [tokenize, hjoined]
    cases habove : lexLines 0 (lines above.toList) with
    | error e => rfl
    | ok first =>
        cases hbelow : lexLines 0 (lines below.toList) with
        | error e => rfl
        | ok others =>
            simp only [movedDown, Except.map, Except.mapError, bind, Except.bind, pure,
              Except.pure, filter_of_lexLines habove, filter_of_lexLines hbelow]
            rfl
  · rw [htext, length_lines_joined]
    intro hcount
    have hfalls : ∀ index column, index < (lines below.toList).length →
        Location.FallsBy down ⟨ordinal index, column⟩ := by
      intro index column hindex
      exact fallsBy_ordinal (by omega)
    constructor
    · intro e he
      obtain ⟨text, ⟨index, row, start, stop, hrow, -, hlocation, -⟩, -⟩ :=
        exists_word_of_lexLines_eq_error (tokenize_eq_error.mp he)
      obtain ⟨hindex, -⟩ := List.getElem?_eq_some_iff.mp hrow
      rw [List.length_map] at hindex
      rw [hlocation]
      exact hfalls index _ hindex
    · intro tokens htokens t ht hkind
      obtain ⟨body, hbody, rfl⟩ := tokenize_eq_ok.mp htokens
      have hmem : t ∈ body := by
        refine (List.mem_append.mp ht).resolve_right fun hend => hkind ?_
        rw [List.mem_singleton.mp hend]
        rfl
      obtain ⟨-, index, row, start, stop, hrow, hspan, -⟩ := lexLines_standsFor hbody hmem
      obtain ⟨hindex, -⟩ := List.getElem?_eq_some_iff.mp hrow
      rw [List.length_map] at hindex
      rw [hspan]
      exact ⟨hfalls index _ hindex, hfalls index _ hindex⟩

/-- Below a line and its line feed, with another line feed in between, a name moves down by two. -/
theorem name_moves_down_two_lines :
    ∃ finish t, tokenize "b" = .ok [t, .endAt finish] ∧
      tokenize ("a\n" ++ "\n" ++ "b") =
        .ok [⟨.identifier "a", ⟨⟨1, 1⟩, ⟨1, 2⟩⟩⟩, t.down 2, .endAt ⟨3, 2⟩] ∧
      t.span.start.FallsBy 2 ∧ t.span.stop.FallsBy 2 := by
  have hbelow : tokenize "b" =
      .ok [⟨.identifier "b", ⟨⟨1, 1⟩, ⟨1, 2⟩⟩⟩, .endAt ⟨1, 2⟩] := by
    decide +kernel
  obtain ⟨-, hmoved⟩ := texts_are_read_one_below_the_other "a\n" "b"
  obtain ⟨-, hfalls⟩ := hmoved (by decide +kernel)
  exact ⟨_, _, hbelow, by decide +kernel, hfalls _ hbelow _ List.mem_cons_self (by decide)⟩

end Wattle
