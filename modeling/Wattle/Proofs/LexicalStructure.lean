import Wattle.Proofs.Scanning
import Wattle.Proofs.SourcePlaces
import Wattle.Proofs.Success

/-!
# The tokens of a text

A text is read line by line, each line up to its first two slashes. Reading succeeds exactly if
every word of every line can be classified. Each token stands for the characters under its span. If
the lines and columns of the text can be counted, reading stops at the first word that cannot be
classified, the tokens follow each other in the text, and what no span covers is blank.
-/

namespace Wattle

namespace Lexer

/-- `code` is the line `row` up to its first two slashes. -/
structure WithoutComment (row code : List Char) : Prop where
  start : code <+: row
  first : ∀ place, place < code.length → ¬ ['/', '/'] <+: row.drop place
  rest : code = row ∨ ['/', '/'] <+: row.drop code.length

theorem withoutComment_cutComment (row : List Char) : WithoutComment row (cutComment row) := by
  fun_induction cutComment row with
  | case1 => exact ⟨List.prefix_refl _, by simp, .inl rfl⟩
  | case2 rest => exact ⟨List.nil_prefix, by simp, .inr ⟨rest, rfl⟩⟩
  | case3 c rest hslash ih =>
      refine ⟨List.cons_prefix_cons.mpr ⟨rfl, ih.start⟩, ?_, ?_⟩
      · intro place hlt
        cases place with
        | zero =>
            rintro ⟨tail, htail⟩
            obtain ⟨rfl, hrest⟩ := List.cons.inj htail
            exact hslash tail rfl hrest.symm
        | succ place =>
            rw [List.drop_succ_cons]
            exact ih.first place (by simpa using hlt)
      · rcases ih.rest with heq | hcut
        · exact .inl (by rw [heq])
        · exact .inr (by rwa [List.length_cons, List.drop_succ_cons])

/-! ## Pieces of a text -/

/-- The pieces of consecutive lines, each with the index of its line. -/
def located (first : Nat) : List (List Char) → List (Nat × Piece)
  | [] => []
  | row :: rows => (pieces 0 (cutComment row)).map (first, ·) ++ located (first + 1) rows

theorem lexLines_eq_mapM (first : Nat) (rows : List (List Char)) :
    lexLines first rows =
      (located first rows).mapM fun piece => tokenOf (ordinal piece.1) piece.2 := by
  induction rows generalizing first with
  | nil => rfl
  | cons row rows ih =>
      simp only [lexLines, lexLine, located, ih, List.mapM_append, List.mapM_map]
      rfl

theorem mem_located {first line : Nat} {rows : List (List Char)} {p : Piece} :
    (line, p) ∈ located first rows ↔
      ∃ index row, rows[index]? = some row ∧ line = first + index ∧
        p ∈ pieces 0 (cutComment row) := by
  induction rows generalizing first with
  | nil => simp [located]
  | cons row rows ih =>
      rw [located, List.mem_append, ih, List.mem_map]
      constructor
      · rintro (⟨q, hq, heq⟩ | ⟨index, row', hrow, rfl, hp⟩)
        · obtain ⟨rfl, rfl⟩ := Prod.mk.inj heq
          exact ⟨0, row, rfl, rfl, hq⟩
        · exact ⟨index + 1, row', hrow, by omega, hp⟩
      · rintro ⟨index, row', hrow, rfl, hp⟩
        cases index with
        | zero =>
            obtain rfl := Option.some.inj hrow
            exact .inl ⟨p, hp, rfl⟩
        | succ index => exact .inr ⟨index, row', hrow, by omega, hp⟩

/-- In a whole text, the index of a line counts from zero. -/
theorem mem_located_zero {index : Nat} {rows : List (List Char)} {p : Piece} :
    (index, p) ∈ located 0 rows ↔
      ∃ row, rows[index]? = some row ∧ p ∈ pieces 0 (cutComment row) := by
  rw [mem_located]
  constructor
  · rintro ⟨_, row, hrow, rfl, hp⟩
    exact ⟨row, by rwa [Nat.zero_add], hp⟩
  · rintro ⟨row, hrow, hp⟩
    exact ⟨index, row, hrow, (Nat.zero_add index).symm, hp⟩

theorem located_ordered (first : Nat) (rows : List (List Char)) :
    (located first rows).Pairwise fun a b =>
      a.1 < b.1 ∨ a.1 = b.1 ∧ a.2.start < a.2.stop ∧ a.2.stop ≤ b.2.start := by
  induction rows generalizing first with
  | nil => exact .nil
  | cons row rows ih =>
      rw [located, List.pairwise_append]
      refine ⟨?_, ih (first + 1), ?_⟩
      · rw [List.pairwise_map]
        have hdivided := divided_pieces 0 (cutComment row)
        exact hdivided.ordered.imp_of_mem fun ha _ h => .inr ⟨rfl, (hdivided.bounds ha).2, h⟩
      · intro a ha b hb
        obtain ⟨p, _, rfl⟩ := List.mem_map.mp ha
        obtain ⟨index, _, _, hb, _⟩ := mem_located.mp (show (b.1, b.2) ∈ _ from hb)
        exact .inl (by simp only; omega)

theorem tokenOf_eq_ok {line : UInt32} {p : Piece} {t : Token} (h : tokenOf line p = .ok t) :
    t.span = .ofIndices line p.start p.stop ∧
      ((∃ start m, p = .mark start m ∧ t.kind = m.kind) ∨
        ∃ start text, p = .word start text ∧ Word.classify text = .ok t.kind) := by
  cases p with
  | mark start m =>
      obtain rfl := Except.ok.inj h
      exact ⟨rfl, .inl ⟨start, m, rfl, rfl⟩⟩
  | word start text =>
      simp only [tokenOf] at h
      cases hword : Word.classify text with
      | error fault => simp [hword] at h
      | ok kind =>
          rw [hword] at h
          obtain rfl := Except.ok.inj h
          exact ⟨rfl, .inr ⟨start, text, rfl, hword⟩⟩

theorem tokenOf_eq_error {line : UInt32} {p : Piece} {e : LexError} :
    tokenOf line p = .error e ↔
      ∃ start text, p = .word start text ∧ e.location = ⟨line, ordinal start⟩ ∧
        Word.classify text = .error e.fault := by
  cases p with
  | mark start m => simp [tokenOf]
  | word start text =>
      simp only [tokenOf]
      cases hword : Word.classify text with
      | ok kind => simp [hword]
      | error fault =>
          obtain ⟨location, fault'⟩ := e
          simp [hword, Span.ofIndices, Span.onLine, eq_comm]

/-- The word `text` starts at `location` of a text with the given lines. -/
def WordAt (rows : List (List Char)) (location : Location) (text : List Char) : Prop :=
  ∃ index row start stop, rows[index]? = some row ∧ IsWord row start stop ∧
    location = ⟨ordinal index, ordinal start⟩ ∧ text = row.extract start stop

theorem wordAt_iff {rows : List (List Char)} {location : Location} {text : List Char} :
    WordAt (rows.map cutComment) location text ↔
      ∃ index start, (index, .word start text) ∈ located 0 rows ∧
        location = ⟨ordinal index, ordinal start⟩ := by
  constructor
  · rintro ⟨index, code, start, stop, hcode, hword, rfl, rfl⟩
    rw [List.getElem?_map] at hcode
    obtain ⟨row, hrow, rfl⟩ := Option.map_eq_some_iff.mp hcode
    have hmem := (divided_pieces 0 (cutComment row)).word_mem hword
    rw [Nat.zero_add] at hmem
    exact ⟨index, start, mem_located_zero.mpr ⟨row, hrow, hmem⟩, rfl⟩
  · rintro ⟨index, start, hmem, rfl⟩
    obtain ⟨row, hrow, hpiece⟩ := mem_located_zero.mp hmem
    obtain ⟨start', stop, hstart, hword, htext⟩ :=
      (divided_pieces 0 (cutComment row)).describes hpiece
    obtain rfl : start = start' := hstart.trans (Nat.zero_add start')
    exact ⟨index, cutComment row, start, stop, by simp [hrow], hword, rfl, htext⟩

/-! ## Places of pieces -/

/-- Where a piece of a line starts. -/
def placeOf (piece : Nat × Piece) : Location :=
  ⟨ordinal piece.1, ordinal piece.2.start⟩

/-- Behind the last character of a piece of a line. -/
def placeBehind (piece : Nat × Piece) : Location :=
  ⟨ordinal piece.1, ordinal piece.2.stop⟩

/-- The places of a piece can be counted, so they tell its line and its columns. -/
theorem toNat_places {rows : List (List Char)} (haddress : Addressable rows) {index : Nat}
    {p : Piece} (h : (index, p) ∈ located 0 rows) :
    (ordinal index).toNat = index + 1 ∧ (ordinal p.start).toNat = p.start + 1 ∧
      (ordinal p.stop).toNat = p.stop + 1 := by
  obtain ⟨row, hrow, hp⟩ := mem_located_zero.mp h
  have hdivided := divided_pieces 0 (cutComment row)
  have hstop := hdivided.stop_le hp
  have hbounds := hdivided.bounds hp
  have hcut := (withoutComment_cutComment row).start.length_le
  exact ⟨haddress.toNat_line (List.getElem?_eq_some_iff.mp hrow).1,
    haddress.toNat_column hrow (by omega), haddress.toNat_column hrow (by omega)⟩

/-- If places can be counted, the pieces of a text follow each other in the order of places. -/
theorem located_places_ordered {rows : List (List Char)} (haddress : Addressable rows) :
    (located 0 rows).Pairwise fun a b => placeOf a < placeOf b ∧ placeBehind a ≤ placeOf b := by
  refine (located_ordered 0 rows).imp_of_mem ?_
  rintro ⟨index, p⟩ ⟨index', p'⟩ ha hb horder
  dsimp only at horder
  obtain ⟨hline, hstart, hstop⟩ := toNat_places haddress ha
  obtain ⟨hline', hstart', -⟩ := toNat_places haddress hb
  simp only [placeOf, placeBehind, Location.lt_iff, Location.le_iff, hline, hline', hstart,
    hstart', hstop]
  omega

/-- Whether the word `text` makes a token. -/
def Classified (text : List Char) : Prop :=
  ∃ kind, Word.classify text = .ok kind

theorem exists_tokenOf_iff {line : UInt32} {p : Piece} :
    (∃ t, tokenOf line p = .ok t) ↔ ∀ start text, p = .word start text → Classified text := by
  cases p with
  | mark start m => simp [tokenOf]
  | word start text =>
      simp only [tokenOf, Piece.word.injEq]
      cases hword : Word.classify text with
      | ok kind =>
          refine ⟨?_, fun _ => ⟨_, rfl⟩⟩
          rintro - start' text' ⟨rfl, rfl⟩
          exact ⟨kind, hword⟩
      | error fault =>
          refine ⟨by simp, fun h => ?_⟩
          obtain ⟨kind, hkind⟩ := h start text ⟨rfl, rfl⟩
          rw [hword] at hkind
          cases hkind

theorem exists_lexLines_iff {rows : List (List Char)} :
    (∃ tokens, lexLines 0 rows = .ok tokens) ↔
      ∀ location text, WordAt (rows.map cutComment) location text → Classified text := by
  rw [lexLines_eq_mapM]
  constructor
  · rintro ⟨tokens, htokens⟩ location text hword
    obtain ⟨index, start, hmem, -⟩ := wordAt_iff.mp hword
    obtain ⟨t, _, ht⟩ := forall₂_partner_right (except_mapM_eq_ok.mp htokens) hmem
    exact exists_tokenOf_iff.mp ⟨t, ht⟩ _ _ rfl
  · intro h
    apply except_exists_mapM
    rintro ⟨index, p⟩ hmem
    apply exists_tokenOf_iff.mpr
    rintro start text rfl
    exact h _ text (wordAt_iff.mpr ⟨index, start, hmem, rfl⟩)

/-- The first word of a text that makes no token, and why. -/
structure FirstFault (rows : List (List Char)) (e : LexError) : Prop where
  word : ∃ text, WordAt rows e.location text ∧ Word.classify text = .error e.fault
  first : ∀ location text, WordAt rows location text → location < e.location → Classified text

/-- What stops the reading of a text is a word of it. -/
theorem exists_word_of_lexLines_eq_error {rows : List (List Char)} {e : LexError}
    (h : lexLines 0 rows = .error e) :
    ∃ text, WordAt (rows.map cutComment) e.location text ∧ Word.classify text = .error e.fault := by
  rw [lexLines_eq_mapM, except_mapM_eq_error] at h
  obtain ⟨before, ⟨index, p⟩, behind, hlist, -, hfault⟩ := h
  obtain ⟨start, text, rfl, hlocation, hclass⟩ := tokenOf_eq_error.mp hfault
  exact ⟨text, wordAt_iff.mpr ⟨index, start, by simp [hlist], hlocation⟩, hclass⟩

theorem lexLines_eq_error {rows : List (List Char)} {e : LexError}
    (haddress : Addressable rows) :
    lexLines 0 rows = .error e ↔ FirstFault (rows.map cutComment) e := by
  have hordered := located_places_ordered haddress
  constructor
  · intro h
    refine ⟨exists_word_of_lexLines_eq_error h, ?_⟩
    rw [lexLines_eq_mapM, except_mapM_eq_error] at h
    obtain ⟨before, ⟨index, p⟩, behind, hlist, hbefore, hfault⟩ := h
    obtain ⟨start, text, rfl, hlocation, -⟩ := tokenOf_eq_error.mp hfault
    rw [hlist, List.pairwise_append] at hordered
    intro location text' hword hlt
    obtain ⟨index', start', hmem, rfl⟩ := wordAt_iff.mp hword
    rw [hlist] at hmem
    rcases List.mem_append.mp hmem with hmem | hmem
    · exact exists_tokenOf_iff.mp (hbefore _ hmem) _ _ rfl
    · -- What comes from the faulty word on does not start before it.
      rw [hlocation, Location.lt_iff] at hlt
      dsimp only at hlt
      rcases List.mem_cons.mp hmem with heq | hmem
      · obtain ⟨rfl, hpiece⟩ := Prod.mk.inj heq
        obtain ⟨rfl, -⟩ := Piece.word.inj hpiece
        omega
      · have hlater := ((List.pairwise_cons.mp hordered.2.1).1 _ hmem).1
        rw [Location.lt_iff] at hlater
        simp only [placeOf, Piece.start] at hlater
        omega
  · rintro ⟨⟨text, hword, hclass⟩, hfirst⟩
    obtain ⟨index, start, hmem, hlocation⟩ := wordAt_iff.mp hword
    obtain ⟨before, behind, hlist⟩ := List.append_of_mem hmem
    rw [lexLines_eq_mapM, except_mapM_eq_error]
    refine ⟨before, _, behind, hlist, ?_,
      tokenOf_eq_error.mpr ⟨start, text, rfl, hlocation, hclass⟩⟩
    rintro ⟨index', p⟩ hmem'
    apply exists_tokenOf_iff.mpr
    rintro start' text' rfl
    apply hfirst _ text' (wordAt_iff.mpr ⟨index', start', by simp [hlist, hmem'], rfl⟩)
    rw [hlist, List.pairwise_append] at hordered
    have hearlier := (hordered.2.2 _ hmem' _ List.mem_cons_self).1
    rwa [hlocation]

/-! ## Tokens of a text -/

/-- The token stands for the characters under its span, which lie on one line: they spell the
longest mark that stands there, or they are a whole word and are classified as the token. -/
def StandsFor (rows : List (List Char)) (t : Token) : Prop :=
  ∃ index row start stop, rows[index]? = some row ∧
    t.span = .ofIndices (ordinal index) start stop ∧ start < stop ∧ stop ≤ row.length ∧
    ((∃ m : Mark, t.kind = m.kind ∧ row.extract start stop = m.spelling ∧
        m.IsLongest (row.drop start)) ∨
      IsWord row start stop ∧ Word.classify (row.extract start stop) = .ok t.kind)

/-- Where a text with the given lines ends. -/
def EndsAt (rows : List (List Char)) (finish : Location) : Prop :=
  (rows = [] ∧ finish = ⟨1, 1⟩) ∨
    ∃ last, rows.getLast? = some last ∧
      finish = ⟨ordinal (rows.length - 1), ordinal last.length⟩

/-- What is known of the tokens of a text with the lines `rows`, of which `codes` is left without
comments. -/
structure Tokenizes (rows codes : List (List Char)) (tokens : List Token) : Prop where
  ends : ∃ body finish, tokens = body ++ [⟨.endOfFile, ⟨finish, finish⟩⟩] ∧
    (∀ t ∈ body, t.kind ≠ .endOfFile) ∧ EndsAt rows finish
  stands : ∀ t ∈ tokens, t.kind ≠ .endOfFile → StandsFor codes t
  ordered : tokens.Pairwise fun t u =>
    t.span.start < u.span.start ∧ t.span.stop ≤ u.span.start
  blank : ∀ index row place c, codes[index]? = some row → row[place]? = some c →
    (∀ t ∈ tokens, ¬ (t.span.start ≤ ⟨ordinal index, ordinal place⟩ ∧
      ⟨ordinal index, ordinal place⟩ < t.span.stop)) → Text.isBlank c = true

theorem kind_ne_endOfFile_of_classify {text : List Char} {kind : TokenKind}
    (h : Word.classify text = .ok kind) : kind ≠ .endOfFile := by
  rintro rfl
  simp only [Word.classify] at h
  split at h
  · split at h <;> cases h
  · split at h
    · cases h
    · cases h
    · split at h <;> cases h

/-- Each located piece makes a token with the span of the piece, which stands for it. -/
theorem standsFor_of_tokenOf {rows : List (List Char)} {index : Nat} {p : Piece} {t : Token}
    (hmem : (index, p) ∈ located 0 rows) (ht : tokenOf (ordinal index) p = .ok t) :
    t.kind ≠ .endOfFile ∧ StandsFor (rows.map cutComment) t := by
  obtain ⟨row, hrow, hpiece⟩ := mem_located_zero.mp hmem
  have hcode : (rows.map cutComment)[index]? = some (cutComment row) := by simp [hrow]
  have hdescribes := (divided_pieces 0 (cutComment row)).describes hpiece
  obtain ⟨hspan, ⟨start, m, rfl, hkind⟩ | ⟨start, text, rfl, hclass⟩⟩ := tokenOf_eq_ok ht
  · refine ⟨by rw [hkind]; cases m <;> simp [Mark.kind], ?_⟩
    obtain ⟨start', hstart, -, hlongest⟩ := hdescribes
    obtain rfl : start = start' := hstart.trans (Nat.zero_add start')
    have hle := hlongest.written.length_le
    have hpos : 0 < m.spelling.length := by
      rcases m.length_spelling with hlen | hlen <;> omega
    rw [List.length_drop] at hle
    refine ⟨index, _, start, start + m.spelling.length, hcode, hspan, by omega, by omega,
      .inl ⟨m, hkind, ?_, hlongest⟩⟩
    rw [List.extract_eq_take_drop, Nat.add_sub_cancel_left]
    exact (List.prefix_iff_eq_take.mp hlongest.written).symm
  · refine ⟨kind_ne_endOfFile_of_classify hclass, ?_⟩
    obtain ⟨start', stop, hstart, hword, rfl⟩ := hdescribes
    obtain rfl : start = start' := hstart.trans (Nat.zero_add start')
    have hnonempty := hword.nonempty
    have hinside := (hword.inside (stop - 1) (by omega) (by omega)).inside
    refine ⟨index, _, start, stop, hcode, ?_, hnonempty, by omega, .inr ⟨hword, hclass⟩⟩
    have hstop : start + ((cutComment row).extract start stop).length = stop := by
      rw [List.extract_eq_take_drop, List.length_take, List.length_drop]
      omega
    rw [hspan, Piece.start, Piece.stop, hstop]

theorem endsAt_endOf (rows : List (List Char)) : EndsAt rows (endOf rows) := by
  cases rows with
  | nil => exact .inl ⟨rfl, rfl⟩
  | cons row rows =>
      right
      refine ⟨_, List.getLast?_eq_some_getLast (by simp), ?_⟩
      simp [endOf, List.getLast?_eq_some_getLast]

/-- What stands for characters of the text lies on one of its lines, and the places where it starts
and stops tell their columns. -/
theorem StandsFor.exists_place {rows : List (List Char)} (haddress : Addressable rows) {t : Token}
    (h : StandsFor (rows.map cutComment) t) :
    ∃ index row start stop, rows[index]? = some row ∧
      t.span = .ofIndices (ordinal index) start stop ∧ start < stop ∧ stop ≤ row.length ∧
      (ordinal start).toNat = start + 1 ∧ (ordinal stop).toNat = stop + 1 := by
  obtain ⟨index, code, start, stop, hcode, hspan, hlt, hle, -⟩ := h
  rw [List.getElem?_map] at hcode
  obtain ⟨row, hrow, rfl⟩ := Option.map_eq_some_iff.mp hcode
  have hcut := (withoutComment_cutComment row).start.length_le
  exact ⟨index, row, start, stop, hrow, hspan, hlt, by omega,
    haddress.toNat_column hrow (by omega), haddress.toNat_column hrow (by omega)⟩

/-- What stands for characters of the text lies before its end. -/
theorem StandsFor.before_end {rows : List (List Char)} (haddress : Addressable rows) {t : Token}
    {finish : Location} (h : StandsFor (rows.map cutComment) t) (hfinish : EndsAt rows finish) :
    t.span.start < finish ∧ t.span.stop ≤ finish := by
  obtain ⟨index, row, start, stop, hrow, hspan, hlt, hle, hstart, hstop⟩ := h.exists_place haddress
  obtain ⟨hindex, hget⟩ := List.getElem?_eq_some_iff.mp hrow
  rcases hfinish with ⟨rfl, -⟩ | ⟨last, hlast, rfl⟩
  · simp at hindex
  · rw [List.getLast?_eq_getElem?] at hlast
    have hline := haddress.toNat_line hindex
    have hbottom := haddress.toNat_line (show rows.length - 1 < rows.length by omega)
    have hend := haddress.toNat_column hlast (Nat.le_refl _)
    rw [hspan, Location.lt_iff, Location.le_iff]
    simp only [Span.ofIndices, Span.onLine, hline, hbottom, hstart, hstop, hend]
    by_cases hlower : index + 1 = rows.length
    · rw [show rows.length - 1 = index by omega] at hlast
      obtain rfl := Option.some.inj (hrow.symm.trans hlast)
      omega
    · omega

/-- What stands for characters stands for at least one. -/
theorem StandsFor.start_lt_stop {rows : List (List Char)} (haddress : Addressable rows) {t : Token}
    (h : StandsFor (rows.map cutComment) t) : t.span.start < t.span.stop := by
  obtain ⟨index, row, start, stop, -, hspan, hlt, -, hstart, hstop⟩ := h.exists_place haddress
  rw [hspan]
  refine Location.lt_iff.mpr (.inr ⟨rfl, ?_⟩)
  change (ordinal start).toNat < (ordinal stop).toNat
  omega

theorem lexLines_standsFor {rows : List (List Char)} {body : List Token}
    (h : lexLines 0 rows = .ok body) {t : Token} (ht : t ∈ body) :
    t.kind ≠ .endOfFile ∧ StandsFor (rows.map cutComment) t := by
  rw [lexLines_eq_mapM] at h
  obtain ⟨⟨index, p⟩, hmem, htoken⟩ := forall₂_partner_left (except_mapM_eq_ok.mp h) ht
  exact standsFor_of_tokenOf hmem htoken

theorem lexLines_tokenizes {rows : List (List Char)} {body : List Token}
    (haddress : Addressable rows) (h : lexLines 0 rows = .ok body) :
    Tokenizes rows (rows.map cutComment) (body ++ [.endAt (endOf rows)]) := by
  have hbody : ∀ t ∈ body, t.kind ≠ .endOfFile ∧ StandsFor (rows.map cutComment) t :=
    fun t ht => lexLines_standsFor h ht
  rw [lexLines_eq_mapM] at h
  have hpairs := except_mapM_eq_ok.mp h
  refine ⟨⟨body, endOf rows, rfl, fun t ht => (hbody t ht).1, endsAt_endOf rows⟩, ?_, ?_, ?_⟩
  · intro t ht hkind
    rcases List.mem_append.mp ht with ht | ht
    · exact (hbody t ht).2
    · obtain rfl := List.mem_singleton.mp ht
      exact absurd rfl hkind
  · rw [List.pairwise_append]
    refine ⟨?_, List.pairwise_singleton _ _, ?_⟩
    · apply forall₂_pairwise hpairs (located_places_ordered haddress)
      intro a a' t u ht hu horder
      rw [(tokenOf_eq_ok ht).1, (tokenOf_eq_ok hu).1]
      exact horder
    · intro t ht u hu
      obtain rfl := List.mem_singleton.mp hu
      exact (hbody t ht).2.before_end haddress (endsAt_endOf rows)
  · intro index code place c hcode hc huncovered
    rw [List.getElem?_map] at hcode
    obtain ⟨row, hrow, rfl⟩ := Option.map_eq_some_iff.mp hcode
    rcases (divided_pieces 0 (cutComment row)).isBlank_or_covered hc with
      hblank | ⟨p, hp, hstart, hstop⟩
    · exact hblank
    · have hmem : (index, p) ∈ located 0 rows := mem_located_zero.mpr ⟨row, hrow, hp⟩
      obtain ⟨t, ht, htoken⟩ := forall₂_partner_right hpairs hmem
      have hspan := (tokenOf_eq_ok htoken).1
      have hcut := (withoutComment_cutComment row).start.length_le
      obtain ⟨hinside, -⟩ := List.getElem?_eq_some_iff.mp hc
      have hplace := haddress.toNat_column hrow (show place ≤ row.length by omega)
      obtain ⟨-, hfirst, hbehind⟩ := toNat_places haddress hmem
      exfalso
      apply huncovered t (List.mem_append_left _ ht)
      rw [hspan]
      refine ⟨Location.le_iff.mpr (.inr ⟨rfl, ?_⟩), Location.lt_iff.mpr (.inr ⟨rfl, ?_⟩)⟩
      · change (ordinal p.start).toNat ≤ (ordinal place).toNat
        omega
      · change (ordinal place).toNat < (ordinal p.stop).toNat
        omega

end Lexer

open Lexer

theorem tokenize_eq_ok {source : String} {tokens : List Token} :
    tokenize source = .ok tokens ↔
      ∃ body, lexLines 0 (lines source.toList) = .ok body ∧
        tokens = body ++ [.endAt (endOf (lines source.toList))] := by
  simp only [tokenize, except_bind_eq_ok, except_pure_eq_ok]
  exact exists_congr fun body => and_congr_right fun _ => eq_comm

/-- Every text ends with an end mark. -/
theorem endOfFile_mem_of_tokenize {source : String} {tokens : List Token}
    (h : tokenize source = .ok tokens) : .endOfFile ∈ tokens.map Token.kind := by
  obtain ⟨body, -, rfl⟩ := tokenize_eq_ok.mp h
  simp [Token.endAt]

theorem tokenize_eq_error {source : String} {e : LexError} :
    tokenize source = .error e ↔ lexLines 0 (lines source.toList) = .error e := by
  simp only [tokenize, except_bind_eq_error, except_pure_eq_error, and_false, exists_false,
    or_false]

/-- If its places can be counted, the tokens of a text stand at distinct ones. -/
theorem tokenize_spans_nodup {source : String} {tokens : List Token}
    (haddress : Addressable (lines source.toList)) (h : tokenize source = .ok tokens) :
    (tokens.map Token.span).Nodup := by
  obtain ⟨body, hbody, rfl⟩ := tokenize_eq_ok.mp h
  have hordered := (lexLines_tokenizes haddress hbody).ordered
  apply List.pairwise_map.mpr
  apply hordered.imp
  intro t u hlt heq
  rw [heq, Location.lt_iff] at hlt
  omega

/-- The whole of reading a text whose lines and columns can be counted in 32 bits: from one, without
a gap. Every text of fewer than `2 ^ 32 - 1` characters is one (`addressable_of_length`). Its lines
are cut at their comments. Reading succeeds if every word of what remains is classified, and then
gives the tokens of the text; otherwise the error is that of the first word that is not, and stands
at the start of that word. -/
theorem tokenize_reads_words_and_marks {source : String}
    (haddress : Addressable (lines source.toList)) :
    (∀ index row place, (lines source.toList)[index]? = some row → place ≤ row.length →
      (ordinal index).toNat = index + 1 ∧ (ordinal place).toNat = place + 1) ∧
    ∃ codes, List.Forall₂ WithoutComment (lines source.toList) codes ∧
      ((∃ tokens, tokenize source = .ok tokens) ↔
        ∀ location text, WordAt codes location text → Classified text) ∧
      (∀ e, tokenize source = .error e ↔ FirstFault codes e) ∧
      ∀ tokens, tokenize source = .ok tokens → Tokenizes (lines source.toList) codes tokens := by
  refine ⟨?_, (lines source.toList).map cutComment, ?_, ?_, ?_, ?_⟩
  · intro index row place hrow hplace
    exact ⟨haddress.toNat_line (List.getElem?_eq_some_iff.mp hrow).1,
      haddress.toNat_column hrow hplace⟩
  · rw [List.forall₂_map_right_iff]
    exact List.forall₂_same.mpr fun row _ => withoutComment_cutComment row
  · constructor
    · rintro ⟨tokens, htokens⟩
      obtain ⟨body, hbody, -⟩ := tokenize_eq_ok.mp htokens
      exact exists_lexLines_iff.mp ⟨body, hbody⟩
    · intro hwords
      obtain ⟨body, hbody⟩ := exists_lexLines_iff.mpr hwords
      exact ⟨_, tokenize_eq_ok.mpr ⟨body, hbody, rfl⟩⟩
  · exact fun e => tokenize_eq_error.trans (lexLines_eq_error haddress)
  · intro tokens htokens
    obtain ⟨body, hbody, rfl⟩ := tokenize_eq_ok.mp htokens
    exact lexLines_tokenizes haddress hbody

/-- A text of two lines, the first with a comment, has three tokens before its end mark. -/
theorem tokens_of_two_lines :
    let source := "a //\n <=1"
    let tokens : List Token :=
      [⟨.identifier "a", ⟨⟨1, 1⟩, ⟨1, 2⟩⟩⟩, ⟨.operator .lessEqual, ⟨⟨2, 2⟩, ⟨2, 4⟩⟩⟩,
        ⟨.number "1" .i32, ⟨⟨2, 4⟩, ⟨2, 5⟩⟩⟩, ⟨.endOfFile, ⟨⟨2, 5⟩, ⟨2, 5⟩⟩⟩]
    tokenize source = .ok tokens ∧
      ∃ codes, List.Forall₂ WithoutComment (lines source.toList) codes ∧
        Tokenizes (lines source.toList) codes tokens := by
  intro source tokens
  have htokens : tokenize source = .ok tokens := by
    decide +kernel
  have haddress : Addressable (lines source.toList) := addressable_of_length (by decide +kernel)
  obtain ⟨-, codes, hcodes, -, -, htokenizes⟩ := tokenize_reads_words_and_marks haddress
  exact ⟨htokens, codes, hcodes, htokenizes tokens htokens⟩

end Wattle
