import Wattle.Proofs.JoinedTexts
import Wattle.Proofs.NumericLiterals

/-!
# Spelling tokens

Every token that reading can give is spelled in a way that reads as this token, and a text that
spells tokens one after the other, with blanks between them, is read as these tokens. The blanks
keep the spellings apart: a blank belongs to no word and to no mark, and without one the spellings
of two tokens could be read as one.
-/

namespace Wattle

/-! ## The tokens that can be read -/

/-- The letters that select the type of a number. -/
def BaseType.letters : BaseType → List Char
  | i32 | f32 | void => []
  | u32 => ['u']
  | i64 | f64 => ['l']
  | u64 => ['u', 'l']

namespace TokenKind

/-- How a token is written. The digits of a number do not show whether there was a point without
digits behind it; the type does. -/
def spelling : TokenKind → List Char
  | punct p => p.spelling.toList
  | keyword k => k.spelling.toList
  | operator o => o.spelling.toList
  | base b => b.name.toList
  | number digits type =>
    digits.toList ++ (if type.isFloat && !digits.toList.contains '.' then ['.'] else []) ++
      type.letters
  | identifier name => name.toList
  | endOfFile => []

/-- A word that names something: it has letters of the language only, does not begin with a digit
and is not reserved. -/
structure IsName (name : String) : Prop where
  nonempty : name.toList ≠ []
  letters : ∀ c ∈ name.toList, Word.isNameChar c = true
  start : name.toList.head?.map Char.isDigit ≠ some true
  notKeyword : ∀ k : Keyword, k.spelling ≠ name
  notType : ∀ b : BaseType, b.name ≠ name

/-- The tokens that stand for a piece of a text. A number is what a word that begins with a digit
is read as. -/
def Lexable : TokenKind → Prop
  | punct _ | keyword _ | operator _ | base _ => True
  | number digits type =>
    ∃ word, word.head?.map Char.isDigit = some true ∧ Number.read? word = some (digits, type)
  | identifier name => IsName name
  | endOfFile => False

/-- The text spells the tokens in order, with at least one blank between any two of them. -/
inductive Spaced : List TokenKind → List Char → Prop where
  | none : Spaced [] []
  | one (kind : TokenKind) : Spaced [kind] kind.spelling
  | more {kind next : TokenKind} {others : List TokenKind} {gap text : List Char}
      (nonempty : gap ≠ []) (blank : ∀ c ∈ gap, Text.isBlank c = true)
      (rest : Spaced (next :: others) text) :
      Spaced (kind :: next :: others) (kind.spelling ++ gap ++ text)

end TokenKind

/-! ## Spellings alone -/

namespace Mark

theorem longest?_spelling (m : Mark) : longest? m.spelling = some m := by
  cases m with
  | punct p => cases p <;> decide
  | operator o => cases o <;> decide

theorem not_isNameChar_of_written {m : Mark} {c : Char} {rest : List Char}
    (h : m.spelling <+: c :: rest) : Word.isNameChar c = false ∧ c ≠ '.' := by
  have hhead : m.spelling.head? = some c := by
    rcases written_iff.mp h with h | ⟨d, _, h⟩ <;> simp [h]
  cases m with
  | punct p => cases p <;> simp [spelling, Punct.spelling] at hhead <;> subst hhead <;> decide
  | operator o =>
      cases o <;> simp [spelling, Operator.spelling] at hhead <;> subst hhead <;> decide

end Mark

namespace Lexer

theorem not_isBlank_of_isNameChar {c : Char} (h : Word.isNameChar c = true) :
    Text.isBlank c = false := by
  have hrange : 48 ≤ c.toNat ∧ c.toNat ≤ 122 := by
    have hbounds : ∀ {low high : Char}, low.val ≤ c.val ∧ c.val ≤ high.val →
        low.toNat ≤ c.toNat ∧ c.toNat ≤ high.toNat := fun h =>
      ⟨UInt32.le_iff_toNat_le.mp h.1, UInt32.le_iff_toNat_le.mp h.2⟩
    simp only [Word.isNameChar, Char.isAlphanum, Bool.or_eq_true, decide_eq_true_eq] at h
    rcases h with (h | h) | rfl
    · rcases Bool.or_eq_true_iff.mp h with h | h
      · have hupper : 65 ≤ c.toNat ∧ c.toNat ≤ 90 := hbounds (of_decide_eq_true h)
        omega
      · have hlower : 97 ≤ c.toNat ∧ c.toNat ≤ 122 :=
          hbounds ((Bool.and_eq_true_iff.mp h).imp of_decide_eq_true of_decide_eq_true)
        omega
    · have hdigit : 48 ≤ c.toNat ∧ c.toNat ≤ 57 := Char.isDigit_iff_toNat.mp h
      omega
    · decide
  simp only [Text.isBlank, Text.inTable, Text.blanks, Text.CodeRange.holds, List.any_cons,
    List.any_nil, Bool.or_false, Bool.or_eq_false_iff, Bool.and_eq_false_imp, decide_eq_true_eq,
    decide_eq_false_iff_not]
  omega

/-- A character that can stand in a word. -/
def InSpelling (c : Char) : Prop :=
  Word.isNameChar c = true ∨ c = '.'

theorem not_inSpelling_slash : ¬ InSpelling '/' := by
  rw [InSpelling]
  decide

theorem InSpelling.not_isBlank {c : Char} (h : InSpelling c) : Text.isBlank c = false := by
  rcases h with h | rfl
  · exact not_isBlank_of_isNameChar h
  · decide

theorem InSpelling.longest?_eq_none {c : Char} (h : InSpelling c) (rest : List Char) :
    Mark.longest? (c :: rest) = none := by
  rw [Option.eq_none_iff_forall_ne_some]
  intro m hm
  obtain ⟨hname, hpoint⟩ := Mark.not_isNameChar_of_written (Mark.longest?_eq_some hm).written
  rcases h with h | h
  · rw [h] at hname
    cases hname
  · exact hpoint h

/-- Characters of words make up one word. -/
theorem pieces_word (index : Nat) {text : List Char} (hnonempty : text ≠ [])
    (h : ∀ c ∈ text, InSpelling c) : pieces index text = [.word index text] := by
  induction text generalizing index with
  | nil => exact absurd rfl hnonempty
  | cons c rest ih =>
      have hc := h c List.mem_cons_self
      rw [pieces_char hc.not_isBlank (hc.longest?_eq_none rest)]
      by_cases hrest : rest = []
      · subst hrest
        rfl
      · rw [ih (index + 1) hrest fun d hd => h d (List.mem_cons_of_mem _ hd)]
        simp [prependChar]

theorem pieces_spelling (index : Nat) (m : Mark) :
    pieces index m.spelling = [.mark index m] := by
  have hlongest := m.longest?_spelling
  match hspelling : m.spelling with
  | [] =>
      have hlen := m.length_spelling
      simp [hspelling] at hlen
  | c :: rest =>
      have hblank := Mark.not_isBlank_of_mem_spelling (m := m) (c := c) (by simp [hspelling])
      rw [hspelling] at hlongest
      rw [pieces_mark hblank hlongest, hspelling]
      simp [pieces]

theorem ne_slash_of_isBlank {b : Char} (h : Text.isBlank b = true) : b ≠ '/' := by
  rintro rfl
  exact absurd h (by decide)

theorem cutComment_cons {c : Char} (h : c ≠ '/') (rest : List Char) :
    cutComment (c :: rest) = c :: cutComment rest := by
  rw [cutComment]
  rintro tail rfl -
  exact h rfl

theorem cutComment_of_not_mem {row : List Char} (h : '/' ∉ row) : cutComment row = row := by
  fun_induction cutComment row with
  | case1 => rfl
  | case2 rest => simp at h
  | case3 c rest _ ih =>
      rw [List.mem_cons, not_or] at h
      rw [ih h.2]

/-- Behind characters without a comment, a comment begins where it does without them. -/
theorem cutComment_append {row behind : List Char} (hrow : cutComment row = row)
    (hbehind : behind.head? ≠ some '/') :
    cutComment (row ++ behind) = row ++ cutComment behind := by
  fun_induction cutComment row with
  | case1 => rfl
  | case2 rest => simp at hrow
  | case3 c rest hslash ih =>
      rw [List.cons.injEq] at hrow
      rw [List.cons_append, List.cons_append, ← ih hrow.2]
      cases rest with
      | nil =>
          cases behind with
          | nil => simp [cutComment]
          | cons d behind =>
              rw [List.nil_append, cutComment]
              rintro tail rfl heq
              obtain rfl := (List.cons.inj heq).1
              exact hbehind rfl
      | cons d rest =>
          rw [List.cons_append, cutComment]
          rintro tail rfl heq
          obtain rfl := (List.cons.inj heq).1
          exact hslash rest rfl rfl

/-! ## Reading lines -/

/-- The line is read as the given tokens wherever it stands. -/
def RowReads (row : List Char) (kinds : List TokenKind) : Prop :=
  ∀ line index, ∃ tokens, (pieces index row).mapM (tokenOf line) = .ok tokens ∧
    tokens.map Token.kind = kinds

/-- The lines are read as the given tokens. -/
inductive RowsRead : List (List Char) → List TokenKind → Prop where
  | nil : RowsRead [] []
  | cons {row : List Char} {rows : List (List Char)} {here below : List TokenKind}
      (first : RowReads (cutComment row) here) (others : RowsRead rows below) :
      RowsRead (row :: rows) (here ++ below)

theorem RowReads.nil : RowReads [] [] :=
  fun _ _ => ⟨[], rfl, rfl⟩

theorem RowReads.eq_nil {kinds : List TokenKind} (h : RowReads [] kinds) : kinds = [] := by
  obtain ⟨tokens, htokens, rfl⟩ := h 1 0
  obtain rfl := Except.ok.inj htokens
  rfl

theorem RowReads.blank {b : Char} {row : List Char} {kinds : List TokenKind}
    (hblank : Text.isBlank b = true) (h : RowReads row kinds) : RowReads (b :: row) kinds := by
  intro line index
  rw [pieces_blank index hblank]
  exact h line (index + 1)

theorem RowReads.append {row behind : List Char} {b : Char} {kinds kinds' : List TokenKind}
    (h : RowReads row kinds) (hblank : Text.isBlank b = true)
    (h' : RowReads (b :: behind) kinds') : RowReads (row ++ b :: behind) (kinds ++ kinds') := by
  intro line index
  obtain ⟨tokens, htokens, hkinds⟩ := h line index
  obtain ⟨tokens', htokens', hkinds'⟩ := h' line (index + row.length)
  rw [pieces_blank _ hblank] at htokens'
  refine ⟨tokens ++ tokens', ?_, by rw [List.map_append, hkinds, hkinds']⟩
  rw [pieces_append_blank index row behind hblank, List.mapM_append, htokens, htokens']
  rfl

theorem RowsRead.exists_lexLines {rows : List (List Char)} {kinds : List TokenKind}
    (h : RowsRead rows kinds) (index : Nat) :
    ∃ tokens, lexLines index rows = .ok tokens ∧ tokens.map Token.kind = kinds := by
  induction h generalizing index with
  | nil => exact ⟨[], rfl, rfl⟩
  | cons first _ ih =>
      obtain ⟨here, hhere, rfl⟩ := first (ordinal index) 0
      obtain ⟨below, hbelow, rfl⟩ := ih (index + 1)
      refine ⟨here ++ below, ?_, List.map_append⟩
      simp only [lexLines, lexLine, hhere, hbelow]
      rfl

/-- A blank in front of a text changes nothing. -/
theorem RowsRead.blank {b : Char} {text : List Char} {kinds : List TokenKind}
    (hblank : Text.isBlank b = true) (h : RowsRead (lines text) kinds) :
    RowsRead (lines (b :: text)) kinds := by
  by_cases hfeed : b = '\n'
  · subst hfeed
    have hempty : RowReads (cutComment []) [] := RowReads.nil
    exact .cons hempty h
  by_cases hreturn : b = '\r' ∧ text.head? = some '\n'
  · obtain ⟨rfl, hhead⟩ := hreturn
    rwa [lines_return hhead]
  · have hcut := cutComment_cons (ne_slash_of_isBlank hblank)
    rw [lines_cons hfeed fun hb hhead => hreturn ⟨hb, hhead⟩]
    revert h
    generalize lines text = rows
    intro h
    cases h with
    | nil =>
        have hrow : RowReads (cutComment [b]) [] := by
          rw [hcut]
          exact RowReads.nil.blank hblank
        exact .cons hrow .nil
    | cons first others => exact .cons (hcut _ ▸ first.blank hblank) others

/-- What has no blank in it stands in front of the first line of what follows. -/
theorem lines_append_of_visible {text : List Char} (hnonempty : text ≠ [])
    (h : ∀ c ∈ text, Text.isBlank c = false) (rest : List Char) :
    lines (text ++ rest) = prependToFirst text (lines rest) := by
  induction text with
  | nil => exact absurd rfl hnonempty
  | cons c text ih =>
      have hvisible := h c List.mem_cons_self
      have hfeed : c ≠ '\n' := by
        rintro rfl
        exact absurd hvisible (by decide)
      have hreturn : c ≠ '\r' := by
        rintro rfl
        exact absurd hvisible (by decide)
      rw [List.cons_append, lines_cons hfeed fun hc => absurd hc hreturn]
      by_cases htext : text = []
      · subst htext
        rfl
      · rw [ih htext fun d hd => h d (List.mem_cons_of_mem _ hd)]
        cases lines rest <;> rfl

/-- A text that begins with a blank has a first line, which is empty or begins with it. -/
theorem lines_of_blank {b : Char} (text : List Char) :
    ∃ row rows, lines (b :: text) = row :: rows ∧ (row = [] ∨ ∃ behind, row = b :: behind) := by
  by_cases hfeed : b = '\n'
  · subst hfeed
    exact ⟨[], lines text, rfl, .inl rfl⟩
  by_cases hreturn : b = '\r' ∧ text.head? = some '\n'
  · obtain ⟨rfl, hhead⟩ := hreturn
    obtain ⟨tail, rfl⟩ := List.head?_eq_some_iff.mp hhead
    exact ⟨[], lines tail, rfl, .inl rfl⟩
  · rw [lines_cons hfeed fun hb hhead => hreturn ⟨hb, hhead⟩]
    cases lines text with
    | nil => exact ⟨[b], [], rfl, .inr ⟨[], rfl⟩⟩
    | cons row rows => exact ⟨b :: row, rows, rfl, .inr ⟨row, rfl⟩⟩

/-- The spelling of a token, as far as the lines of a text are concerned. -/
structure Spells (text : List Char) (kind : TokenKind) : Prop where
  nonempty : text ≠ []
  visible : ∀ c ∈ text, Text.isBlank c = false
  uncut : cutComment text = text
  reads : RowReads text [kind]

theorem Spells.rowsRead {text : List Char} {kind : TokenKind} (h : Spells text kind) :
    RowsRead (lines text) [kind] := by
  have hlines := lines_append_of_visible h.nonempty h.visible []
  have hrow : RowReads (cutComment text) [kind] := h.uncut.symm ▸ h.reads
  rw [List.append_nil] at hlines
  rw [hlines]
  exact .cons hrow .nil

/-- A token is read in front of a text that begins with a blank. -/
theorem Spells.rowsRead_append {text rest : List Char} {kind : TokenKind} {b : Char}
    {kinds : List TokenKind} (h : Spells text kind) (hblank : Text.isBlank b = true)
    (hrest : RowsRead (lines (b :: rest)) kinds) :
    RowsRead (lines (text ++ b :: rest)) (kind :: kinds) := by
  have hslash := ne_slash_of_isBlank hblank
  obtain ⟨row, rows, hlines, hrow⟩ := lines_of_blank (b := b) rest
  rw [lines_append_of_visible h.nonempty h.visible, hlines]
  rw [hlines] at hrest
  cases hrest with
  | @cons _ _ here below first others =>
      have hcut : cutComment (text ++ row) = text ++ cutComment row := by
        apply cutComment_append h.uncut
        rcases hrow with rfl | ⟨behind, rfl⟩
        · simp
        · simpa using hslash
      have hreads : RowReads (text ++ cutComment row) (kind :: here) := by
        rcases hrow with rfl | ⟨behind, rfl⟩
        · obtain rfl := first.eq_nil
          rw [cutComment, List.append_nil]
          exact h.reads
        · rw [cutComment_cons hslash] at first ⊢
          exact h.reads.append hblank first
      rw [prependToFirst, ← List.cons_append]
      exact .cons (hcut.symm ▸ hreads) others

/-! ## The spelling of each token -/

theorem Spells.mark (m : Mark) : Spells m.spelling m.kind := by
  refine ⟨?_, fun c hc => Mark.not_isBlank_of_mem_spelling hc, ?_, ?_⟩
  · have hlen := m.length_spelling
    rintro hempty
    simp [hempty] at hlen
  · cases m with
    | punct p => cases p <;> decide
    | operator o => cases o <;> decide
  · intro line index
    rw [pieces_spelling]
    exact ⟨[_], rfl, rfl⟩

theorem Spells.word {text : List Char} {kind : TokenKind} (hnonempty : text ≠ [])
    (hchars : ∀ c ∈ text, InSpelling c) (hkind : Word.classify text = .ok kind) :
    Spells text kind := by
  refine ⟨hnonempty, fun c hc => (hchars c hc).not_isBlank, ?_, ?_⟩
  · apply cutComment_of_not_mem
    intro hslash
    exact not_inSpelling_slash (hchars _ hslash)
  · intro line index
    rw [pieces_word index hnonempty hchars]
    refine ⟨[⟨kind, .ofIndices line index (index + text.length)⟩], ?_, rfl⟩
    simp only [List.mapM_cons, List.mapM_nil, tokenOf, hkind]
    rfl

theorem Spells.keyword (k : Keyword) : Spells k.spelling.toList (.keyword k) :=
  have hletters : k.spelling.toList.all Word.isNameChar = true := by cases k <;> decide
  .word (by cases k <;> decide) (fun c hc => .inl (List.all_eq_true.mp hletters c hc))
    (by cases k <;> decide)

theorem Spells.base (b : BaseType) : Spells b.name.toList (.base b) :=
  have hletters : b.name.toList.all Word.isNameChar = true := by cases b <;> decide
  .word (by cases b <;> decide) (fun c hc => .inl (List.all_eq_true.mp hletters c hc))
    (by cases b <;> decide)

theorem classify_of_not_digit {word : List Char}
    (h : word.head?.map Char.isDigit ≠ some true) :
    Word.classify word =
      match Keyword.ofWord? (String.ofList word), BaseType.ofName? (String.ofList word) with
      | some k, _ => .ok (.keyword k)
      | none, some b => .ok (.base b)
      | none, none =>
        match word.find? (!Word.isNameChar ·) with
        | some c => .error (.invalidCharacter c (String.ofList word))
        | none => .ok (.identifier (String.ofList word)) := by
  have hfalse : ¬ (word.head?.map Char.isDigit).getD false = true := by
    cases hhead : word.head?.map Char.isDigit with
    | none => simp
    | some digit =>
        rw [hhead] at h
        simpa using h
  rw [Word.classify]
  exact if_neg hfalse

theorem Spells.identifier {name : String} (h : TokenKind.IsName name) :
    Spells name.toList (.identifier name) := by
  refine .word h.nonempty (fun c hc => .inl (h.letters c hc)) ?_
  have hkeyword : Keyword.ofWord? name = none := by
    rw [Option.eq_none_iff_forall_ne_some]
    exact fun k hk => h.notKeyword k (Keyword.ofWord?_eq_some.mp hk)
  have htype : BaseType.ofName? name = none := by
    rw [Option.eq_none_iff_forall_ne_some]
    exact fun b hb => h.notType b (BaseType.ofName?_eq_some.mp hb)
  have hletters : name.toList.find? (!Word.isNameChar ·) = none := by
    simpa using h.letters
  rw [classify_of_not_digit h.start, String.ofList_toList, hkeyword, htype, hletters]

end Lexer

namespace Number

namespace Parts

/-- The same number with the letters in the order in which they are spelled. -/
def spelledOut (p : Parts) : Parts :=
  { p with suffix := p.type.letters }

theorem letters_mem_suffixes (type : BaseType) : type.letters ∈ suffixes := by
  cases type <;> decide

theorem isFloat_type (p : Parts) : p.type.isFloat = p.fraction.isSome := by
  rw [type]
  split <;> simp_all [BaseType.isFloat]

theorem type_ne_void (p : Parts) : p.type ≠ .void := by
  rw [type]
  split <;> simp

theorem type_spelledOut (p : Parts) : p.spelledOut.type = p.type := by
  have hfloat := p.isFloat_type
  have hvoid := p.type_ne_void
  rw [spelledOut]
  conv_lhs => rw [type, ← hfloat]
  generalize p.type = selected at hvoid
  cases selected with
  | void => exact absurd rfl hvoid
  | i32 | u32 | i64 | u64 | f32 | f64 => rfl

theorem WellFormed.spelledOut {p : Parts} (h : p.WellFormed) : p.spelledOut.WellFormed where
  whole_ne_nil := h.whole_ne_nil
  whole_digits := h.whole_digits
  decimals_digits := h.decimals_digits
  suffix_mem := letters_mem_suffixes p.type
  unsigned_whole := by
    intro hu
    have hfloat : p.type.isFloat = false := by
      revert hu
      change 'u' ∈ p.type.letters → _
      cases p.type <;> simp [BaseType.letters, BaseType.isFloat]
    rw [isFloat_type, Option.isSome_eq_false_iff, Option.isNone_iff_eq_none] at hfloat
    exact hfloat

/-- A point is missing among the digits exactly if none stands behind it. -/
theorem WellFormed.spelling_spelledOut {p : Parts} (h : p.WellFormed) :
    p.spelledOut.spelling = (TokenKind.number (String.ofList p.digits) p.type).spelling := by
  have hfloat := p.isFloat_type
  have hpoint : '.' ∉ p.whole := fun hmem => absurd (h.whole_digits _ hmem) (by decide)
  obtain ⟨whole, fraction, suffix⟩ := p
  cases fraction with
  | none => simp [Parts.spelledOut, spelling, TokenKind.spelling, digits, decimals, hfloat]
  | some decimals =>
      cases decimals with
      | nil => simp_all [Parts.spelledOut, spelling, TokenKind.spelling, digits, Parts.decimals]
      | cons d decimals =>
          simp_all [Parts.spelledOut, spelling, TokenKind.spelling, digits, Parts.decimals]

theorem WellFormed.inSpelling {p : Parts} (h : p.WellFormed) :
    ∀ c ∈ p.spelling, Lexer.InSpelling c := by
  have hdigit : ∀ c : Char, c.isDigit = true → Lexer.InSpelling c := fun c hc =>
    .inl (by simp [Word.isNameChar, Char.isAlphanum, hc])
  have hsuffix : ∀ c ∈ p.suffix, Lexer.InSpelling c := by
    intro c hc
    have hmem := h.suffix_mem
    simp only [suffixes, List.mem_cons, List.not_mem_nil, or_false] at hmem
    have hletter : c = 'u' ∨ c = 'l' := by
      rcases hmem with hmem | hmem | hmem | hmem | hmem <;> simp_all [or_comm]
    rcases hletter with rfl | rfl <;> exact .inl (by decide)
  have hdecimals := h.decimals_digits
  intro c hc
  rw [spelling] at hc
  split at hc
  · rcases List.mem_append.mp hc with hc | hc
    · exact hdigit c (h.whole_digits c hc)
    · exact hsuffix c hc
  · next behind hfraction =>
    rw [decimals, hfraction] at hdecimals
    rcases List.mem_append.mp hc with hc | hc
    · exact hdigit c (h.whole_digits c hc)
    · rcases List.mem_cons.mp hc with rfl | hc
      · exact .inr rfl
      · rcases List.mem_append.mp hc with hc | hc
        · exact hdigit c (hdecimals c hc)
        · exact hsuffix c hc

end Parts

end Number

namespace Lexer

theorem Spells.number {digits : String} {type : BaseType}
    (h : (TokenKind.number digits type).Lexable) :
    Spells (TokenKind.number digits type).spelling (.number digits type) := by
  obtain ⟨word, hdigit, hread⟩ := h
  obtain ⟨p, hp⟩ := (Number.read?_eq_some_iff_literal hdigit).mp hread
  have hwell := hp.wellFormed.spelledOut
  obtain ⟨c, whole, hwhole⟩ := List.exists_cons_of_ne_nil hwell.whole_ne_nil
  have hstart : p.spelledOut.spelling.head?.map Char.isDigit = some true := by
    have hc := hwell.whole_digits c (hwhole ▸ List.mem_cons_self)
    rw [Number.Parts.spelling, hwhole]
    split <;> simp [hc]
  have hliteral : Number.Literal p.spelledOut.spelling digits type p.spelledOut :=
    ⟨hwell, rfl, p.type_spelledOut.trans hp.selected, hp.inRange, hp.digits⟩
  have hspelling := hp.wellFormed.spelling_spelledOut
  rw [← hp.digits, hp.selected] at hspelling
  rw [← hspelling]
  refine .word ?_ hwell.inSpelling ?_
  · rintro hempty
    simp [hempty] at hstart
  · rw [Number.classify_of_digit hstart,
      (Number.read?_eq_some_iff_literal hstart).mpr ⟨_, hliteral⟩]

theorem spells_of_lexable {kind : TokenKind} (h : kind.Lexable) : Spells kind.spelling kind := by
  cases kind with
  | punct p => exact .mark (.punct p)
  | keyword k => exact .keyword k
  | operator o => exact .mark (.operator o)
  | base b => exact .base b
  | number digits type => exact .number h
  | identifier name => exact .identifier h
  | endOfFile => exact h.elim

theorem RowsRead.blanks {gap text : List Char} {kinds : List TokenKind}
    (hgap : ∀ c ∈ gap, Text.isBlank c = true) (h : RowsRead (lines text) kinds) :
    RowsRead (lines (gap ++ text)) kinds := by
  induction gap with
  | nil => exact h
  | cons b gap ih =>
      exact (ih fun c hc => hgap c (List.mem_cons_of_mem _ hc)).blank (hgap b List.mem_cons_self)

/-- Tokens spelled with blanks between them are read as these tokens. -/
theorem rowsRead_of_spaced {kinds : List TokenKind} {text : List Char}
    (htext : TokenKind.Spaced kinds text) (hkinds : ∀ kind ∈ kinds, kind.Lexable) :
    RowsRead (lines text) kinds := by
  induction htext with
  | none => exact .nil
  | one kind => exact (spells_of_lexable (hkinds kind List.mem_cons_self)).rowsRead
  | @more kind next others gap text hgap hblank _ ih =>
      have hrest := ih fun k hk => hkinds k (List.mem_cons_of_mem _ hk)
      have hspells := spells_of_lexable (hkinds kind List.mem_cons_self)
      have hbehind := hrest.blanks hblank
      obtain ⟨b, gap, rfl⟩ := List.exists_cons_of_ne_nil hgap
      rw [List.append_assoc]
      exact hspells.rowsRead_append (hblank b List.mem_cons_self) hbehind

/-! ## Only such tokens are read -/

theorem lexable_of_classify {word : List Char} {kind : TokenKind} (hnonempty : word ≠ [])
    (h : Word.classify word = .ok kind) : kind.Lexable := by
  by_cases hdigit : word.head?.map Char.isDigit = some true
  · rw [Number.classify_of_digit hdigit] at h
    split at h
    · next text type hread =>
      obtain rfl := Except.ok.inj h
      exact ⟨word, hdigit, hread⟩
    · cases h
  · rw [classify_of_not_digit hdigit] at h
    split at h
    · obtain rfl := Except.ok.inj h
      trivial
    · obtain rfl := Except.ok.inj h
      trivial
    · next hkeyword htype =>
      split at h
      · cases h
      · next hletters =>
        obtain rfl := Except.ok.inj h
        refine ⟨by simpa using hnonempty, by simpa using hletters, by simpa using hdigit, ?_, ?_⟩
        · intro k hk
          rw [Keyword.ofWord?_eq_some.mpr hk] at hkeyword
          cases hkeyword
        · intro b hb
          rw [BaseType.ofName?_eq_some.mpr hb] at htype
          cases htype

theorem lexable_of_tokenOf {line : UInt32} {index : Nat} {row : List Char} {p : Piece} {t : Token}
    (hp : p ∈ pieces index row) (h : tokenOf line p = .ok t) : t.kind.Lexable := by
  have hbounds := (divided_pieces index row).bounds hp
  obtain ⟨-, ⟨_, m, -, hkind⟩ | ⟨_, text, rfl, hclass⟩⟩ := tokenOf_eq_ok h
  · rw [hkind]
    cases m <;> trivial
  · refine lexable_of_classify ?_ hclass
    rintro rfl
    simp [Piece.start, Piece.stop] at hbounds

end Lexer

open Lexer

theorem lexable_of_tokenize {source : String} {tokens : List Token}
    (h : tokenize source = .ok tokens) {t : Token} (ht : t ∈ tokens)
    (hkind : t.kind ≠ .endOfFile) : t.kind.Lexable := by
  obtain ⟨body, hbody, rfl⟩ := tokenize_eq_ok.mp h
  rcases List.mem_append.mp ht with ht | ht
  · rw [lexLines_eq_mapM] at hbody
    obtain ⟨⟨index, p⟩, hp, htoken⟩ := forall₂_partner_left (except_mapM_eq_ok.mp hbody) ht
    obtain ⟨_, row, -, -, hpiece⟩ := mem_located.mp hp
    exact lexable_of_tokenOf hpiece htoken
  · obtain rfl := List.mem_singleton.mp ht
    exact absurd rfl hkind

/-- Reading gives exactly the tokens that can be spelled. Any of these, spelled in order with at
least one blank between any two, are read back as they are, with nothing between them but the end
of the text behind them; and no other token is ever read. -/
theorem tokens_are_what_can_be_spelled :
    (∀ kinds source, (∀ kind ∈ kinds, kind.Lexable) → TokenKind.Spaced kinds source.toList →
      ∃ tokens, tokenize source = .ok tokens ∧ tokens.map Token.kind = kinds ++ [.endOfFile]) ∧
    ∀ source tokens, tokenize source = .ok tokens →
      ∀ t ∈ tokens, t.kind ≠ .endOfFile → t.kind.Lexable := by
  constructor
  · intro kinds source hkinds htext
    obtain ⟨body, hbody, rfl⟩ := (rowsRead_of_spaced htext hkinds).exists_lexLines 0
    exact ⟨_, tokenize_eq_ok.mpr ⟨body, hbody, rfl⟩, List.map_append⟩
  · intro source tokens htokens t ht hkind
    exact lexable_of_tokenize htokens ht hkind

/-- Two operators that would be one without the line end between them, and a number whose point is
seen in its type only. -/
theorem shifted_number_is_read_apart :
    TokenKind.Spaced [.operator .less, .operator .less, .number "12" .f32] "<\n<\t 12.".toList ∧
      ∃ tokens, tokenize "<\n<\t 12." = .ok tokens ∧
        tokens.map Token.kind =
          [.operator .less, .operator .less, .number "12" .f32, .endOfFile] := by
  have htext : "<\n<\t 12.".toList = (TokenKind.operator .less).spelling ++ ['\n'] ++
      ((TokenKind.operator .less).spelling ++ ['\t', ' '] ++
        (TokenKind.number "12" .f32).spelling) := by
    decide
  have hspaced : TokenKind.Spaced [.operator .less, .operator .less, .number "12" .f32]
      "<\n<\t 12.".toList := by
    have hfeed : ∀ c ∈ ['\n'], Text.isBlank c = true := List.forall_mem_singleton.mpr (by decide)
    have hgap : ∀ c ∈ ['\t', ' '], Text.isBlank c = true :=
      List.forall_mem_cons.mpr ⟨by decide, List.forall_mem_singleton.mpr (by decide)⟩
    rw [htext]
    exact .more (by simp) hfeed (.more (by simp) hgap (.one _))
  refine ⟨hspaced, tokens_are_what_can_be_spelled.1 _ _ ?_ hspaced⟩
  intro kind hkind
  simp only [List.mem_cons, List.not_mem_nil, or_false] at hkind
  rcases hkind with rfl | rfl | rfl
  · trivial
  · trivial
  · exact ⟨"12.".toList, by decide, by decide⟩

/-- Digits behind a point alone could be read as a number, but the word they make does not begin
with a digit and is refused as a name before it comes to that. -/
theorem bare_fraction_is_no_number :
    Number.read? ".5".toList = some (".5", .f32) ∧
      TokenKind.Spaced [.number ".5" .f32] ".5".toList ∧
      ¬ ∃ tokens, tokenize ".5" = .ok tokens ∧
        tokens.map Token.kind = [.number ".5" .f32, .endOfFile] := by
  have hread : Number.read? ".5".toList = some (".5", .f32) := by decide
  have htext : ".5".toList = (TokenKind.number ".5" .f32).spelling := by decide
  have hrefused : tokenize ".5" = .error ⟨⟨1, 1⟩, .invalidCharacter '.' ".5"⟩ := by decide
  refine ⟨hread, htext ▸ .one _, ?_⟩
  rintro ⟨tokens, htokens, -⟩
  rw [hrefused] at htokens
  cases htokens

end Wattle
