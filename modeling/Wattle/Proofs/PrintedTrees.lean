import Wattle.Text.Blank
import Wattle.Wasm.SExpr

/-!
# Reading trees back

Printing writes atoms as they are, without quoting or escaping anything. A text can still be read
in one way only, as long as every atom is a quoted string with nothing in it that could end it, or
made of words that a reader does not take apart. This module has such a reader and shows that it
finds the tree that was printed.
-/

namespace Wattle.Wasm

/-! ## A reader -/

/-- What an s-expression is read as: a word, a string without its quotes, or a list. -/
inductive Datum where
  | word (text : String)
  | string (text : String)
  | list (items : List Datum)

namespace Reader

/-- The smallest parts of a text; blanks separate them and mean nothing else. -/
inductive Lexeme where
  | opening
  | closing
  | word (text : String)
  | string (text : String)
deriving DecidableEq

/-- Where a scan stands: behind the first characters of a word, if there are any, behind those of a
string, or in a string directly behind a backslash. -/
inductive Place where
  | outside (word : List Char)
  | inside (text : List Char)
  | escaped (text : List Char)

/-- Whether the character ends a word. -/
def isDelimiter (c : Char) : Bool :=
  Text.isBlank c || c = '(' || c = ')' || c = '"'

def wordOf (chars : List Char) : List Lexeme :=
  if chars.isEmpty then [] else [.word (String.ofList chars)]

/-- The part that a delimiter is by itself. -/
def parenthesis : Char → List Lexeme
  | '(' => [.opening]
  | ')' => [.closing]
  | _ => []

/-- Cut a text into its parts. A string goes on to the next quote in its line, and a backslash in
it takes the character behind as it is. There are no comments. -/
def scan : Place → List Char → Option (List Lexeme)
  | .outside word, [] => some (wordOf word)
  | .inside _, [] | .escaped _, [] => none
  | .outside word, c :: rest =>
    if isDelimiter c then
      return wordOf word ++ parenthesis c ++
        (← scan (if c = '"' then .inside [] else .outside []) rest)
    else scan (.outside (word ++ [c])) rest
  | .inside text, c :: rest =>
    if c = '"' then return .string (String.ofList text) :: (← scan (.outside []) rest)
    else if c = '\\' then scan (.escaped text) rest
    else if c = '\n' then none
    else scan (.inside (text ++ [c])) rest
  | .escaped text, c :: rest => scan (.inside (text ++ [c])) rest

/-- The parts of a whole text. -/
def lexemes? (text : String) : Option (List Lexeme) :=
  scan (.outside []) text.toList

/-- Put the parts of a text together. The lists that are open and what has been read of each stand
in reverse order, the innermost list first. -/
def nest (outer : List (List Datum)) (inner : List Datum) : List Lexeme → Option (List Datum)
  | [] => if outer.isEmpty then some inner.reverse else none
  | .word text :: rest => nest outer (.word text :: inner) rest
  | .string text :: rest => nest outer (.string text :: inner) rest
  | .opening :: rest => nest (inner :: outer) [] rest
  | .closing :: rest =>
    match outer with
    | [] => none
    | before :: outer => nest outer (.list inner.reverse :: before) rest

def read? (text : String) : Option (List Datum) := do
  nest [] [] (← lexemes? text)

end Reader

open Reader

namespace Datum

mutual

/-- The parts that a datum is read from. -/
def lexemes : Datum → List Lexeme
  | word text => [.word text]
  | string text => [.string text]
  | list items => .opening :: (lexemesAll items ++ [.closing])

def lexemesAll : List Datum → List Lexeme
  | [] => []
  | d :: rest => d.lexemes ++ lexemesAll rest

end

theorem lexemesAll_append (ds ds' : List Datum) :
    lexemesAll (ds ++ ds') = lexemesAll ds ++ lexemesAll ds' := by
  induction ds with
  | nil => rfl
  | cons d ds ih => rw [List.cons_append, lexemesAll, ih, lexemesAll, List.append_assoc]

end Datum

namespace Reader

open Datum

mutual

theorem nest_lexemes (d : Datum) (outer : List (List Datum)) (inner : List Datum)
    (rest : List Lexeme) : nest outer inner (d.lexemes ++ rest) = nest outer (d :: inner) rest := by
  match d with
  | .word text => rfl
  | .string text => rfl
  | .list items =>
      simp only [lexemes, List.cons_append, List.append_assoc, nest, nest_lexemesAll items,
        List.nil_append, List.append_nil, List.reverse_reverse]

theorem nest_lexemesAll (ds : List Datum) (outer : List (List Datum)) (inner : List Datum)
    (rest : List Lexeme) :
    nest outer inner (lexemesAll ds ++ rest) = nest outer (ds.reverse ++ inner) rest := by
  match ds with
  | [] => rfl
  | d :: ds =>
      rw [lexemesAll, List.append_assoc, nest_lexemes d, nest_lexemesAll ds, List.reverse_cons,
        List.append_assoc, List.singleton_append]

end

/-- The parts of data are put together to the same data. -/
theorem nest_all (ds : List Datum) : nest [] [] (lexemesAll ds) = some ds := by
  have hall := nest_lexemesAll ds [] [] []
  rw [List.append_nil, List.append_nil] at hall
  rw [hall, nest, List.isEmpty_nil, if_pos rfl, List.reverse_reverse]

/-! ## Parentheses -/

/-- No parenthesis is closed before it is opened, and every one that is opened is closed. -/
structure Balanced (found : List Lexeme) : Prop where
  covered : ∀ n, (found.take n).count .closing ≤ (found.take n).count .opening
  equal : found.count .closing = found.count .opening

namespace Balanced

variable {found found' : List Lexeme}

theorem nil : Balanced [] :=
  ⟨fun _ => by simp, rfl⟩

theorem append (h : Balanced found) (h' : Balanced found') : Balanced (found ++ found') where
  covered n := by
    have hhere := h.covered n
    have hthere := h'.covered (n - found.length)
    rw [List.take_append, List.count_append, List.count_append]
    omega
  equal := by rw [List.count_append, List.count_append, h.equal, h'.equal]

theorem enclosed (h : Balanced found) : Balanced (.opening :: (found ++ [.closing])) where
  covered n := by
    cases n with
    | zero => simp
    | succ n =>
        have hinner := h.covered n
        have hend := ([Lexeme.closing].take_sublist (n - found.length)).count_le .closing
        have hone : [Lexeme.closing].count .closing = 1 := rfl
        rw [List.take_succ_cons, List.take_append, List.count_cons_of_ne (by decide),
          List.count_cons_self, List.count_append, List.count_append]
        omega
  equal := by
    have hinner := h.equal
    simp [hinner]

end Balanced

mutual

theorem balanced_lexemes (d : Datum) : Balanced d.lexemes := by
  match d with
  | .word text => exact ⟨fun n => by cases n <;> simp [lexemes], by simp [lexemes]⟩
  | .string text => exact ⟨fun n => by cases n <;> simp [lexemes], by simp [lexemes]⟩
  | .list items => exact (balanced_lexemesAll items).enclosed

theorem balanced_lexemesAll (ds : List Datum) : Balanced (lexemesAll ds) := by
  match ds with
  | [] => exact .nil
  | d :: ds => exact (balanced_lexemes d).append (balanced_lexemesAll ds)

end

/-! ## Pieces of a text -/

/-- The text cannot continue a word. -/
def Stops (text : List Char) : Prop :=
  ∀ c ∈ text.head?, isDelimiter c = true

theorem Stops.append {text more : List Char} (h : Stops text) (hmore : Stops more) :
    Stops (text ++ more) := by
  cases text with
  | nil => exact hmore
  | cons c text => exact h

/-- The text is cut into the given parts wherever it stands before something that cannot continue a
word. -/
def Scans (text : List Char) (found : List Lexeme) : Prop :=
  ∀ rest behind, Stops rest → scan (.outside []) rest = some behind →
    scan (.outside []) (text ++ rest) = some (found ++ behind)

/-- The text is cut into the given parts whatever stands behind it. -/
def ScansApart (text : List Char) (found : List Lexeme) : Prop :=
  ∀ rest behind, scan (.outside []) rest = some behind →
    scan (.outside []) (text ++ rest) = some (found ++ behind)

section Pieces

variable {text text' : List Char} {found found' : List Lexeme}

theorem ScansApart.scans (h : ScansApart text found) : Scans text found :=
  fun rest behind _ => h rest behind

theorem ScansApart.nil : ScansApart [] [] :=
  fun _ _ h => h

theorem ScansApart.append (h : ScansApart text found) (h' : ScansApart text' found') :
    ScansApart (text ++ text') (found ++ found') := by
  intro rest behind hrest
  rw [List.append_assoc, List.append_assoc]
  exact h _ _ (h' rest behind hrest)

theorem ScansApart.append_scans (h : ScansApart text found) (h' : Scans text' found') :
    Scans (text ++ text') (found ++ found') := by
  intro rest behind hstops hrest
  rw [List.append_assoc, List.append_assoc]
  exact h _ _ (h' rest behind hstops hrest)

theorem Scans.append (h : Scans text found) (h' : Scans text' found') (hstops : Stops text') :
    Scans (text ++ text') (found ++ found') := by
  intro rest behind hrest
  rw [List.append_assoc, List.append_assoc]
  exact fun hbehind => h _ _ (hstops.append hrest) (h' rest behind hrest hbehind)

/-- A text that itself cannot continue a word ends whatever stands before it. -/
theorem Scans.append_apart {c : Char} (h : Scans text found) (h' : ScansApart (c :: text') found')
    (hc : isDelimiter c = true) : ScansApart (text ++ c :: text') (found ++ found') := by
  intro rest behind hbehind
  rw [List.append_assoc, List.append_assoc]
  refine h _ _ ?_ (h' rest behind hbehind)
  intro d hd
  obtain rfl := Option.some.inj hd
  exact hc

theorem ScansApart.opening : ScansApart ['('] [.opening] := by
  intro rest behind h
  rw [List.singleton_append, scan, if_pos (by decide), if_neg (by decide), h]
  rfl

theorem ScansApart.closing : ScansApart [')'] [.closing] := by
  intro rest behind h
  rw [List.singleton_append, scan, if_pos (by decide), if_neg (by decide), h]
  rfl

theorem ScansApart.blank {c : Char} (h : Text.isBlank c = true) : ScansApart [c] [] := by
  intro rest behind hrest
  have hdelimiter : isDelimiter c = true := by simp [isDelimiter, h]
  have hquote : c ≠ '"' := by
    rintro rfl
    exact absurd h (by decide)
  have hmark : parenthesis c = [] := by
    fun_cases parenthesis c with
    | case1 => exact absurd h (by decide)
    | case2 => exact absurd h (by decide)
    | case3 => rfl
  rw [List.singleton_append, scan, if_pos hdelimiter, if_neg hquote, hrest, hmark]
  rfl

theorem ScansApart.blanks (h : ∀ c ∈ text, Text.isBlank c = true) : ScansApart text [] := by
  induction text with
  | nil => exact .nil
  | cons c text ih =>
      have hrest := ih fun d hd => h d (List.mem_cons_of_mem _ hd)
      exact (ScansApart.blank (h c List.mem_cons_self)).append hrest

theorem scan_outside_append {word : List Char} (h : ∀ c ∈ word, isDelimiter c = false)
    (before rest : List Char) :
    scan (.outside before) (word ++ rest) = scan (.outside (before ++ word)) rest := by
  induction word generalizing before with
  | nil => rw [List.nil_append, List.append_nil]
  | cons c word ih =>
      have hc := h c List.mem_cons_self
      have hrest := ih (fun d hd => h d (List.mem_cons_of_mem _ hd)) (before ++ [c])
      rw [List.append_assoc, List.singleton_append] at hrest
      rw [List.cons_append, scan, if_neg (by simp [hc])]
      exact hrest

/-- A word ends before anything that cannot continue it. -/
theorem scan_outside_stops {word rest : List Char} {behind : List Lexeme} (hstops : Stops rest)
    (hrest : scan (.outside []) rest = some behind) :
    scan (.outside word) rest = some (wordOf word ++ behind) := by
  cases rest with
  | nil =>
      obtain rfl := Option.some.inj hrest
      simp [scan, wordOf]
  | cons c rest =>
      have hc := hstops c rfl
      rw [scan, if_pos hc] at hrest ⊢
      cases hscan : scan (if c = '"' then .inside [] else .outside []) rest with
      | none => simp [hscan] at hrest
      | some found =>
          rw [hscan] at hrest
          obtain rfl := Option.some.inj hrest
          simp [wordOf]

theorem Scans.word (hne : text ≠ []) (h : ∀ c ∈ text, isDelimiter c = false) :
    Scans text [.word (String.ofList text)] := by
  intro rest behind hstops hrest
  rw [scan_outside_append h, List.nil_append, scan_outside_stops hstops hrest, wordOf, if_neg]
  rwa [List.isEmpty_iff]

theorem scan_inside_append {inside : List Char}
    (h : ∀ c ∈ inside, c ≠ '"' ∧ c ≠ '\\' ∧ c ≠ '\n') (before rest : List Char) :
    scan (.inside before) (inside ++ rest) = scan (.inside (before ++ inside)) rest := by
  induction inside generalizing before with
  | nil => rw [List.nil_append, List.append_nil]
  | cons c inside ih =>
      obtain ⟨hquote, hbackslash, hfeed⟩ := h c List.mem_cons_self
      have hrest := ih (fun d hd => h d (List.mem_cons_of_mem _ hd)) (before ++ [c])
      rw [List.append_assoc, List.singleton_append] at hrest
      rw [List.cons_append, scan, if_neg hquote, if_neg hbackslash, if_neg hfeed]
      exact hrest

theorem ScansApart.string (h : ∀ c ∈ text, c ≠ '"' ∧ c ≠ '\\' ∧ c ≠ '\n') :
    ScansApart ('"' :: (text ++ ['"'])) [.string (String.ofList text)] := by
  intro rest behind hrest
  have hinside := scan_inside_append h [] ('"' :: rest)
  rw [List.nil_append] at hinside
  have hend : scan (.inside text) ('"' :: rest) =
      some (.string (String.ofList text) :: behind) := by
    rw [scan, if_pos rfl, hrest]
    rfl
  rw [List.cons_append, List.append_assoc, List.singleton_append, scan, if_pos (by decide),
    if_pos rfl, hinside, hend]
  rfl

end Pieces

end Reader

/-! ## Atoms -/

open Datum (lexemes lexemesAll lexemesAll_append)

/-- A text that is read as one word. -/
structure IsWord (text : String) : Prop where
  nonempty : text.toList ≠ []
  whole : ∀ c ∈ text.toList, isDelimiter c = false

/-- The texts that are read as they are meant: a quoted string with nothing in it that could end
it, or words with one space between any two of them. -/
inductive Plain : String → Prop where
  | quoted (inside : String) (h : ∀ c ∈ inside.toList, c ≠ '"' ∧ c ≠ '\\' ∧ c ≠ '\n') :
      Plain ("\"" ++ inside ++ "\"")
  | words {words : List String} (nonempty : words ≠ []) (h : ∀ word ∈ words, IsWord word) :
      Plain (" ".intercalate words)

/-- What an atom is meant to be read as: a string if it starts with a quote, and otherwise the words
between its spaces. -/
def atomData (text : String) : List Datum :=
  match text.toList with
  | '"' :: rest => [.string (String.ofList rest.dropLast)]
  | chars => (chars.splitOn ' ').map fun word => .word (String.ofList word)

theorem atomData_quoted (inside : String) :
    atomData ("\"" ++ inside ++ "\"") = [.string inside] := by
  have hchars : ("\"" ++ inside ++ "\"").toList = '"' :: (inside.toList ++ ['"']) := by simp
  rw [atomData, hchars]
  simp

theorem IsWord.ne_of_mem {word : String} (h : IsWord word) {c : Char} (hc : isDelimiter c = true) :
    c ∉ word.toList := by
  intro hmem
  rw [h.whole c hmem] at hc
  cases hc

/-- Words start with a character that is no delimiter. -/
theorem exists_head_words {words : List String} (hne : words ≠ [])
    (h : ∀ word ∈ words, IsWord word) :
    ∃ c rest, (" ".intercalate words).toList = c :: rest ∧ isDelimiter c = false := by
  obtain ⟨first, others, rfl⟩ := List.exists_cons_of_ne_nil hne
  have hfirst := h first List.mem_cons_self
  obtain ⟨c, rest, hc⟩ := List.exists_cons_of_ne_nil hfirst.nonempty
  have hdelimiter : isDelimiter c = false := hfirst.whole c (hc ▸ List.mem_cons_self)
  cases others with
  | nil => exact ⟨c, rest, by rw [String.intercalate_singleton, hc], hdelimiter⟩
  | cons next others =>
      refine ⟨c, rest ++ (" " ++ " ".intercalate (next :: others)).toList, ?_, hdelimiter⟩
      rw [String.intercalate_cons_cons, String.append_assoc, String.toList_append, hc,
        List.cons_append]

theorem atomData_words {words : List String} (hne : words ≠ []) (h : ∀ word ∈ words, IsWord word) :
    atomData (" ".intercalate words) = words.map .word := by
  have hsplit : (" ".intercalate words).toList.splitOn ' ' = words.map String.toList := by
    rw [String.toList_intercalate]
    refine List.splitOn_intercalate ' ' ?_ (by simpa using hne)
    intro chars hmem
    obtain ⟨word, hword, rfl⟩ := List.mem_map.mp hmem
    exact (h word hword).ne_of_mem (by decide)
  obtain ⟨c, rest, hchars, hc⟩ := exists_head_words hne h
  rw [hchars] at hsplit
  rw [atomData, hchars]
  split
  · next heq =>
    obtain rfl := List.head_eq_of_cons_eq heq
    cases hc
  · rw [hsplit, List.map_map]
    simp [Function.comp_def]

theorem scans_words {words : List String} (h : ∀ word ∈ words, IsWord word) :
    Scans (" ".intercalate words).toList (lexemesAll (words.map .word)) := by
  match words with
  | [] => exact ScansApart.nil.scans
  | [word] =>
      have hword := h word List.mem_cons_self
      have hscans := Scans.word hword.nonempty hword.whole
      rwa [String.ofList_toList] at hscans
  | word :: next :: others =>
      have hword := h word List.mem_cons_self
      have hfirst := Scans.word hword.nonempty hword.whole
      have hothers := scans_words fun w hw => h w (List.mem_cons_of_mem _ hw)
      have hblank : ScansApart [' '] [] := .blank (by decide)
      rw [String.ofList_toList] at hfirst
      rw [String.intercalate_cons_cons, String.append_assoc, String.toList_append,
        String.toList_append]
      exact hfirst.append (hblank.append_scans hothers) fun c hc => by
        obtain rfl := Option.some.inj hc
        decide

theorem scans_atom {text : String} (h : Plain text) :
    Scans text.toList (lexemesAll (atomData text)) := by
  cases h with
  | quoted inside h =>
      have hscans := ScansApart.string h
      rw [atomData_quoted]
      rw [String.ofList_toList] at hscans
      simpa [lexemesAll, lexemes] using hscans.scans
  | words hne h =>
      rw [atomData_words hne h]
      exact scans_words h

/-! ## Trees -/

namespace SExpr

mutual

/-- The texts of the atoms of a tree, in order. -/
def atoms : SExpr → List String
  | atom text => [text]
  | list items => atomsAll items
  | block head body => atomsAll head ++ atomsAll body

def atomsAll : List SExpr → List String
  | [] => []
  | e :: rest => e.atoms ++ atomsAll rest

end

mutual

/-- What a tree is meant to be read as: an atom gives its words or its string, and a list or a block
gives one list. -/
def data : SExpr → List Datum
  | atom text => atomData text
  | list items => [.list (dataAll items)]
  | block head body => [.list (dataAll head ++ dataAll body)]

def dataAll : List SExpr → List Datum
  | [] => []
  | e :: rest => e.data ++ dataAll rest

end

theorem stops_inlineEach (es : List SExpr) : Stops (inlineEach es).toList := by
  cases es with
  | nil => nofun
  | cons e es =>
      intro c hc
      rw [inlineEach, String.append_assoc, String.toList_append] at hc
      obtain rfl := Option.some.inj hc
      decide

mutual

theorem scans_inline (e : SExpr) (h : ∀ text ∈ e.atoms, Plain text) :
    Scans e.inline.toList (lexemesAll e.data) := by
  match e with
  | .atom text => exact scans_atom (h text List.mem_cons_self)
  | .list items =>
      have hitems := scans_inlineAll items h
      have hscans := ScansApart.opening.append (hitems.append_apart .closing (by decide))
      simpa [inline, data, lexemesAll, lexemes] using hscans.scans
  | .block head body =>
      obtain ⟨hhead, hbody⟩ := List.forall_mem_append.mp h
      have hinner := (scans_inlineAll head hhead).append (scans_inlineEach body hbody)
        (stops_inlineEach body)
      have hscans := ScansApart.opening.append (hinner.append_apart .closing (by decide))
      simpa [inline, data, lexemesAll, lexemes, lexemesAll_append] using hscans.scans

theorem scans_inlineAll (es : List SExpr) (h : ∀ text ∈ atomsAll es, Plain text) :
    Scans (inlineAll es).toList (lexemesAll (dataAll es)) := by
  match es with
  | [] => exact ScansApart.nil.scans
  | e :: rest =>
      obtain ⟨he, hrest⟩ := List.forall_mem_append.mp h
      rw [inlineAll, String.toList_append, dataAll, lexemesAll_append]
      exact (scans_inline e he).append (scans_inlineEach rest hrest) (stops_inlineEach rest)

theorem scans_inlineEach (es : List SExpr) (h : ∀ text ∈ atomsAll es, Plain text) :
    Scans (inlineEach es).toList (lexemesAll (dataAll es)) := by
  match es with
  | [] => exact ScansApart.nil.scans
  | e :: rest =>
      obtain ⟨he, hrest⟩ := List.forall_mem_append.mp h
      have hblank : ScansApart [' '] [] := .blank (by decide)
      rw [inlineEach, String.append_assoc, String.toList_append, String.toList_append, dataAll,
        lexemesAll_append]
      exact hblank.append_scans
        ((scans_inline e he).append (scans_inlineEach rest hrest) (stops_inlineEach rest))

end

theorem scans_indent (depth : Nat) : ScansApart (indent depth).toList [] := by
  apply ScansApart.blanks
  intro c hc
  rw [indent, String.toList_ofList] at hc
  rw [List.eq_of_mem_replicate hc]
  decide

/-- What stands on a line is read apart from the line below. -/
theorem scans_line {text : String} {found : List Lexeme} (depth : Nat)
    (h : Scans text.toList found) : ScansApart (indent depth ++ text ++ "\n").toList found := by
  have hline := h.append_apart (.blank (by decide) : ScansApart ['\n'] []) (by decide)
  rw [String.toList_append, String.toList_append, List.append_assoc]
  simpa using (scans_indent depth).append hline

mutual

theorem scans_layout (depth : Nat) (e : SExpr) (h : ∀ text ∈ e.atoms, Plain text) :
    ScansApart (e.layout depth).toList (lexemesAll e.data) := by
  match e with
  | .atom text => exact scans_line depth (scans_inline _ h)
  | .list items => exact scans_line depth (scans_inline _ h)
  | .block head body =>
      obtain ⟨hhead, hbody⟩ := List.forall_mem_append.mp h
      have hfirst : Scans ("(" ++ inlineAll head).toList
          (.opening :: lexemesAll (dataAll head)) := by
        rw [String.toList_append]
        exact ScansApart.opening.append_scans (scans_inlineAll head hhead)
      have hlast : Scans ")".toList [.closing] := ScansApart.closing.scans
      have hscans := (scans_line depth hfirst).append
        ((scans_layoutAll (depth + 1) body hbody).append (scans_line depth hlast))
      simpa [layout, data, lexemesAll, lexemes, lexemesAll_append] using hscans

theorem scans_layoutAll (depth : Nat) (es : List SExpr) (h : ∀ text ∈ atomsAll es, Plain text) :
    ScansApart (layoutAll depth es).toList (lexemesAll (dataAll es)) := by
  match es with
  | [] => exact .nil
  | e :: rest =>
      obtain ⟨he, hrest⟩ := List.forall_mem_append.mp h
      rw [layoutAll, String.toList_append, dataAll, lexemesAll_append]
      exact (scans_layout depth e he).append (scans_layoutAll depth rest hrest)

end

theorem lexemes?_render {e : SExpr} (h : ∀ text ∈ e.atoms, Plain text) :
    lexemes? e.render = some (lexemesAll e.data) := by
  have hall := scans_layout 0 e h [] [] rfl
  rwa [List.append_nil, List.append_nil] at hall

/-- The text of a tree is read as the tree. -/
theorem read?_render {e : SExpr} (h : ∀ text ∈ e.atoms, Plain text) :
    read? e.render = some e.data := by
  rw [read?, lexemes?_render h]
  exact nest_all e.data

end SExpr

end Wattle.Wasm
