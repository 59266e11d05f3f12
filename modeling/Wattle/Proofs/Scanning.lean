import Mathlib.Tactic.ByContra
import Wattle.Token.Lexer

/-!
# Scanning a line

A line is scanned from left to right. Where a separator stands, a blank or the longest mark, the
scan steps over it; where none does, it steps over one character, which belongs to a word. This
module says what the words of a line are without a program, and shows that the pieces into which
the lexer divides a line are its words and marks, in order and with nothing but blanks between
them.
-/

namespace Wattle

namespace Mark

/-- `m` is written at the start of `text`, and no longer mark is. -/
structure IsLongest (m : Mark) (text : List Char) : Prop where
  written : m.spelling <+: text
  longest : ∀ other : Mark, other.spelling <+: text → other.spelling.length ≤ m.spelling.length

theorem ofSpelling?_eq_some {text : List Char} {m : Mark} :
    ofSpelling? text = some m ↔ m.spelling = text := by
  constructor
  · intro h
    obtain ⟨_, _, htable, -⟩ := List.lookup_eq_some_iff.mp h
    exact spelling_of_mem_table (text, m) (htable ▸ List.mem_append_right _ List.mem_cons_self)
  · rintro rfl
    exact ofSpelling?_spelling m

theorem ofSpelling?_eq_none {text : List Char} :
    ofSpelling? text = none ↔ ∀ m : Mark, m.spelling ≠ text := by
  rw [Option.eq_none_iff_forall_ne_some]
  exact forall_congr' fun m => not_congr ofSpelling?_eq_some

theorem length_spelling (m : Mark) : m.spelling.length = 1 ∨ m.spelling.length = 2 := by
  cases m with
  | punct p => cases p <;> decide
  | operator o => cases o <;> decide

/-- A mark at the start of a text is its first character or its first two. -/
theorem written_iff {m : Mark} {c : Char} {rest : List Char} :
    m.spelling <+: c :: rest ↔
      m.spelling = [c] ∨ ∃ d, rest.head? = some d ∧ m.spelling = [c, d] := by
  constructor
  · intro h
    have htake := List.prefix_iff_eq_take.mp h
    rcases length_spelling m with hlen | hlen
    · left
      simpa [hlen] using htake
    · right
      cases rest with
      | nil =>
          have := h.length_le
          simp [hlen] at this
      | cons d rest => exact ⟨d, rfl, by simpa [hlen] using htake⟩
  · rintro (h | ⟨d, hd, h⟩)
    · exact h ▸ ⟨rest, rfl⟩
    · obtain ⟨tail, rfl⟩ := List.head?_eq_some_iff.mp hd
      exact h ▸ ⟨tail, rfl⟩

theorem longest?_cons_cons (c d : Char) (rest : List Char) :
    longest? (c :: d :: rest) = (ofSpelling? [c, d]).or (ofSpelling? [c]) := by
  simp [longest?]

theorem longest?_eq_none {text : List Char} (h : longest? text = none) (m : Mark) :
    ¬ m.spelling <+: text := by
  cases text with
  | nil =>
      intro hm
      have hempty := List.prefix_nil.mp hm
      have hlen := length_spelling m
      simp [hempty] at hlen
  | cons c rest =>
      rw [written_iff]
      cases rest with
      | nil =>
          have hone := ofSpelling?_eq_none.mp h m
          simpa using hone
      | cons d rest =>
          rw [longest?_cons_cons] at h
          obtain ⟨htwo, hone⟩ := Option.or_eq_none_iff.mp h
          have htwo := ofSpelling?_eq_none.mp htwo m
          have hone := ofSpelling?_eq_none.mp hone m
          rintro (h | ⟨d', hd, h⟩)
          · exact hone h
          · obtain rfl : d = d' := by simpa using hd
            exact htwo h

theorem longest?_eq_some {text : List Char} {m : Mark} (h : longest? text = some m) :
    m.IsLongest text := by
  match text, h with
  | [c], h =>
      have hm := ofSpelling?_eq_some.mp h
      refine ⟨written_iff.mpr (.inl hm), fun other hother => ?_⟩
      have hle := hother.length_le
      simpa [hm] using hle
  | c :: d :: rest, h =>
      rw [longest?_cons_cons] at h
      rcases Option.or_eq_some_iff.mp h with htwo | ⟨hnone, hone⟩
      · have hm := ofSpelling?_eq_some.mp htwo
        refine ⟨written_iff.mpr (.inr ⟨d, rfl, hm⟩), fun other _ => ?_⟩
        rw [hm]
        rcases length_spelling other with hlen | hlen <;> simp [hlen]
      · have hm := ofSpelling?_eq_some.mp hone
        refine ⟨written_iff.mpr (.inl hm), fun other hother => ?_⟩
        rcases written_iff.mp hother with hsame | ⟨d', hd, htwo⟩
        · simp [hsame, hm]
        · obtain rfl : d = d' := by simpa using hd
          exact absurd htwo (ofSpelling?_eq_none.mp hnone other)

theorem not_isBlank_of_written {m : Mark} {c : Char} {rest : List Char}
    (h : m.spelling <+: c :: rest) : Text.isBlank c = false := by
  have hhead : m.spelling.head? = some c := by
    rcases written_iff.mp h with h | ⟨d, _, h⟩ <;> simp [h]
  cases m with
  | punct p => cases p <;> simp [spelling, Punct.spelling] at hhead <;> subst hhead <;> decide
  | operator o =>
      cases o <;> simp [spelling, Operator.spelling] at hhead <;> subst hhead <;> decide

end Mark

namespace Lexer

/-! ## Words of a line -/

/-- A separator of the given length stands at a place of the line. -/
inductive Separator (row : List Char) (place : Nat) : Nat → Prop where
  | blank {c : Char} (here : row[place]? = some c) (isBlank : Text.isBlank c = true) :
      Separator row place 1
  | mark {m : Mark} (longest : m.IsLongest (row.drop place)) :
      Separator row place m.spelling.length

/-- The places at which a scan from left to right looks for a separator. -/
inductive Reached (row : List Char) : Nat → Prop where
  | start : Reached row 0
  | across {place length : Nat} (here : Reached row place)
      (separator : Separator row place length) : Reached row (place + length)
  | along {place : Nat} (here : Reached row place) (inside : place < row.length)
      (none : ∀ length, ¬ Separator row place length) : Reached row (place + 1)

/-- A character at which the scan looks for a separator and finds none. -/
structure InWord (row : List Char) (place : Nat) : Prop where
  reached : Reached row place
  inside : place < row.length
  none : ∀ length, ¬ Separator row place length

/-- A word: a run of such characters that cannot be extended to either side. -/
structure IsWord (row : List Char) (start stop : Nat) : Prop where
  nonempty : start < stop
  inside : ∀ place, start ≤ place → place < stop → InWord row place
  before : ∀ place, place + 1 = start → ¬ InWord row place
  behind : ¬ InWord row stop

theorem Separator.length_pos {row : List Char} {place length : Nat}
    (h : Separator row place length) : 0 < length := by
  cases h with
  | blank => exact Nat.one_pos
  | @mark m => rcases m.length_spelling with hlen | hlen <;> omega

/-- No mark stands where a blank does. -/
theorem not_isLongest_of_isBlank {row : List Char} {place : Nat} {c : Char} {m : Mark}
    (here : row[place]? = some c) (isBlank : Text.isBlank c = true) :
    ¬ m.IsLongest (row.drop place) := by
  intro longest
  obtain ⟨hlt, hget⟩ := List.getElem?_eq_some_iff.mp here
  have hwritten := longest.written
  rw [List.drop_eq_getElem_cons hlt, hget] at hwritten
  have hnot := Mark.not_isBlank_of_written hwritten
  rw [isBlank] at hnot
  cases hnot

theorem Separator.unique {row : List Char} {place length length' : Nat}
    (h : Separator row place length) (h' : Separator row place length') : length = length' := by
  cases h with
  | blank here isBlank =>
      cases h' with
      | blank => rfl
      | mark longest => exact absurd longest (not_isLongest_of_isBlank here isBlank)
  | mark longest =>
      cases h' with
      | blank here isBlank => exact absurd longest (not_isLongest_of_isBlank here isBlank)
      | mark longest' =>
          exact Nat.le_antisymm (longest'.longest _ longest.written)
            (longest.longest _ longest'.written)

theorem separator_shift {row : List Char} {step place length : Nat} :
    Separator row (step + place) length ↔ Separator (row.drop step) place length := by
  constructor
  · intro h
    cases h with
    | blank here isBlank => exact .blank (by rwa [List.getElem?_drop]) isBlank
    | mark longest => exact .mark (by rwa [List.drop_drop])
  · intro h
    cases h with
    | blank here isBlank => exact .blank (by rwa [List.getElem?_drop] at here) isBlank
    | mark longest => exact .mark (by rwa [List.drop_drop] at longest)

/-- How far the scan moves from the start of a line. -/
inductive Step (row : List Char) : Nat → Prop where
  | across {length : Nat} (separator : Separator row 0 length) : Step row length
  | along (inside : 0 < row.length) (none : ∀ length, ¬ Separator row 0 length) : Step row 1

theorem Step.pos {row : List Char} {step : Nat} (h : Step row step) : 0 < step := by
  cases h with
  | across separator => exact separator.length_pos
  | along => exact Nat.one_pos

/-- Behind its first step, the scan of a line is the scan of the rest. -/
theorem reached_iff {row : List Char} {step place : Nat} (hstep : Step row step) :
    Reached row place ↔ place = 0 ∨ ∃ behind, place = step + behind ∧
      Reached (row.drop step) behind := by
  constructor
  · intro h
    induction h with
    | start => exact .inl rfl
    | @across place length here separator ih =>
        right
        rcases ih with rfl | ⟨behind, rfl, hbehind⟩
        · cases hstep with
          | across first =>
              obtain rfl := first.unique separator
              exact ⟨0, by omega, .start⟩
          | along _ none => exact absurd separator (none _)
        · exact ⟨behind + length, by omega, hbehind.across (separator_shift.mp separator)⟩
    | @along place here inside none ih =>
        right
        rcases ih with rfl | ⟨behind, rfl, hbehind⟩
        · cases hstep with
          | across first => exact absurd first (none _)
          | along => exact ⟨0, rfl, .start⟩
        · refine ⟨behind + 1, by omega, hbehind.along ?_ fun length h => ?_⟩
          · rw [List.length_drop]
            omega
          · exact none length (separator_shift.mpr h)
  · rintro (rfl | ⟨behind, rfl, h⟩)
    · exact .start
    · induction h with
      | start =>
          cases hstep with
          | across separator => simpa using Reached.start.across separator
          | along inside none => exact Reached.start.along inside none
      | @across place length here separator ih =>
          have hnext := ih.across (separator_shift.mpr separator)
          rwa [Nat.add_assoc] at hnext
      | @along place here inside none ih =>
          rw [List.length_drop] at inside
          have hnext := ih.along (by omega) fun length h => none length (separator_shift.mp h)
          rwa [Nat.add_assoc] at hnext

theorem inWord_shift {row : List Char} {step place : Nat} (hstep : Step row step) :
    InWord row (step + place) ↔ InWord (row.drop step) place := by
  have hpos := hstep.pos
  have hreached : Reached row (step + place) ↔ Reached (row.drop step) place := by
    rw [reached_iff hstep]
    constructor
    · rintro (h | ⟨behind, h, hbehind⟩)
      · omega
      · obtain rfl : place = behind := by omega
        exact hbehind
    · exact fun h => .inr ⟨place, rfl, h⟩
  have hlength : (row.drop step).length = row.length - step := List.length_drop
  constructor
  · rintro ⟨reached, inside, none⟩
    exact ⟨hreached.mp reached, by omega, fun length h => none length (separator_shift.mpr h)⟩
  · rintro ⟨reached, inside, none⟩
    exact ⟨hreached.mpr reached, by omega, fun length h => none length (separator_shift.mp h)⟩

/-- The scan looks at no place inside its first step but the start. -/
theorem eq_zero_of_inWord_lt {row : List Char} {step place : Nat} (hstep : Step row step)
    (h : InWord row place) (hlt : place < step) : place = 0 := by
  rcases (reached_iff hstep).mp h.reached with rfl | ⟨behind, rfl, _⟩
  · rfl
  · omega

theorem IsWord.shift {row : List Char} {step start stop : Nat} (hstep : Step row step)
    (h : IsWord (row.drop step) start stop) (hbefore : start = 0 → ¬ InWord row 0) :
    IsWord row (step + start) (step + stop) := by
  have hpos := hstep.pos
  refine ⟨by have := h.nonempty; omega, ?_, ?_, ?_⟩
  · intro place hle hlt
    obtain ⟨behind, rfl⟩ : ∃ behind, place = step + behind := ⟨place - step, by omega⟩
    exact (inWord_shift hstep).mpr (h.inside behind (by omega) (by omega))
  · intro place hplace hin
    by_cases hlt : place < step
    · obtain rfl := eq_zero_of_inWord_lt hstep hin hlt
      exact hbefore (by omega) hin
    · obtain ⟨behind, rfl⟩ : ∃ behind, place = step + behind := ⟨place - step, by omega⟩
      exact h.before behind (by omega) ((inWord_shift hstep).mp hin)
  · exact fun hin => h.behind ((inWord_shift hstep).mp hin)

/-- Two words of a line that share a place are the same. -/
theorem IsWord.eq_of_overlap {row : List Char} {start stop start' stop' : Nat}
    (h : IsWord row start stop) (h' : IsWord row start' stop') (hle : start' ≤ start)
    (hlt : start < stop') : start' = start ∧ stop' = stop := by
  have hstart : start' = start := by
    by_contra hne
    exact h.before (start - 1) (by omega) (h'.inside (start - 1) (by omega) (by omega))
  have hnonempty := h.nonempty
  refine ⟨hstart, Nat.le_antisymm ?_ ?_⟩
  · by_contra hlong
    exact h.behind (h'.inside stop (by omega) (by omega))
  · by_contra hshort
    exact h'.behind (h.inside stop' (by omega) (by omega))

/-! ## Pieces of a line -/

namespace Piece

def start : Piece → Nat
  | word index _ | mark index _ => index

/-- The index behind the piece. -/
def stop : Piece → Nat
  | word index text => index + text.length
  | mark index m => index + m.spelling.length

/-- The piece is a word or a mark of the line whose first character stands at `first`. -/
def Describes (first : Nat) (row : List Char) : Piece → Prop
  | word index text =>
      ∃ start stop, index = first + start ∧ IsWord row start stop ∧ text = row.extract start stop
  | mark index m =>
      ∃ start, index = first + start ∧ Reached row start ∧ m.IsLongest (row.drop start)

theorem Describes.shift {first step : Nat} {row : List Char} {p : Piece} (hstep : Step row step)
    (h : p.Describes (first + step) (row.drop step))
    (hbefore : ∀ text, p = word (first + step) text → ¬ InWord row 0) : p.Describes first row := by
  cases p with
  | word index text =>
      obtain ⟨start, stop, rfl, hword, rfl⟩ := h
      refine ⟨step + start, step + stop, by omega, hword.shift hstep ?_, ?_⟩
      · rintro rfl
        exact hbefore _ rfl
      · rw [List.extract_eq_take_drop, List.extract_eq_take_drop, List.drop_drop,
          Nat.add_sub_add_left]
  | mark index m =>
      obtain ⟨start, rfl, hreached, hlongest⟩ := h
      refine ⟨step + start, by omega, ?_, by rwa [List.drop_drop] at hlongest⟩
      exact (reached_iff hstep).mpr (.inr ⟨start, rfl, hreached⟩)

end Piece

/-- The division of a line step by step. A character outside separators joins the word behind it,
if there is one. -/
inductive Divided : Nat → List Char → List Piece → Prop where
  | nil {index : Nat} : Divided index [] []
  | blank {index : Nat} {c : Char} {rest : List Char} {ps : List Piece}
      (isBlank : Text.isBlank c = true) (others : Divided (index + 1) rest ps) :
      Divided index (c :: rest) ps
  | mark {index : Nat} {row : List Char} {m : Mark} {ps : List Piece}
      (longest : m.IsLongest row)
      (others : Divided (index + m.spelling.length) (row.drop m.spelling.length) ps) :
      Divided index row (.mark index m :: ps)
  | joined {index : Nat} {c : Char} {rest text : List Char} {ps : List Piece}
      (none : ∀ length, ¬ Separator (c :: rest) 0 length)
      (others : Divided (index + 1) rest (.word (index + 1) text :: ps)) :
      Divided index (c :: rest) (.word index (c :: text) :: ps)
  | alone {index : Nat} {c : Char} {rest : List Char} {ps : List Piece}
      (none : ∀ length, ¬ Separator (c :: rest) 0 length)
      (apart : ∀ text others, ps ≠ .word (index + 1) text :: others)
      (others : Divided (index + 1) rest ps) :
      Divided index (c :: rest) (.word index [c] :: ps)

theorem not_separator_of_longest? {c : Char} {rest : List Char} (hblank : Text.isBlank c ≠ true)
    (hmark : Mark.longest? (c :: rest) = none) (length : Nat) :
    ¬ Separator (c :: rest) 0 length := by
  intro h
  cases h with
  | blank here isBlank =>
      obtain rfl : c = _ := by simpa using here
      exact hblank isBlank
  | mark longest => exact Mark.longest?_eq_none hmark _ longest.written

theorem Divided.prepend {index : Nat} {c : Char} {rest : List Char} {ps : List Piece}
    (none : ∀ length, ¬ Separator (c :: rest) 0 length) (others : Divided (index + 1) rest ps) :
    Divided index (c :: rest) (prependChar index c ps) := by
  match ps, others with
  | [], others => exact .alone none (by simp) others
  | .mark next m :: ps, others => exact .alone none (by simp) others
  | .word next text :: ps, others =>
      simp only [prependChar]
      by_cases hnext : next = index + 1
      · rw [if_pos hnext]
        subst hnext
        exact .joined none others
      · rw [if_neg hnext]
        refine .alone none ?_ others
        intro text' others' heq
        obtain ⟨⟨hindex, -⟩, -⟩ : (next = index + 1 ∧ text = text') ∧ ps = others' := by
          simpa using heq
        exact hnext hindex

theorem divided_pieces (index : Nat) (row : List Char) :
    Divided index row (pieces index row) := by
  fun_induction pieces index row with
  | case1 => exact .nil
  | case2 index c hblank => exact .blank hblank .nil
  | case3 index c hblank m hm =>
      have hlongest := Mark.longest?_eq_some hm
      refine .mark hlongest ?_
      have hle := hlongest.written.length_le
      rcases m.length_spelling with hlen | hlen <;> simp_all [Divided.nil]
  | case4 index c hblank hm =>
      exact Divided.prepend (not_separator_of_longest? hblank hm) .nil
  | case5 index c d rest hblank ih => exact .blank hblank ih
  | case6 index c d rest hblank m hm ih₂ ih₁ =>
      refine .mark (Mark.longest?_eq_some hm) ?_
      by_cases hlen : m.spelling.length = 2
      · rw [if_pos hlen, hlen]
        exact ih₂
      · have hone : m.spelling.length = 1 := m.length_spelling.resolve_right hlen
        rw [if_neg hlen, hone]
        exact ih₁
  | case7 index c d rest hblank hm ih =>
      exact Divided.prepend (not_separator_of_longest? hblank hm) ih

namespace Divided

variable {index : Nat} {row : List Char} {ps : List Piece}

theorem bounds (h : Divided index row ps) {p : Piece} (hp : p ∈ ps) :
    index ≤ p.start ∧ p.start < p.stop := by
  induction h with
  | nil => cases hp
  | blank _ _ ih =>
      have := ih hp
      omega
  | @mark index _ m _ _ _ ih =>
      rcases List.mem_cons.mp hp with rfl | hp
      · rcases m.length_spelling with hlen | hlen <;> simp [Piece.start, Piece.stop, hlen]
      · have := ih hp
        omega
  | joined _ _ ih =>
      rcases List.mem_cons.mp hp with rfl | hp
      · simp [Piece.start, Piece.stop]
      · have := ih (List.mem_cons_of_mem _ hp)
        omega
  | alone _ _ _ ih =>
      rcases List.mem_cons.mp hp with rfl | hp
      · simp [Piece.start, Piece.stop]
      · have := ih hp
        omega

theorem ordered (h : Divided index row ps) : ps.Pairwise fun p q => p.stop ≤ q.start := by
  induction h with
  | nil => exact .nil
  | blank _ _ ih => exact ih
  | mark _ others ih => exact .cons (fun q hq => (others.bounds hq).1) ih
  | joined _ _ ih =>
      obtain ⟨hfirst, hothers⟩ := List.pairwise_cons.mp ih
      refine .cons (fun q hq => ?_) hothers
      have := hfirst q hq
      simp only [Piece.stop, List.length_cons] at this ⊢
      omega
  | alone _ _ others ih => exact .cons (fun q hq => (others.bounds hq).1) ih

/-- A piece at the start of the line is the first one. -/
theorem eq_cons_of_start (h : Divided index row ps) {p : Piece} (hp : p ∈ ps)
    (hstart : p.start = index) : ∃ others, ps = p :: others := by
  cases ps with
  | nil => cases hp
  | cons q others =>
      rcases List.mem_cons.mp hp with rfl | hmem
      · exact ⟨others, rfl⟩
      · have hstop := (List.pairwise_cons.mp h.ordered).1 p hmem
        have hbounds := h.bounds List.mem_cons_self
        omega

/-- Nothing is lost: what no piece covers is blank. -/
theorem isBlank_or_covered (h : Divided index row ps) {place : Nat} {c : Char}
    (hc : row[place]? = some c) :
    Text.isBlank c = true ∨ ∃ p ∈ ps, p.start ≤ index + place ∧ index + place < p.stop := by
  induction h generalizing place with
  | nil => simp at hc
  | blank isBlank _ ih =>
      cases place with
      | zero =>
          obtain rfl := Option.some.inj hc
          exact .inl isBlank
      | succ place =>
          rcases ih hc with hblank | ⟨p, hp, hle, hlt⟩
          · exact .inl hblank
          · exact .inr ⟨p, hp, by omega, by omega⟩
  | @mark _ _ m _ _ _ ih =>
      by_cases hin : place < m.spelling.length
      · exact .inr ⟨_, List.mem_cons_self, by simp [Piece.start], by simpa [Piece.stop] using hin⟩
      · obtain ⟨behind, rfl⟩ : ∃ behind, place = m.spelling.length + behind :=
          ⟨place - m.spelling.length, by omega⟩
        rcases ih (by rwa [List.getElem?_drop]) with hblank | ⟨p, hp, hle, hlt⟩
        · exact .inl hblank
        · exact .inr ⟨p, List.mem_cons_of_mem _ hp, by omega, by omega⟩
  | @joined index _ _ text _ _ _ ih =>
      cases place with
      | zero => exact .inr ⟨_, List.mem_cons_self, by simp [Piece.start], by simp [Piece.stop]⟩
      | succ place =>
          rcases ih hc with hblank | ⟨p, hp, hle, hlt⟩
          · exact .inl hblank
          · rcases List.mem_cons.mp hp with rfl | hp
            · simp only [Piece.stop] at hlt
              refine .inr ⟨_, List.mem_cons_self, by simp [Piece.start], ?_⟩
              simp only [Piece.stop, List.length_cons]
              omega
            · exact .inr ⟨p, List.mem_cons_of_mem _ hp, by omega, by omega⟩
  | alone _ _ _ ih =>
      cases place with
      | zero => exact .inr ⟨_, List.mem_cons_self, by simp [Piece.start], by simp [Piece.stop]⟩
      | succ place =>
          rcases ih hc with hblank | ⟨p, hp, hle, hlt⟩
          · exact .inl hblank
          · exact .inr ⟨p, List.mem_cons_of_mem _ hp, by omega, by omega⟩

theorem exists_word (h : Divided index row ps) {place : Nat} (hin : InWord row place) :
    ∃ start text, .word start text ∈ ps ∧ start ≤ index + place ∧
      index + place < start + text.length := by
  induction h generalizing place with
  | nil => exact absurd hin.inside (by simp)
  | @blank index c rest ps isBlank _ ih =>
      have hseparator : Separator (c :: rest) 0 1 := .blank rfl isBlank
      by_cases hlt : place < 1
      · obtain rfl := eq_zero_of_inWord_lt (.across hseparator) hin hlt
        exact absurd hseparator (hin.none _)
      · obtain ⟨behind, rfl⟩ : ∃ behind, place = 1 + behind := ⟨place - 1, by omega⟩
        obtain ⟨start, text, hmem, hle, hlt⟩ := ih ((inWord_shift (.across hseparator)).mp hin)
        exact ⟨start, text, hmem, by omega, by omega⟩
  | @mark index row m ps longest _ ih =>
      have hseparator : Separator row 0 m.spelling.length := .mark longest
      by_cases hlt : place < m.spelling.length
      · obtain rfl := eq_zero_of_inWord_lt (.across hseparator) hin hlt
        exact absurd hseparator (hin.none _)
      · obtain ⟨behind, rfl⟩ : ∃ behind, place = m.spelling.length + behind :=
          ⟨place - m.spelling.length, by omega⟩
        obtain ⟨start, text, hmem, hle, hlt⟩ := ih ((inWord_shift (.across hseparator)).mp hin)
        exact ⟨start, text, List.mem_cons_of_mem _ hmem, by omega, by omega⟩
  | @joined index c rest text ps none _ ih =>
      cases place with
      | zero => exact ⟨_, _, List.mem_cons_self, by omega, by simp⟩
      | succ place =>
          rw [Nat.add_comm] at hin
          have hstep : Step (c :: rest) 1 := .along (by simp) none
          obtain ⟨start, found, hmem, hle, hlt⟩ := ih ((inWord_shift hstep).mp hin)
          rcases List.mem_cons.mp hmem with heq | hmem
          · obtain ⟨rfl, rfl⟩ := Piece.word.inj heq
            exact ⟨_, _, List.mem_cons_self, by omega, by simp only [List.length_cons]; omega⟩
          · exact ⟨start, found, List.mem_cons_of_mem _ hmem, by omega, by omega⟩
  | @alone index c rest ps none _ _ ih =>
      cases place with
      | zero => exact ⟨_, _, List.mem_cons_self, by omega, by simp⟩
      | succ place =>
          rw [Nat.add_comm] at hin
          have hstep : Step (c :: rest) 1 := .along (by simp) none
          obtain ⟨start, found, hmem, hle, hlt⟩ := ih ((inWord_shift hstep).mp hin)
          exact ⟨start, found, List.mem_cons_of_mem _ hmem, by omega, by omega⟩

/-- Every piece is a word or a mark of the line. -/
theorem describes (h : Divided index row ps) {p : Piece} (hp : p ∈ ps) :
    p.Describes index row := by
  induction h generalizing p with
  | nil => cases hp
  | @blank index c rest ps isBlank _ ih =>
      have hseparator : Separator (c :: rest) 0 1 := .blank rfl isBlank
      exact (ih hp).shift (.across hseparator) fun _ _ hin => hin.none _ hseparator
  | @mark index row m ps longest _ ih =>
      have hseparator : Separator row 0 m.spelling.length := .mark longest
      rcases List.mem_cons.mp hp with rfl | hp
      · exact ⟨0, rfl, .start, longest⟩
      · exact (ih hp).shift (.across hseparator) fun _ _ hin => hin.none _ hseparator
  | @joined index c rest text ps none others ih =>
      have hstep : Step (c :: rest) 1 := .along (by simp) none
      have hfirst : InWord (c :: rest) 0 := ⟨.start, by simp, none⟩
      rcases List.mem_cons.mp hp with rfl | hp
      · obtain ⟨start, stop, hstart, hword, rfl⟩ := ih List.mem_cons_self
        obtain rfl : start = 0 := by omega
        have hnonempty := hword.nonempty
        refine ⟨0, 1 + stop, rfl, ⟨by omega, ?_, by omega, ?_⟩, ?_⟩
        · intro place _ hlt
          cases place with
          | zero => exact hfirst
          | succ place =>
              rw [Nat.add_comm]
              exact (inWord_shift hstep).mpr (hword.inside place (by omega) (by omega))
        · exact fun hin => hword.behind ((inWord_shift hstep).mp hin)
        · simp [List.extract_eq_take_drop, Nat.add_comm 1 stop]
      · refine (ih (List.mem_cons_of_mem _ hp)).shift hstep ?_
        rintro text' rfl
        obtain ⟨_, heq⟩ := others.eq_cons_of_start (List.mem_cons_of_mem _ hp) rfl
        have horder := (List.pairwise_cons.mp others.ordered).1 _ hp
        have hbounds := others.bounds List.mem_cons_self
        simp only [Piece.start] at horder hbounds
        omega
  | @alone index c rest ps none apart others ih =>
      have hstep : Step (c :: rest) 1 := .along (by simp) none
      have hfirst : InWord (c :: rest) 0 := ⟨.start, by simp, none⟩
      -- A word at the next index would have been the first of the other pieces.
      have hnone : ∀ text, .word (index + 1) text ∉ ps := by
        intro text hmem
        obtain ⟨tail, heq⟩ := others.eq_cons_of_start hmem rfl
        exact apart text tail heq
      rcases List.mem_cons.mp hp with rfl | hp
      · refine ⟨0, 1, rfl, ⟨by omega, ?_, by omega, ?_⟩, rfl⟩
        · intro place _ hlt
          obtain rfl : place = 0 := by omega
          exact hfirst
        · intro hin
          have hnext : InWord (c :: rest) (1 + 0) := hin
          obtain ⟨start, text, hmem, hle, _⟩ := others.exists_word ((inWord_shift hstep).mp hnext)
          have hbounds := others.bounds hmem
          simp only [Piece.start] at hbounds
          obtain rfl : start = index + 1 := by omega
          exact hnone text hmem
      · refine (ih hp).shift hstep ?_
        rintro text rfl
        exact absurd hp (hnone text)

/-- No piece goes beyond the line. -/
theorem stop_le (h : Divided index row ps) {p : Piece} (hp : p ∈ ps) :
    p.stop ≤ index + row.length := by
  cases p with
  | word start text =>
      obtain ⟨start, stop, rfl, hword, rfl⟩ := h.describes hp
      have hnonempty := hword.nonempty
      have hinside := (hword.inside (stop - 1) (by omega) (by omega)).inside
      simp only [Piece.stop, List.extract_eq_take_drop, List.length_take, List.length_drop]
      omega
  | mark start m =>
      obtain ⟨start, rfl, -, hlongest⟩ := h.describes hp
      have hle := hlongest.written.length_le
      have hpos : 0 < m.spelling.length := by
        rcases m.length_spelling with hlen | hlen <;> omega
      simp only [Piece.stop, List.length_drop] at hle ⊢
      omega

/-- Every word of the line is a piece. -/
theorem word_mem (h : Divided index row ps) {start stop : Nat} (hword : IsWord row start stop) :
    .word (index + start) (row.extract start stop) ∈ ps := by
  have hfirst := hword.inside start (Nat.le_refl _) hword.nonempty
  obtain ⟨place, text, hmem, hle, hlt⟩ := h.exists_word hfirst
  obtain ⟨start', stop', rfl, hword', rfl⟩ := h.describes hmem
  have hlength : (row.extract start' stop').length ≤ stop' - start' := by
    rw [List.extract_eq_take_drop]
    exact List.length_take_le _ _
  obtain ⟨rfl, rfl⟩ := hword.eq_of_overlap hword' (by omega) (by omega)
  exact hmem

end Divided

end Lexer

end Wattle
