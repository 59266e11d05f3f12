import Mathlib.Data.List.Induction
import Mathlib.Data.List.TakeWhile
import Wattle.Proofs.NearestValue
import Wattle.Token.Word

/-!
# The words that are numbers

A number is written with digits, possibly a point and more digits, and possibly letters that select
its type. This module says which words are such numbers, which rational number each of them denotes,
and how large it may be, and shows that reading a word character by character accepts these.
-/

namespace Wattle

/-! ## The value of digits -/

namespace Text

theorem decimalValue_append_digit (digits : List Char) (c : Char) :
    decimalValue (digits ++ [c]) = 10 * decimalValue digits + (c.toNat - '0'.toNat) := by
  simp [decimalValue, List.foldl_append]

theorem decimalValue_append (digits more : List Char) :
    decimalValue (digits ++ more) = decimalValue digits * 10 ^ more.length + decimalValue more := by
  induction more using List.reverseRecOn with
  | nil => simp [decimalValue]
  | append_singleton more c ih =>
      rw [← List.append_assoc, decimalValue_append_digit, ih, decimalValue_append_digit,
        List.length_append, List.length_singleton, pow_succ]
      ring

/-- The number that digits denote if a point stands behind the first ones. -/
def pointed (whole decimals : List Char) : ℚ :=
  decimalValue whole + decimalValue decimals / 10 ^ decimals.length

/-- The number that a text denotes: digits, or digits with a point among them. -/
def denoted (text : List Char) : ℚ :=
  pointed (text.takeWhile (· ≠ '.')) (text.dropWhile (· ≠ '.')).tail

end Text

namespace Number

open Text

/-! ## Spelling -/

/-- A list is taken apart at the first character that does not go on. -/
theorem takeWhile_dropWhile_append {goesOn : Char → Bool} {first : List Char}
    (hfirst : ∀ c ∈ first, goesOn c) (rest : List Char)
    (hrest : ∀ c, rest.head? = some c → goesOn c = false) :
    (first ++ rest).takeWhile goesOn = first ∧ (first ++ rest).dropWhile goesOn = rest := by
  rw [List.takeWhile_append_of_pos hfirst, List.dropWhile_append_of_pos hfirst]
  cases rest with
  | nil => simp
  | cons c rest => simp [hrest c rfl]

/-- What may stand behind the digits. -/
def suffixes : List (List Char) :=
  [[], ['u'], ['l'], ['u', 'l'], ['l', 'u']]

/-- The parts of a number as written. -/
structure Parts where
  whole : List Char
  /-- The digits after the point, if there is a point; they may be missing. -/
  fraction : Option (List Char)
  suffix : List Char

namespace Parts

variable {p : Parts}

/-- The digits after the point. -/
def decimals (p : Parts) : List Char :=
  p.fraction.getD []

/-- The text of the number: its digits, with the point only if digits follow it. -/
def digits (p : Parts) : List Char :=
  if p.decimals = [] then p.whole else p.whole ++ '.' :: p.decimals

/-- The word that the parts make up. -/
def spelling (p : Parts) : List Char :=
  match p.fraction with
  | none => p.whole ++ p.suffix
  | some decimals => p.whole ++ '.' :: (decimals ++ p.suffix)

/-- The parts of a number, whatever its size. -/
structure WellFormed (p : Parts) : Prop where
  whole_ne_nil : p.whole ≠ []
  whole_digits : ∀ c ∈ p.whole, c.isDigit
  decimals_digits : ∀ c ∈ p.decimals, c.isDigit
  suffix_mem : p.suffix ∈ suffixes
  unsigned_whole : 'u' ∈ p.suffix → p.fraction = none

/-- The type that the point and the letters select. -/
def type (p : Parts) : BaseType :=
  match p.fraction.isSome, decide ('l' ∈ p.suffix), decide ('u' ∈ p.suffix) with
  | false, false, false => .i32
  | false, false, true => .u32
  | false, true, false => .i64
  | false, true, true => .u64
  | true, false, _ => .f32
  | true, true, _ => .f64

/-- The number that the digits denote. -/
def value (p : Parts) : ℚ :=
  pointed p.whole p.decimals

/-- The value as a quotient: the digits without the point, scaled down by their number behind it. -/
theorem value_eq_div (p : Parts) :
    p.value = (decimalValue (p.whole ++ p.decimals) / tenTo p.decimals.length : ℚ) := by
  have hten : (10 : ℚ) ^ p.decimals.length ≠ 0 := pow_ne_zero _ (by norm_num)
  have hcast : (tenTo p.decimals.length : ℚ) = 10 ^ p.decimals.length := Nat.cast_pow 10 _
  rw [value, pointed, decimalValue_append, hcast, eq_div_iff hten, add_mul, div_mul_cancel₀ _ hten]
  push_cast
  rfl

theorem zero_le_value (p : Parts) : 0 ≤ p.value := by
  rw [value_eq_div]
  positivity

theorem WellFormed.ne_point (h : p.WellFormed) : ∀ c ∈ p.whole, decide (c ≠ '.') = true := by
  intro c hc
  have hdigit := h.whole_digits c hc
  apply decide_eq_true
  rintro rfl
  exact absurd hdigit (by decide)

/-- The text of a number denotes its value: a point without digits behind it may be left out. -/
theorem WellFormed.denoted_digits (h : p.WellFormed) : denoted p.digits = p.value := by
  rw [digits]
  split
  · next hnone =>
    have hcut := takeWhile_dropWhile_append h.ne_point [] nofun
    rw [List.append_nil] at hcut
    rw [denoted, hcut.1, hcut.2, value, hnone]
    rfl
  · have hcut := takeWhile_dropWhile_append h.ne_point ('.' :: p.decimals) (by simp)
    rw [denoted, hcut.1, hcut.2]
    rfl

/-! ## Reading character by character -/

/-- What has been read when the word has these parts. -/
def reading (p : Parts) : Reading :=
  ⟨p.whole, p.fraction, decide ('u' ∈ p.suffix), decide ('l' ∈ p.suffix)⟩

theorem text_reading (p : Parts) : p.reading.text = p.digits := by
  obtain ⟨whole, _ | _ | ⟨d, decimals⟩, suffix⟩ := p <;> rfl

theorem type?_reading_eq_some {type : BaseType} :
    p.reading.type? = some type ↔ ('u' ∈ p.suffix → p.fraction = none) ∧ p.type = type := by
  obtain ⟨whole, fraction, suffix⟩ := p
  by_cases hu : 'u' ∈ suffix <;> by_cases hl : 'l' ∈ suffix <;> cases fraction <;>
    simp [reading, Reading.type?, Parts.type, hu, hl]

/-- Parts of digits and letters, as far as a point and letters may follow each other. -/
structure Scannable (p : Parts) : Prop where
  whole_digits : ∀ c ∈ p.whole, c.isDigit
  decimals_digits : ∀ c ∈ p.decimals, c.isDigit
  suffix_mem : p.suffix ∈ suffixes

theorem WellFormed.scannable (h : p.WellFormed) : p.Scannable :=
  ⟨h.whole_digits, h.decimals_digits, h.suffix_mem⟩

end Parts

theorem scan_append (word more : List Char) :
    scan (word ++ more) = (scan word).bind fun r => more.foldlM Reading.step r :=
  List.foldlM_append

theorem foldlM_step_whole {digits : List Char} (hdigits : ∀ c ∈ digits, c.isDigit)
    (whole : List Char) :
    digits.foldlM Reading.step ⟨whole, none, false, false⟩ =
      some ⟨whole ++ digits, none, false, false⟩ := by
  induction digits generalizing whole with
  | nil => simp
  | cons c digits ih =>
      obtain ⟨hc, hothers⟩ := List.forall_mem_cons.mp hdigits
      simpa [Reading.step, hc] using ih hothers (whole ++ [c])

theorem foldlM_step_fraction {digits : List Char} (hdigits : ∀ c ∈ digits, c.isDigit)
    (whole decimals : List Char) :
    digits.foldlM Reading.step ⟨whole, some decimals, false, false⟩ =
      some ⟨whole, some (decimals ++ digits), false, false⟩ := by
  induction digits generalizing decimals with
  | nil => simp
  | cons c digits ih =>
      obtain ⟨hc, hothers⟩ := List.forall_mem_cons.mp hdigits
      simpa [Reading.step, hc] using ih hothers (decimals ++ [c])

theorem foldlM_step_suffix {suffix : List Char} (h : suffix ∈ suffixes) (whole : List Char)
    (fraction : Option (List Char)) :
    suffix.foldlM Reading.step ⟨whole, fraction, false, false⟩ =
      some ⟨whole, fraction, decide ('u' ∈ suffix), decide ('l' ∈ suffix)⟩ := by
  simp only [suffixes, List.mem_cons, List.not_mem_nil, or_false] at h
  rcases h with rfl | rfl | rfl | rfl | rfl <;> rfl

/-- What is written of parts is read as them. -/
theorem Parts.Scannable.scan_spelling {p : Parts} (h : p.Scannable) :
    scan p.spelling = some p.reading := by
  obtain ⟨whole, fraction, suffix⟩ := p
  have hstart : scan whole = some ⟨whole, none, false, false⟩ :=
    foldlM_step_whole h.whole_digits []
  cases fraction with
  | none =>
      rw [Parts.spelling, scan_append, hstart]
      exact foldlM_step_suffix h.suffix_mem whole none
  | some decimals =>
      have hpoint : Reading.step ⟨whole, none, false, false⟩ '.' =
          some ⟨whole, some [], false, false⟩ := rfl
      have hdecimals := foldlM_step_fraction h.decimals_digits whole []
      rw [Parts.spelling, scan_append, hstart, Option.bind_some, List.foldlM_cons, hpoint]
      change (decimals ++ suffix).foldlM Reading.step ⟨whole, some [], false, false⟩ = _
      rw [List.foldlM_append]
      exact (congrArg (· >>= _) hdecimals).trans (foldlM_step_suffix h.suffix_mem whole _)

/-- Reading one more character: `Steps r c r'` if that leads from `r` to `r'`. -/
inductive Reading.Steps : Reading → Char → Reading → Prop where
  | wholeDigit {c : Char} (whole : List Char) (isDigit : c.isDigit) :
      Steps ⟨whole, none, false, false⟩ c ⟨whole ++ [c], none, false, false⟩
  | fractionDigit {c : Char} (whole decimals : List Char) (isDigit : c.isDigit) :
      Steps ⟨whole, some decimals, false, false⟩ c ⟨whole, some (decimals ++ [c]), false, false⟩
  | point (whole : List Char) :
      Steps ⟨whole, none, false, false⟩ '.' ⟨whole, some [], false, false⟩
  | unsigned (whole : List Char) (fraction : Option (List Char)) (isLong : Bool) :
      Steps ⟨whole, fraction, false, isLong⟩ 'u' ⟨whole, fraction, true, isLong⟩
  | long (whole : List Char) (fraction : Option (List Char)) (isUnsigned : Bool) :
      Steps ⟨whole, fraction, isUnsigned, false⟩ 'l' ⟨whole, fraction, isUnsigned, true⟩

theorem Reading.steps_of_step {r r' : Reading} {c : Char} (h : r.step c = some r') :
    r.Steps c r' := by
  obtain ⟨whole, fraction, isUnsigned, isLong⟩ := r
  simp only [Reading.step] at h
  by_cases hdigit : c.isDigit = true
  · rw [if_pos hdigit] at h
    cases isUnsigned <;> cases isLong <;> cases fraction <;> cases h
    · exact .wholeDigit whole hdigit
    · exact .fractionDigit whole _ hdigit
  rw [if_neg hdigit] at h
  by_cases hpoint : c = '.'
  · rw [if_pos hpoint] at h
    subst hpoint
    cases isUnsigned <;> cases isLong <;> cases fraction <;> cases h
    exact .point whole
  rw [if_neg hpoint] at h
  by_cases hu : c = 'u'
  · rw [if_pos hu] at h
    subst hu
    cases isUnsigned <;> cases h
    exact .unsigned whole fraction isLong
  rw [if_neg hu] at h
  by_cases hl : c = 'l'
  · rw [if_pos hl] at h
    subst hl
    cases isLong <;> cases h
    exact .long whole fraction isUnsigned
  · rw [if_neg hl] at h
    cases h

/-- A letter that is new may follow: at most the other one stands in front of it. -/
theorem append_letter_mem_suffixes {suffix : List Char} (h : suffix ∈ suffixes) :
    ('u' ∉ suffix → suffix ++ ['u'] ∈ suffixes) ∧ ('l' ∉ suffix → suffix ++ ['l'] ∈ suffixes) := by
  simp only [suffixes, List.mem_cons, List.not_mem_nil, or_false] at h
  rcases h with rfl | rfl | rfl | rfl | rfl <;> decide

theorem eq_nil_of_no_letter {suffix : List Char} (h : suffix ∈ suffixes) (hu : 'u' ∉ suffix)
    (hl : 'l' ∉ suffix) : suffix = [] := by
  simp only [suffixes, List.mem_cons, List.not_mem_nil, or_false] at h
  rcases h with rfl | rfl | rfl | rfl | rfl <;> simp_all

/-- Reading on from what has parts gives what has parts again. -/
theorem Parts.Scannable.steps {p : Parts} (h : p.Scannable) {c : Char} {r r' : Reading}
    (hr : p.reading = r) (hstep : r.Steps c r') :
    ∃ p' : Parts, p'.Scannable ∧ p'.spelling = p.spelling ++ [c] ∧ p'.reading = r' := by
  obtain ⟨whole, fraction, suffix⟩ := p
  obtain ⟨hwhole, hdecimals, hsuffix⟩ := h
  dsimp only at hwhole hdecimals hsuffix
  cases hstep with
  | wholeDigit _ hdigit =>
      simp only [Parts.reading, Reading.mk.injEq, decide_eq_false_iff_not] at hr
      obtain ⟨rfl, rfl, hu, hl⟩ := hr
      obtain rfl := eq_nil_of_no_letter hsuffix hu hl
      refine ⟨⟨whole ++ [c], none, []⟩, ⟨?_, nofun, hsuffix⟩, by simp [Parts.spelling], rfl⟩
      exact List.forall_mem_append.mpr ⟨hwhole, by simpa using hdigit⟩
  | fractionDigit _ decimals hdigit =>
      simp only [Parts.reading, Reading.mk.injEq, decide_eq_false_iff_not] at hr
      obtain ⟨rfl, rfl, hu, hl⟩ := hr
      obtain rfl := eq_nil_of_no_letter hsuffix hu hl
      refine ⟨⟨whole, some (decimals ++ [c]), []⟩, ⟨hwhole, ?_, hsuffix⟩, by simp [Parts.spelling],
        rfl⟩
      exact List.forall_mem_append.mpr ⟨hdecimals, by simpa using hdigit⟩
  | point =>
      simp only [Parts.reading, Reading.mk.injEq, decide_eq_false_iff_not] at hr
      obtain ⟨rfl, rfl, hu, hl⟩ := hr
      obtain rfl := eq_nil_of_no_letter hsuffix hu hl
      exact ⟨⟨whole, some [], []⟩, ⟨hwhole, nofun, hsuffix⟩, by simp [Parts.spelling], rfl⟩
  | unsigned _ _ isLong =>
      simp only [Parts.reading, Reading.mk.injEq, decide_eq_false_iff_not] at hr
      obtain ⟨rfl, rfl, hu, rfl⟩ := hr
      refine ⟨⟨whole, fraction, suffix ++ ['u']⟩,
        ⟨hwhole, hdecimals, (append_letter_mem_suffixes hsuffix).1 hu⟩, ?_, ?_⟩
      · cases fraction <;> simp [Parts.spelling]
      · simp [Parts.reading]
  | long _ _ isUnsigned =>
      simp only [Parts.reading, Reading.mk.injEq, decide_eq_false_iff_not] at hr
      obtain ⟨rfl, rfl, rfl, hl⟩ := hr
      refine ⟨⟨whole, fraction, suffix ++ ['l']⟩,
        ⟨hwhole, hdecimals, (append_letter_mem_suffixes hsuffix).2 hl⟩, ?_, ?_⟩
      · cases fraction <;> simp [Parts.spelling]
      · simp [Parts.reading]

/-- Exactly the words that are made up of parts are read to their end. -/
theorem scan_eq_some_iff {word : List Char} {r : Reading} :
    scan word = some r ↔ ∃ p : Parts, p.Scannable ∧ p.spelling = word ∧ p.reading = r := by
  constructor
  · intro h
    induction word using List.reverseRecOn generalizing r with
    | nil =>
        obtain rfl := Option.some.inj h
        exact ⟨⟨[], none, []⟩, ⟨nofun, nofun, List.mem_cons_self⟩, rfl, rfl⟩
    | append_singleton word c ih =>
        rw [scan_append] at h
        obtain ⟨before, hbefore, hstep⟩ := Option.bind_eq_some_iff.mp h
        obtain ⟨p, hp, rfl, rfl⟩ := ih hbefore
        exact hp.steps rfl (Reading.steps_of_step (by simpa using hstep))
  · rintro ⟨p, hp, rfl, rfl⟩
    exact hp.scan_spelling

/-- What starts with a digit has digits in front of any point. -/
theorem Parts.Scannable.whole_ne_nil {p : Parts} (h : p.Scannable)
    (hdigit : p.spelling.head?.map Char.isDigit = some true) : p.whole ≠ [] := by
  obtain ⟨whole, fraction, suffix⟩ := p
  rintro rfl
  have hsuffix := h.suffix_mem
  simp only [suffixes, List.mem_cons, List.not_mem_nil, or_false] at hsuffix
  cases fraction with
  | none => rcases hsuffix with rfl | rfl | rfl | rfl | rfl <;> simp [Parts.spelling] at hdigit
  | some decimals => simp [Parts.spelling] at hdigit

/-! ## Types and ranges -/

/-- The number that all literals of the type are below. -/
def limit : BaseType → ℚ
  | .i32 | .u32 => 2 ^ 32
  | .i64 | .u64 => 2 ^ 64
  | .f32 => 2 ^ 128 - 2 ^ 103
  | .f64 => 2 ^ 1024 - 2 ^ 970
  | .void => 0

namespace Parts.WellFormed

variable {p : Parts}

theorem readDecimal_digits (h : p.WellFormed) :
    readDecimal p.digits =
      some (decimalValue (p.whole ++ p.decimals), p.decimals.length) := by
  rw [digits]
  split
  · next hnone =>
    have hcut := takeWhile_dropWhile_append h.whole_digits [] nofun
    rw [List.append_nil] at hcut
    simp [readDecimal, hcut, h.whole_ne_nil, hnone]
  · have hcut := takeWhile_dropWhile_append h.whole_digits ('.' :: p.decimals) (by simp)
    simpa [readDecimal, hcut, h.whole_ne_nil] using h.decimals_digits

/-- A number is read as a floating value by rounding it. -/
theorem value?_read (h : p.WellFormed) (f : FloatFormat) :
    (f.read p.digits).bind Rounded.value? =
      if f.nearest p.value < 2 ^ f.top then some (f.nearest p.value) else none := by
  have hten : 0 < tenTo p.decimals.length := Nat.pow_pos (by decide)
  rw [FloatFormat.read, h.readDecimal_digits, value_eq_div]
  exact f.value?_round hten

theorem any_isFinite_read_iff (h : p.WellFormed) (f : FloatFormat) {n k : ℕ} (hn : f.top = n)
    (hk : f.top - f.precision - 1 = k) :
    (f.read p.digits).any Rounded.isFinite = true ↔ p.value < 2 ^ n - 2 ^ k := by
  have hread := h.value?_read f
  rw [← f.nearest_lt_pow_iff p.zero_le_value hn hk, ← zpow_natCast, ← hn, Option.any_eq_true]
  constructor
  · rintro ⟨r, hr, hfinite⟩
    obtain ⟨x, hx⟩ := Rounded.isFinite_iff.mp hfinite
    rw [hr, Option.bind_some, hx] at hread
    by_contra hlarge
    rw [if_neg hlarge] at hread
    cases hread
  · intro hsmall
    rw [if_pos hsmall] at hread
    obtain ⟨r, hr, hx⟩ := Option.bind_eq_some_iff.mp hread
    exact ⟨r, hr, Rounded.isFinite_iff.mpr ⟨_, hx⟩⟩

theorem readBelow_digits_iff (h : p.WellFormed) (hfraction : p.fraction = none) (bound : ℕ) :
    (readBelow bound p.digits).isSome = true ↔ p.value < bound := by
  obtain ⟨whole, fraction, suffix⟩ := p
  obtain rfl : fraction = none := hfraction
  have hwhole : whole ≠ [] := h.whole_ne_nil
  have hdigits : whole.all Char.isDigit = true := List.all_eq_true.mpr h.whole_digits
  have hplus : whole.head? ≠ some '+' := by
    intro hhead
    exact absurd (h.whole_digits '+' (List.mem_of_head? hhead)) (by decide)
  have hvalue : Parts.value ⟨whole, none, suffix⟩ = decimalValue whole := by
    simp [Parts.value, pointed, decimals, decimalValue]
  change (readBelow bound whole).isSome = true ↔ _
  rw [hvalue, Nat.cast_lt, readBelow]
  · simp [hwhole, hdigits]
  · rintro rest rfl
    exact hplus rfl

/-- A number has a value of its type exactly if it is small enough. -/
theorem fits_iff (h : p.WellFormed) : fits p.digits p.type = true ↔ p.value < limit p.type := by
  obtain ⟨whole, fraction, suffix⟩ := p
  cases fraction with
  | none =>
      have hbelow := h.readBelow_digits_iff rfl
      by_cases hl : 'l' ∈ suffix <;> by_cases hu : 'u' ∈ suffix <;>
        simp only [Parts.type, hl, hu, Option.isSome_none, decide_true, decide_false, fits, limit,
          hbelow, cast_twoTo]
  | some decimals =>
      by_cases hl : 'l' ∈ suffix
      · simpa [Parts.type, hl, fits, limit] using h.any_isFinite_read_iff .double rfl rfl
      · simpa [Parts.type, hl, fits, limit] using h.any_isFinite_read_iff .single rfl rfl

end Parts.WellFormed

theorem read?_eq_some_iff {word : List Char} {text : String} {type : BaseType} :
    read? word = some (text, type) ↔
      ∃ r, scan word = some r ∧ r.type? = some type ∧ fits r.text type = true ∧
        String.ofList r.text = text := by
  simp only [read?, Option.bind_eq_bind, Option.bind_eq_some_iff, Option.pure_def,
    Option.some.injEq, Prod.mk.injEq, guard]
  constructor
  · rintro ⟨r, hscan, type', htype, _, hguard, rfl, rfl⟩
    by_cases hfits : fits r.text type' = true
    · exact ⟨r, hscan, htype, hfits, rfl⟩
    · rw [if_neg hfits] at hguard
      cases hguard
  · rintro ⟨r, hscan, htype, hfits, rfl⟩
    exact ⟨r, hscan, type, htype, (), by rw [if_pos hfits], rfl, rfl⟩

/-! ## The language of numbers -/

/-- The word is a number of the given parts, text and type. -/
structure Literal (word : List Char) (text : String) (type : BaseType) (p : Parts) : Prop where
  wellFormed : p.WellFormed
  spelling : p.spelling = word
  selected : p.type = type
  inRange : p.value < limit type
  digits : text = String.ofList p.digits

theorem read?_eq_some_iff_literal {word : List Char}
    (hdigit : word.head?.map Char.isDigit = some true) {text : String} {type : BaseType} :
    read? word = some (text, type) ↔ ∃ p, Literal word text type p := by
  rw [read?_eq_some_iff]
  constructor
  · rintro ⟨r, hscan, htype, hfits, rfl⟩
    obtain ⟨p, hp, rfl, rfl⟩ := scan_eq_some_iff.mp hscan
    obtain ⟨hunsigned, rfl⟩ := Parts.type?_reading_eq_some.mp htype
    rw [Parts.text_reading] at hfits
    have hwell : p.WellFormed := ⟨hp.whole_ne_nil hdigit, hp.whole_digits, hp.decimals_digits,
      hp.suffix_mem, hunsigned⟩
    exact ⟨p, hwell, rfl, rfl, hwell.fits_iff.mp hfits, by rw [Parts.text_reading]⟩
  · rintro ⟨p, hwell, rfl, rfl, hrange, rfl⟩
    refine ⟨p.reading, hwell.scannable.scan_spelling,
      Parts.type?_reading_eq_some.mpr ⟨hwell.unsigned_whole, rfl⟩, ?_, ?_⟩
    · rw [Parts.text_reading]
      exact hwell.fits_iff.mpr hrange
    · rw [Parts.text_reading]

theorem classify_of_digit {word : List Char} (hdigit : word.head?.map Char.isDigit = some true) :
    Word.classify word =
      match read? word with
      | some (text, type) => .ok (.number text type)
      | none => .error (.malformedNumber (String.ofList word)) := by
  rw [Word.classify, hdigit]
  rfl

/-- Of the words that start with a digit, exactly those are numbers that are written as such and are
small enough for the type that point and letters select. The token keeps the digits, which denote
the same number; any other such word is refused as a whole. A floating number is small enough
exactly if it is rounded to a finite value, and its digits are read as that value. -/
theorem numbers_are_exactly_the_literals (word : List Char)
    (hdigit : word.head?.map Char.isDigit = some true) :
    (∀ text type, Word.classify word = .ok (.number text type) ↔ ∃ p, Literal word text type p) ∧
    (∀ text type p, Literal word text type p → Text.denoted text.toList = p.value) ∧
    ((∀ text type p, ¬ Literal word text type p) →
      Word.classify word = .error (.malformedNumber (String.ofList word))) ∧
    (∀ text p, Literal word text .f32 p →
      (FloatFormat.single.read text.toList).bind Rounded.value? =
        some (FloatFormat.single.nearest p.value)) ∧
    (∀ text p, Literal word text .f64 p →
      (FloatFormat.double.read text.toList).bind Rounded.value? =
        some (FloatFormat.double.nearest p.value)) ∧
    ∀ x : ℚ, 0 ≤ x →
      (x < limit .f32 ↔ FloatFormat.single.nearest x < 2 ^ 128) ∧
      (x < limit .f64 ↔ FloatFormat.double.nearest x < 2 ^ 1024) := by
  have hsingle : ∀ x : ℚ, 0 ≤ x →
      (x < limit .f32 ↔ FloatFormat.single.nearest x < 2 ^ 128) := fun x hx =>
    (FloatFormat.single.nearest_lt_pow_iff hx rfl rfl).symm
  have hdouble : ∀ x : ℚ, 0 ≤ x →
      (x < limit .f64 ↔ FloatFormat.double.nearest x < 2 ^ 1024) := fun x hx =>
    (FloatFormat.double.nearest_lt_pow_iff hx rfl rfl).symm
  rw [classify_of_digit hdigit]
  refine ⟨fun text type => ?_, fun text type p hp => ?_, fun hnone => ?_, fun text p hp => ?_,
    fun text p hp => ?_, fun x hx => ⟨hsingle x hx, hdouble x hx⟩⟩
  · rw [← read?_eq_some_iff_literal hdigit]
    cases read? word with
    | none => simp
    | some result => simp [Prod.ext_iff]
  · rw [hp.digits, String.toList_ofList, hp.wellFormed.denoted_digits]
  · have hread : read? word = none := by
      rw [Option.eq_none_iff_forall_ne_some]
      rintro ⟨text, type⟩ hread
      obtain ⟨p, hp⟩ := (read?_eq_some_iff_literal hdigit).mp hread
      exact hnone text type p hp
    rw [hread]
  · rw [hp.digits, String.toList_ofList, hp.wellFormed.value?_read]
    exact if_pos ((hsingle _ p.zero_le_value).mp hp.inRange)
  · rw [hp.digits, String.toList_ofList, hp.wellFormed.value?_read]
    exact if_pos ((hdouble _ p.zero_le_value).mp hp.inRange)

/-- The largest numbers of 32 bits with one digit behind the point, and the least one that is
refused. -/
theorem single_numbers_end_at_midpoint :
    Word.classify "340282356779733661637539395458142568447.9".toList =
        .ok (.number "340282356779733661637539395458142568447.9" .f32) ∧
      Word.classify "340282356779733661637539395458142568448.".toList =
        .error (.malformedNumber "340282356779733661637539395458142568448.") := by
  constructor
  · obtain ⟨hnumber, -⟩ := numbers_are_exactly_the_literals
      "340282356779733661637539395458142568447.9".toList (by decide)
    refine (hnumber _ _).mpr
      ⟨⟨"340282356779733661637539395458142568447".toList, some ['9'], []⟩, ?_⟩
    have hdigits : ∀ {digits : List Char}, digits.all Char.isDigit = true →
        ∀ c ∈ digits, c.isDigit := List.all_eq_true.mp
    have hwell : Parts.WellFormed
        ⟨"340282356779733661637539395458142568447".toList, some ['9'], []⟩ :=
      ⟨by decide, hdigits (by decide), hdigits (by decide), by decide, by decide⟩
    exact ⟨hwell, by decide, by decide, hwell.fits_iff.mp (by decide +kernel), by decide⟩
  · have hdigit : "340282356779733661637539395458142568448.".toList.head?.map Char.isDigit =
        some true := by decide
    obtain ⟨-, -, hrefused, -⟩ := numbers_are_exactly_the_literals
      "340282356779733661637539395458142568448.".toList hdigit
    rw [hrefused, String.ofList_toList]
    intro text type p hp
    have hread := (read?_eq_some_iff_literal hdigit).mpr ⟨p, hp⟩
    have hnone : read? "340282356779733661637539395458142568448.".toList = none := by
      decide +kernel
    rw [hnone] at hread
    cases hread

end Number

end Wattle
