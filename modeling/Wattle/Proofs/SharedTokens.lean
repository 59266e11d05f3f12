import Wattle.Proofs.ParserLayout
import Wattle.Proofs.Prediction

/-!
# Runs on tokens that are shared

Two lists of tokens agree on a stretch. A parser that decides by the next token only does the same
on both, as long as it stays inside the stretch. The bounds of loops may differ, for they depend on
how many tokens are still to come; but where every round reads a token, no bound is reached. This
module states what it means to run alike, and how single steps do. The two lists may also be one
and the same, and then what is compared is two parsers.
-/

namespace Wattle

/-- No two tokens stand at the same place, and the last one is the only end mark. -/
structure WellEnded (tokens : List Token) : Prop where
  distinct : (tokens.map Token.span).Nodup
  ends : ∃ body stop, tokens = body ++ [stop] ∧ stop.kind = .endOfFile ∧
    ∀ t ∈ body, t.kind ≠ .endOfFile

/-- The token with this index is an end mark. -/
def EndsAt (tokens : List Token) (index : Nat) : Prop :=
  tokens[index]?.map Token.kind = some .endOfFile

theorem EndsAt.lt_length {tokens : List Token} {index : Nat} (h : EndsAt tokens index) :
    index < tokens.length := by
  obtain ⟨t, ht, -⟩ := Option.map_eq_some_iff.mp h
  exact (List.getElem?_eq_some_iff.mp ht).1

/-! ## Places by their index -/

namespace Cursor

variable {tokens : List Token} {index : Nat} {t : Token}

/-- The place in front of the token with the given index. -/
def seek (tokens : List Token) (index : Nat) : Cursor :=
  ⟨(tokens.take index).reverse, tokens.drop index⟩

theorem seek_position (c : Cursor) : seek c.tokens c.position = c := by
  rw [seek, Cursor.tokens, Cursor.position, ← List.length_reverse, List.take_left, List.drop_left,
    List.reverse_reverse]

@[simp] theorem tokens_seek (tokens : List Token) (index : Nat) :
    (seek tokens index).tokens = tokens := by
  simp [seek, Cursor.tokens]

theorem position_seek (h : index ≤ tokens.length) : (seek tokens index).position = index := by
  simp [seek, Cursor.position, h]

theorem seek_inj {other : Nat} (h : seek tokens index = seek tokens other)
    (hle : index ≤ tokens.length) (hle' : other ≤ tokens.length) : index = other := by
  rw [← position_seek hle, h, position_seek hle']

theorem peek_seek (h : tokens[index]? = some t) : (seek tokens index).peek = t := by
  rw [Cursor.peek, seek, List.drop_eq_getElem?_toList_append, h]
  rfl

theorem advance_seek (h : tokens[index]? = some t) (hkind : t.kind ≠ .endOfFile) :
    (seek tokens index).advance = seek tokens (index + 1) := by
  rw [Cursor.advance, seek, List.drop_eq_getElem?_toList_append, h, seek, List.take_add_one, h]
  simp [hkind]

theorem advance_seek_end (h : tokens.length ≤ index) :
    (seek tokens index).advance = seek tokens index := by
  rw [Cursor.advance, seek, List.drop_eq_nil_of_le h]

theorem previous?_seek (h : index < tokens.length) :
    (seek tokens (index + 1)).previous? = tokens[index]? := by
  simp [Cursor.previous?, seek, List.head?_reverse, List.getLast?_take, h]

end Cursor

/-- Two lists of tokens that agree from the index `first` through the index `limit`. Only if they
are the same list, the stretch may reach behind the last token. If the window is `endless`, then
failures are compared also where no end mark is ahead. -/
structure Window where
  tokens : List Token
  others : List Token
  first : Nat
  limit : Nat
  endless : Prop
  first_le : first ≤ limit
  inside : limit < tokens.length ∨ others = tokens
  agree : ∀ index, first ≤ index → index ≤ limit → others[index]? = tokens[index]?

namespace Window

variable {w : Window} {i : Nat}

/-- A list beside itself. -/
def self (tokens : List Token) (endless : Prop) : Window where
  tokens := tokens
  others := tokens
  first := 0
  limit := tokens.length
  endless := endless
  first_le := Nat.zero_le _
  inside := .inr rfl
  agree _ _ _ := rfl

/-- The state in front of a token of the first list. -/
def here (w : Window) (index id : Nat) : ParseState :=
  ⟨.seek w.tokens index, id⟩

/-- The state at the same place of the second list. -/
def there (w : Window) (index id : Nat) : ParseState :=
  ⟨.seek w.others index, id⟩

/-- The token that is shown at an index. -/
def shown (w : Window) (index : Nat) : Token :=
  (Cursor.seek w.tokens index).peek

theorem limit_lt_others (h : w.limit < w.tokens.length) : w.limit < w.others.length := by
  have hsome := w.agree w.limit w.first_le (Nat.le_refl _)
  rw [List.getElem?_eq_getElem h] at hsome
  exact (List.getElem?_eq_some_iff.mp hsome).1

theorem getElem?_shown (h : i < w.tokens.length) : w.tokens[i]? = some (w.shown i) := by
  have hget := List.getElem?_eq_getElem h
  rw [shown, Cursor.peek_seek hget, hget]

/-- Behind the list, its last token is shown. -/
theorem exists_shown (h : i < w.tokens.length) {j : Nat} (hj : i ≤ j) :
    ∃ k, i ≤ k ∧ w.tokens[k]? = some (w.shown j) := by
  by_cases hlt : j < w.tokens.length
  · exact ⟨j, hj, getElem?_shown hlt⟩
  · have hlast := List.getElem?_eq_getElem (Nat.sub_one_lt_of_lt h)
    refine ⟨w.tokens.length - 1, by omega, ?_⟩
    rw [hlast, shown, Cursor.peek, Cursor.seek, List.drop_eq_nil_of_le (by omega),
      List.take_of_length_le (by omega), List.head?_reverse, List.getLast?_eq_getElem?, hlast]
    rfl

theorem shown_others (hfirst : w.first ≤ i) (hlimit : i ≤ w.limit) (h : i < w.tokens.length) :
    w.others[i]? = some (w.shown i) := by
  rw [w.agree i hfirst hlimit]
  exact getElem?_shown h

theorem peek_there (hfirst : w.first ≤ i) (hlimit : i ≤ w.limit) :
    (Cursor.seek w.others i).peek = w.shown i := by
  rcases w.inside with hlt | heq
  · exact Cursor.peek_seek (shown_others hfirst hlimit (Nat.lt_of_le_of_lt hlimit hlt))
  · rw [heq]
    rfl

/-- Behind the start, also the token read last is shared. -/
theorem endOr_there (hread : w.first < i ∨ w.tokens.length ≤ i) (hlimit : i ≤ w.limit)
    (fallback : Location) :
    (Cursor.seek w.others i).endOr fallback = (Cursor.seek w.tokens i).endOr fallback := by
  rcases w.inside with hlt | heq
  · have hlt' := limit_lt_others hlt
    obtain ⟨index, rfl⟩ : ∃ index, i = index + 1 := ⟨i - 1, by omega⟩
    rw [Cursor.endOr, Cursor.endOr, Cursor.previous?_seek (by omega),
      Cursor.previous?_seek (by omega), w.agree index (by omega) (by omega)]
  · rw [heq]

end Window

namespace Parser

variable {α β : Type} {w : Window} {i id least : Nat}

/-! ## Runs on lists that agree -/

/-- The index `j` is `least` tokens behind `i`, or at the end of the list. -/
abbrev Reaches (w : Window) (i least j : Nat) : Prop :=
  i ≤ j ∧ (i + least ≤ j ∨ w.tokens.length ≤ j)

/-- In front of the token `i`, the first bound is not reached before the end of the first list, and
the second one not before the lists differ, or not before the first one. -/
abbrev Ample (w : Window) (i bound bound' : Nat) : Prop :=
  w.tokens.length ≤ bound + i ∧
    (w.limit < w.tokens.length ∧ w.limit < bound' + i ∨ bound ≤ bound')

/-- A run can come from `i` to `j`: forward, and not past an end mark. -/
structure Comes (w : Window) (i least j : Nat) : Prop where
  reaches : Reaches w i least j
  inside : j ≤ w.tokens.length
  stays : ∀ stop, EndsAt w.tokens stop → i ≤ stop → j ≤ stop

/-- The failure counts: an end mark is ahead, or the window is endless and no bound was reached. -/
def Counts (w : Window) (i : Nat) (e : ParseError) : Prop :=
  (∃ stop, EndsAt w.tokens stop ∧ i ≤ stop) ∨ w.endless ∧ e.cause ≠ .endless

/-- Run in front of the token `i` of the first list, the parser `p` goes forward, by `least` tokens
or more if it succeeds. A failure that counts is at the token it has come to, and not by a bound.
Where `p` comes no further than the lists agree, the parser `p'` does the same at the same place of
the second list; for failures this asks for tokens at distinct places. -/
structure Tracks (w : Window) (i id least : Nat) (p p' : Parser α) : Prop where
  ok : ∀ {a t}, w.first ≤ i → i ≤ w.tokens.length → p (w.here i id) = .ok a t →
    ∃ j id', t = w.here j id' ∧ Comes w i least j ∧
      (j ≤ w.limit → p' (w.there i id) = .ok a (w.there j id'))
  error : ∀ {e t}, w.first ≤ i → i ≤ w.tokens.length → p (w.here i id) = .error e t →
    Counts w i e →
    ∃ j id', t = w.here j id' ∧ Comes w i 0 j ∧ e.found = w.shown j ∧ e.cause ≠ .endless ∧
      ((w.tokens.map Token.span).Nodup → j ≤ w.limit →
        p' (w.there i id) = .error e (w.there j id'))

namespace Comes

variable {j k : Nat}

theorem refl (h : i ≤ w.tokens.length) : Comes w i 0 i :=
  ⟨by omega, h, fun _ _ h => h⟩

theorem trans (h : Comes w i least j) (h' : Comes w j 0 k) : Comes w i least k := by
  have hfirst := h.reaches
  have hsecond := h'.reaches
  exact ⟨by omega, h'.inside, fun stop hstop hi => h'.stays stop hstop (h.stays stop hstop hi)⟩

theorem weaken {least' : Nat} (h : Comes w i least j) (hle : least' ≤ least) :
    Comes w i least' j := by
  have hreaches := h.reaches
  exact ⟨by omega, h.inside, h.stays⟩

end Comes

theorem Counts.behind {e : ParseError} {j : Nat} (h : Counts w i e) (hcomes : Comes w i least j) :
    Counts w j e := by
  rcases h with ⟨stop, hstop, hbefore⟩ | hendless
  · exact .inl ⟨stop, hstop, hcomes.stays stop hstop hbefore⟩
  · exact .inr hendless

namespace Tracks

variable {p p' q q' : Parser α} {f f' : α → Parser β}

theorem pure {a : α} : Tracks w i id 0 (Pure.pure a) (Pure.pure a) where
  ok := by
    rintro a t - hinside ⟨⟩
    exact ⟨i, id, rfl, .refl hinside, fun _ => rfl⟩
  error := by
    rintro e t - - ⟨⟩

theorem bind (hp : Tracks w i id least p p')
    (hf : ∀ a j id', Reaches w i least j → Tracks w j id' 0 (f a) (f' a)) :
    Tracks w i id least (p >>= f) (p' >>= f') where
  ok := by
    intro b u hfirst hinside hrun
    simp only [Bind.bind, EStateM.bind] at hrun ⊢
    cases hstep : p (w.here i id) with
    | error e t => simp [hstep] at hrun
    | ok a t =>
        rw [hstep] at hrun
        obtain ⟨j, id', rfl, hcomes, hsame⟩ := hp.ok hfirst hinside hstep
        have hforward := hcomes.reaches.1
        obtain ⟨k, id'', rfl, hcomes', hsame'⟩ :=
          (hf a j id' hcomes.reaches).ok (Nat.le_trans hfirst hforward) hcomes.inside hrun
        refine ⟨k, id'', rfl, hcomes.trans hcomes', fun hlimit => ?_⟩
        rw [hsame (Nat.le_trans hcomes'.reaches.1 hlimit)]
        exact hsame' hlimit
  error := by
    intro e u hfirst hinside hrun hcounts
    simp only [Bind.bind, EStateM.bind] at hrun ⊢
    cases hstep : p (w.here i id) with
    | error e' t =>
        rw [hstep] at hrun
        obtain ⟨rfl, rfl⟩ := EStateM.Result.error.inj hrun
        obtain ⟨j, id', rfl, hcomes, hfound, hcause, hsame⟩ :=
          hp.error hfirst hinside hstep hcounts
        refine ⟨j, id', rfl, hcomes, hfound, hcause, fun hdistinct hlimit => ?_⟩
        rw [hsame hdistinct hlimit]
    | ok a t =>
        rw [hstep] at hrun
        obtain ⟨j, id', rfl, hcomes, hsame⟩ := hp.ok hfirst hinside hstep
        have hforward := hcomes.reaches.1
        obtain ⟨k, id'', rfl, hcomes', hfound, hcause, hsame'⟩ :=
          (hf a j id' hcomes.reaches).error (Nat.le_trans hfirst hforward) hcomes.inside hrun
            (hcounts.behind hcomes)
        refine ⟨k, id'', rfl, (hcomes.weaken (Nat.zero_le _)).trans hcomes', hfound, hcause, ?_⟩
        intro hdistinct hlimit
        rw [hsame (Nat.le_trans hcomes'.reaches.1 hlimit)]
        exact hsame' hdistinct hlimit

theorem weaken {least' : Nat} (h : Tracks w i id least p p') (hle : least' ≤ least) :
    Tracks w i id least' p p' where
  ok hfirst hinside hrun := by
    obtain ⟨j, id', rfl, hcomes, hsame⟩ := h.ok hfirst hinside hrun
    exact ⟨j, id', rfl, hcomes.weaken hle, hsame⟩
  error := h.error

/-- How much is read does not matter. -/
theorem some (h : Tracks w i id least p p') : Tracks w i id 0 p p' :=
  h.weaken (Nat.zero_le _)

/-- Only runs behind the start of the window matter. -/
theorem since (h : w.first ≤ i → Tracks w i id least p p') : Tracks w i id least p p' :=
  ⟨fun hfirst => (h hfirst).ok hfirst, fun hfirst => (h hfirst).error hfirst⟩

/-- What happens behind the window does not matter. -/
theorem beyond (h : w.limit < i) (hp : Tracks w i id least p q) : Tracks w i id least p p' where
  ok hfirst hinside hrun := by
    obtain ⟨j, id', rfl, hcomes, -⟩ := hp.ok hfirst hinside hrun
    have hreaches := hcomes.reaches
    exact ⟨j, id', rfl, hcomes, fun hlimit => absurd hlimit (by omega)⟩
  error hfirst hinside hrun hcounts := by
    obtain ⟨j, id', rfl, hcomes, hfound, hcause, -⟩ := hp.error hfirst hinside hrun hcounts
    have hreaches := hcomes.reaches
    exact ⟨j, id', rfl, hcomes, hfound, hcause, fun _ hlimit => absurd hlimit (by omega)⟩

/-- At the end of the list there is no token left for which a bound could be missing. -/
theorem exhausted (h : w.tokens.length ≤ i) :
    Tracks w i id least (Parser.refuse .endless) p' where
  ok := by
    rintro a t - - ⟨⟩
  error := by
    rintro e t - - ⟨⟩ (⟨stop, hstop, hbefore⟩ | ⟨-, hcause⟩)
    · exact absurd (Nat.le_trans h hbefore) (Nat.not_le_of_lt hstop.lt_length)
    · exact absurd rfl hcause

/-- A bound that reaches behind the window is as good as one that allows another round. -/
theorem bounded (loop : Nat → Parser α) {bound bound' : Nat}
    (hbound : Ample w i (bound + 1) bound')
    (h : ∀ bound', Ample w i (bound + 1) (bound' + 1) →
      Tracks w i id least p (loop (bound' + 1))) :
    Tracks w i id least p (loop bound') := by
  cases bound' with
  | zero => exact beyond (by omega) (h 0 (by omega))
  | succ bound' => exact h bound' hbound

/-- Only the runs on the two states matter. -/
theorem congr (h : Tracks w i id least q q') (hp : p (w.here i id) = q (w.here i id))
    (hp' : w.first ≤ i → i ≤ w.limit → p' (w.there i id) = q' (w.there i id)) :
    Tracks w i id least p p' where
  ok hfirst hinside hrun := by
    obtain ⟨j, id', rfl, hcomes, hsame⟩ := h.ok hfirst hinside (hp ▸ hrun)
    refine ⟨j, id', rfl, hcomes, fun hlimit => ?_⟩
    rw [hp' hfirst (Nat.le_trans hcomes.reaches.1 hlimit), hsame hlimit]
  error hfirst hinside hrun hcounts := by
    obtain ⟨j, id', rfl, hcomes, hfound, hcause, hsame⟩ :=
      h.error hfirst hinside (hp ▸ hrun) hcounts
    refine ⟨j, id', rfl, hcomes, hfound, hcause, fun hdistinct hlimit => ?_⟩
    rw [hp' hfirst (Nat.le_trans hcomes.reaches.1 hlimit), hsame hdistinct hlimit]

/-! ## Steps that do not move -/

theorem refuse {cause : ParseCause} (h : cause ≠ .endless) :
    Tracks w i id least (Parser.refuse cause : Parser α) (Parser.refuse cause) where
  ok := by
    rintro a t - - ⟨⟩
  error := by
    rintro e t hfirst hinside ⟨⟩ -
    refine ⟨i, id, rfl, .refl hinside, rfl, h, fun _ hlimit => ?_⟩
    change EStateM.Result.error (⟨cause, (Cursor.seek w.others i).peek⟩ : ParseError) _ = _
    rw [Window.peek_there hfirst hlimit]
    rfl

theorem expecting (what : Expectation) :
    Tracks w i id least (Parser.expecting what : Parser α) (Parser.expecting what) :=
  refuse nofun

theorem peek {f f' : Token → Parser β}
    (h : Tracks w i id least (f (w.shown i)) (f' (w.shown i))) :
    Tracks w i id least (Parser.peek >>= f) (Parser.peek >>= f') := by
  refine h.congr rfl fun hfirst hlimit => ?_
  rw [← Window.peek_there hfirst hlimit]
  rfl

theorem next {kind : TokenKind} {f f' : Bool → Parser β}
    (hyes : (w.shown i).kind = kind → Tracks w i id least (f true) (f' true))
    (hno : (w.shown i).kind ≠ kind → Tracks w i id least (f false) (f' false)) :
    Tracks w i id least (Parser.next kind >>= f) (Parser.next kind >>= f') := by
  change Tracks w i id least (Parser.peek >>= fun t => f (decide (t.kind = kind)))
    (Parser.peek >>= fun t => f' (decide (t.kind = kind)))
  apply peek
  by_cases hkind : (w.shown i).kind = kind
  · rw [decide_eq_true hkind]
    exact hyes hkind
  · rw [decide_eq_false hkind]
    exact hno hkind

theorem newNode {span : Span} {f f' : Node → Parser β}
    (h : ∀ node id', Tracks w i id' least (f node) (f' node)) :
    Tracks w i id least (Parser.newNode span >>= f) (Parser.newNode span >>= f') :=
  ⟨(h ⟨id, span⟩ (id + 1)).ok, (h ⟨id, span⟩ (id + 1)).error⟩

/-- Behind at least one token, both states tell the same end of the token read last. -/
theorem get {f f' : ParseState → Parser β} (hread : Reaches w w.first 1 i)
    (h : ∀ s s' : ParseState,
      (∀ fallback, s'.cursor.endOr fallback = s.cursor.endOr fallback) →
        Tracks w i id least (f s) (f' s')) :
    Tracks w i id least (MonadState.get >>= f) (MonadState.get >>= f') := by
  have hrun : Tracks w i id least (f (w.here i id)) (f' (w.there i id)) := by
    by_cases hlimit : i ≤ w.limit
    · exact h _ _ (Window.endOr_there hread.2 hlimit)
    · exact (h _ _ fun _ => rfl).beyond (Nat.lt_of_not_le hlimit)
  exact hrun.congr rfl fun _ _ => rfl

theorem spanFrom {first : Token} {f f' : Span → Parser β} (hread : Reaches w w.first 1 i)
    (h : ∀ span, Tracks w i id least (f span) (f' span)) :
    Tracks w i id least (Parser.spanFrom first >>= f) (Parser.spanFrom first >>= f') := by
  have hspan : Tracks w i id least (MonadState.get >>= fun s => f (s.cursor.spanFrom first))
      (MonadState.get >>= fun s => f' (s.cursor.spanFrom first)) := by
    refine get hread fun s s' hstop => ?_
    rw [Cursor.spanFrom, Cursor.spanFrom, hstop]
    exact h _
  exact hspan.congr rfl fun _ _ => rfl

theorem nodeFrom {first : Token} {f f' : Node → Parser β} (hread : Reaches w w.first 1 i)
    (h : ∀ node id', Tracks w i id' least (f node) (f' node)) :
    Tracks w i id least (Parser.nodeFrom first >>= f) (Parser.nodeFrom first >>= f') := by
  have hnode : Tracks w i id least (Parser.spanFrom first >>= fun span => Parser.newNode span >>= f)
      (Parser.spanFrom first >>= fun span => Parser.newNode span >>= f') :=
    spanFrom hread fun span => newNode h
  exact hnode.congr rfl fun _ _ => rfl

/-- Bounds taken from the tokens to come are never reached. -/
theorem budget {f f' : Nat → Parser β}
    (h : ∀ bound bound', Ample w i bound bound' → Tracks w i id least (f bound) (f' bound')) :
    Tracks w i id least (Parser.budget >>= f) (Parser.budget >>= f') := by
  have hrun : Tracks w i id least (f ((w.here i id).cursor.rest.length + 1))
      (f' ((w.there i id).cursor.rest.length + 1)) := by
    apply h
    simp only [Window.here, Window.there, Cursor.seek, List.length_drop]
    rcases w.inside with hlt | heq
    · have hlt' := Window.limit_lt_others hlt
      omega
    · rw [heq]
      omega
  exact hrun.congr rfl fun _ _ => rfl

/-! ## Steps that read a token -/

theorem advance {f f' : Unit → Parser β} (hkind : (w.shown i).kind ≠ .endOfFile)
    (h : ∀ j id', Reaches w i 1 j → Tracks w j id' 0 (f ()) (f' ())) :
    Tracks w i id 1 (Parser.advance >>= f) (Parser.advance >>= f') := by
  have hstep : Tracks w i id 1 Parser.advance Parser.advance := by
    refine ⟨?_, by rintro e t - - ⟨⟩⟩
    rintro ⟨⟩ t hfirst hinside hrun
    obtain ⟨-, rfl⟩ := EStateM.Result.ok.inj hrun
    by_cases hlt : i < w.tokens.length
    · have hget := Window.getElem?_shown hlt
      refine ⟨i + 1, id, ?_, ⟨by omega, hlt, fun stop hstop hbefore => ?_⟩, fun hlimit => ?_⟩
      · simp only [Window.here, Cursor.advance_seek hget hkind]
      · rcases Nat.lt_or_eq_of_le hbefore with hbefore | rfl
        · exact hbefore
        · rw [EndsAt, hget] at hstop
          exact absurd (Option.some.inj hstop) hkind
      · have hget' := Window.shown_others hfirst (Nat.le_of_succ_le hlimit) hlt
        change EStateM.Result.ok () (⟨(Cursor.seek w.others i).advance, id⟩ : ParseState) = _
        rw [Cursor.advance_seek hget' hkind]
        rfl
    · have hend : w.tokens.length ≤ i := Nat.le_of_not_lt hlt
      refine ⟨i, id, ?_, ⟨by omega, hinside, fun _ _ hbefore => hbefore⟩, fun hlimit => ?_⟩
      · simp only [Window.here, Cursor.advance_seek_end hend]
      · have heq : w.others = w.tokens := w.inside.resolve_left (by omega)
        change EStateM.Result.ok () (⟨(Cursor.seek w.others i).advance, id⟩ : ParseState) = _
        rw [heq, Cursor.advance_seek_end hend, Window.there, heq]
  exact hstep.bind fun _ j id' hj => h j id' hj

end Tracks

/-- The parsers step over the next token, and then run alike. -/
structure Commits (w : Window) (i id : Nat) (p p' : Parser α) : Prop where
  kind : (w.shown i).kind ≠ .endOfFile
  rests : ∃ rest rest' : Parser α,
    p (w.here i id) = (Parser.advance >>= fun _ => rest) (w.here i id) ∧
    (w.first ≤ i → i ≤ w.limit →
      p' (w.there i id) = (Parser.advance >>= fun _ => rest') (w.there i id)) ∧
    ∀ j id', Reaches w i 1 j → Tracks w j id' 0 rest rest'

namespace Commits

variable {p p' : Parser α} {f f' : α → Parser β}

theorem tracks (h : Commits w i id p p') : Tracks w i id 1 p p' := by
  obtain ⟨rest, rest', hp, hp', hrest⟩ := h.rests
  have hmoved : Tracks w i id 1 (Parser.advance >>= fun _ => rest)
      (Parser.advance >>= fun _ => rest') := .advance h.kind hrest
  exact hmoved.congr hp hp'

theorem peek {f f' : Token → Parser β} (h : Commits w i id (f (w.shown i)) (f' (w.shown i))) :
    Commits w i id (Parser.peek >>= f) (Parser.peek >>= f') := by
  obtain ⟨rest, rest', hp, hp', hrest⟩ := h.rests
  refine ⟨h.kind, rest, rest', hp, fun hfirst hlimit => ?_, hrest⟩
  rw [← hp' hfirst hlimit, ← Window.peek_there hfirst hlimit]
  rfl

theorem advance {f f' : Unit → Parser β} (hkind : (w.shown i).kind ≠ .endOfFile)
    (h : ∀ j id', Reaches w i 1 j → Tracks w j id' 0 (f ()) (f' ())) :
    Commits w i id (Parser.advance >>= f) (Parser.advance >>= f') :=
  ⟨hkind, f (), f' (), rfl, fun _ _ => rfl, h⟩

/-- A reading function that takes the next token. -/
theorem takes {g : Cursor → Except ParseError (α × Cursor)} {a : α}
    (hkind : (w.shown i).kind ≠ .endOfFile)
    (hg : ∀ c : Cursor, c.peek = w.shown i → g c = .ok (a, c.advance))
    (h : ∀ j id', Reaches w i 1 j → Tracks w j id' 0 (f a) (f' a)) :
    Commits w i id (Parser.reading g >>= f) (Parser.reading g >>= f') := by
  have hstep : ∀ {s : ParseState} {h : α → Parser β}, s.cursor.peek = w.shown i →
      (Parser.reading g >>= h) s = (Parser.advance >>= fun _ => h a) s := by
    intro s h hs
    change EStateM.bind (Parser.reading g) h s = _
    rw [EStateM.bind, Parser.reading, hg s.cursor hs]
    rfl
  exact ⟨hkind, f a, f' a, hstep rfl,
    fun hfirst hlimit => hstep (Window.peek_there hfirst hlimit), h⟩

theorem punct {mark : Punct} {context : String} {f f' : Unit → Parser β}
    (hkind : (w.shown i).kind = .punct mark)
    (h : ∀ j id', Reaches w i 1 j → Tracks w j id' 0 (f ()) (f' ())) :
    Commits w i id (Parser.punct mark context >>= f) (Parser.punct mark context >>= f') := by
  simp only [Parser.punct, bind_assoc, pure_bind]
  refine takes (a := w.shown i) (by simp [hkind]) (fun c hc => ?_) h
  rw [Cursor.expectPunct, hc, if_pos hkind]

theorem keyword {word : Keyword} {context : String} {f f' : Unit → Parser β}
    (hkind : (w.shown i).kind = .keyword word)
    (h : ∀ j id', Reaches w i 1 j → Tracks w j id' 0 (f ()) (f' ())) :
    Commits w i id (Parser.keyword word context >>= f) (Parser.keyword word context >>= f') := by
  simp only [Parser.keyword, bind_assoc, pure_bind]
  refine takes (a := w.shown i) (by simp [hkind]) (fun c hc => ?_) h
  rw [Cursor.expectKeyword, hc, if_pos hkind]

theorem identifier {name context : String} {f f' : String → Parser β}
    (hkind : (w.shown i).kind = .identifier name)
    (h : ∀ j id', Reaches w i 1 j → Tracks w j id' 0 (f name) (f' name)) :
    Commits w i id (Parser.identifier context >>= f) (Parser.identifier context >>= f') := by
  apply takes (by simp [hkind]) _ h
  intro c hc
  rw [Cursor.expectIdentifier, hc, hkind]

end Commits

namespace Tracks

variable {p p' : Parser α} {f f' : α → Parser β}

/-- A reading function that refuses the next token. -/
theorem rejects {g : Cursor → Except ParseError (α × Cursor)} (what : Expectation)
    (hg : ∀ c : Cursor, c.peek = w.shown i → g c = .error (c.unexpected what)) :
    Tracks w i id least (Parser.reading g >>= f) (Parser.reading g >>= f') := by
  have hstop : ∀ {s : ParseState} {h : α → Parser β}, s.cursor.peek = w.shown i →
      (Parser.reading g >>= h) s = Parser.expecting what s := by
    intro s h hs
    change EStateM.bind (Parser.reading g) h s = _
    rw [EStateM.bind, Parser.reading, hg s.cursor hs]
    rfl
  have hrefused : Tracks w i id least (Parser.expecting what : Parser β)
      (Parser.expecting what) := expecting what
  exact hrefused.congr (hstop rfl) fun hfirst hlimit => hstop (Window.peek_there hfirst hlimit)

theorem otherPunct {mark : Punct} {context : String} {f f' : Unit → Parser β}
    (hkind : (w.shown i).kind ≠ .punct mark) :
    Tracks w i id least (Parser.punct mark context >>= f) (Parser.punct mark context >>= f') := by
  simp only [Parser.punct, bind_assoc, pure_bind]
  apply rejects (.punct mark context)
  intro c hc
  rw [Cursor.expectPunct, hc, if_neg hkind]

theorem punct {mark : Punct} {context : String} {f f' : Unit → Parser β}
    (h : ∀ j id', Reaches w i 1 j → Tracks w j id' 0 (f ()) (f' ())) :
    Tracks w i id 1 (Parser.punct mark context >>= f) (Parser.punct mark context >>= f') := by
  by_cases hkind : (w.shown i).kind = .punct mark
  · exact (Commits.punct hkind h).tracks
  · exact otherPunct hkind

theorem keyword {word : Keyword} {context : String} {f f' : Unit → Parser β}
    (h : ∀ j id', Reaches w i 1 j → Tracks w j id' 0 (f ()) (f' ())) :
    Tracks w i id 1 (Parser.keyword word context >>= f) (Parser.keyword word context >>= f') := by
  by_cases hkind : (w.shown i).kind = .keyword word
  · exact (Commits.keyword hkind h).tracks
  · simp only [Parser.keyword, bind_assoc, pure_bind]
    apply rejects (.keyword word context)
    intro c hc
    rw [Cursor.expectKeyword, hc, if_neg hkind]

theorem noIdentifier {context : String} {f f' : String → Parser β}
    (hkind : ∀ name, (w.shown i).kind ≠ .identifier name) :
    Tracks w i id least (Parser.identifier context >>= f) (Parser.identifier context >>= f') := by
  apply rejects (.identifier context)
  intro c hc
  rw [Cursor.expectIdentifier, hc]
  split
  · next name hname => exact absurd hname (hkind name)
  · rfl

theorem identifier {context : String} {f f' : String → Parser β}
    (h : ∀ name j id', Reaches w i 1 j → Tracks w j id' 0 (f name) (f' name)) :
    Tracks w i id 1 (Parser.identifier context >>= f) (Parser.identifier context >>= f') := by
  by_cases hkind : ∃ name, (w.shown i).kind = .identifier name
  · obtain ⟨name, hname⟩ := hkind
    exact (Commits.identifier hname (h name)).tracks
  · exact noIdentifier (not_exists.mp hkind)

end Tracks

/-! ## Attempts -/

/-- The parser `p`, which may be given up where it fails at the token it started with. -/
def attempt (retry : Bool) (p : Parser α) (what : Expectation) : Parser α :=
  if retry then orElseHere p (expecting what) else p

section Attempts

variable {retry : Bool} {p : Parser α} {what : Expectation} {s t : ParseState}

theorem attempt_eq_ok {a : α} : attempt retry p what s = .ok a t ↔ p s = .ok a t := by
  cases retry with
  | false => rfl
  | true =>
      simp only [attempt, if_true, orElseHere]
      cases p s with
      | ok b u => rfl
      | error e u =>
          dsimp only
          split
          · change EStateM.Result.error _ _ = _ ↔ _
            simp
          · simp

theorem attempt_of_error {e : ParseError} (h : p s = .error e t)
    (hspan : e.found.span ≠ s.cursor.peek.span) : attempt retry p what s = .error e t := by
  cases retry with
  | false => exact h
  | true => simp only [attempt, if_true, orElseHere, h, if_neg hspan]

/-- A failure is that of the attempt, or the attempt failed at its first token and was given up. -/
theorem attempt_eq_error {e : ParseError} (h : attempt retry p what s = .error e t) :
    p s = .error e t ∨
      retry = true ∧ e = ⟨.expected what, s.cursor.peek⟩ ∧ t.cursor = s.cursor ∧
        ∃ e' u, p s = .error e' u ∧ e'.found.span = s.cursor.peek.span := by
  cases retry with
  | false => exact .inl h
  | true =>
      simp only [attempt, if_true, orElseHere] at h
      cases hp : p s with
      | ok b u => simp [hp] at h
      | error e' u =>
          rw [hp] at h
          dsimp only at h
          split at h
          · next hspan =>
            cases h
            exact .inr ⟨rfl, rfl, rfl, e', u, rfl, hspan⟩
          · exact .inl h

theorem attempt_expecting : attempt retry (expecting what) what = (expecting what : Parser α) := by
  cases retry with
  | false => rfl
  | true =>
      funext s
      exact orElseHere_of_refusesNext (.expecting what)

end Attempts

/-- In front of the last token or behind it, the parser fails by a bound only. -/
def Stuck (w : Window) (i id : Nat) (p : Parser α) : Prop :=
  w.tokens.length ≤ i + 1 → ∀ e t, p (w.here i id) = .error e t → e.cause = .endless

/-- A failure is behind the token that was stepped over. -/
theorem Commits.error_behind {p p' : Parser α} (h : Commits w i id p p') {e : ParseError}
    {t : ParseState} (hfirst : w.first ≤ i) (hlt : i + 1 < w.tokens.length)
    (hrun : p (w.here i id) = .error e t) (hcounts : Counts w i e) :
    ∃ j, i < j ∧ w.tokens[j]? = some e.found := by
  obtain ⟨rest, rest', hp, -, hrest⟩ := h.rests
  have hget := Window.getElem?_shown (Nat.lt_of_succ_lt hlt)
  have hnext : Counts w (i + 1) e := by
    rcases hcounts with ⟨stop, hstop, hbefore⟩ | hendless
    · rcases Nat.lt_or_eq_of_le hbefore with hbefore | rfl
      · exact .inl ⟨stop, hstop, hbefore⟩
      · rw [EndsAt, hget] at hstop
        exact absurd (Option.some.inj hstop) h.kind
    · exact .inr hendless
  have hmoved : rest (w.here (i + 1) id) = .error e t := by
    rw [← hrun, hp, Window.here, ← Cursor.advance_seek hget h.kind]
    rfl
  obtain ⟨j, -, -, hcomes, hfound, -, -⟩ :=
    (hrest (i + 1) id (by omega)).error (Nat.le_succ_of_le hfirst) (Nat.le_of_lt hlt) hmoved hnext
  rw [hfound]
  exact Window.exists_shown hlt hcomes.reaches.1

/-- Attempts at what steps over the next token run alike, whether they may be given up or not: at
distinct places, no failure is at the token they started with. -/
theorem Commits.attempt {p p' : Parser α} (h : Commits w i id p p') {retry : Bool} (retry' : Bool)
    (what : Expectation) (hretry : w.endless → retry = false)
    (hstuck : w.endless → Stuck w i id p) :
    Tracks w i id 1 (attempt retry p what) (attempt retry' p' what) where
  ok := by
    intro a t hfirst hinside hrun
    obtain ⟨j, id', rfl, hcomes, hsame⟩ := h.tracks.ok hfirst hinside (attempt_eq_ok.mp hrun)
    exact ⟨j, id', rfl, hcomes, fun hlimit => attempt_eq_ok.mpr (hsame hlimit)⟩
  error := by
    intro e t hfirst hinside hrun hcounts
    have hbehind : ∀ {e' u}, (w.tokens.map Token.span).Nodup → p (w.here i id) = .error e' u →
        Counts w i e' → e'.found.span ≠ (w.shown i).span := by
      intro e' u hdistinct hrun' hcounts' hspan
      by_cases hlt : i + 1 < w.tokens.length
      · have hget := Window.getElem?_shown (Nat.lt_of_succ_lt hlt)
        obtain ⟨k, hk, hfound⟩ := h.error_behind hfirst hlt hrun' hcounts'
        exact absurd ((span_eq_iff hdistinct hfound hget).mp hspan) (Nat.ne_of_gt hk)
      · rcases hcounts' with ⟨stop, hstop, hbefore⟩ | ⟨hendless, hcause⟩
        · have hstopped := hstop.lt_length
          obtain rfl : i = stop := by omega
          rw [EndsAt, Window.getElem?_shown hstopped] at hstop
          exact absurd (Option.some.inj hstop) h.kind
        · exact hcause (hstuck hendless (Nat.le_of_not_lt hlt) e' u hrun')
    rcases attempt_eq_error hrun with hrun' | ⟨hretried, rfl, ht, e', u, hrun', hspan⟩
    · obtain ⟨j, id', rfl, hcomes, hfound, hcause, hsame⟩ :=
        h.tracks.error hfirst hinside hrun' hcounts
      refine ⟨j, id', rfl, hcomes, hfound, hcause, fun hdistinct hlimit => ?_⟩
      apply attempt_of_error (hsame hdistinct hlimit)
      rw [Window.there, Window.peek_there hfirst (Nat.le_trans hcomes.reaches.1 hlimit)]
      exact hbehind hdistinct hrun' hcounts
    · have hended : ∃ stop, EndsAt w.tokens stop ∧ i ≤ stop := by
        refine hcounts.resolve_right fun hendless => ?_
        rw [hretry hendless.1] at hretried
        cases hretried
      refine ⟨i, t.nextId, ?_, .refl hinside, rfl, nofun, fun hdistinct _ => ?_⟩
      · rw [Window.here, ← show t.cursor = .seek w.tokens i from ht]
      · exact absurd hspan (hbehind hdistinct hrun' (.inl hended))

/-- From the index `i` on, both parsers run alike, and read at least one token. -/
def Onward (w : Window) (i : Nat) (p p' : Parser α) : Prop :=
  ∀ j id, i ≤ j → Tracks w j id 1 p p'

theorem Onward.mono {p p' : Parser α} {j : Nat} (h : Onward w i p p') (hle : i ≤ j) :
    Onward w j p p' :=
  fun k id hk => h k id (Nat.le_trans hle hk)

end Parser

end Wattle
