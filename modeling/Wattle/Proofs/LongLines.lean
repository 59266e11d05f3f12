import Wattle.Proofs.SourcePlaces
import Wattle.Proofs.SpelledTokens

/-!
# Lines beyond the last column

Counting columns starts over in a line that is too long. What stands far enough behind the rest of
such a line is read with the places that it would have near the beginning, so two tokens of one
text can have the same place.
-/

namespace Wattle

/-- Counting is in step again after as many characters as there are columns. -/
theorem ordinal_size_add (index : Nat) : ordinal (UInt32.size + index) = ordinal index := by
  have hturn : UInt32.ofNat UInt32.size = 0 := rfl
  rw [Nat.add_comm, ordinal_add, hturn, UInt32.add_zero]

namespace Lexer

/-- The piece, if the line has `count` more characters in front. -/
def Piece.moved (count : Nat) : Piece → Piece
  | .word start text => .word (count + start) text
  | .mark start m => .mark (count + start) m

theorem prependChar_moved (count index : Nat) (c : Char) (ps : List Piece) :
    prependChar (count + index) c (ps.map (Piece.moved count)) =
      (prependChar index c ps).map (Piece.moved count) := by
  match ps with
  | [] => rfl
  | .mark _ _ :: _ => rfl
  | .word next text :: others =>
      simp only [List.map_cons, Piece.moved, prependChar, Nat.add_assoc, Nat.add_left_cancel_iff]
      split <;> rfl

theorem pieces_moved (count index : Nat) (row : List Char) :
    pieces (count + index) row = (pieces index row).map (Piece.moved count) := by
  fun_induction pieces index row with
  | case1 => rfl
  | case2 index c hblank => rw [pieces, if_pos hblank]; rfl
  | case3 index c hblank m hm => rw [pieces, if_neg hblank, hm]; rfl
  | case4 index c hblank hm => rw [pieces, if_neg hblank, hm]; rfl
  | case5 index c d rest hblank ih => rw [pieces, if_pos hblank, Nat.add_assoc, ih]
  | case6 index c d rest hblank m hm ihTwo ihOne =>
      rw [pieces, if_neg hblank, hm]
      simp only [Nat.add_assoc, ihTwo, ihOne, List.map_cons, Piece.moved]
      split <;> rfl
  | case7 index c d rest hblank hm ih =>
      rw [pieces, if_neg hblank, hm]
      simp only [Nat.add_assoc, ih, prependChar_moved]

/-- A piece makes the same token again after as many characters as there are columns. -/
theorem tokenOf_moved (line : UInt32) (p : Piece) :
    tokenOf line (p.moved UInt32.size) = tokenOf line p := by
  cases p with
  | mark start m =>
      simp only [Piece.moved, tokenOf, Span.ofIndices, Nat.add_assoc, ordinal_size_add]
  | word start text =>
      simp only [Piece.moved, tokenOf, Span.ofIndices, Nat.add_assoc, ordinal_size_add]

theorem mapM_tokenOf_size_add (line : UInt32) (index : Nat) (row : List Char) :
    (pieces (UInt32.size + index) row).mapM (tokenOf line) =
      (pieces index row).mapM (tokenOf line) := by
  rw [pieces_moved]
  induction pieces index row with
  | nil => rfl
  | cons p ps ih => rw [List.map_cons, List.mapM_cons, List.mapM_cons, ih, tokenOf_moved]

theorem pieces_replicate (index count : Nat) (row : List Char) :
    pieces index (List.replicate count ' ' ++ row) = pieces (index + count) row := by
  induction count generalizing index with
  | zero => rfl
  | succ count ih =>
      rw [List.replicate_succ, List.cons_append, pieces_blank index (by decide), ih,
        Nat.add_assoc, Nat.add_comm 1]

/-- What stands in front of blanks, and what stands behind them, is read by itself. -/
theorem pieces_apart (index count : Nat) (front back : List Char) :
    pieces index (front ++ (List.replicate (count + 1) ' ' ++ back)) =
      pieces index front ++ pieces (index + front.length + (count + 1)) back := by
  rw [List.replicate_succ, List.cons_append, pieces_append_blank index front _ (by decide),
    pieces_replicate, Nat.add_assoc _ 1, Nat.add_comm 1]

end Lexer

theorem lines_of_not_mem {row : List Char} (hnonempty : row ≠ []) (h : '\n' ∉ row) :
    lines row = [row] := by
  induction row with
  | nil => exact absurd rfl hnonempty
  | cons c rest ih =>
      rw [List.mem_cons, not_or] at h
      rw [lines_cons (Ne.symm h.1) fun _ hhead => h.2 (List.mem_of_head? hhead)]
      by_cases hrest : rest = []
      · rw [hrest]
        rfl
      · rw [ih hrest h.2]
        rfl

open Lexer

/-- A line without a comment is read by itself. -/
theorem tokenize_of_plain {row : List Char} (hnonempty : row ≠ [])
    (hplain : ∀ c ∈ row, c ≠ '/' ∧ c ≠ '\n') :
    tokenize (.ofList row) = do
      let tokens ← (pieces 0 row).mapM (tokenOf 1)
      return tokens ++ [.endAt ⟨1, ordinal row.length⟩] := by
  have hlines : lines row = [row] := lines_of_not_mem hnonempty fun h => (hplain _ h).2 rfl
  have hcut : cutComment row = row := cutComment_of_not_mem fun h => (hplain _ h).1 rfl
  have hfinish : endOf [row] = ⟨1, ordinal row.length⟩ := rfl
  have hfirst : ordinal 0 = 1 := rfl
  have hbelow : (.ok [] : Except LexError (List Token)) = pure [] := rfl
  simp only [tokenize, String.toList_ofList, hlines, lexLines, lexLine, hcut, hfinish, hfirst,
    hbelow, bind_assoc, pure_bind, List.append_nil]

/-- A line in which `back` stands behind `front`, with blanks between the two: as many as it takes
to have counted all columns once and to be at the index `place` again. -/
def longLine (front back : List Char) (place : Nat) : String :=
  .ofList (front ++ (List.replicate (UInt32.size + place - front.length) ' ' ++ back))

/-- A long line is read as if `back` began at the index `place`, over what stands there. -/
theorem tokenize_longLine {front back : List Char} {place : Nat}
    (hfront : front.length < UInt32.size + place)
    (hplain : ∀ c ∈ front ++ back, c ≠ '/' ∧ c ≠ '\n') :
    tokenize (longLine front back place) = do
      let before ← (pieces 0 front).mapM (tokenOf 1)
      let behind ← (pieces place back).mapM (tokenOf 1)
      return before ++ behind ++ [.endAt ⟨1, ordinal (place + back.length)⟩] := by
  obtain ⟨count, hcount⟩ : ∃ count, UInt32.size + place - front.length = count + 1 :=
    ⟨UInt32.size + place - front.length - 1, by omega⟩
  rw [longLine, hcount]
  generalize hrow : front ++ (List.replicate (count + 1) ' ' ++ back) = row
  have hlength : row.length = UInt32.size + (place + back.length) := by
    rw [← hrow, List.length_append, List.length_append, List.length_replicate]
    omega
  have hother : ∀ c ∈ row, c ≠ '/' ∧ c ≠ '\n' := by
    intro c hc
    rw [← hrow, List.mem_append, List.mem_append] at hc
    rcases hc with hc | hc | hc
    · exact hplain c (List.mem_append_left _ hc)
    · rw [List.eq_of_mem_replicate hc]
      decide
    · exact hplain c (List.mem_append_right _ hc)
  have hpieces : pieces 0 row = pieces 0 front ++ pieces (UInt32.size + place) back := by
    have hplace : 0 + front.length + (count + 1) = UInt32.size + place := by omega
    rw [← hrow, pieces_apart, hplace]
  have hnonempty : row ≠ [] := List.ne_nil_of_length_pos (by omega)
  rw [tokenize_of_plain hnonempty hother, hpieces, hlength, ordinal_size_add]
  simp only [List.mapM_append, mapM_tokenOf_size_add, bind_assoc, pure_bind]

end Wattle
