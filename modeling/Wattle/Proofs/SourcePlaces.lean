import Wattle.Source.Lines
import Wattle.Source.Location

/-!
# Lines and columns in 32 bits

The places of a text are told apart by their lines and columns if these can be counted in 32 bits.
In a text that is too long for that, counting goes on at zero behind the largest number.
-/

namespace Wattle

/-! ## Counting -/

/-- Small numbers are counted as they are. -/
theorem toNat_ordinal {index : Nat} (h : index + 1 < UInt32.size) :
    (ordinal index).toNat = index + 1 := by
  rw [ordinal, UInt32.toNat_add, UInt32.toNat_ofNat']
  change (index % UInt32.size + 1) % UInt32.size = index + 1
  rw [Nat.mod_eq_of_lt (Nat.lt_of_succ_lt h), Nat.mod_eq_of_lt h]

/-- Counting further moves on by as much, whether or not it goes beyond the largest number. -/
theorem ordinal_add (index count : Nat) :
    ordinal (index + count) = ordinal index + .ofNat count := by
  rw [ordinal, ordinal, UInt32.ofNat_add, UInt32.add_assoc, UInt32.add_assoc,
    UInt32.add_comm (.ofNat count)]

namespace Location

/-- The order in which a text is read. -/
instance : LT Location :=
  ⟨fun l m => l.line < m.line ∨ l.line = m.line ∧ l.column < m.column⟩

instance : LE Location :=
  ⟨fun l m => l.line < m.line ∨ l.line = m.line ∧ l.column ≤ m.column⟩

theorem lt_iff {l m : Location} :
    l < m ↔ l.line.toNat < m.line.toNat ∨
      l.line.toNat = m.line.toNat ∧ l.column.toNat < m.column.toNat := by
  rw [UInt32.toNat_inj]
  exact Iff.rfl

theorem le_iff {l m : Location} :
    l ≤ m ↔ l.line.toNat < m.line.toNat ∨
      l.line.toNat = m.line.toNat ∧ l.column.toNat ≤ m.column.toNat := by
  rw [UInt32.toNat_inj]
  exact Iff.rfl

end Location

/-! ## Texts whose places are told apart -/

/-- The lines of a text can be counted in 32 bits, and so can the columns of each line, that of its
end included. -/
structure Addressable (rows : List (List Char)) : Prop where
  lines : rows.length < UInt32.size
  columns : ∀ row ∈ rows, row.length + 1 < UInt32.size

namespace Addressable

variable {rows : List (List Char)} {row : List Char} {index place : Nat}

theorem toNat_line (h : Addressable rows) (hindex : index < rows.length) :
    (ordinal index).toNat = index + 1 :=
  toNat_ordinal (Nat.lt_of_le_of_lt hindex h.lines)

theorem toNat_column (h : Addressable rows) (hrow : rows[index]? = some row)
    (hplace : place ≤ row.length) : (ordinal place).toNat = place + 1 := by
  have hcolumns := h.columns row (List.mem_of_getElem? hrow)
  exact toNat_ordinal (by omega)

end Addressable

theorem length_lines_count_le (text : List Char) : (lines text).length ≤ text.length := by
  fun_induction lines text with
  | case1 => exact Nat.le_refl _
  | case2 rest ih => exact Nat.succ_le_succ ih
  | case3 rest ih => exact Nat.le_succ_of_le (Nat.succ_le_succ ih)
  | case4 c rest _ _ hnone ih => simp
  | case5 c rest _ _ line others hlines ih =>
      rw [hlines] at ih
      exact Nat.le_succ_of_le ih

theorem length_lines_le (text : List Char) : (lines text).flatten.length ≤ text.length := by
  fun_induction lines text with
  | case1 => exact Nat.le_refl _
  | case2 rest ih => exact Nat.le_succ_of_le ih
  | case3 rest ih => exact Nat.le_succ_of_le (Nat.le_succ_of_le ih)
  | case4 c rest _ _ hnone ih => simp
  | case5 c rest _ _ line others hlines ih =>
      rw [hlines] at ih
      simp only [List.flatten_cons, List.length_append, List.length_cons] at ih ⊢
      omega

/-- A text of fewer than `2 ^ 32 - 1` characters is short enough, however it is divided. -/
theorem addressable_of_length {source : String} (h : source.length < UInt32.size - 1) :
    Addressable (lines source.toList) := by
  have hcount := length_lines_count_le source.toList
  have hflat := length_lines_le source.toList
  rw [String.length_toList] at hcount hflat
  constructor
  · omega
  · intro row hrow
    have hlength := (List.sublist_flatten_of_mem hrow).length_le
    omega

end Wattle
