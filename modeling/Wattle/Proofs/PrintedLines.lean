import Wattle.Proofs.Assembly
import Wattle.Proofs.PrintedTrees

/-!
# Lines of printed trees

Every item that is reached from block to block has a line of its own, which shows by its indentation
how many blocks the item is in. A path says how an item is reached: the index in the body of the
outermost block comes first.
-/

namespace Wattle.Wasm

open Reader

namespace SExpr

/-- The item that a path leads to. -/
def itemAt? (e : SExpr) : List Nat → Option SExpr
  | [] => some e
  | i :: path => e.body[i]?.bind fun item => item.itemAt? path

/-- What stands on the first line of an item. -/
def opening : SExpr → String
  | block head _ => "(" ++ inlineAll head
  | e => e.inline

mutual

/-- The number of lines of an item. -/
def height : SExpr → Nat
  | atom _ | list _ => 1
  | block _ body => heightAll body + 2

def heightAll : List SExpr → Nat
  | [] => 0
  | e :: rest => e.height + heightAll rest

end

/-- The line on which the item at a path starts, where the outermost item starts on line zero. -/
def lineOf (e : SExpr) : List Nat → Nat
  | [] => 0
  | i :: path => heightAll (e.body.take i) + (e.body[i]?.elim 0 fun item => item.lineOf path) + 1

mutual

/-- The lines of an item at the given depth. -/
def rows (depth : Nat) : SExpr → List String
  | block head body =>
    (indent depth ++ ("(" ++ inlineAll head)) ::
      (rowsAll (depth + 1) body ++ [indent depth ++ ")"])
  | e => [indent depth ++ e.inline]

def rowsAll (depth : Nat) : List SExpr → List String
  | [] => []
  | e :: rest => e.rows depth ++ rowsAll depth rest

end

/-! ## The lines make up the text -/

mutual

theorem layout_eq_rows (depth : Nat) (e : SExpr) :
    (e.layout depth).toList = (e.rows depth).flatMap fun row => row.toList ++ ['\n'] := by
  match e with
  | .atom text => simp [layout, rows]
  | .list items => simp [layout, rows]
  | .block head body => simp [layout, rows, layoutAll_eq_rows (depth + 1) body]

theorem layoutAll_eq_rows (depth : Nat) (es : List SExpr) :
    (layoutAll depth es).toList = (rowsAll depth es).flatMap fun row => row.toList ++ ['\n'] := by
  match es with
  | [] => rfl
  | e :: rest =>
      rw [layoutAll, rowsAll, String.toList_append, List.flatMap_append, layout_eq_rows depth e,
        layoutAll_eq_rows depth rest]

end

mutual

theorem length_rows (depth : Nat) (e : SExpr) : (e.rows depth).length = e.height := by
  match e with
  | .atom text => rfl
  | .list items => rfl
  | .block head body => simp [rows, height, length_rowsAll (depth + 1) body]

theorem length_rowsAll (depth : Nat) (es : List SExpr) :
    (rowsAll depth es).length = heightAll es := by
  match es with
  | [] => rfl
  | e :: rest =>
      rw [rowsAll, heightAll, List.length_append, length_rows depth e, length_rowsAll depth rest]

end

theorem intercalate_feeds (texts : List (List Char)) :
    ['\n'].intercalate (texts ++ [[]]) = texts.flatMap (· ++ ['\n']) := by
  induction texts with
  | nil => rfl
  | cons text texts ih =>
      obtain ⟨next, others, hnext⟩ := List.exists_cons_of_ne_nil
        (List.append_ne_nil_of_right_ne_nil texts (List.cons_ne_nil [] []))
      rw [List.cons_append, hnext, List.intercalate_cons_cons, ← hnext, ih, List.flatMap_cons]

/-! ## No line is broken -/

theorem no_feed_in_plain {text : String} (h : Plain text) : '\n' ∉ text.toList := by
  cases h with
  | quoted inside h =>
      intro hmem
      have hinside : '\n' ∈ inside.toList := by simpa using hmem
      exact (h '\n' hinside).2.2 rfl
  | @words words hne h =>
      clear hne
      induction words with
      | nil => simp
      | cons word others ih =>
          have hword := (h word List.mem_cons_self).ne_of_mem (c := '\n') (by decide)
          have hothers := ih fun w hw => h w (List.mem_cons_of_mem _ hw)
          cases others with
          | nil => rwa [String.intercalate_singleton]
          | cons next others =>
              rw [String.intercalate_cons_cons, String.toList_append, String.toList_append,
                List.mem_append, List.mem_append, not_or, not_or]
              exact ⟨⟨hword, by decide⟩, hothers⟩

mutual

theorem no_feed_inline (e : SExpr) (h : ∀ text ∈ e.atoms, Plain text) : '\n' ∉ e.inline.toList := by
  match e with
  | .atom text => exact no_feed_in_plain (h text List.mem_cons_self)
  | .list items => simp [inline, no_feed_inlineAll items h]
  | .block head body =>
      obtain ⟨hhead, hbody⟩ := List.forall_mem_append.mp h
      simp [inline, no_feed_inlineAll head hhead, no_feed_inlineEach body hbody]

theorem no_feed_inlineAll (es : List SExpr) (h : ∀ text ∈ atomsAll es, Plain text) :
    '\n' ∉ (inlineAll es).toList := by
  match es with
  | [] => simp [inlineAll]
  | e :: rest =>
      obtain ⟨he, hrest⟩ := List.forall_mem_append.mp h
      simp [inlineAll, no_feed_inline e he, no_feed_inlineEach rest hrest]

theorem no_feed_inlineEach (es : List SExpr) (h : ∀ text ∈ atomsAll es, Plain text) :
    '\n' ∉ (inlineEach es).toList := by
  match es with
  | [] => simp [inlineEach]
  | e :: rest =>
      obtain ⟨he, hrest⟩ := List.forall_mem_append.mp h
      simp [inlineEach, no_feed_inline e he, no_feed_inlineEach rest hrest]

end

theorem no_feed_indent (depth : Nat) : '\n' ∉ (indent depth).toList := by
  simp [indent]

mutual

theorem no_feed_rows (depth : Nat) (e : SExpr) (h : ∀ text ∈ e.atoms, Plain text) :
    ∀ row ∈ e.rows depth, '\n' ∉ row.toList := by
  have hindent := no_feed_indent depth
  match e with
  | .atom text => simp [rows, hindent, no_feed_inline _ h]
  | .list items => simp [rows, hindent, no_feed_inline _ h]
  | .block head body =>
      obtain ⟨hhead, hbody⟩ := List.forall_mem_append.mp h
      intro row hrow
      rcases List.mem_cons.mp hrow with rfl | hrow
      · simp [hindent, no_feed_inlineAll head hhead]
      · rcases List.mem_append.mp hrow with hrow | hrow
        · exact no_feed_rowsAll (depth + 1) body hbody row hrow
        · rw [List.mem_singleton.mp hrow]
          simp [hindent]

theorem no_feed_rowsAll (depth : Nat) (es : List SExpr) (h : ∀ text ∈ atomsAll es, Plain text) :
    ∀ row ∈ rowsAll depth es, '\n' ∉ row.toList := by
  match es with
  | [] => nofun
  | e :: rest =>
      obtain ⟨he, hrest⟩ := List.forall_mem_append.mp h
      exact List.forall_mem_append.mpr ⟨no_feed_rows depth e he, no_feed_rowsAll depth rest hrest⟩

end

/-- Cut at its line feeds, the text of a tree gives its lines and an empty rest. -/
theorem splitOn_render {e : SExpr} (h : ∀ text ∈ e.atoms, Plain text) :
    e.render.toList.splitOn '\n' = (e.rows 0).map String.toList ++ [[]] := by
  have hrender : e.render.toList = ['\n'].intercalate ((e.rows 0).map String.toList ++ [[]]) := by
    rw [intercalate_feeds, List.flatMap_map, render, layout_eq_rows]
  rw [hrender]
  refine List.splitOn_intercalate '\n' ?_ (by simp)
  intro chars hchars
  rcases List.mem_append.mp hchars with hchars | hchars
  · obtain ⟨row, hrow, rfl⟩ := List.mem_map.mp hchars
    exact no_feed_rows 0 e h row hrow
  · rw [List.mem_singleton.mp hchars]
    exact List.not_mem_nil

/-! ## Items and their lines -/

theorem getElem?_rowsAll {depth : Nat} {es : List SExpr} {i line : Nat} {e : SExpr} {row : String}
    (he : es[i]? = some e) (hrow : (e.rows depth)[line]? = some row) :
    (rowsAll depth es)[heightAll (es.take i) + line]? = some row := by
  induction es generalizing i with
  | nil => cases he
  | cons first es ih =>
      cases i with
      | zero =>
          obtain rfl := Option.some.inj he
          have hlt := (List.getElem?_eq_some_iff.mp hrow).1
          rw [List.take_zero, heightAll, Nat.zero_add, rowsAll, List.getElem?_append_left hlt]
          exact hrow
      | succ i =>
          have hrest := ih (by simpa using he)
          rw [List.take_succ_cons, heightAll, rowsAll, Nat.add_assoc, ← length_rows depth first,
            List.getElem?_append_right (Nat.le_add_right _ _), Nat.add_sub_cancel_left]
          exact hrest

/-- An item starts on its line, behind an indentation that is as deep as its path is long. -/
theorem getElem?_rows {path : List Nat} {e item : SExpr} (depth : Nat)
    (h : e.itemAt? path = some item) :
    (e.rows depth)[e.lineOf path]? = some (indent (depth + path.length) ++ item.opening) := by
  induction path generalizing e depth with
  | nil =>
      obtain rfl := Option.some.inj h
      cases e <;> rfl
  | cons i path ih =>
      obtain ⟨inner, hinner, hitem⟩ := Option.bind_eq_some_iff.mp h
      cases e with
      | atom text => cases hinner
      | list items => cases hinner
      | block head body =>
          replace hinner : body[i]? = some inner := hinner
          have hbelow := getElem?_rowsAll hinner (ih (depth + 1) hitem)
          have hlt := (List.getElem?_eq_some_iff.mp hbelow).1
          simp only [lineOf, SExpr.body, hinner, Option.elim_some, rows, List.getElem?_cons_succ,
            List.length_cons]
          rw [List.getElem?_append_left hlt, hbelow, Nat.add_assoc, Nat.add_comm 1]

theorem lineOf_lt_height {path : List Nat} {e item : SExpr} (h : e.itemAt? path = some item) :
    e.lineOf path < e.height := by
  rw [← length_rows 0]
  exact (List.getElem?_eq_some_iff.mp (getElem?_rows 0 h)).1

/-- An item in a body ends before the next one starts. -/
theorem heightAll_take_lt {es : List SExpr} {i j line : Nat} {e : SExpr} (he : es[i]? = some e)
    (hline : line < e.height) (hij : i < j) :
    heightAll (es.take i) + line < heightAll (es.take j) := by
  induction es generalizing i j with
  | nil => cases he
  | cons first es ih =>
      obtain ⟨j, rfl⟩ := Nat.exists_eq_add_of_lt (Nat.zero_lt_of_lt hij)
      cases i with
      | zero =>
          obtain rfl := Option.some.inj he
          simp only [List.take_zero, heightAll, Nat.zero_add, List.take_succ_cons]
          omega
      | succ i =>
          have hrest := ih (i := i) (j := j) (by simpa using he) (by omega)
          simp only [Nat.zero_add, List.take_succ_cons, heightAll]
          omega

/-- Different items start on different lines. -/
theorem lineOf_inj {path path' : List Nat} {e item item' : SExpr}
    (h : e.itemAt? path = some item) (h' : e.itemAt? path' = some item')
    (hline : e.lineOf path = e.lineOf path') : path = path' := by
  induction path generalizing e path' with
  | nil =>
      cases path' with
      | nil => rfl
      | cons i path' => exact absurd hline.symm (Nat.succ_ne_zero _)
  | cons i path ih =>
      cases path' with
      | nil => exact absurd hline (Nat.succ_ne_zero _)
      | cons j path' =>
          obtain ⟨inner, hinner, hitem⟩ := Option.bind_eq_some_iff.mp h
          obtain ⟨inner', hinner', hitem'⟩ := Option.bind_eq_some_iff.mp h'
          have hlt := lineOf_lt_height hitem
          have hlt' := lineOf_lt_height hitem'
          simp only [lineOf, hinner, hinner', Option.elim_some, Nat.add_right_cancel_iff] at hline
          rcases Nat.lt_trichotomy i j with hij | rfl | hij
          · have hbelow := heightAll_take_lt hinner hlt hij
            omega
          · obtain rfl := Option.some.inj (hinner.symm.trans hinner')
            rw [ih hitem hitem' (Nat.add_left_cancel hline)]
          · have hbelow := heightAll_take_lt hinner' hlt' hij
            omega

/-! ## Indentation shows where an item starts -/

theorem mem_atomsAll {es : List SExpr} {e : SExpr} (he : e ∈ es) {text : String}
    (htext : text ∈ e.atoms) : text ∈ atomsAll es := by
  induction he with
  | head => exact List.mem_append_left _ htext
  | tail _ _ ih => exact List.mem_append_right _ ih

theorem mem_atoms_of_itemAt? {path : List Nat} {e item : SExpr} (h : e.itemAt? path = some item)
    {text : String} (htext : text ∈ item.atoms) : text ∈ e.atoms := by
  induction path generalizing e with
  | nil =>
      obtain rfl := Option.some.inj h
      exact htext
  | cons i path ih =>
      obtain ⟨inner, hinner, hitem⟩ := Option.bind_eq_some_iff.mp h
      cases e with
      | atom text => cases hinner
      | list items => cases hinner
      | block head body =>
          exact List.mem_append_right _ (mem_atomsAll (List.mem_of_getElem? hinner) (ih hitem))

/-- The text of an item does not start with a blank, so its indentation ends there. -/
theorem exists_head_opening {e : SExpr} (h : ∀ text ∈ e.atoms, Plain text) :
    ∃ c rest, e.opening.toList = c :: rest ∧ Text.isBlank c = false := by
  cases e with
  | list items =>
      exact ⟨'(', (inlineAll items ++ ")").toList, by simp [opening, inline], by decide⟩
  | block head body => exact ⟨'(', (inlineAll head).toList, by simp [opening], by decide⟩
  | atom text =>
      cases h text List.mem_cons_self with
      | quoted inside _ =>
          exact ⟨'"', (inside ++ "\"").toList, by simp [opening, inline], by decide⟩
      | words hne hwords =>
          obtain ⟨c, rest, hchars, hc⟩ := exists_head_words hne hwords
          simp only [isDelimiter, Bool.or_eq_false_iff] at hc
          exact ⟨c, rest, hchars, hc.1.1.1⟩

end SExpr

end Wattle.Wasm
