import Wattle.Proofs.LexicalStructure
import Wattle.Proofs.Numbering

/-!
# Numbers are dense

The numbers of a program that was read are those below some count, each used once and in
post-order over the declarations as they stand in the source. The count is at most the number of
tokens, so a text has fewer nodes than characters.
-/

namespace Wattle

/-! ## The order of declarations -/

/-- The tokens of a declaration, given the digits of the size of a memory. -/
def Declaration.yield (digits : String) : Declaration → List TokenKind
  | .inl f => f.yield
  | .inr m => m.yield digits

section Merging

variable {γ : Type} {le : γ → γ → Bool} {xs ys : List γ}

theorem merge_cons_left {a : γ} (h : ∀ y ∈ ys, le a y = true) :
    (a :: xs).merge ys le = a :: xs.merge ys le := by
  cases ys with
  | nil => simp
  | cons y ys => simp [h y List.mem_cons_self]

theorem merge_cons_right {b : γ} (h : ∀ x ∈ xs, le x b = false) :
    xs.merge (b :: ys) le = b :: xs.merge ys le := by
  cases xs with
  | nil => simp
  | cons x xs => simp [h x List.mem_cons_self]

end Merging

/-- A program spells its declarations in the order of their numbers. -/
theorem Program.Order.yield_eq {p : Program Node} {order : List Declaration} {digits : String}
    (h : p.Order order) (hids : order.Pairwise fun c d => c.part.node.id < d.part.node.id) :
    p.yield digits = order.flatMap (Declaration.yield digits) := by
  obtain ⟨hfuncs, hmemories⟩ := h
  have hmerge : (p.funcs.map fun f => (f.node.id, f.yield)).merge
      (p.memories.map fun m => (m.node.id, m.yield digits)) numberedBefore =
      order.map fun d => (d.part.node.id, d.yield digits) := by
    rw [← hfuncs, ← hmemories]
    clear hfuncs hmemories
    induction order with
    | nil => simp
    | cons d order ih =>
        obtain ⟨hfirst, hrest⟩ := List.pairwise_cons.mp hids
        cases d with
        | inl f =>
            simp only [List.filterMap_cons, Sum.getLeft?_inl, Sum.getRight?_inl, List.map_cons]
            rw [merge_cons_left, ih hrest]
            · rfl
            · intro y hy
              obtain ⟨m, hm, rfl⟩ := List.mem_map.mp hy
              obtain ⟨d, hd, hright⟩ := List.mem_filterMap.mp hm
              obtain rfl := Sum.getRight?_eq_some_iff.mp hright
              exact decide_eq_true (Nat.le_of_lt (hfirst _ hd))
        | inr m =>
            simp only [List.filterMap_cons, Sum.getLeft?_inr, Sum.getRight?_inr, List.map_cons]
            rw [merge_cons_right, ih hrest]
            · rfl
            · intro x hx
              obtain ⟨f, hf, rfl⟩ := List.mem_map.mp hx
              obtain ⟨d, hd, hleft⟩ := List.mem_filterMap.mp hf
              obtain rfl := Sum.getLeft?_eq_some_iff.mp hleft
              exact decide_eq_false (Nat.not_le_of_lt (hfirst _ hd))
  rw [Program.yield, hmerge, List.flatMap_map]

/-! ## Tokens and characters -/

namespace Lexer

theorem length_prependChar_le (index : Nat) (c : Char) (others : List Piece) :
    (prependChar index c others).length ≤ others.length + 1 := by
  fun_cases prependChar index c others <;> simp

/-- Every piece takes a character. -/
theorem length_pieces_le (index : Nat) (text : List Char) :
    (pieces index text).length ≤ text.length := by
  fun_induction pieces index text with
  | case1 => exact Nat.le_refl _
  | case2 => exact Nat.zero_le _
  | case3 => exact Nat.le_refl _
  | case4 => exact Nat.le_refl _
  | case5 index c d rest _ ih => exact Nat.le_succ_of_le ih
  | case6 index c d rest _ m _ ih ih' =>
      simp only [List.length_cons] at ih' ⊢
      split <;> omega
  | case7 index c d rest _ _ ih =>
      have hfirst := length_prependChar_le index c (pieces (index + 1) (d :: rest))
      simp only [List.length_cons] at ih ⊢
      omega

theorem length_located_le (first : Nat) (rows : List (List Char)) :
    (located first rows).length ≤ rows.flatten.length := by
  induction rows generalizing first with
  | nil => exact Nat.le_refl _
  | cons row rows ih =>
      have hpieces := length_pieces_le 0 (cutComment row)
      have hcut := (withoutComment_cutComment row).start.length_le
      have hbelow := ih (first + 1)
      simp only [located, List.length_append, List.length_map, List.flatten_cons]
      omega

end Lexer

/-- A text has at most as many tokens in front of its end as characters. -/
theorem length_sentence_le {source : String} {tokens : List Token}
    (h : tokenize source = .ok tokens) : (sentence tokens).length ≤ source.length := by
  obtain ⟨body, hbody, rfl⟩ := tokenize_eq_ok.mp h
  rw [Lexer.lexLines_eq_mapM] at hbody
  have hpieces := (except_mapM_eq_ok.mp hbody).length_eq
  have hlocated := Lexer.length_located_le 0 (lines source.toList)
  have hlines := length_lines_le source.toList
  have hsentence : (sentence (body ++ [.endAt (Lexer.endOf (lines source.toList))])).length ≤
      body.length := by
    rw [sentence, List.map_append, List.takeWhile_append]
    split
    · simp [Token.endAt]
    · rw [← List.length_map Token.kind]
      exact (List.takeWhile_prefix _).length_le
  rw [String.length_toList] at hlines
  omega

/-! ## The numbers of a program -/

theorem length_le_sentence {tokens read rest : List Token} (h : tokens = read ++ rest)
    (hread : ∀ token ∈ read, token.kind ≠ .endOfFile) : read.length ≤ (sentence tokens).length := by
  have hall : ∀ k ∈ read.map Token.kind, decide (k ≠ .endOfFile) = true := by
    intro k hk
    obtain ⟨token, htoken, rfl⟩ := List.mem_map.mp hk
    exact decide_eq_true (hread token htoken)
  rw [h, sentence, List.map_append, List.takeWhile_append_of_pos hall, List.length_append,
    List.length_map]
  exact Nat.le_add_right _ _

/-- The nodes of a program that was read are numbered from zero on without gaps, in post-order over
its declarations in the order of the source: the numbers below each node form an interval in front
of its own. There are no more nodes than tokens in front of the end mark, and so, in a text of
fewer than 2 ^ 32 characters, every number is below 2 ^ 32. -/
theorem read_nodes_are_numbered_densely {tokens : List Token} {p : Program Node}
    (h : parseProgram tokens = .ok p) :
    ∃ (order : List Declaration) (count : Nat), p.Order order ∧
      (∃ digits, (∀ m ∈ p.memories, Spells digits m.size) ∧
        order.flatMap (Declaration.yield digits) = dropTrailingCommas (sentence tokens)) ∧
      (order.flatMap Declaration.nodes).map Node.id = List.range count ∧
      (∀ d ∈ order, ∀ part, d.part.Below part → ∃ first, part.Numbered first) ∧
      count ≤ (sentence tokens).length ∧
      ∀ source, tokenize source = .ok tokens → source.length < UInt32.size →
        count < UInt32.size := by
  obtain ⟨hend, ⟨order, t, horder, hleads⟩, -⟩ := parseProgram_leads h
  rcases hend with rfl | hend
  · obtain rfl := Except.ok.inj h
    exact ⟨[], 0, ⟨rfl, rfl⟩, ⟨"", nofun, rfl⟩, rfl, nofun, Nat.zero_le _, by simp⟩
  · have hgrown := hleads.grown hend
    obtain ⟨-, digits, hsizes, hyield⟩ := parseProgram_reads_sentence hend h
    have hflat : order.flatMap Declaration.nodes =
        (order.map Declaration.part).flatMap Part.nodes := by
      rw [List.flatMap_map]
      rfl
    have hids := hgrown.ids
    have hincreasing : ((order.flatMap Declaration.nodes).map Node.id).Pairwise (· < ·) := by
      rw [hids]
      exact List.pairwise_lt_range'
    have hcount : (order.flatMap Declaration.nodes).length ≤ (sentence tokens).length := by
      obtain ⟨read, hrest, hread, hcount⟩ := hgrown.passed
      have hpassed : read.length ≤ (sentence tokens).length := length_le_sentence hrest hread
      omega
    refine ⟨order, _, horder, ⟨digits, hsizes, ?_⟩, hids.trans List.range_eq_range'.symm, ?_,
      hcount, ?_⟩
    · rw [← hyield, horder.yield_eq]
      rw [hflat] at hincreasing
      have hparts := List.pairwise_map.mp (Part.pairwise_of_increasing hincreasing)
      exact hparts.imp fun h => h _ (Part.node_mem_nodes _) _ (Part.node_mem_nodes _)
    · intro d hd part hpart
      rw [hflat] at hids
      exact hpart.numbered (List.mem_map_of_mem hd) hids
    · intro source hsource hlength
      have htokens := length_sentence_le hsource
      omega

/-- A function, with operands of every form and all tokens at one place, in front of a memory. -/
theorem nested_operands_are_numbered_densely :
    ∃ p order count, parseProgram
        ([.keyword .func, .identifier "f", .punct .leftParen, .punct .rightParen, .punct .colon,
          .base .i32, .punct .leftBrace, .keyword .return_, .operator .minus, .punct .leftParen,
          .identifier "a", .operator .plus, .identifier "g", .punct .leftParen, .number "1" .i32,
          .punct .comma, .punct .rightParen, .punct .rightParen, .punct .semicolon,
          .punct .rightBrace, .keyword .memory, .identifier "m", .punct .leftParen,
          .number "8" .i32, .punct .rightParen, .punct .semicolon, .endOfFile].map
            fun k => ⟨k, .point ⟨1, 1⟩⟩) = .ok p ∧
      p.funcs.map (fun f => f.nodes.map Node.id) = [[0, 1, 2, 3, 4, 5, 6, 7]] ∧
      p.memories.map (fun m => m.node.id) = [8] ∧ p.Order order ∧
      (order.flatMap Declaration.nodes).map Node.id = List.range count ∧ count ≤ 26 := by
  generalize htokens : List.map (fun k => (⟨k, .point ⟨1, 1⟩⟩ : Token)) _ = tokens
  have hids : (parseProgram tokens).map (fun p =>
      (p.funcs.map (fun f => f.nodes.map Node.id), p.memories.map fun m => m.node.id)) =
        .ok ([[0, 1, 2, 3, 4, 5, 6, 7]], [8]) := by
    rw [← htokens]
    decide +kernel
  have hlength : (sentence tokens).length = 26 := by
    rw [← htokens]
    decide +kernel
  obtain ⟨p, hp, hids⟩ := except_map_eq_ok.mp hids
  obtain ⟨hfuncs, hmemories⟩ := Prod.mk.inj hids
  obtain ⟨order, count, horder, -, hrange, -, hcount, -⟩ := read_nodes_are_numbered_densely hp
  exact ⟨p, order, count, hp, hfuncs, hmemories, horder, hrange, hlength ▸ hcount⟩

end Wattle
