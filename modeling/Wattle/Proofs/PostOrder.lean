import Wattle.Program.Basic

/-!
# The nodes of a program

A program is a tree of numbered nodes: functions and memories, the statements in the functions and
the expressions in the statements. The nodes are listed in post-order, each behind those below it.
If the numbers along such a list are consecutive, so are those of every part of the tree.
-/

namespace Wattle

namespace Expr

mutual

/-- The nodes of an expression, in post-order. -/
def nodes : Expr Node → List Node
  | name n _ | number n _ _ => [n]
  | call n _ args => listNodes args ++ [n]
  | unary n _ inner | paren n inner | cast n inner _ => inner.nodes ++ [n]
  | binary n _ left right => left.nodes ++ right.nodes ++ [n]

def listNodes : List (Expr Node) → List Node
  | [] => []
  | e :: rest => e.nodes ++ listNodes rest

end

theorem note_mem_nodes (e : Expr Node) : e.note ∈ e.nodes := by
  cases e <;> simp [note, nodes]

end Expr

namespace Stmt

mutual

/-- The nodes of a statement, in post-order. -/
def nodes : Stmt Node → List Node
  | cond n arms otherwise => armsNodes arms ++ elseNodes otherwise ++ [n]
  | loop n condition body => condition.nodes ++ listNodes body ++ [n]
  | ret n value => (value.map Expr.nodes).getD [] ++ [n]
  | declare n _ _ _ initial => initial.nodes ++ [n]
  | expr n value => value.nodes ++ [n]

def listNodes : List (Stmt Node) → List Node
  | [] => []
  | s :: rest => s.nodes ++ listNodes rest

def armsNodes : List (Arm Node) → List Node
  | [] => []
  | ⟨condition, body, _⟩ :: rest => condition.nodes ++ listNodes body ++ armsNodes rest

def elseNodes : Option (List (Stmt Node)) → List Node
  | none => []
  | some body => listNodes body

end

theorem node_mem_nodes (s : Stmt Node) : s.node ∈ s.nodes := by
  cases s <;> simp [node, nodes]

end Stmt

def Func.nodes : Func Node → List Node
  | plain d | exported d => Stmt.listNodes d.body ++ [d.node]
  | imported i => [i.node]

/-! ## Parts -/

/-- A part of a program that has a number. -/
inductive Part where
  | expr (e : Expr Node)
  | stmt (s : Stmt Node)
  | func (f : Func Node)
  | memory (m : Memory)

def Expr.children : Expr Node → List Part
  | name _ _ | number _ _ _ => []
  | call _ _ args => args.map .expr
  | unary _ _ inner | paren _ inner | cast _ inner _ => [.expr inner]
  | binary _ _ left right => [.expr left, .expr right]

def Stmt.children : Stmt Node → List Part
  | cond _ arms otherwise =>
    (arms.flatMap fun arm => .expr arm.condition :: arm.body.map .stmt) ++
      (otherwise.getD []).map .stmt
  | loop _ condition body => .expr condition :: body.map .stmt
  | ret _ value => value.toList.map .expr
  | declare _ _ _ _ initial => [.expr initial]
  | expr _ value => [.expr value]

def Func.children : Func Node → List Part
  | plain d | exported d => d.body.map .stmt
  | imported _ => []

namespace Part

def node : Part → Node
  | expr e => e.note
  | stmt s => s.node
  | func f => f.node
  | memory m => m.node

/-- The parts directly below a part, in the order of the source. -/
def children : Part → List Part
  | expr e => e.children
  | stmt s => s.children
  | func f => f.children
  | memory _ => []

/-- The nodes of a part, in post-order. -/
def nodes : Part → List Node
  | expr e => e.nodes
  | stmt s => s.nodes
  | func f => f.nodes
  | memory m => [m.node]

/-- `Below part inner`: `inner` is `part` itself or stands below it. -/
inductive Below (part : Part) : Part → Prop where
  | refl : Below part part
  | child {middle inner : Part} (h : Below part middle) (hinner : inner ∈ middle.children) :
      Below part inner

/-- The numbers of a part are consecutive and start at `first`. Its own is larger than those below
it, and the parts directly below it take their numbers one after the other. -/
structure Numbered (part : Part) (first : Nat) : Prop where
  interval : part.nodes.map Node.id = List.range' first part.nodes.length
  above : ∀ child ∈ part.children, ∀ n ∈ child.nodes, n.id < part.node.id
  inOrder : part.children.Pairwise fun left right =>
    ∀ m ∈ left.nodes, ∀ n ∈ right.nodes, m.id < n.id

end Part

/-- A declaration of a program: a function or a memory. -/
abbrev Declaration := Func Node ⊕ Memory

def Declaration.part : Declaration → Part
  | .inl f => .func f
  | .inr m => .memory m

def Declaration.nodes (d : Declaration) : List Node :=
  d.part.nodes

/-- The declarations of the program, functions and memories together in one order. -/
structure Program.Order (p : Program Node) (order : List Declaration) : Prop where
  funcs : order.filterMap Sum.getLeft? = p.funcs
  memories : order.filterMap Sum.getRight? = p.memories

theorem Program.Order.func_mem {p : Program Node} {order : List Declaration} (h : p.Order order)
    {f : Func Node} (hf : f ∈ p.funcs) : .inl f ∈ order := by
  rw [← h.funcs] at hf
  obtain ⟨d, hd, hleft⟩ := List.mem_filterMap.mp hf
  rwa [← Sum.getLeft?_eq_some_iff.mp hleft]

theorem Program.Order.memory_mem {p : Program Node} {order : List Declaration} (h : p.Order order)
    {m : Memory} (hm : m ∈ p.memories) : .inr m ∈ order := by
  rw [← h.memories] at hm
  obtain ⟨d, hd, hright⟩ := List.mem_filterMap.mp hm
  rwa [← Sum.getRight?_eq_some_iff.mp hright]

theorem Expr.listNodes_eq (es : List (Expr Node)) :
    listNodes es = (es.map Part.expr).flatMap Part.nodes := by
  induction es with
  | nil => rfl
  | cons e es ih => rw [listNodes, ih, List.map_cons, List.flatMap_cons, Part.nodes]

namespace Stmt

theorem listNodes_eq (body : List (Stmt Node)) :
    listNodes body = (body.map Part.stmt).flatMap Part.nodes := by
  induction body with
  | nil => rfl
  | cons s body ih => rw [listNodes, ih, List.map_cons, List.flatMap_cons, Part.nodes]

theorem armsNodes_eq (arms : List (Arm Node)) :
    armsNodes arms =
      (arms.flatMap fun arm => .expr arm.condition :: arm.body.map .stmt).flatMap Part.nodes := by
  induction arms with
  | nil => rfl
  | cons arm arms ih =>
      obtain ⟨condition, body, span⟩ := arm
      rw [armsNodes, ih, listNodes_eq, List.flatMap_cons, List.flatMap_append, List.flatMap_cons,
        Part.nodes]

theorem elseNodes_eq (otherwise : Option (List (Stmt Node))) :
    elseNodes otherwise = ((otherwise.getD []).map Part.stmt).flatMap Part.nodes := by
  cases otherwise with
  | none => rfl
  | some body => rw [elseNodes, listNodes_eq, Option.getD_some]

end Stmt

namespace Part

/-- First the nodes of the parts below, then the own one. -/
theorem nodes_eq (part : Part) : part.nodes = part.children.flatMap nodes ++ [part.node] := by
  cases part with
  | memory m => rfl
  | expr e =>
      cases e <;>
        simp [nodes, children, node, Expr.nodes, Expr.children, Expr.note, Expr.listNodes_eq]
  | func f =>
      cases f <;> simp [nodes, children, node, Func.nodes, Func.children, Func.node,
        Stmt.listNodes_eq]
  | stmt s =>
      cases s with
      | ret n value => cases value <;> simp [nodes, children, node, Stmt.nodes, Stmt.children,
          Stmt.node]
      | cond n arms otherwise =>
          simp only [nodes, children, node, Stmt.nodes, Stmt.children, Stmt.node,
            Stmt.armsNodes_eq, Stmt.elseNodes_eq, List.flatMap_append]
      | _ => simp [nodes, children, node, Stmt.nodes, Stmt.children, Stmt.node, Stmt.listNodes_eq]

theorem node_mem_nodes (part : Part) : part.node ∈ part.nodes := by
  rw [nodes_eq]
  exact List.mem_append_right _ (List.mem_singleton_self _)

theorem nodes_infix_flatMap {parts : List Part} {part : Part} (h : part ∈ parts) :
    part.nodes <:+: parts.flatMap nodes := by
  obtain ⟨before, behind, rfl⟩ := List.append_of_mem h
  exact ⟨before.flatMap nodes, behind.flatMap nodes, by simp⟩

theorem Below.nodes_infix {part inner : Part} (h : part.Below inner) :
    inner.nodes <:+: part.nodes := by
  induction h with
  | refl => exact List.infix_refl _
  | @child middle inner _ hinner ih =>
      have hmiddle : middle.children.flatMap nodes <:+: middle.nodes :=
        ⟨[], [middle.node], by rw [List.nil_append, ← middle.nodes_eq]⟩
      exact (nodes_infix_flatMap hinner).trans (hmiddle.trans ih)

theorem eq_range'_of_infix {numbers whole : List Nat} {low : Nat} (h : numbers <:+: whole)
    (hwhole : whole = List.range' low whole.length) :
    ∃ first, numbers = List.range' first numbers.length := by
  obtain ⟨before, behind, rfl⟩ := h
  refine ⟨low + before.length, ?_⟩
  rw [List.length_append, List.length_append, ← List.range'_append_1,
    ← List.range'_append_1] at hwhole
  have hfront := List.append_inj_left hwhole (by simp)
  exact List.append_inj_right hfront (by simp)

/-- Along increasing numbers, parts take theirs one after the other. -/
theorem pairwise_of_increasing {parts : List Part}
    (h : ((parts.flatMap nodes).map Node.id).Pairwise (· < ·)) :
    parts.Pairwise fun left right => ∀ m ∈ left.nodes, ∀ n ∈ right.nodes, m.id < n.id := by
  rw [List.pairwise_map, List.flatMap, List.pairwise_flatten] at h
  exact List.pairwise_map.mp h.2

/-- A part whose numbers are consecutive is numbered in post-order. -/
theorem numbered_of_interval {part : Part} {first : Nat}
    (h : part.nodes.map Node.id = List.range' first part.nodes.length) :
    part.Numbered first := by
  have hincreasing : (part.nodes.map Node.id).Pairwise (· < ·) := by
    rw [h]
    exact List.pairwise_lt_range'
  rw [nodes_eq, List.map_append, List.pairwise_append] at hincreasing
  obtain ⟨hbelow, -, hown⟩ := hincreasing
  refine ⟨h, ?_, ?_⟩
  · intro child hchild n hn
    apply hown
    · exact List.mem_map_of_mem (List.mem_flatMap.mpr ⟨child, hchild, hn⟩)
    · exact List.mem_singleton_self _
  · exact pairwise_of_increasing hbelow

/-- If the numbers of a list of parts are consecutive, all that stands below them is numbered in
post-order. -/
theorem Below.numbered {parts : List Part} {part inner : Part} {low : Nat}
    (hinner : part.Below inner) (hpart : part ∈ parts)
    (h : (parts.flatMap nodes).map Node.id = List.range' low (parts.flatMap nodes).length) :
    ∃ first, inner.Numbered first := by
  have hinfix : inner.nodes.map Node.id <:+: (parts.flatMap nodes).map Node.id :=
    (hinner.nodes_infix.trans (nodes_infix_flatMap hpart)).map Node.id
  have hwhole : (parts.flatMap nodes).map Node.id =
      List.range' low ((parts.flatMap nodes).map Node.id).length := by
    rwa [List.length_map]
  obtain ⟨first, hfirst⟩ := eq_range'_of_infix hinfix hwhole
  rw [List.length_map] at hfirst
  exact ⟨first, numbered_of_interval hfirst⟩

end Part

end Wattle
