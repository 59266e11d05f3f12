import Wattle.Proofs.CheckerSound

/-!
# Programs without their places

Nodes remember where they were read. Forgetting the places of a program keeps everything that
checking looks at: it finds the same types, or the same rule broken. So two programs that differ
in their places only have the same outcome.
-/

namespace Wattle

/-! ## Forgetting places -/

/-- The place that stands for all others. -/
def Span.nowhere : Span :=
  .point ⟨0, 0⟩

def Node.unplaced (n : Node) : Node :=
  ⟨n.id, .nowhere⟩

def TypedNode.unplaced (n : TypedNode) : TypedNode :=
  ⟨n.toNode.unplaced, n.type⟩

namespace Stmt

variable {α : Type}

mutual

/-- Forget the places of a statement; `f` forgets those in the notes of expressions. -/
def unplaced (f : α → α) : Stmt α → Stmt α
  | cond n arms otherwise => cond n.unplaced (armsUnplaced f arms) (elseUnplaced f otherwise)
  | loop n condition body => loop n.unplaced (condition.map f) (listUnplaced f body)
  | ret n value => ret n.unplaced (value.map (Expr.map f))
  | declare n kind name type initial => declare n.unplaced kind name type (initial.map f)
  | expr n value => expr n.unplaced (value.map f)

def listUnplaced (f : α → α) : List (Stmt α) → List (Stmt α)
  | [] => []
  | s :: rest => s.unplaced f :: listUnplaced f rest

def armUnplaced (f : α → α) : Arm α → Arm α
  | ⟨condition, body, _⟩ => ⟨condition.map f, listUnplaced f body, .nowhere⟩

def armsUnplaced (f : α → α) : List (Arm α) → List (Arm α)
  | [] => []
  | a :: rest => armUnplaced f a :: armsUnplaced f rest

def elseUnplaced (f : α → α) : Option (List (Stmt α)) → Option (List (Stmt α))
  | none => none
  | some body => some (listUnplaced f body)

end

@[simp] theorem isReturn_unplaced (f : α → α) (s : Stmt α) :
    (s.unplaced f).isReturn = s.isReturn := by
  cases s <;> rfl

theorem listUnplaced_eq_map (f : α → α) (body : List (Stmt α)) :
    listUnplaced f body = body.map (unplaced f) := by
  induction body with
  | nil => rfl
  | cons s rest ih => rw [listUnplaced, ih, List.map_cons]

end Stmt

def Parameter.unplaced (p : Parameter) : Parameter :=
  { p with span := .nowhere }

def Signature.unplaced (s : Signature) : Signature :=
  { s with parameters := s.parameters.map Parameter.unplaced }

def FuncDef.unplaced {α : Type} (f : α → α) (d : FuncDef α) : FuncDef α :=
  ⟨d.node.unplaced, d.signature.unplaced, Stmt.listUnplaced f d.body⟩

def Func.unplaced {α : Type} (f : α → α) : Func α → Func α
  | plain d => plain (d.unplaced f)
  | exported d => exported (d.unplaced f)
  | imported i => imported ⟨i.node.unplaced, i.signature.unplaced, i.path⟩

def Memory.unplaced (m : Memory) : Memory :=
  { m with node := m.node.unplaced }

/-- Forget the places of a program; `f` forgets those in the notes of expressions. -/
def Program.unplaced {α : Type} (f : α → α) (p : Program α) : Program α :=
  ⟨p.funcs.map (Func.unplaced f), p.memories.map Memory.unplaced⟩

def CheckError.unplaced (e : CheckError) : CheckError :=
  ⟨⟨0, 0⟩, e.violation⟩

/-! ## Checking -/

namespace Check

variable {α β : Type}

/-- Forget the places in the outcome of a check. -/
def forget (f : α → α) (x : Except CheckError α) : Except CheckError α :=
  (x.map f).mapError CheckError.unplaced

@[simp] theorem forget_ok (f : α → α) (a : α) : forget f (.ok a) = .ok (f a) := rfl

@[simp] theorem forget_error (f : α → α) (e : CheckError) :
    forget f (.error e) = .error e.unplaced := rfl

@[simp] theorem forget_pure (f : α → α) (a : α) : forget f (pure a) = pure (f a) := rfl

theorem bind_forget {f : α → α} {g : β → β} {x : Except CheckError α}
    {k k' : α → Except CheckError β} (h : ∀ a, k' (f a) = forget g (k a)) :
    forget f x >>= k' = forget g (x >>= k) := by
  cases x with
  | error e => rfl
  | ok a => exact h a

@[simp] theorem type_unplaced (e : Expr TypedNode) :
    (e.map TypedNode.unplaced).type = e.type := by
  cases e <;> rfl

theorem findFunction?_unplaced (table : Signatures) (name : String) :
    findFunction? (table.map Signature.unplaced) name =
      (findFunction? table name).map Signature.unplaced := by
  rw [findFunction?, findFunction?, List.find?_map]
  rfl

theorem resolve_unplaced (scope : Scope Symbol) (name : String) (node : Node) :
    resolve scope name node.unplaced.start = forget id (resolve scope name node.start) := by
  simp only [resolve]
  cases scope.lookup? name <;> rfl

theorem require_unplaced (expected : Ty) (use : Use) (e : Expr TypedNode) :
    require expected use (e.map TypedNode.unplaced) = forget id (require expected use e) := by
  have hnote : (e.map TypedNode.unplaced).note.start = ⟨0, 0⟩ := by cases e <;> rfl
  simp only [require, type_unplaced, hnote]
  split <;> rfl

theorem unaryType_unplaced (op : UnaryOp) (operand : Expr TypedNode) (node : Node) :
    unaryType op (operand.map TypedNode.unplaced) node.unplaced.start =
      forget id (unaryType op operand node.start) := by
  cases op with
  | negate =>
      simp only [unaryType, type_unplaced]
      split <;> rfl
  | deref =>
      simp only [unaryType, type_unplaced]
      split <;> rfl
  | logicalNot =>
      simp only [unaryType, require_unplaced]
      exact bind_forget fun _ => rfl

theorem binaryType_unplaced (op : BinaryOp) (left right : Expr TypedNode) (node : Node) :
    binaryType op (left.map TypedNode.unplaced) (right.map TypedNode.unplaced)
        node.unplaced.start =
      forget id (binaryType op left right node.start) := by
  simp only [binaryType, type_unplaced]
  split
  · rfl
  · split <;> rfl

theorem assignable_unplaced (scope : Scope Symbol) (e : Expr Node) :
    assignable scope (e.map Node.unplaced) = forget id (assignable scope e) := by
  cases e with
  | name node id =>
      simp only [Expr.map, assignable, resolve_unplaced]
      refine bind_forget fun symbol => ?_
      dsimp only [id_eq]
      split <;> rfl
  | unary node op operand => cases op <;> rfl
  | number node digits type => rfl
  | call node callee args => rfl
  | binary node op left right => rfl
  | paren node inner => rfl
  | cast node operand target => rfl

theorem length_mapList {γ : Type} (f : α → γ) (es : List (Expr α)) :
    (Expr.mapList f es).length = es.length := by
  induction es with
  | nil => rfl
  | cons e es ih => rw [Expr.mapList, List.length_cons, List.length_cons, ih]

section Trees

variable (table : Signatures)

mutual

theorem expr_unplaced (scope : Scope Symbol) : (e : Expr Node) →
    expr (table.map Signature.unplaced) scope (e.map Node.unplaced) =
      forget (Expr.map TypedNode.unplaced) (expr table scope e)
  | .name node id => by
      simp only [Expr.map, expr, resolve_unplaced]
      exact bind_forget fun _ => rfl
  | .number node digits type => rfl
  | .call node callee args => by
      simp only [Expr.map, expr, findFunction?_unplaced]
      cases findFunction? table callee with
      | none => rfl
      | some signature =>
          simp only [Option.map_some, length_mapList, Signature.unplaced, List.length_map]
          split
          · rw [arguments_unplaced scope callee 1 args signature.parameters]
            exact bind_forget fun _ => rfl
          · rfl
  | .unary node op operand => by
      simp only [Expr.map, expr, expr_unplaced scope operand]
      refine bind_forget fun typed => ?_
      rw [unaryType_unplaced]
      exact bind_forget fun _ => rfl
  | .binary node op left right => by
      simp only [Expr.map, expr, expr_unplaced scope left, expr_unplaced scope right]
      split
      · rw [assignable_unplaced]
        refine bind_forget fun _ => ?_
        refine bind_forget fun target => ?_
        refine bind_forget fun value => ?_
        rw [type_unplaced, require_unplaced]
        exact bind_forget fun _ => rfl
      · refine bind_forget fun first => ?_
        refine bind_forget fun second => ?_
        rw [binaryType_unplaced]
        exact bind_forget fun _ => rfl
  | .paren node inner => by
      simp only [Expr.map, expr, expr_unplaced scope inner]
      refine bind_forget fun typed => ?_
      simp only [forget_pure, Expr.map, TypedNode.unplaced, type_unplaced]
  | .cast node operand target => by
      simp only [Expr.map, expr, expr_unplaced scope operand]
      refine bind_forget fun typed => ?_
      rw [type_unplaced]
      split <;> rfl

theorem arguments_unplaced (scope : Scope Symbol) : (callee : String) → (index : Nat) →
    (args : List (Expr Node)) → (parameters : List Parameter) →
    arguments (table.map Signature.unplaced) scope callee index (Expr.mapList Node.unplaced args)
        (parameters.map Parameter.unplaced) =
      forget (Expr.mapList TypedNode.unplaced) (arguments table scope callee index args parameters)
  | _, _, [], _ => by simp [Expr.mapList, arguments]
  | _, _, _ :: _, [] => by simp [Expr.mapList, arguments]
  | callee, index, arg :: args, parameter :: parameters => by
      simp only [Expr.mapList, List.map_cons, arguments, expr_unplaced scope arg,
        arguments_unplaced scope callee (index + 1) args parameters]
      refine bind_forget fun first => ?_
      rw [require_unplaced]
      refine bind_forget fun _ => ?_
      exact bind_forget fun _ => rfl

end

end Trees

/-- `p'` does what `p` does, without the places in its outcome. -/
def Forgets (f : α → α) (p p' : Checker α) : Prop :=
  ∀ s, p' s = match p s with
    | .ok a t => .ok (f a) t
    | .error e t => .error e.unplaced t

namespace Forgets

variable {f : α → α} {g : β → β} {p p' : Checker α} {k k' : α → Checker β}

theorem pure (f : α → α) (a : α) : Forgets f (Pure.pure a) (Pure.pure (f a)) :=
  fun _ => rfl

theorem throw (f : α → α) (e : CheckError) :
    Forgets f (MonadExcept.throw e) (MonadExcept.throw e.unplaced) :=
  fun _ => rfl

theorem bind (hp : Forgets f p p') (hk : ∀ a, Forgets g (k a) (k' (f a))) :
    Forgets g (p >>= k) (p' >>= k') := by
  intro s
  simp only [Bind.bind, EStateM.bind, hp s]
  cases p s with
  | ok a t => exact hk a t
  | error e t => rfl

theorem asking {q q' : Scope Symbol → Except CheckError α}
    (h : ∀ scope, q' scope = forget f (q scope)) :
    Forgets f (Scope.asking q) (Scope.asking q') := by
  intro s
  simp only [Scope.asking, h s]
  cases q s <;> rfl

theorem within (h : Forgets f p p') : Forgets f (Scope.within p) (Scope.within p') := by
  intro s
  simp only [Scope.within, h s.push]
  cases p s.push <;> rfl

theorem insert (name : String) (symbol : Symbol) :
    Forgets id (Scope.bind name symbol) (Scope.bind name symbol) :=
  fun _ => rfl

end Forgets

theorem typedHere_unplaced (table : Signatures) (expected : Ty) (use : Use) (e : Expr Node) :
    Forgets (Expr.map TypedNode.unplaced) (typedHere table expected use e)
      (typedHere (table.map Signature.unplaced) expected use (e.map Node.unplaced)) := by
  apply Forgets.asking
  intro scope
  rw [expr_unplaced]
  refine bind_forget fun typed => ?_
  rw [require_unplaced]
  exact bind_forget fun _ => rfl

theorem exprHere_unplaced (table : Signatures) (e : Expr Node) :
    Forgets (Expr.map TypedNode.unplaced) (exprHere table e)
      (exprHere (table.map Signature.unplaced) (e.map Node.unplaced)) :=
  .asking fun scope => expr_unplaced table scope e

theorem returned_unplaced (table : Signatures) (result : Ty) (node : Node)
    (value : Option (Expr Node)) :
    Forgets (Option.map (Expr.map TypedNode.unplaced)) (returned table result node.start value)
      (returned (table.map Signature.unplaced) result node.unplaced.start
        (value.map (Expr.map Node.unplaced))) := by
  cases value with
  | none =>
      simp only [Option.map_none, returned]
      split
      · exact .pure _ none
      · exact .throw _ _
  | some value =>
      simp only [Option.map_some, returned]
      split
      · exact .throw _ _
      · exact .bind (typedHere_unplaced table result .returnValue value) fun typed =>
          .pure _ (some typed)

section Bodies

variable (table : Signatures) (result : Ty)

mutual

theorem stmt_unplaced : (s : Stmt Node) →
    Forgets (Stmt.unplaced TypedNode.unplaced) (stmt table result s)
      (stmt (table.map Signature.unplaced) result (s.unplaced Node.unplaced))
  | .cond node first otherwise => by
      simp only [Stmt.unplaced, stmt]
      refine .bind (arms_unplaced .if_ first) fun typed => ?_
      exact .bind (elseBody_unplaced otherwise) fun last => .pure _ (Stmt.cond node typed last)
  | .loop node condition body => by
      simp only [Stmt.unplaced, stmt]
      refine .bind (typedHere_unplaced table .i32 (.condition .while_) condition) fun test => ?_
      refine .bind (.within (stmts_unplaced false body)) fun inside => ?_
      exact .pure _ (Stmt.loop node test inside)
  | .ret node value => by
      simp only [Stmt.unplaced, stmt]
      refine .bind (returned_unplaced table result node value) fun typed => ?_
      exact .pure _ (Stmt.ret node typed)
  | .declare node kind name type initial => by
      simp only [Stmt.unplaced, stmt]
      refine .bind (typedHere_unplaced table type (.initializer name) initial) fun typed => ?_
      exact .bind (.insert name ⟨type, .ofDecl kind⟩) fun _ =>
        .pure _ (Stmt.declare node kind name type typed)
  | .expr node value => by
      simp only [Stmt.unplaced, stmt]
      exact .bind (exprHere_unplaced table value) fun typed => .pure _ (Stmt.expr node typed)

theorem stmts_unplaced (unreachable : Bool) : (body : List (Stmt Node)) →
    Forgets (Stmt.listUnplaced TypedNode.unplaced) (stmts table result unreachable body)
      (stmts (table.map Signature.unplaced) result unreachable
        (Stmt.listUnplaced Node.unplaced body))
  | [] => .pure _ []
  | s :: rest => by
      have hstart : (s.unplaced Node.unplaced).start = ⟨0, 0⟩ := by cases s <;> rfl
      simp only [Stmt.listUnplaced, stmts, hstart, Stmt.isReturn_unplaced]
      split
      · exact .throw _ _
      · refine .bind (stmt_unplaced s) fun first => ?_
        exact .bind (stmts_unplaced s.isReturn rest) fun others => .pure _ (first :: others)

theorem arm_unplaced (word : Keyword) : (a : Arm Node) →
    Forgets (Stmt.armUnplaced TypedNode.unplaced) (arm table result word a)
      (arm (table.map Signature.unplaced) result word (Stmt.armUnplaced Node.unplaced a))
  | ⟨condition, body, span⟩ => by
      simp only [Stmt.armUnplaced, arm]
      refine .bind (typedHere_unplaced table .i32 (.condition word) condition) fun test => ?_
      refine .bind (.within (stmts_unplaced false body)) fun inside => ?_
      exact .pure _ (Arm.mk test inside span)

theorem arms_unplaced (word : Keyword) : (branches : List (Arm Node)) →
    Forgets (Stmt.armsUnplaced TypedNode.unplaced) (arms table result word branches)
      (arms (table.map Signature.unplaced) result word
        (Stmt.armsUnplaced Node.unplaced branches))
  | [] => .pure _ []
  | a :: rest => by
      simp only [Stmt.armsUnplaced, arms]
      refine .bind (arm_unplaced word a) fun first => ?_
      exact .bind (arms_unplaced .elif rest) fun others => .pure _ (first :: others)

theorem elseBody_unplaced : (otherwise : Option (List (Stmt Node))) →
    Forgets (Stmt.elseUnplaced TypedNode.unplaced) (elseBody table result otherwise)
      (elseBody (table.map Signature.unplaced) result
        (Stmt.elseUnplaced Node.unplaced otherwise))
  | none => .pure _ none
  | some body => by
      simp only [Stmt.elseUnplaced, elseBody]
      exact .bind (.within (stmts_unplaced false body)) fun inside => .pure _ (some inside)

end

end Bodies

/-! ## Checking programs -/

theorem parameters_unplaced (seen : List String) (ps : List Parameter) :
    parameters seen (ps.map Parameter.unplaced) = forget id (parameters seen ps) := by
  induction ps generalizing seen with
  | nil => rfl
  | cons p ps ih =>
      simp only [List.map_cons, parameters, Parameter.unplaced, ih]
      split
      · rfl
      · split <;> rfl

theorem signature_unplaced (f : α → α) (g : Func α) :
    (g.unplaced f).signature = g.signature.unplaced := by
  cases g <;> rfl

theorem declare_unplaced (table : Signatures) (g : Func Node) :
    declare (table.map Signature.unplaced) (g.unplaced Node.unplaced) =
      forget (List.map Signature.unplaced) (declare table g) := by
  have hnode : (g.unplaced Node.unplaced).node.start = ⟨0, 0⟩ := by cases g <;> rfl
  simp only [declare, signature_unplaced, Signature.unplaced, parameters_unplaced, hnode]
  refine bind_forget fun _ => ?_
  rw [findFunction?_unplaced, Option.isSome_map]
  split <;> rfl

theorem foldlM_declare_unplaced (table : Signatures) (funcs : List (Func Node)) :
    (funcs.map (Func.unplaced Node.unplaced)).foldlM declare (table.map Signature.unplaced) =
      forget (List.map Signature.unplaced) (funcs.foldlM declare table) := by
  induction funcs generalizing table with
  | nil => rfl
  | cons g funcs ih =>
      rw [List.map_cons, List.foldlM_cons, List.foldlM_cons, declare_unplaced]
      exact bind_forget fun table' => ih table'

theorem memories_unplaced (funcs : List (Func Node)) (ms : List Memory) :
    memories (funcs.map (Func.unplaced Node.unplaced)) (ms.map Memory.unplaced) =
      forget id (memories funcs ms) := by
  match ms with
  | [] => rfl
  | [m] =>
      have hexports : (funcs.map (Func.unplaced Node.unplaced)).any
          (fun f => f.isExported && f.signature.name = m.name) =
          funcs.any (fun f => f.isExported && f.signature.name = m.name) := by
        rw [List.any_map]
        congr 1
        funext f
        cases f <;> rfl
      simp only [List.map_cons, List.map_nil, memories, Memory.unplaced, hexports]
      split <;> rfl
  | _ :: m :: _ => rfl

theorem parameterScope_unplaced (ps : List Parameter) :
    parameterScope (ps.map Parameter.unplaced) = parameterScope ps := by
  rw [parameterScope, parameterScope, List.foldl_map]
  rfl

theorem endsInReturn_unplaced (f : α → α) (body : List (Stmt α)) :
    endsInReturn (Stmt.listUnplaced f body) = endsInReturn body := by
  rw [endsInReturn, endsInReturn, Stmt.listUnplaced_eq_map, List.getLast?_map]
  cases body.getLast? with
  | none => rfl
  | some s => exact Stmt.isReturn_unplaced f s

theorem funcDef_unplaced (table : Signatures) (d : FuncDef Node) :
    funcDef (table.map Signature.unplaced) (d.unplaced Node.unplaced) =
      forget (FuncDef.unplaced TypedNode.unplaced) (funcDef table d) := by
  have hrun := stmts_unplaced table d.signature.result false d.body
    (parameterScope d.signature.parameters)
  have hlast : ((Stmt.listUnplaced Node.unplaced d.body).getLast?.map Stmt.start).getD
      d.node.unplaced.start = ⟨0, 0⟩ := by
    rw [Stmt.listUnplaced_eq_map, List.getLast?_map]
    cases d.body.getLast? with
    | none => rfl
    | some s => cases s <;> rfl
  simp only [funcDef, FuncDef.unplaced, Signature.unplaced, parameterScope_unplaced, hrun,
    endsInReturn_unplaced, hlast]
  cases stmts table d.signature.result false d.body (parameterScope d.signature.parameters) with
  | error e t => rfl
  | ok body t =>
      dsimp only
      split <;> rfl

theorem func_unplaced (table : Signatures) (g : Func Node) :
    func (table.map Signature.unplaced) (g.unplaced Node.unplaced) =
      forget (Func.unplaced TypedNode.unplaced) (func table g) := by
  cases g with
  | plain d =>
      simp only [Func.unplaced, func, funcDef_unplaced]
      exact bind_forget fun _ => rfl
  | exported d =>
      simp only [Func.unplaced, func, funcDef_unplaced]
      exact bind_forget fun _ => rfl
  | imported i => rfl

theorem mapM_func_unplaced (table : Signatures) (funcs : List (Func Node)) :
    (funcs.map (Func.unplaced Node.unplaced)).mapM (func (table.map Signature.unplaced)) =
      forget (List.map (Func.unplaced TypedNode.unplaced)) (funcs.mapM (func table)) := by
  induction funcs with
  | nil => rfl
  | cons g funcs ih =>
      rw [List.map_cons, List.mapM_cons, List.mapM_cons, func_unplaced, ih]
      refine bind_forget fun first => ?_
      exact bind_forget fun _ => rfl

end Check

/-- Checking a program without its places gives what checking the program gives, without its
places. -/
theorem checkProgram_unplaced (p : Program Node) :
    checkProgram (p.unplaced Node.unplaced) =
      Check.forget (Program.unplaced TypedNode.unplaced) (checkProgram p) := by
  simp only [checkProgram_eq, Program.unplaced, Check.memories_unplaced]
  rw [← List.map_nil (f := Signature.unplaced), Check.foldlM_declare_unplaced]
  refine Check.bind_forget fun table => ?_
  refine Check.bind_forget fun _ => ?_
  rw [Check.mapM_func_unplaced]
  exact Check.bind_forget fun _ => rfl

end Wattle
