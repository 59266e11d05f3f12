import Wattle.Proofs.CheckerSound

/-!
# Renaming local names

Parameters, variables and constants are known by their names inside one function only, while
functions and memories have names of another kind. Checking compares local names with each other
and with nothing else, so a program whose local names are replaced, different ones by different
ones, is checked to the same types, or breaks the same rule at the same place.
-/

namespace Wattle

/-! ## Renamed programs -/

namespace Expr

variable {α : Type}

mutual

/-- Rename the variables of an expression; the functions that it calls keep their names. -/
def renamed (r : String → String) : Expr α → Expr α
  | name n id => name n (r id)
  | number n digits type => number n digits type
  | call n callee args => call n callee (listRenamed r args)
  | unary n op operand => unary n op (operand.renamed r)
  | binary n op left right => binary n op (left.renamed r) (right.renamed r)
  | paren n inner => paren n (inner.renamed r)
  | cast n operand target => cast n (operand.renamed r) target

def listRenamed (r : String → String) : List (Expr α) → List (Expr α)
  | [] => []
  | e :: rest => e.renamed r :: listRenamed r rest

end

@[simp] theorem note_renamed (r : String → String) (e : Expr α) : (e.renamed r).note = e.note := by
  cases e <;> rfl

@[simp] theorem type_renamed (r : String → String) (e : Expr TypedNode) :
    (e.renamed r).type = e.type := by
  rw [type, type, note_renamed]

theorem length_listRenamed (r : String → String) (es : List (Expr α)) :
    (listRenamed r es).length = es.length := by
  induction es with
  | nil => rfl
  | cons e es ih => rw [listRenamed, List.length_cons, List.length_cons, ih]

end Expr

namespace Stmt

variable {α : Type}

mutual

/-- Rename the variables that a statement declares and those that it uses. -/
def renamed (r : String → String) : Stmt α → Stmt α
  | cond n arms otherwise => cond n (armsRenamed r arms) (elseRenamed r otherwise)
  | loop n condition body => loop n (condition.renamed r) (listRenamed r body)
  | ret n value => ret n (value.map (Expr.renamed r))
  | declare n kind name type initial => declare n kind (r name) type (initial.renamed r)
  | expr n value => expr n (value.renamed r)

def listRenamed (r : String → String) : List (Stmt α) → List (Stmt α)
  | [] => []
  | s :: rest => s.renamed r :: listRenamed r rest

def armRenamed (r : String → String) : Arm α → Arm α
  | ⟨condition, body, span⟩ => ⟨condition.renamed r, listRenamed r body, span⟩

def armsRenamed (r : String → String) : List (Arm α) → List (Arm α)
  | [] => []
  | a :: rest => armRenamed r a :: armsRenamed r rest

def elseRenamed (r : String → String) : Option (List (Stmt α)) → Option (List (Stmt α))
  | none => none
  | some body => some (listRenamed r body)

end

@[simp] theorem node_renamed (r : String → String) (s : Stmt α) : (s.renamed r).node = s.node := by
  cases s <;> rfl

@[simp] theorem start_renamed (r : String → String) (s : Stmt α) :
    (s.renamed r).start = s.start := by
  rw [start, start, node_renamed]

@[simp] theorem isReturn_renamed (r : String → String) (s : Stmt α) :
    (s.renamed r).isReturn = s.isReturn := by
  cases s <;> rfl

theorem listRenamed_eq_map (r : String → String) (body : List (Stmt α)) :
    listRenamed r body = body.map (renamed r) := by
  induction body with
  | nil => rfl
  | cons s rest ih => rw [listRenamed, ih, List.map_cons]

end Stmt

def Parameter.renamed (r : String → String) (p : Parameter) : Parameter :=
  { p with name := r p.name }

/-- Rename the parameters of a function, which keeps its own name. -/
def Signature.renamed (r : String → String) (s : Signature) : Signature :=
  { s with parameters := s.parameters.map (Parameter.renamed r) }

def FuncDef.renamed {α : Type} (r : String → String) (d : FuncDef α) : FuncDef α :=
  ⟨d.node, d.signature.renamed r, Stmt.listRenamed r d.body⟩

def Func.renamed {α : Type} (r : String → String) : Func α → Func α
  | plain d => plain (d.renamed r)
  | exported d => exported (d.renamed r)
  | imported i => imported { i with signature := i.signature.renamed r }

/-- Rename every parameter, every declared variable or constant, and every use of one. -/
def Program.renamed {α : Type} (r : String → String) (p : Program α) : Program α :=
  ⟨p.funcs.map (Func.renamed r), p.memories⟩

/-! ## Renamed complaints -/

def Use.renamed (r : String → String) : Use → Use
  | initializer name => initializer (r name)
  | use => use

/-- The same rule broken, told with the new local names. -/
def Violation.renamed (r : String → String) : Violation → Violation
  | duplicateParameter name => duplicateParameter (r name)
  | voidParameter name => voidParameter (r name)
  | undefinedVariable name => undefinedVariable (r name)
  | typeMismatch use expected found => typeMismatch (use.renamed r) expected found
  | immutable kind name => immutable kind (r name)
  | violation => violation

def CheckError.renamed (r : String → String) (e : CheckError) : CheckError :=
  ⟨e.location, e.violation.renamed r⟩

/-! ## Renamed scopes -/

namespace Scope

variable {β : Type}

def frameRenamed (r : String → String) (frame : Frame β) : Frame β :=
  frame.map fun binding => (r binding.1, binding.2)

def renamed (r : String → String) (s : Scope β) : Scope β :=
  ⟨frameRenamed r s.inner, s.outer.map (frameRenamed r)⟩

theorem push_renamed (r : String → String) (s : Scope β) :
    s.push.renamed r = (s.renamed r).push := rfl

theorem pop_renamed (r : String → String) (s : Scope β) :
    s.pop.renamed r = (s.renamed r).pop := by
  obtain ⟨inner, outer⟩ := s
  cases outer <;> rfl

theorem insert_renamed (r : String → String) (name : String) (value : β) (s : Scope β) :
    (s.insert name value).renamed r = (s.renamed r).insert (r name) value := rfl

section Lookup

variable {r : String → String} (hr : Function.Injective r)
include hr

theorem lookup_frameRenamed (frame : Frame β) (name : String) :
    (frameRenamed r frame).lookup (r name) = frame.lookup name := by
  induction frame with
  | nil => rfl
  | cons binding frame ih =>
      have hsame : (r name == r binding.1) = (name == binding.1) := by
        rw [Bool.eq_iff_iff, beq_iff_eq, beq_iff_eq, hr.eq_iff]
      have hcons : frameRenamed r (binding :: frame) =
          (r binding.1, binding.2) :: frameRenamed r frame := rfl
      rw [hcons, List.lookup_cons, List.lookup_cons, hsame, ih]

/-- A new name finds what the old one finds. -/
theorem lookup?_renamed (s : Scope β) (name : String) :
    (s.renamed r).lookup? (r name) = s.lookup? name := by
  have hframes : (s.renamed r).frames = s.frames.map (frameRenamed r) := rfl
  simp only [lookup?, hframes, List.findSome?_map, Function.comp_def, lookup_frameRenamed hr]

end Lookup

theorem foldl_insert_renamed {ι : Type} (r : String → String) (name : ι → String) (value : ι → β)
    (items : List ι) (s : Scope β) :
    items.foldl (fun s i => s.insert (r (name i)) (value i)) (s.renamed r) =
      (items.foldl (fun s i => s.insert (name i) (value i)) s).renamed r := by
  induction items generalizing s with
  | nil => rfl
  | cons i items ih => rw [List.foldl_cons, List.foldl_cons, ← insert_renamed, ih]

end Scope

/-! ## Outcomes carried over -/

section Recast

variable {ε ε' σ σ' α α' β β' : Type}

/-- The outcome of a computation with another result or another error in its place. -/
def recast (g : ε → ε') (f : α → β) : Except ε α → Except ε' β
  | .ok a => .ok (f a)
  | .error e => .error (g e)

theorem bind_recast {g : ε → ε'} {f : α → α'} {h : β → β'} {x : Except ε α}
    {k : α → Except ε β} {k' : α' → Except ε' β'} (hk : ∀ a, k' (f a) = recast g h (k a)) :
    recast g f x >>= k' = recast g h (x >>= k) := by
  cases x with
  | error e => rfl
  | ok a => exact hk a

theorem mapM_recast {g : ε → ε'} {v : α → α'} {f : β → β'} {q : α → Except ε β}
    {q' : α' → Except ε' β'} (hq : ∀ a, q' (v a) = recast g f (q a)) (items : List α) :
    (items.map v).mapM q' = recast g (List.map f) (items.mapM q) := by
  induction items with
  | nil => rfl
  | cons a items ih =>
      rw [List.map_cons, List.mapM_cons, List.mapM_cons, hq, ih]
      refine bind_recast fun first => ?_
      exact bind_recast fun _ => rfl

/-- `p'` does in the image of a state what `p` does in the state. -/
def Recasts (v : σ → σ') (g : ε → ε') (f : α → α') (p : EStateM ε σ α) (p' : EStateM ε' σ' α') :
    Prop :=
  ∀ s, p' (v s) = match p s with
    | .ok a t => .ok (f a) (v t)
    | .error e t => .error (g e) (v t)

namespace Recasts

variable {v : σ → σ'} {g : ε → ε'} {f : α → α'} {h : β → β'} {p : EStateM ε σ α}
  {p' : EStateM ε' σ' α'} {k : α → EStateM ε σ β} {k' : α' → EStateM ε' σ' β'}

theorem pure (f : α → α') (a : α) :
    Recasts v g f (Pure.pure a : EStateM ε σ α) (Pure.pure (f a)) :=
  fun _ => rfl

theorem throw (e : ε) :
    Recasts v g f (MonadExcept.throw e : EStateM ε σ α) (MonadExcept.throw (g e)) :=
  fun _ => rfl

theorem bind (hp : Recasts v g f p p') (hk : ∀ a, Recasts v g h (k a) (k' (f a))) :
    Recasts v g h (p >>= k) (p' >>= k') := by
  intro s
  simp only [Bind.bind, EStateM.bind, hp s]
  cases p s with
  | ok a t => exact hk a t
  | error e t => rfl

theorem lift {x : Except ε α} {x' : Except ε' α'} (hx : x' = recast g f x) :
    Recasts v g f (ofExcept x : EStateM ε σ α) (ofExcept x') := by
  subst hx
  cases x <;> exact fun _ => rfl

end Recasts

end Recast

namespace Scope

variable {ε ε' α α' β : Type} {r : String → String} {g : ε → ε'} {f : α → α'}

theorem asking_renamed {q : Scope β → Except ε α} {q' : Scope β → Except ε' α'}
    (h : ∀ s, q' (s.renamed r) = recast g f (q s)) :
    Recasts (renamed r) g f (asking q) (asking q') := by
  intro s
  simp only [asking, h s]
  cases q s <;> rfl

theorem within_renamed {p : EStateM ε (Scope β) α} {p' : EStateM ε' (Scope β) α'}
    (h : Recasts (renamed r) g f p p') : Recasts (renamed r) g f (within p) (within p') := by
  intro s
  simp only [within, ← push_renamed, h s.push]
  cases p s.push <;> simp only [pop_renamed]

theorem bind_renamed (name : String) (value : β) :
    Recasts (renamed r) g id (Scope.bind name value) (Scope.bind (r name) value) :=
  fun _ => rfl

end Scope

/-! ## Checking -/

namespace Check

/-- The outcome of a check of the renamed tree. -/
abbrev renamedOutcome {α β : Type} (r : String → String) (f : α → β) :
    Except CheckError α → Except CheckError β :=
  recast (CheckError.renamed r) f

/-- `p'` checks the renamed tree that `p` checks. -/
abbrev ChecksRenamed {α : Type} (r : String → String) (f : α → α) (p p' : Checker α) : Prop :=
  Recasts (Scope.renamed r) (CheckError.renamed r) f p p'

theorem findFunction?_renamed (r : String → String) (table : Signatures) (name : String) :
    findFunction? (table.map (Signature.renamed r)) name =
      (findFunction? table name).map (Signature.renamed r) := by
  rw [findFunction?, findFunction?, List.find?_map]
  rfl

theorem require_renamed {r : String → String} {use use' : Use} (huse : use.renamed r = use')
    (expected : Ty) (e : Expr TypedNode) :
    require expected use' (e.renamed r) = renamedOutcome r id (require expected use e) := by
  subst huse
  simp only [require, Expr.type_renamed, Expr.note_renamed]
  split <;> rfl

theorem unaryType_renamed (r : String → String) (op : UnaryOp) (operand : Expr TypedNode)
    (location : Location) :
    unaryType op (operand.renamed r) location =
      renamedOutcome r id (unaryType op operand location) := by
  cases op with
  | negate =>
      simp only [unaryType, Expr.type_renamed]
      split <;> rfl
  | deref =>
      simp only [unaryType, Expr.type_renamed]
      split <;> rfl
  | logicalNot =>
      have huse : (Use.operand .logicalNot).renamed r = .operand .logicalNot := rfl
      simp only [unaryType, require_renamed huse]
      exact bind_recast fun _ => rfl

theorem binaryType_renamed (r : String → String) (op : BinaryOp) (left right : Expr TypedNode)
    (location : Location) :
    binaryType op (left.renamed r) (right.renamed r) location =
      renamedOutcome r id (binaryType op left right location) := by
  simp only [binaryType, Expr.type_renamed]
  split
  · rfl
  · split <;> rfl

section Trees

variable {r : String → String}

theorem resolve_renamed (hr : Function.Injective r) (scope : Scope Symbol) (name : String)
    (location : Location) :
    resolve (scope.renamed r) (r name) location =
      renamedOutcome r id (resolve scope name location) := by
  simp only [resolve, Scope.lookup?_renamed hr]
  cases scope.lookup? name <;> rfl

theorem assignable_renamed (hr : Function.Injective r) (scope : Scope Symbol) (e : Expr Node) :
    assignable (scope.renamed r) (e.renamed r) = renamedOutcome r id (assignable scope e) := by
  cases e with
  | name node id =>
      simp only [Expr.renamed, assignable, resolve_renamed hr]
      refine bind_recast fun symbol => ?_
      dsimp only [id_eq]
      split <;> rfl
  | unary node op operand => cases op <;> rfl
  | number node digits type => rfl
  | call node callee args => rfl
  | binary node op left right => rfl
  | paren node inner => rfl
  | cast node operand target => rfl

variable (table : Signatures)

mutual

theorem expr_renamed (hr : Function.Injective r) (scope : Scope Symbol) : (e : Expr Node) →
    expr (table.map (Signature.renamed r)) (scope.renamed r) (e.renamed r) =
      renamedOutcome r (Expr.renamed r) (expr table scope e)
  | .name node id => by
      simp only [Expr.renamed, expr, resolve_renamed hr]
      exact bind_recast fun _ => rfl
  | .number node digits type => rfl
  | .call node callee args => by
      simp only [Expr.renamed, expr, findFunction?_renamed]
      cases findFunction? table callee with
      | none => rfl
      | some signature =>
          simp only [Option.map_some, Expr.length_listRenamed, Signature.renamed, List.length_map]
          split
          · rw [arguments_renamed hr scope callee 1 args signature.parameters]
            exact bind_recast fun _ => rfl
          · rfl
  | .unary node op operand => by
      simp only [Expr.renamed, expr, expr_renamed hr scope operand]
      refine bind_recast fun typed => ?_
      rw [unaryType_renamed]
      exact bind_recast fun _ => rfl
  | .binary node op left right => by
      simp only [Expr.renamed, expr, expr_renamed hr scope left, expr_renamed hr scope right]
      split
      · rw [assignable_renamed hr]
        refine bind_recast fun _ => ?_
        refine bind_recast fun target => ?_
        refine bind_recast fun value => ?_
        have huse : Use.assignment.renamed r = .assignment := rfl
        rw [Expr.type_renamed, require_renamed huse]
        exact bind_recast fun _ => rfl
      · refine bind_recast fun first => ?_
        refine bind_recast fun second => ?_
        rw [binaryType_renamed]
        exact bind_recast fun _ => rfl
  | .paren node inner => by
      simp only [Expr.renamed, expr, expr_renamed hr scope inner]
      refine bind_recast fun typed => ?_
      rw [Expr.type_renamed]
      rfl
  | .cast node operand target => by
      simp only [Expr.renamed, expr, expr_renamed hr scope operand]
      refine bind_recast fun typed => ?_
      rw [Expr.type_renamed]
      split <;> rfl

theorem arguments_renamed (hr : Function.Injective r) (scope : Scope Symbol) :
    (callee : String) → (index : Nat) → (args : List (Expr Node)) → (parameters : List Parameter) →
    arguments (table.map (Signature.renamed r)) (scope.renamed r) callee index
        (Expr.listRenamed r args) (parameters.map (Parameter.renamed r)) =
      renamedOutcome r (Expr.listRenamed r) (arguments table scope callee index args parameters)
  | _, _, [], _ => by
      simp only [Expr.listRenamed, arguments]
      rfl
  | _, _, _ :: _, [] => by
      simp only [Expr.listRenamed, List.map_nil, arguments]
      rfl
  | callee, index, arg :: args, parameter :: parameters => by
      simp only [Expr.listRenamed, List.map_cons, arguments, expr_renamed hr scope arg,
        arguments_renamed hr scope callee (index + 1) args parameters]
      refine bind_recast fun first => ?_
      have huse : (Use.argument index callee).renamed r = .argument index callee := rfl
      rw [require_renamed huse]
      refine bind_recast fun _ => ?_
      exact bind_recast fun _ => rfl

end

theorem exprHere_renamed (hr : Function.Injective r) (e : Expr Node) :
    ChecksRenamed r (Expr.renamed r) (exprHere table e)
      (exprHere (table.map (Signature.renamed r)) (e.renamed r)) :=
  Scope.asking_renamed fun scope => expr_renamed table hr scope e

theorem typedHere_renamed (hr : Function.Injective r) {use use' : Use}
    (huse : use.renamed r = use') (expected : Ty) (e : Expr Node) :
    ChecksRenamed r (Expr.renamed r) (typedHere table expected use e)
      (typedHere (table.map (Signature.renamed r)) expected use' (e.renamed r)) := by
  apply Scope.asking_renamed
  intro scope
  rw [expr_renamed table hr]
  refine bind_recast fun typed => ?_
  rw [require_renamed huse]
  exact bind_recast fun _ => rfl

theorem returned_renamed (hr : Function.Injective r) (result : Ty) (location : Location)
    (value : Option (Expr Node)) :
    ChecksRenamed r (Option.map (Expr.renamed r)) (returned table result location value)
      (returned (table.map (Signature.renamed r)) result location
        (value.map (Expr.renamed r))) := by
  cases value with
  | none =>
      simp only [Option.map_none, returned]
      split
      · exact .pure _ none
      · exact .throw _
  | some value =>
      simp only [Option.map_some, returned]
      split
      · exact .throw _
      · exact .bind (typedHere_renamed table hr rfl result value) fun typed =>
          .pure _ (some typed)

variable (result : Ty)

mutual

theorem stmt_renamed (hr : Function.Injective r) : (s : Stmt Node) →
    ChecksRenamed r (Stmt.renamed r) (stmt table result s)
      (stmt (table.map (Signature.renamed r)) result (s.renamed r))
  | .cond node first otherwise => by
      simp only [Stmt.renamed, stmt]
      refine .bind (arms_renamed hr .if_ first) fun typed => ?_
      exact .bind (elseBody_renamed hr otherwise) fun last => .pure _ (Stmt.cond node typed last)
  | .loop node condition body => by
      simp only [Stmt.renamed, stmt]
      refine .bind (typedHere_renamed table hr rfl .i32 condition) fun test => ?_
      refine .bind (Scope.within_renamed (stmts_renamed hr false body)) fun inside => ?_
      exact .pure _ (Stmt.loop node test inside)
  | .ret node value => by
      simp only [Stmt.renamed, stmt]
      refine .bind (returned_renamed table hr result node.start value) fun typed => ?_
      exact .pure _ (Stmt.ret node typed)
  | .declare node kind name type initial => by
      simp only [Stmt.renamed, stmt]
      refine .bind (typedHere_renamed table hr rfl type initial) fun typed => ?_
      exact .bind (Scope.bind_renamed name _) fun _ =>
        .pure _ (Stmt.declare node kind name type typed)
  | .expr node value => by
      simp only [Stmt.renamed, stmt]
      exact .bind (exprHere_renamed table hr value) fun typed => .pure _ (Stmt.expr node typed)

theorem stmts_renamed (hr : Function.Injective r) (unreachable : Bool) :
    (body : List (Stmt Node)) →
    ChecksRenamed r (Stmt.listRenamed r) (stmts table result unreachable body)
      (stmts (table.map (Signature.renamed r)) result unreachable (Stmt.listRenamed r body))
  | [] => .pure _ []
  | s :: rest => by
      simp only [Stmt.listRenamed, stmts, Stmt.start_renamed, Stmt.isReturn_renamed]
      split
      · exact .throw _
      · refine .bind (stmt_renamed hr s) fun first => ?_
        exact .bind (stmts_renamed hr s.isReturn rest) fun others => .pure _ (first :: others)

theorem arm_renamed (hr : Function.Injective r) (word : Keyword) : (a : Arm Node) →
    ChecksRenamed r (Stmt.armRenamed r) (arm table result word a)
      (arm (table.map (Signature.renamed r)) result word (Stmt.armRenamed r a))
  | ⟨condition, body, span⟩ => by
      simp only [Stmt.armRenamed, arm]
      refine .bind (typedHere_renamed table hr rfl .i32 condition) fun test => ?_
      refine .bind (Scope.within_renamed (stmts_renamed hr false body)) fun inside => ?_
      exact .pure _ (Arm.mk test inside span)

theorem arms_renamed (hr : Function.Injective r) (word : Keyword) : (branches : List (Arm Node)) →
    ChecksRenamed r (Stmt.armsRenamed r) (arms table result word branches)
      (arms (table.map (Signature.renamed r)) result word (Stmt.armsRenamed r branches))
  | [] => .pure _ []
  | a :: rest => by
      simp only [Stmt.armsRenamed, arms]
      refine .bind (arm_renamed hr word a) fun first => ?_
      exact .bind (arms_renamed hr .elif rest) fun others => .pure _ (first :: others)

theorem elseBody_renamed (hr : Function.Injective r) :
    (otherwise : Option (List (Stmt Node))) →
    ChecksRenamed r (Stmt.elseRenamed r) (elseBody table result otherwise)
      (elseBody (table.map (Signature.renamed r)) result (Stmt.elseRenamed r otherwise))
  | none => .pure _ none
  | some body => by
      simp only [Stmt.elseRenamed, elseBody]
      exact .bind (Scope.within_renamed (stmts_renamed hr false body)) fun inside =>
        .pure _ (some inside)

end

end Trees

section Programs

variable {r : String → String}

theorem parameters_renamed (hr : Function.Injective r) (seen : List String)
    (ps : List Parameter) :
    parameters (seen.map r) (ps.map (Parameter.renamed r)) =
      renamedOutcome r id (parameters seen ps) := by
  induction ps generalizing seen with
  | nil => rfl
  | cons p ps ih =>
      have hseen : r p.name ∈ seen.map r ↔ p.name ∈ seen := List.mem_map_of_injective hr
      simp only [List.map_cons, parameters, Parameter.renamed, hseen]
      split
      · rfl
      · split
        · rfl
        · exact ih (p.name :: seen)

theorem signature_renamed {α : Type} (r : String → String) (f : Func α) :
    (f.renamed r).signature = f.signature.renamed r := by
  cases f <;> rfl

theorem declare_renamed (hr : Function.Injective r) (table : Signatures) (f : Func Node) :
    declare (table.map (Signature.renamed r)) (f.renamed r) =
      renamedOutcome r (List.map (Signature.renamed r)) (declare table f) := by
  have hnode : (f.renamed r).node = f.node := by cases f <;> rfl
  have hparameters := parameters_renamed hr [] f.signature.parameters
  simp only [List.map_nil] at hparameters
  simp only [declare, signature_renamed, Signature.renamed, hparameters, hnode]
  refine bind_recast fun _ => ?_
  rw [findFunction?_renamed, Option.isSome_map]
  split <;> rfl

theorem foldlM_declare_renamed (hr : Function.Injective r) (table : Signatures)
    (funcs : List (Func Node)) :
    (funcs.map (Func.renamed r)).foldlM declare (table.map (Signature.renamed r)) =
      renamedOutcome r (List.map (Signature.renamed r)) (funcs.foldlM declare table) := by
  induction funcs generalizing table with
  | nil => rfl
  | cons f funcs ih =>
      rw [List.map_cons, List.foldlM_cons, List.foldlM_cons, declare_renamed hr]
      exact bind_recast fun table' => ih table'

theorem memories_renamed (r : String → String) (funcs : List (Func Node)) (ms : List Memory) :
    memories (funcs.map (Func.renamed r)) ms = renamedOutcome r id (memories funcs ms) := by
  match ms with
  | [] => rfl
  | [m] =>
      have hexports : (funcs.map (Func.renamed r)).any
          (fun f => f.isExported && f.signature.name = m.name) =
          funcs.any (fun f => f.isExported && f.signature.name = m.name) := by
        rw [List.any_map]
        congr 1
        funext f
        cases f <;> rfl
      simp only [memories, hexports]
      split <;> rfl
  | _ :: m :: _ => rfl

theorem parameterScope_renamed (r : String → String) (ps : List Parameter) :
    parameterScope (ps.map (Parameter.renamed r)) = (parameterScope ps).renamed r := by
  rw [parameterScope, parameterScope, List.foldl_map]
  exact Scope.foldl_insert_renamed r Parameter.name _ ps Scope.root

theorem endsInReturn_renamed {α : Type} (r : String → String) (body : List (Stmt α)) :
    endsInReturn (Stmt.listRenamed r body) = endsInReturn body := by
  rw [endsInReturn, endsInReturn, Stmt.listRenamed_eq_map, List.getLast?_map]
  cases body.getLast? with
  | none => rfl
  | some s => exact Stmt.isReturn_renamed r s

theorem funcDef_renamed (hr : Function.Injective r) (table : Signatures) (d : FuncDef Node) :
    funcDef (table.map (Signature.renamed r)) (d.renamed r) =
      renamedOutcome r (FuncDef.renamed r) (funcDef table d) := by
  have hrun := stmts_renamed table d.signature.result hr false d.body
    (parameterScope d.signature.parameters)
  have hlast : (Stmt.listRenamed r d.body).getLast?.map Stmt.start =
      d.body.getLast?.map Stmt.start := by
    rw [Stmt.listRenamed_eq_map, List.getLast?_map, Option.map_map]
    congr 1
    funext s
    exact Stmt.start_renamed r s
  simp only [funcDef, FuncDef.renamed, Signature.renamed, parameterScope_renamed, hrun,
    endsInReturn_renamed, hlast]
  cases stmts table d.signature.result false d.body (parameterScope d.signature.parameters) with
  | error e t => rfl
  | ok body t =>
      dsimp only
      split <;> rfl

theorem func_renamed (hr : Function.Injective r) (table : Signatures) (f : Func Node) :
    func (table.map (Signature.renamed r)) (f.renamed r) =
      renamedOutcome r (Func.renamed r) (func table f) := by
  cases f with
  | plain d =>
      simp only [Func.renamed, func, funcDef_renamed hr]
      exact bind_recast fun _ => rfl
  | exported d =>
      simp only [Func.renamed, func, funcDef_renamed hr]
      exact bind_recast fun _ => rfl
  | imported i => rfl

end Programs

end Check

/-- Checking a renamed program gives the renamed outcome of checking the program. -/
theorem checkProgram_renamed {r : String → String} (hr : Function.Injective r)
    (p : Program Node) :
    checkProgram (p.renamed r) =
      recast (CheckError.renamed r) (Program.renamed r) (checkProgram p) := by
  simp only [checkProgram_eq, Program.renamed, Check.memories_renamed]
  rw [← List.map_nil (f := Signature.renamed r), Check.foldlM_declare_renamed hr]
  refine bind_recast fun table => ?_
  refine bind_recast fun _ => ?_
  rw [mapM_recast (Check.func_renamed hr table)]
  exact bind_recast fun _ => rfl

end Wattle
