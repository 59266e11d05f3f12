import Mathlib.Data.List.FinRange
import Mathlib.Data.List.ReduceOption
import Mathlib.Logic.Equiv.Basic
import Wattle.Lower.Program
import Wattle.Proofs.TypeDecision

/-!
# The order of declarations does not matter

Signatures are collected before bodies are checked, and a body looks functions up by their names,
which are distinct. So a program whose functions are declared in another order is accepted exactly
if the program is, each function is checked to the same tree, and each becomes the same item of the
module. What was checked before, by the same checker or by another one, plays no part.
-/

namespace Wattle

/-- The program that declares the given functions in the order of their numbers. -/
def Program.declaring {α : Type} {n : Nat} (funcs : Fin n → Func α) (memories : List Memory) :
    Program α :=
  ⟨List.ofFn funcs, memories⟩

/-- Every program is of this form. -/
theorem Program.declaring_get {α : Type} (p : Program α) :
    Program.declaring p.funcs.get p.memories = p := by
  rw [Program.declaring, List.ofFn_get]

namespace Check

/-! ## Tables that say the same -/

/-- Every name means the same function in both tables. -/
def SameFunctions (table table' : Signatures) : Prop :=
  ∀ name, findFunction? table name = findFunction? table' name

theorem findFunction?_iff {table : Signatures} (hnames : (table.map Signature.name).Nodup)
    {name : String} {signature : Signature} :
    findFunction? table name = some signature ↔ signature ∈ table ∧ signature.name = name := by
  constructor
  · intro hfound
    have hcalled := List.find?_some hfound
    exact ⟨findFunction?_mem hfound, of_decide_eq_true hcalled⟩
  · rintro ⟨hmem, hname⟩
    exact findFunction?_eq_some hnames hmem hname

theorem sameFunctions_of_perm {table table' : Signatures} (hperm : table.Perm table')
    (hnames : (table.map Signature.name).Nodup) : SameFunctions table table' := by
  have hnames' : (table'.map Signature.name).Nodup := (hperm.map _).nodup_iff.mp hnames
  intro name
  apply Option.ext
  intro signature
  rw [findFunction?_iff hnames, findFunction?_iff hnames', hperm.mem_iff]

section Trees

variable {table table' : Signatures}

mutual

theorem expr_sameFunctions (h : SameFunctions table table') (scope : Scope Symbol) :
    (e : Expr Node) → expr table scope e = expr table' scope e
  | .name _ _ => rfl
  | .number _ _ _ => rfl
  | .call node callee args => by
      simp only [expr, h callee]
      cases findFunction? table' callee with
      | none => rfl
      | some signature =>
          simp only [arguments_sameFunctions h scope callee 1 args signature.parameters]
  | .unary _ op operand => by simp only [expr, expr_sameFunctions h scope operand]
  | .binary _ op left right => by
      simp only [expr, expr_sameFunctions h scope left, expr_sameFunctions h scope right]
  | .paren _ inner => by simp only [expr, expr_sameFunctions h scope inner]
  | .cast _ operand target => by simp only [expr, expr_sameFunctions h scope operand]

theorem arguments_sameFunctions (h : SameFunctions table table') (scope : Scope Symbol)
    (callee : String) : (index : Nat) → (args : List (Expr Node)) →
    (parameters : List Parameter) →
    arguments table scope callee index args parameters =
      arguments table' scope callee index args parameters
  | _, [], _ => by simp only [arguments]
  | _, _ :: _, [] => by simp only [arguments]
  | index, arg :: args, _ :: parameters => by
      simp only [arguments, expr_sameFunctions h scope arg,
        arguments_sameFunctions h scope callee (index + 1) args parameters]

end

theorem exprHere_sameFunctions (h : SameFunctions table table') (e : Expr Node) :
    exprHere table e = exprHere table' e := by
  simp only [exprHere, expr_sameFunctions h]

theorem typedHere_sameFunctions (h : SameFunctions table table') (expected : Ty) (use : Use)
    (e : Expr Node) : typedHere table expected use e = typedHere table' expected use e := by
  simp only [typedHere, expr_sameFunctions h]

theorem returned_sameFunctions (h : SameFunctions table table') (result : Ty)
    (location : Location) (value : Option (Expr Node)) :
    returned table result location value = returned table' result location value := by
  cases value with
  | none => rfl
  | some value => simp only [returned, typedHere_sameFunctions h]

variable (result : Ty)

mutual

theorem stmt_sameFunctions (h : SameFunctions table table') : (s : Stmt Node) →
    stmt table result s = stmt table' result s
  | .cond _ first otherwise => by
      simp only [stmt, arms_sameFunctions h .if_ first, elseBody_sameFunctions h otherwise]
  | .loop _ condition body => by
      simp only [stmt, typedHere_sameFunctions h, stmts_sameFunctions h false body]
  | .ret _ value => by simp only [stmt, returned_sameFunctions h]
  | .declare _ _ _ _ initial => by simp only [stmt, typedHere_sameFunctions h]
  | .expr _ value => by simp only [stmt, exprHere_sameFunctions h]

theorem stmts_sameFunctions (h : SameFunctions table table') (unreachable : Bool) :
    (body : List (Stmt Node)) →
    stmts table result unreachable body = stmts table' result unreachable body
  | [] => rfl
  | s :: rest => by
      simp only [stmts, stmt_sameFunctions h s, stmts_sameFunctions h s.isReturn rest]

theorem arm_sameFunctions (h : SameFunctions table table') (word : Keyword) : (a : Arm Node) →
    arm table result word a = arm table' result word a
  | ⟨condition, body, _⟩ => by
      simp only [arm, typedHere_sameFunctions h, stmts_sameFunctions h false body]

theorem arms_sameFunctions (h : SameFunctions table table') (word : Keyword) :
    (branches : List (Arm Node)) →
    arms table result word branches = arms table' result word branches
  | [] => rfl
  | a :: rest => by
      simp only [arms, arm_sameFunctions h word a, arms_sameFunctions h .elif rest]

theorem elseBody_sameFunctions (h : SameFunctions table table') :
    (otherwise : Option (List (Stmt Node))) →
    elseBody table result otherwise = elseBody table' result otherwise
  | none => rfl
  | some body => by simp only [elseBody, stmts_sameFunctions h false body]

end

/-- The check of a function asks its table for nothing but the meaning of names. -/
theorem func_sameFunctions (h : SameFunctions table table') (f : Func Node) :
    func table f = func table' f := by
  have hdef : ∀ d, funcDef table d = funcDef table' d := by
    intro d
    simp only [funcDef, stmts_sameFunctions d.signature.result h false d.body]
  cases f with
  | plain d => simp only [func, hdef]
  | exported d => simp only [func, hdef]
  | imported i => rfl

end Trees

/-! ## Programs in another order -/

theorem memories_perm {funcs funcs' : List (Func Node)} (h : funcs.Perm funcs')
    (ms : List Memory) : memories funcs ms = memories funcs' ms := by
  match ms with
  | [] => rfl
  | [m] =>
      have hany : funcs.any (fun f => f.isExported && f.signature.name = m.name) =
          funcs'.any (fun f => f.isExported && f.signature.name = m.name) := by
        rw [Bool.eq_iff_iff, List.any_eq_true, List.any_eq_true]
        simp only [h.mem_iff]
      simp only [memories, hany]
  | _ :: _ :: _ => rfl

/-- Another order of the functions is declared as well, to a table that says the same. -/
theorem declared_perm {funcs funcs' : List (Func Node)} {table : Signatures}
    (hperm : funcs.Perm funcs') (h : funcs.foldlM declare [] = .ok table) :
    ∃ table', funcs'.foldlM declare [] = .ok table' ∧ SameFunctions table table' := by
  obtain ⟨rfl, hnames, -, hparameters⟩ := foldlM_declare.mp h
  refine ⟨(funcs'.map Func.signature).reverse ++ [], ?_, ?_⟩
  · refine foldlM_declare.mpr ⟨rfl, (hperm.map _).nodup_iff.mp hnames, by simp, ?_⟩
    exact fun f hf => hparameters f (hperm.mem_iff.mpr hf)
  · apply sameFunctions_of_perm
    · rw [List.append_nil, List.append_nil]
      exact (List.reverse_perm _).trans ((hperm.map _).trans (List.reverse_perm _).symm)
    · rw [List.append_nil, List.map_reverse, List.nodup_reverse, List.map_map]
      exact hnames

end Check

/-- Steps on numbered items succeed together exactly if each of them does. -/
theorem mapM_ofFn_eq_ok {ε α β : Type} {n : Nat} {f : α → Except ε β} {items : Fin n → α}
    {results : List β} :
    (List.ofFn items).mapM f = .ok results ↔
      ∃ each : Fin n → β, results = List.ofFn each ∧ ∀ i, f (items i) = .ok (each i) := by
  rw [except_mapM_eq_ok]
  constructor
  · intro h
    have hlength : results.length = n := by rw [← h.length_eq, List.length_ofFn]
    subst hlength
    refine ⟨results.get, (List.ofFn_get results).symm, fun i => ?_⟩
    have hi := h.get (by rw [List.length_ofFn]; exact i.isLt) i.isLt
    simpa using hi
  · rintro ⟨each, rfl, heach⟩
    refine List.forall₂_iff_get.mpr ⟨by simp, fun i hi hi' => ?_⟩
    simpa using heach ⟨i, by simpa using hi⟩

theorem checkProgram_declaring_perm {n : Nat} {funcs : Fin n → Func Node}
    {memories : List Memory} {t : Program TypedNode} (σ : Equiv.Perm (Fin n))
    (h : checkProgram (.declaring funcs memories) = .ok t) :
    ∃ typed, t = .declaring typed memories ∧
      checkProgram (.declaring (funcs ∘ σ) memories) = .ok (.declaring (typed ∘ σ) memories) := by
  obtain ⟨table, hdeclare, hmemories, hfuncs, hsame⟩ := checkProgram_eq_ok.mp h
  obtain ⟨typed, htyped, heach⟩ := mapM_ofFn_eq_ok.mp (except_mapM_eq_ok.mpr hfuncs)
  have hperm : (List.ofFn funcs).Perm (List.ofFn (funcs ∘ σ)) := (σ.ofFn_comp_perm funcs).symm
  obtain ⟨table', hdeclare', hsame'⟩ := Check.declared_perm hperm hdeclare
  refine ⟨typed, ?_, checkProgram_eq_ok.mpr ⟨table', hdeclare', ?_, ?_, rfl⟩⟩
  · obtain ⟨funcs', memories'⟩ := t
    obtain rfl := htyped
    obtain rfl := hsame
    rfl
  · exact (Check.memories_perm hperm memories).symm.trans hmemories
  · refine except_mapM_eq_ok.mp (mapM_ofFn_eq_ok.mpr ⟨typed ∘ σ, rfl, fun i => ?_⟩)
    exact (Check.func_sameFunctions hsame' _).symm.trans (heach (σ i))

/-! ## The items of the module -/

namespace Lower

/-- The import item that a function declaration makes, if it makes one. -/
def importItem? (f : Func TypedNode) : Except LowerError (Option Wasm.SExpr) :=
  (importedFunc? f).map (Option.map Wasm.ImportedFunc.toSExpr)

/-- The definition item that a function declaration makes, if it makes one. -/
def definitionItem? (f : Func TypedNode) : Except LowerError (Option Wasm.SExpr) :=
  (func? f).map (Option.map Wasm.Func.toSExpr)

/-- The module with the given items for each of the functions. -/
def assembled {n : Nat} (imports definitions : Fin n → Option Wasm.SExpr)
    (memories : List Memory) : Wasm.SExpr :=
  .block [.atom "module"]
    ((List.ofFn imports).reduceOption ++
      (memories.filterMap importedMemory?).map Wasm.ImportedMemory.toSExpr ++
      (List.ofFn definitions).reduceOption ++
      (memories.filterMap definedMemory?).map Wasm.DefinedMemory.toSExpr)

end Lower

theorem lowerProgram_declaring_eq_ok {n : Nat} {typed : Fin n → Func TypedNode}
    {memories : List Memory} {s : Wasm.SExpr} :
    (lowerProgram (.declaring typed memories)).map Wasm.Module.toSExpr = .ok s ↔
      ∃ imports definitions, (∀ i, Lower.importItem? (typed i) = .ok (imports i)) ∧
        (∀ i, Lower.definitionItem? (typed i) = .ok (definitions i)) ∧
        s = Lower.assembled imports definitions memories := by
  have hshown : ∀ {α : Type} (toSExpr : α → Wasm.SExpr) (each : Fin n → Option α),
      ((List.ofFn each).filterMap id).map toSExpr =
        (List.ofFn fun i => (each i).map toSExpr).reduceOption := by
    intro α toSExpr each
    rw [← List.reduceOption, ← List.reduceOption_map, List.map_ofFn]
    rfl
  simp only [lowerProgram, Program.declaring, except_map_eq_ok, except_bind_eq_ok,
    except_pure_eq_ok, mapM_ofFn_eq_ok, Lower.importItem?, Lower.definitionItem?]
  constructor
  · rintro ⟨m, ⟨_, ⟨imports, rfl, himports⟩, _, ⟨funcs, rfl, hfuncs⟩, rfl⟩, rfl⟩
    refine ⟨_, _, fun i => ⟨imports i, himports i, rfl⟩, fun i => ⟨funcs i, hfuncs i, rfl⟩, ?_⟩
    simp only [Wasm.Module.toSExpr, Lower.assembled, hshown]
  · rintro ⟨_, _, himports, hfuncs, rfl⟩
    choose imports himports hshowImports using himports
    choose funcs hfuncs hshowFuncs using hfuncs
    obtain rfl := funext hshowImports
    obtain rfl := funext hshowFuncs
    refine ⟨_, ⟨_, ⟨imports, rfl, himports⟩, _, ⟨funcs, rfl, hfuncs⟩, rfl⟩, ?_⟩
    simp only [Wasm.Module.toSExpr, Lower.assembled, hshown]

/-- Functions in another order become a module as well, with the same item for each of them. -/
theorem lowerProgram_declaring_perm {n : Nat} {typed : Fin n → Func TypedNode}
    {memories : List Memory} {m : Wasm.Module} (σ : Equiv.Perm (Fin n))
    (h : lowerProgram (.declaring typed memories) = .ok m) :
    ∃ m' imports definitions, lowerProgram (.declaring (typed ∘ σ) memories) = .ok m' ∧
      (∀ i, Lower.importItem? (typed i) = .ok (imports i) ∧
        Lower.definitionItem? (typed i) = .ok (definitions i)) ∧
      m.toSExpr = Lower.assembled imports definitions memories ∧
      m'.toSExpr = Lower.assembled (imports ∘ σ) (definitions ∘ σ) memories := by
  obtain ⟨imports, definitions, himports, hdefinitions, hm⟩ :=
    lowerProgram_declaring_eq_ok.mp (except_map_eq_ok.mpr ⟨m, h, rfl⟩)
  have hperm : (lowerProgram (.declaring (typed ∘ σ) memories)).map Wasm.Module.toSExpr =
      .ok (Lower.assembled (imports ∘ σ) (definitions ∘ σ) memories) :=
    lowerProgram_declaring_eq_ok.mpr
      ⟨_, _, fun i => himports (σ i), fun i => hdefinitions (σ i), rfl⟩
  obtain ⟨m', hm', hshown⟩ := except_map_eq_ok.mp hperm
  exact ⟨m', imports, definitions, hm', fun i => ⟨himports i, hdefinitions i⟩, hm, hshown⟩

/-- What a checker checked before plays no part. -/
theorem checkProgram_eq_ok_iff {p : Program Node} {t : Program TypedNode} (before : Signatures) :
    checkProgram p = .ok t ↔ ∃ u, Check.program p before = .ok t u := by
  have hfresh : Check.program p before = Check.program p [] := rfl
  rw [hfresh, checkProgram]
  cases Check.program p [] <;> simp

/-- Functions in another order, checked after anything else, are accepted exactly if the program
is. Then they are the same checked functions in that order, the two programs become modules or
not together, and each function has the same item in both, at the place of the function. -/
theorem declaration_order_is_irrelevant (p : Program Node)
    (σ : Equiv.Perm (Fin p.funcs.length)) (before before' : Signatures) :
    (∃ e u e' u', Check.program p before = .error e u ∧
      Check.program (.declaring (p.funcs.get ∘ σ) p.memories) before' = .error e' u') ∨
    ∃ typed u u', Check.program p before = .ok (.declaring typed p.memories) u ∧
      Check.program (.declaring (p.funcs.get ∘ σ) p.memories) before' =
        .ok (.declaring (typed ∘ σ) p.memories) u' ∧
      ((∃ e e', lowerProgram (.declaring typed p.memories) = .error e ∧
        lowerProgram (.declaring (typed ∘ σ) p.memories) = .error e') ∨
      ∃ m m' imports definitions, lowerProgram (.declaring typed p.memories) = .ok m ∧
        lowerProgram (.declaring (typed ∘ σ) p.memories) = .ok m' ∧
        (∀ i, Lower.importItem? (typed i) = .ok (imports i) ∧
          Lower.definitionItem? (typed i) = .ok (definitions i)) ∧
        m.toSExpr = Lower.assembled imports definitions p.memories ∧
        m'.toSExpr = Lower.assembled (imports ∘ σ) (definitions ∘ σ) p.memories) := by
  -- the other order of the other order is the program itself
  have hback : ∀ {α : Type} (each : Fin p.funcs.length → α), (each ∘ σ) ∘ σ.symm = each :=
    fun each => by rw [Function.comp_assoc, σ.self_comp_symm, Function.comp_id]
  cases hp : Check.program p before with
  | error e u =>
      cases hp' : Check.program (.declaring (p.funcs.get ∘ σ) p.memories) before' with
      | error e' u' => exact .inl ⟨e, u, e', u', rfl, rfl⟩
      | ok t' u' =>
          have hcheck' := (checkProgram_eq_ok_iff before').mpr ⟨u', hp'⟩
          obtain ⟨typed, -, hcheck⟩ := checkProgram_declaring_perm σ.symm hcheck'
          rw [hback, p.declaring_get, checkProgram_eq_ok_iff before, hp] at hcheck
          obtain ⟨_, hcheck⟩ := hcheck
          cases hcheck
  | ok t u =>
      have hcheck := (checkProgram_eq_ok_iff before).mpr ⟨u, hp⟩
      rw [← p.declaring_get] at hcheck
      obtain ⟨typed, rfl, hcheck'⟩ := checkProgram_declaring_perm σ hcheck
      obtain ⟨u', hp'⟩ := (checkProgram_eq_ok_iff before').mp hcheck'
      refine .inr ⟨typed, u, u', rfl, hp', ?_⟩
      cases hm : lowerProgram (.declaring typed p.memories) with
      | ok m =>
          obtain ⟨m', imports, definitions, hm', hitems, hshown, hshown'⟩ :=
            lowerProgram_declaring_perm σ hm
          exact .inr ⟨m, m', imports, definitions, rfl, hm', hitems, hshown, hshown'⟩
      | error e =>
          cases hm' : lowerProgram (.declaring (typed ∘ σ) p.memories) with
          | error e' => exact .inl ⟨e, e', rfl, rfl⟩
          | ok m' =>
              obtain ⟨m, -, -, hm₂, -⟩ := lowerProgram_declaring_perm σ.symm hm'
              rw [hback, hm] at hm₂
              cases hm₂

end Wattle
