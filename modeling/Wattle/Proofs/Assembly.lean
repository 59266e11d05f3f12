import Mathlib.Data.List.Sort
import Mathlib.Order.Bounds.Defs
import Wattle.Proofs.EmittedModule
import Wattle.Proofs.LexicalStructure
import Wattle.Proofs.ParserSound
import Wattle.Proofs.TypeDecision

/-!
# The items of a module

The module of a program is laid out in four passes over two lists of declarations. Together they
give every declaration one item: first the imports, then the definitions, both in the order of the
declarations. Read back from the module, the identifiers of its functions are distinct, so are the
names under which the host sees functions and memories, and there is one memory at most, of as many
pages as its bytes need.
-/

namespace Wattle

/-- A function or a memory of a program. -/
inductive Declared (α : Type) where
  | func (declared : Func α)
  | memory (declared : Memory)

namespace Declared

variable {α : Type}

/-- The word that items for such declarations begin with. -/
def word : Declared α → String
  | func _ => "func"
  | memory _ => "memory"

def name : Declared α → String
  | func f => f.signature.name
  | memory m => m.name

def node : Declared α → Node
  | func f => f.node
  | memory m => m.node

def isImport : Declared α → Bool
  | func (.imported _) => true
  | func _ => false
  | memory m => m.kind ≠ .plain ∧ m.kind ≠ .exported

def isExported : Declared α → Bool
  | func f => f.isExported
  | memory m => m.kind = .exported

/-- The word and the identifier that the item of a declaration begins with. -/
def heading (d : Declared α) : String × String :=
  (d.word, "$" ++ d.name)

/-- The number of pages of a memory, as text. -/
def pages? : Declared α → Option String
  | func _ => none
  | memory m => some (toString (Lower.pagesFor m.size))

end Declared

/-- All declarations of a program: its functions in order, and its memories. -/
def Program.declarations {α : Type} (p : Program α) : List (Declared α) :=
  p.funcs.map .func ++ p.memories.map .memory

/-! ## Reading items -/

namespace Wasm.SExpr

def isImport : SExpr → Bool
  | list (atom word :: _) => word = "import"
  | _ => false

/-- What an import item brings in, and any other item itself. -/
def subject (item : SExpr) : SExpr :=
  match item with
  | list [atom word, _, _, inner] => if word = "import" then inner else item
  | _ => item

/-- What stands on the opening line of an item. -/
def head : SExpr → List SExpr
  | atom _ => []
  | list items => items
  | block head _ => head

/-- What stands below the opening line of an item. -/
def body : SExpr → List SExpr
  | block _ body => body
  | _ => []

/-- The word that an item begins with and the identifier behind it. -/
def declared? (item : SExpr) : Option (String × String) :=
  match item.subject.head with
  | atom word :: atom identifier :: _ => some (word, identifier)
  | _ => none

/-- The identifiers of the items that begin with the given word. -/
def identifiers (word : String) (items : List SExpr) : List String :=
  ((items.filterMap declared?).filter (·.1 = word)).map Prod.snd

/-- The number at the end of a memory item. -/
def pages? (item : SExpr) : Option String :=
  match item.subject.head, item.subject.head.getLast? with
  | atom word :: _, some (atom number) => if word = "memory" then some number else none
  | _, _ => none

/-- The name in a list that is an export mark. -/
def marked : List SExpr → List String
  | [atom word, atom name] => if word = "export" then [name] else []
  | _ => []

mutual

/-- The names in all export marks of a tree. -/
def exportNames : SExpr → List String
  | atom _ => []
  | list items => marked items ++ exportNamesAll items
  | block head body => marked head ++ exportNamesAll head ++ exportNamesAll body

def exportNamesAll : List SExpr → List String
  | [] => []
  | e :: rest => e.exportNames ++ exportNamesAll rest

end

theorem exportNamesAll_append (items items' : List SExpr) :
    exportNamesAll (items ++ items') = exportNamesAll items ++ exportNamesAll items' := by
  induction items with
  | nil => rfl
  | cons e rest ih => simp [exportNamesAll, ih]

theorem marked_of_word {word : String} (hword : word ≠ "export") (rest : List SExpr) :
    marked (atom word :: rest) = [] := by
  unfold marked
  split
  · next heq =>
    obtain ⟨⟨⟩, -⟩ := List.cons.inj heq
    rw [if_neg hword]
  · rfl

theorem exportNamesAll_atoms {α : Type} (f : α → String) (l : List α) :
    exportNamesAll (l.map fun a => atom (f a)) = [] := by
  induction l with
  | nil => rfl
  | cons a l ih => simp [exportNamesAll, exportNames, ih]

end Wasm.SExpr

namespace Wasm

open SExpr

theorem exportNamesAll_typeList {word : String} (hword : word ≠ "export")
    (types : List ValueType) : exportNamesAll (typeList word types) = [] := by
  unfold typeList
  split
  · rfl
  · simp [exportNamesAll, exportNames, marked_of_word hword, exportNamesAll_atoms]

theorem exportNamesAll_funcType (type : FuncType) : exportNamesAll type.items = [] := by
  simp [FuncType.items, exportNamesAll_append, exportNamesAll_typeList]

mutual

/-- Code exports nothing. -/
theorem Instr.exportNames_toSExpr : (i : Instr) → i.toSExpr.exportNames = []
  | .block body | .loop body => by
      simp [toSExpr, exportNames, exportNamesAll, marked, Instr.exportNames_toSExprs body]
  | .const _ _ | .localGet _ | .localSet _ | .numeric _ _ _ | .convert _ _ _ _ | .eqz _
  | .load _ | .store _ | .call _ | .br _ | .brIf _ | .drop | .ret => by
      simp [toSExpr, exportNames]

theorem Instr.exportNames_toSExprs : (code : List Instr) → exportNamesAll (toSExprs code) = []
  | [] => rfl
  | i :: rest => by
      simp [toSExprs, exportNamesAll, Instr.exportNames_toSExpr i, Instr.exportNames_toSExprs rest]

end

/-- What is to be read in an item. -/
structure SExpr.Shows (item : SExpr) (imported : Bool) (word name : String) (exported : Bool)
    (pages : Option String) : Prop where
  imported : item.isImport = imported
  declared : item.declared? = some (word, "$" ++ name)
  exports : item.exportNames = if exported then ["\"" ++ name ++ "\""] else []
  pages : item.pages? = pages

theorem exportNamesAll_exportMark (exported : Bool) (name : String) :
    exportNamesAll (exportMark exported name) =
      if exported then ["\"" ++ name ++ "\""] else [] := by
  cases exported <;> simp [exportMark, exportNamesAll, exportNames, marked, quoted]

theorem Func.shows (f : Func) : f.toSExpr.Shows false "func" f.name f.exported none where
  imported := rfl
  declared := rfl
  exports := by
    simp [toSExpr, exportNames, marked_of_word, exportNamesAll, identifier, exportNamesAll_append,
      exportNamesAll_exportMark, exportNamesAll_funcType, exportNamesAll_typeList,
      Instr.exportNames_toSExprs]
  pages := by
    simp only [toSExpr, pages?, subject, head, List.cons_append]
    split
    · next heq _ =>
      obtain ⟨⟨⟩, -⟩ := List.cons.inj heq
      rfl
    · rfl

theorem Memory.shows (m : Memory) (exported : Bool) :
    (m.toSExpr exported).Shows false "memory" m.name exported (some (toString m.pages)) where
  imported := rfl
  declared := by cases exported <;> rfl
  exports := by
    simp [toSExpr, exportNames, marked_of_word, exportNamesAll, identifier, exportNamesAll_append,
      exportNamesAll_exportMark]
  pages := by cases exported <;> rfl

theorem ImportedFunc.shows (f : ImportedFunc) :
    f.toSExpr.Shows true "func" f.name false none where
  imported := rfl
  declared := rfl
  exports := by
    simp [toSExpr, importItem, exportNames, marked_of_word, exportNamesAll, identifier, quoted,
      exportNamesAll_funcType]
  pages := by
    simp only [toSExpr, importItem, pages?, subject, head, quoted, if_true]
    split
    · next heq _ =>
      obtain ⟨⟨⟩, -⟩ := List.cons.inj heq
      rfl
    · rfl

theorem ImportedMemory.shows (m : ImportedMemory) :
    m.toSExpr.Shows true "memory" m.memory.name false (some (toString m.memory.pages)) where
  imported := rfl
  declared := rfl
  exports := by
    simp [toSExpr, importItem, exportNames, marked_of_word, exportNamesAll, quoted,
      (m.memory.shows false).exports]
  pages := rfl

end Wasm

/-! ## The item of a declaration -/

namespace Lower

open Wasm

/-- The item that a declaration becomes. -/
def item : Declared TypedNode → Except LowerError SExpr
  | .func (.plain d) => (func false d).map Wasm.Func.toSExpr
  | .func (.exported d) => (func true d).map Wasm.Func.toSExpr
  | .func (.imported i) => (funcType i.signature).map fun type =>
      ImportedFunc.toSExpr ⟨importName i.path, i.signature.name, type⟩
  | .memory m => .ok <|
      match m.kind with
      | .plain => DefinedMemory.toSExpr ⟨false, memory m⟩
      | .exported => DefinedMemory.toSExpr ⟨true, memory m⟩
      | .imported path => ImportedMemory.toSExpr ⟨importName path, memory m⟩

/-- The item says what the declaration says. -/
theorem item_shows {d : Declared TypedNode} {s : SExpr} (h : item d = .ok s) :
    s.Shows d.isImport d.word d.name d.isExported d.pages? := by
  cases d with
  | func declared =>
      cases declared with
      | imported i =>
          obtain ⟨type, -, rfl⟩ := except_map_eq_ok.mp h
          exact ImportedFunc.shows _
      | plain definition | exported definition =>
          obtain ⟨f, hf, rfl⟩ := except_map_eq_ok.mp h
          obtain ⟨-, -, -, -, -, -, hname, hexported⟩ := func_eq_ok hf
          have hshows := f.shows
          rwa [hname, hexported] at hshows
  | memory m =>
      obtain rfl := Except.ok.inj h
      obtain ⟨node, name, size, kind⟩ := m
      cases kind with
      | imported path => exact ImportedMemory.shows _
      | plain | exported => exact Memory.shows _ _

/-- What a pass over declarations finds for one of them: its item if the pass keeps it, and
nothing otherwise. -/
def Found {β : Type} (keep : Declared TypedNode → Bool) (shown : β → SExpr)
    (d : Declared TypedNode) (found : Option β) : Prop :=
  keep d = true ∧ (∃ b, found = some b ∧ item d = .ok (shown b)) ∨ keep d = false ∧ found = none

theorem forall₂_pass {α β : Type} {declaration : α → Declared TypedNode}
    {keep : Declared TypedNode → Bool} {shown : β → SExpr} {l : List α} {each : List (Option β)}
    (h : List.Forall₂ (fun a found => Found keep shown (declaration a) found) l each) :
    List.Forall₂ (fun d s => item d = .ok s) ((l.map declaration).filter keep)
      ((each.filterMap id).map shown) := by
  induction h with
  | nil => exact .nil
  | cons hstep _ ih =>
      obtain ⟨hkeep, b, rfl, hitem⟩ | ⟨hkeep, rfl⟩ := hstep
      · rw [List.map_cons, List.filter_cons_of_pos hkeep]
        exact .cons hitem ih
      · rw [List.map_cons, List.filter_cons_of_neg (by simp [hkeep])]
        exact ih

theorem importedFunc?_found {f : Func TypedNode} {found : Option ImportedFunc}
    (h : importedFunc? f = .ok found) :
    Found Declared.isImport ImportedFunc.toSExpr (.func f) found := by
  cases f with
  | imported i =>
      simp only [importedFunc?, except_bind_eq_ok, except_pure_eq_ok] at h
      obtain ⟨type, htype, rfl⟩ := h
      exact .inl ⟨rfl, _, rfl, except_map_eq_ok.mpr ⟨type, htype, rfl⟩⟩
  | plain d | exported d =>
      obtain rfl := Except.ok.inj h
      exact .inr ⟨rfl, rfl⟩

theorem func?_found {f : Func TypedNode} {found : Option Wasm.Func} (h : func? f = .ok found) :
    Found (!Declared.isImport ·) Wasm.Func.toSExpr (.func f) found := by
  cases f with
  | imported i =>
      obtain rfl := Except.ok.inj h
      exact .inr ⟨rfl, rfl⟩
  | plain d | exported d =>
      simp only [func?, except_bind_eq_ok, except_pure_eq_ok] at h
      obtain ⟨g, hg, rfl⟩ := h
      exact .inl ⟨rfl, g, rfl, except_map_eq_ok.mpr ⟨g, hg, rfl⟩⟩

theorem importedMemory?_found (m : Memory) :
    Found Declared.isImport ImportedMemory.toSExpr (.memory m) (importedMemory? m) := by
  obtain ⟨node, name, size, kind⟩ := m
  cases kind with
  | imported path => exact .inl ⟨rfl, _, rfl, rfl⟩
  | plain | exported => exact .inr ⟨rfl, rfl⟩

theorem definedMemory?_found (m : Memory) :
    Found (!Declared.isImport ·) DefinedMemory.toSExpr (.memory m) (definedMemory? m) := by
  obtain ⟨node, name, size, kind⟩ := m
  cases kind with
  | imported path => exact .inr ⟨rfl, rfl⟩
  | plain | exported => exact .inl ⟨rfl, _, rfl, rfl⟩

theorem forall₂_memories {β : Type} {keep : Declared TypedNode → Bool} {shown : β → SExpr}
    {find : Memory → Option β} (hfound : ∀ m, Found keep shown (.memory m) (find m))
    (memories : List Memory) :
    List.Forall₂ (fun d s => item d = .ok s) ((memories.map .memory).filter keep)
      ((memories.filterMap find).map shown) := by
  have heach : memories.filterMap find = (memories.map find).filterMap id := by
    rw [List.filterMap_map, Function.id_comp]
  rw [heach]
  apply forall₂_pass
  rw [List.forall₂_map_right_iff, List.forall₂_same]
  exact fun m _ => hfound m

/-- The four passes give the items of the imports, then those of the definitions. -/
theorem lowerProgram_items {p : Program TypedNode} {m : Module} (h : lowerProgram p = .ok m) :
    List.Forall₂ (fun d s => item d = .ok s)
      (p.declarations.filter Declared.isImport ++
        p.declarations.filter (!Declared.isImport ·)) m.toSExpr.body := by
  obtain ⟨imports, funcs, himports, hfuncs, hm₁, hm₂, hm₃, hm₄⟩ := lowerProgram_eq_ok h
  have hfirst := forall₂_pass (himports.imp fun _ _ => importedFunc?_found)
  have hsecond := forall₂_memories importedMemory?_found p.memories
  have hthird := forall₂_pass (hfuncs.imp fun _ _ => func?_found)
  have hfourth := forall₂_memories definedMemory?_found p.memories
  rw [Module.toSExpr, SExpr.body, hm₁, hm₂, hm₃, hm₄, List.append_assoc]
  simp only [Program.declarations, List.filter_append]
  exact List.rel_append (List.rel_append hfirst hsecond) (List.rel_append hthird hfourth)

end Lower

/-! ## Names and pages -/

section Names

open Wasm.SExpr

variable {declared : List (Declared TypedNode)} {items : List Wasm.SExpr}

theorem identifiers_of_items (word : String)
    (h : List.Forall₂ (fun d s => Lower.item d = .ok s) declared items) :
    identifiers word items =
      (declared.filter (·.word = word)).map fun d => "$" ++ d.name := by
  induction h with
  | nil => rfl
  | @cons d s _ _ hitem _ ih =>
      simp only [identifiers] at ih
      rw [identifiers, List.filterMap_cons_some (Lower.item_shows hitem).declared]
      by_cases hword : d.word = word <;> simp [hword, ih]

theorem exportNames_of_items
    (h : List.Forall₂ (fun d s => Lower.item d = .ok s) declared items) :
    exportNamesAll items =
      (declared.filter Declared.isExported).map fun d => "\"" ++ d.name ++ "\"" := by
  induction h with
  | nil => rfl
  | @cons d s _ _ hitem _ ih =>
      rw [exportNamesAll, (Lower.item_shows hitem).exports, ih]
      cases hexported : d.isExported <;> simp [hexported]

end Names

theorem pagesFor_isLeast (bytes : UInt32) :
    IsLeast {n | bytes.toNat ≤ n * 65536} (Lower.pagesFor bytes) := by
  simp only [Lower.pagesFor, Lower.pageSize]
  constructor
  · change bytes.toNat ≤ _ * 65536
    omega
  · intro n hn
    change bytes.toNat ≤ n * 65536 at hn
    omega

theorem pagesFor_le (bytes : UInt32) : Lower.pagesFor bytes ≤ 65536 := by
  have hbytes := bytes.toNat_lt
  simp only [Lower.pagesFor, Lower.pageSize]
  omega

/-- What an accepted source text declares is what it spells. -/
theorem typedProgram_eq_ok {source : String} {p : Program TypedNode}
    (h : Compile.typedProgram source = .ok p) :
    ∃ tokens, tokenize source = .ok tokens ∧ parseProgram tokens = .ok p.erase ∧
      checkProgram p.erase = .ok p := by
  simp only [Compile.typedProgram, Compile.program, Compile.tokens, except_bind_eq_ok,
    except_mapError_eq_ok] at h
  obtain ⟨read, ⟨tokens, htokens, hread⟩, hcheck⟩ := h
  have hfree := (parseProgram_sound (tokenize_hasValue htokens) hread).1
  obtain ⟨-, rfl⟩ := checkProgram_sound hfree hcheck
  exact ⟨tokens, htokens, hread, hcheck⟩

namespace Program

variable {p : Program TypedNode}

theorem erased_memories (hcheck : checkProgram p.erase = .ok p) :
    p.memories.length ≤ 1 ∧ ∀ m ∈ p.memories, m.kind = .exported →
      ∀ f ∈ p.funcs, f.isExported = true → f.signature.name ≠ m.name := by
  obtain ⟨-, -, hmemories, -, -⟩ := checkProgram_eq_ok.mp hcheck
  obtain ⟨hone, hapart⟩ := Check.memories_eq_ok.mp hmemories
  refine ⟨hone, fun m hm hkind f hf hexported => ?_⟩
  have happart' := hapart m hm hkind (f.map TypedNode.toNode) (List.mem_map_of_mem hf)
  rw [Func.map_signature] at happart'
  apply happart'
  cases f <;> exact hexported

/-- The names of the exported declarations of a checked program are distinct. -/
theorem exported_nodup (hcheck : checkProgram p.erase = .ok p)
    (hnames : (p.funcs.map (·.signature.name)).Nodup) :
    ((p.declarations.filter Declared.isExported).map Declared.name).Nodup := by
  obtain ⟨hone, hapart⟩ := erased_memories hcheck
  have hfuncs : (((p.funcs.map Declared.func).filter Declared.isExported).map
      Declared.name).Nodup := by
    rw [List.filter_map, List.map_map]
    exact hnames.sublist (List.filter_sublist.map _)
  match hlist : p.memories, hone with
  | [], _ => simpa [declarations, hlist] using hfuncs
  | [m], _ =>
      rw [declarations, hlist, List.filter_append, List.map_append]
      by_cases hkind : m.kind = .exported
      · have hnew := hapart m (hlist ▸ List.mem_cons_self) hkind
        refine List.nodup_append.mpr ⟨hfuncs, by simp [Declared.isExported, hkind], ?_⟩
        intro name hname name' hname'
        obtain ⟨d, hd, rfl⟩ := List.mem_map.mp hname
        obtain ⟨hd, hexported⟩ := List.mem_filter.mp hd
        obtain ⟨f, hf, rfl⟩ := List.mem_map.mp hd
        obtain rfl : name' = m.name := by
          simpa [Declared.isExported, hkind, Declared.name] using hname'
        exact hnew f hf hexported
      · simpa [Declared.isExported, hkind] using hfuncs

end Program

/-- Distinct names stay distinct in another order and in another writing. -/
theorem Declared.names_nodup {declared ordered : List (Declared TypedNode)}
    (hperm : ordered.Perm declared) {keep : Declared TypedNode → Bool}
    (written : String → String) (hwritten : Function.Injective written)
    (h : ((declared.filter keep).map name).Nodup) :
    ((ordered.filter keep).map fun d => written d.name).Nodup := by
  have hmap := h.map hwritten
  rw [List.map_map] at hmap
  exact ((hperm.filter keep).map _).nodup_iff.mpr hmap

theorem Program.filter_word (p : Program TypedNode) :
    p.declarations.filter (·.word = "func") = p.funcs.map .func ∧
      p.declarations.filter (·.word = "memory") = p.memories.map .memory := by
  constructor <;>
    simp [declarations, List.filter_append, List.filter_map, Function.comp_def, Declared.word]

/-- Every declaration of an accepted source text becomes one item of the module, and the module
has no others: first the imports, then the definitions, in both the functions in the order in which
they are written and then a memory. Functions have identifiers of their own, and functions and
memories together have export names of their own. There is one memory at most, of the least number
of pages that holds its bytes. -/
theorem module_holds_every_declaration {source text : String} (h : compile source = .ok text) :
    ∃ tokens p items digits, tokenize source = .ok tokens ∧
      Compile.typedProgram source = .ok p ∧
      p.erase.yield digits = dropTrailingCommas (sentence tokens) ∧
      text = (Wasm.SExpr.block [.atom "module"] items).render ∧
      List.Forall₂ (fun d item => Lower.item d = .ok item ∧
          item.Shows d.isImport d.word d.name d.isExported d.pages?)
        (p.declarations.filter Declared.isImport ++
          p.declarations.filter (!Declared.isImport ·)) items ∧
      (Wasm.SExpr.identifiers "func" items).Nodup ∧
      (Wasm.SExpr.exportNamesAll items).Nodup ∧
      (Wasm.SExpr.identifiers "memory" items).length ≤ 1 ∧
      ∀ m ∈ p.memories, IsLeast {n | m.size.toNat ≤ n * 65536} (Lower.pagesFor m.size) ∧
        Lower.pagesFor m.size ≤ 65536 := by
  obtain ⟨p, m, hp, hm, rfl⟩ := compile_eq_ok.mp h
  obtain ⟨tokens, htokens, hread, hcheck⟩ := typedProgram_eq_ok hp
  obtain ⟨-, digits, -, hyield⟩ :=
    parseProgram_reads_sentence (endOfFile_mem_of_tokenize htokens) hread
  have hnames := (typedProgram_sound hp).1.names
  have hitems := Lower.lowerProgram_items hm
  have hperm := List.filter_append_perm Declared.isImport p.declarations
  refine ⟨tokens, p, m.toSExpr.body, digits, htokens, hp, hyield, rfl, ?_, ?_, ?_, ?_, ?_⟩
  · exact hitems.imp fun d item hitem => ⟨hitem, Lower.item_shows hitem⟩
  · rw [identifiers_of_items "func" hitems]
    apply Declared.names_nodup hperm ("$" ++ ·) fun _ _ => (String.append_right_inj _).mp
    rw [p.filter_word.1, List.map_map]
    exact hnames
  · rw [exportNames_of_items hitems]
    apply Declared.names_nodup hperm ("\"" ++ · ++ "\"")
    · intro name name' hsame
      exact (String.append_right_inj _).mp ((String.append_left_inj _).mp hsame)
    · exact Program.exported_nodup hcheck hnames
  · rw [identifiers_of_items "memory" hitems, List.length_map, (hperm.filter _).length_eq,
      p.filter_word.2, List.length_map]
    exact (Program.erased_memories hcheck).1
  · exact fun m _ => ⟨pagesFor_isLeast m.size, pagesFor_le m.size⟩

/-- A memory that is written before the functions and shares its name with one of them, and a
function that is imported behind a definition. -/
theorem private_function_named_like_memory :
    ∃ (text : String) (p : Program TypedNode) (items : List Wasm.SExpr), compile
        ("memory export m(65537); func m(): void { } func import(env::log) log(x: i32): void; "
          ++ "func export f(): void { log(1); m(); }") = .ok text ∧
      text = "(module\n  (import \"env\" \"log\" (func $log (param i32)))\n  (func $m\n  )\n"
        ++ "  (func $f (export \"f\")\n    i32.const 1\n    call $log\n    call $m\n  )\n"
        ++ "  (memory $m (export \"m\") 2)\n)\n" ∧
      text = (Wasm.SExpr.block [.atom "module"] items).render ∧
      List.Forall₂ (fun d item => Lower.item d = .ok item ∧
          item.Shows d.isImport d.word d.name d.isExported d.pages?)
        (p.declarations.filter Declared.isImport ++
          p.declarations.filter (!Declared.isImport ·)) items ∧
      (Wasm.SExpr.identifiers "func" items).Nodup ∧
      (Wasm.SExpr.exportNamesAll items).Nodup := by
  have hcompiled : compile
      ("memory export m(65537); func m(): void { } func import(env::log) log(x: i32): void; "
        ++ "func export f(): void { log(1); m(); }") =
      .ok ("(module\n  (import \"env\" \"log\" (func $log (param i32)))\n  (func $m\n  )\n"
        ++ "  (func $f (export \"f\")\n    i32.const 1\n    call $log\n    call $m\n  )\n"
        ++ "  (memory $m (export \"m\") 2)\n)\n") := by
    decide +kernel
  obtain ⟨-, p, items, -, -, -, -, htext, hitems, hidentifiers, hexports, -, -⟩ :=
    module_holds_every_declaration hcompiled
  exact ⟨_, p, items, hcompiled, rfl, htext, hitems, hidentifiers, hexports⟩

/-- All declarations of a program in the order in which they were read. -/
def Program.inOrder (p : Program TypedNode) : List (Declared TypedNode) :=
  p.declarations.insertionSort fun d d' => d.node.id ≤ d'.node.id

/-- A memory does not keep its place among the definitions, and an imported one may have the
identifier of a function. -/
theorem memories_stand_apart_from_functions :
    (¬ ∀ source p m, Compile.typedProgram source = .ok p → lowerProgram p = .ok m →
      (m.toSExpr.body.filter (!Wasm.SExpr.isImport ·)).filterMap Wasm.SExpr.declared? =
        (p.inOrder.filter (!Declared.isImport ·)).map Declared.heading) ∧
    ¬ ∀ source m, Compile.wasmModule source = .ok m →
      ((m.toSExpr.body.filter fun item =>
          item.isImport || item.declared?.any (·.1 = "func")).filterMap
        fun item => item.declared?.map Prod.snd).Nodup := by
  constructor
  · intro hclaim
    have hmoved : (do
        let p ← Compile.typedProgram "memory m(1); func f(): void { }"
        let m ← (lowerProgram p).mapError .lowering
        return ((m.toSExpr.body.filter (!Wasm.SExpr.isImport ·)).filterMap Wasm.SExpr.declared?,
          (p.inOrder.filter (!Declared.isImport ·)).map Declared.heading)) =
        .ok ([("func", "$f"), ("memory", "$m")], [("memory", "$m"), ("func", "$f")]) := by
      decide +kernel
    simp only [except_bind_eq_ok, except_mapError_eq_ok, except_pure_eq_ok] at hmoved
    obtain ⟨p, hp, m, hm, hboth⟩ := hmoved
    obtain ⟨hitems, horder⟩ := Prod.mk.inj hboth
    have hsame := hclaim _ p m hp hm
    rw [hitems, horder] at hsame
    revert hsame
    decide
  · intro hclaim
    have hshared : (Compile.wasmModule "memory import(env::m) f(1); func f(): void { }").map
        (fun m => (m.toSExpr.body.filter fun item =>
            item.isImport || item.declared?.any (·.1 = "func")).filterMap
          fun item => item.declared?.map Prod.snd) = .ok ["$f", "$f"] := by
      decide +kernel
    obtain ⟨m, hm, hidentifiers⟩ := except_map_eq_ok.mp hshared
    have hnodup := hclaim _ m hm
    rw [hidentifiers] at hnodup
    revert hnodup
    decide

end Wattle
