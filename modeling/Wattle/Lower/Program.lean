import Wattle.Lower.Stmt
import Wattle.Wasm.Module

/-!
# Code for programs

Every function and memory of a program becomes one item of the module.
-/

namespace Wattle

namespace Lower

/-- The machine types a function takes and gives. -/
def funcType (signature : Signature) : Except LowerError Wasm.FuncType := do
  let params ← signature.parameters.mapM fun p => valueType p.type
  let result ←
    if signature.result.isVoid then pure none else some <$> valueType signature.result
  return ⟨params, result⟩

/-- The scope at the start of a body: each parameter has the slot of its position. -/
def parameterScope (parameters : List Parameter) : Scope Nat :=
  parameters.zipIdx.foldl (fun scope (p, slot) => scope.insert p.name slot) .root

def body (slots : SlotTable) (d : FuncDef TypedNode) : Except LowerError (List Wasm.Instr) :=
  match stmts slots d.body (parameterScope d.signature.parameters) with
  | .ok code _ => .ok code
  | .error e _ => .error e

def func (exported : Bool) (d : FuncDef TypedNode) : Except LowerError Wasm.Func := do
  let slots ← SlotTable.allocate d
  let code ← body slots d
  let type ← funcType d.signature
  return ⟨d.signature.name, exported, type, slots.locals, code⟩

def importName (path : ImportPath) : Wasm.ImportName :=
  ⟨path.nameSpace, path.specifier⟩

/-- The import that a function declaration makes, if it is one. -/
def importedFunc? : Func TypedNode → Except LowerError (Option Wasm.ImportedFunc)
  | .imported i => return some ⟨importName i.path, i.signature.name, ← funcType i.signature⟩
  | .plain _ | .exported _ => return none

/-- The definition that a function declaration makes, if it is one. -/
def func? : Func TypedNode → Except LowerError (Option Wasm.Func)
  | .plain d => return some (← func false d)
  | .exported d => return some (← func true d)
  | .imported _ => return none

def memory (m : Memory) : Wasm.Memory :=
  ⟨m.name, pagesFor m.size⟩

/-- The import that a memory declaration makes, if it is one. -/
def importedMemory? (m : Memory) : Option Wasm.ImportedMemory :=
  match m.kind with
  | .imported path => some ⟨importName path, memory m⟩
  | .plain | .exported => none

/-- The definition that a memory declaration makes, if it is one. -/
def definedMemory? (m : Memory) : Option Wasm.DefinedMemory :=
  match m.kind with
  | .plain => some ⟨false, memory m⟩
  | .exported => some ⟨true, memory m⟩
  | .imported _ => none

end Lower

/-- The module that a checked program compiles to. -/
def lowerProgram (p : Program TypedNode) : Except LowerError Wasm.Module := do
  let importedFuncs ← p.funcs.mapM Lower.importedFunc?
  let funcs ← p.funcs.mapM Lower.func?
  return {
    importedFuncs := importedFuncs.filterMap id
    importedMemories := p.memories.filterMap Lower.importedMemory?
    funcs := funcs.filterMap id
    memories := p.memories.filterMap Lower.definedMemory? }

end Wattle
