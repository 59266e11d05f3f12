import Wattle.Wasm.Instr

/-!
# Modules

A compiled program. In the text format imports come before definitions: first the imported
functions, then imported memories, then functions and memories of the module itself.
-/

namespace Wattle.Wasm

/-- The machine types a function takes and gives. -/
structure FuncType where
  params : List ValueType
  result : Option ValueType
deriving DecidableEq

/-- The names the host knows an imported item by. -/
structure ImportName where
  space : String
  item : String
deriving DecidableEq

/-- A function that the host provides. -/
structure ImportedFunc where
  path : ImportName
  name : String
  type : FuncType
deriving DecidableEq

/-- A function with its code. The locals follow the parameters in slot order. -/
structure Func where
  name : String
  exported : Bool
  type : FuncType
  locals : List ValueType
  body : List Instr

/-- A memory of a number of pages. -/
structure Memory where
  name : String
  pages : Nat
deriving DecidableEq

/-- A memory that the host provides. -/
structure ImportedMemory where
  path : ImportName
  memory : Memory
deriving DecidableEq

/-- A memory of the module. -/
structure DefinedMemory where
  exported : Bool
  memory : Memory
deriving DecidableEq

/-- A compiled program. -/
structure Module where
  importedFuncs : List ImportedFunc
  importedMemories : List ImportedMemory
  funcs : List Func
  memories : List DefinedMemory

def identifier (name : String) : SExpr :=
  .atom ("$" ++ name)

/-- The mark of an item that the host can see under `name`. -/
def exportMark (exported : Bool) (name : String) : List SExpr :=
  if exported then [.list [.atom "export", .quoted name]] else []

/-- Value types behind a keyword, or nothing if there are none. -/
def typeList (word : String) (types : List ValueType) : List SExpr :=
  if types.isEmpty then []
  else [.list (.atom word :: types.map fun type => .atom type.name)]

/-- The parameters and the result of a function. -/
def FuncType.items (type : FuncType) : List SExpr :=
  typeList "param" type.params ++ typeList "result" type.result.toList

def importItem (path : ImportName) (item : SExpr) : SExpr :=
  .list [.atom "import", .quoted path.space, .quoted path.item, item]

def ImportedFunc.toSExpr (f : ImportedFunc) : SExpr :=
  importItem f.path (.list (.atom "func" :: identifier f.name :: f.type.items))

def Memory.toSExpr (m : Memory) (exported : Bool) : SExpr :=
  .list ([.atom "memory", identifier m.name] ++ exportMark exported m.name ++
    [.atom (toString m.pages)])

def ImportedMemory.toSExpr (m : ImportedMemory) : SExpr :=
  importItem m.path (m.memory.toSExpr false)

def DefinedMemory.toSExpr (m : DefinedMemory) : SExpr :=
  m.memory.toSExpr m.exported

def Func.toSExpr (f : Func) : SExpr :=
  .block
    ([.atom "func", identifier f.name] ++ exportMark f.exported f.name ++ f.type.items)
    (typeList "local" f.locals ++ Instr.toSExprs f.body)

def Module.toSExpr (m : Module) : SExpr :=
  .block [.atom "module"]
    (m.importedFuncs.map ImportedFunc.toSExpr ++ m.importedMemories.map ImportedMemory.toSExpr ++
      m.funcs.map Func.toSExpr ++ m.memories.map DefinedMemory.toSExpr)

def Module.text (m : Module) : String :=
  m.toSExpr.render

end Wattle.Wasm
