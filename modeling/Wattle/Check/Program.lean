import Wattle.Check.Stmt

/-!
# Rules of programs

All signatures are collected first, so a body may call any function of the program. Function
names are distinct, parameters are distinct and have values, there is at most one memory, and an
exported memory shares its name with no exported function.
-/

namespace Wattle

namespace Check

/-- Insist that parameters have values and names that are distinct and not among `seen`. -/
def parameters (seen : List String) : List Parameter → Except CheckError Unit
  | [] => .ok ()
  | p :: rest =>
    if p.type.isVoid then .error ⟨p.span.start, .voidParameter p.name⟩
    else if p.name ∈ seen then .error ⟨p.span.start, .duplicateParameter p.name⟩
    else parameters (p.name :: seen) rest

def declare (table : Signatures) (func : Func Node) : Except CheckError Signatures := do
  parameters [] func.signature.parameters
  if (findFunction? table func.signature.name).isSome then
    .error ⟨func.node.start, .duplicateFunction func.signature.name⟩
  else return func.signature :: table

/-- Insist on at most one memory, with an export name of its own. -/
def memories (funcs : List (Func Node)) : List Memory → Except CheckError Unit
  | [] => .ok ()
  | [m] =>
    if m.kind = .exported ∧ funcs.any (fun f => f.isExported && f.signature.name = m.name) then
      .error ⟨m.node.start, .exportCollision m.name⟩
    else .ok ()
  | _ :: m :: _ => .error ⟨m.node.start, .secondMemory⟩

/-- The scope at the start of a body: the parameters. -/
def parameterScope (parameters : List Parameter) : Scope Symbol :=
  parameters.foldl (fun scope p => scope.insert p.name ⟨p.type, .parameter⟩) .root

/-- Whether a list of statements ends in a `return`. -/
def endsInReturn {α : Type} (body : List (Stmt α)) : Bool :=
  body.getLast?.any Stmt.isReturn

/-- Check the body of a function. A function that gives a value must end in a `return`. -/
def funcDef (table : Signatures) (d : FuncDef Node) : Except CheckError (FuncDef TypedNode) :=
  match stmts table d.signature.result false d.body (parameterScope d.signature.parameters) with
  | .error e _ => .error e
  | .ok body _ =>
    if !d.signature.result.isVoid && !endsInReturn d.body then
      let location := (d.body.getLast?.map Stmt.start).getD d.node.start
      .error ⟨location, .missingReturn d.signature.name⟩
    else .ok ⟨d.node, d.signature, body⟩

/-- Check a function; an import has nothing to check but its signature. -/
def func (table : Signatures) : Func Node → Except CheckError (Func TypedNode)
  | .plain d => return .plain (← funcDef table d)
  | .exported d => return .exported (← funcDef table d)
  | .imported i => return .imported i

/-- Check a program. The state is the table of signatures of the program checked last; it starts
empty for every program. -/
def program (p : Program Node) : EStateM CheckError Signatures (Program TypedNode) := do
  set ([] : Signatures)
  set (← ofExcept (p.funcs.foldlM declare (← get)))
  ofExcept (memories p.funcs p.memories)
  let table ← get
  let funcs ← ofExcept (p.funcs.mapM (func table))
  return ⟨funcs, p.memories⟩

end Check

def checkProgram (p : Program Node) : Except CheckError (Program TypedNode) :=
  match Check.program p [] with
  | .ok typed _ => .ok typed
  | .error e _ => .error e

end Wattle
