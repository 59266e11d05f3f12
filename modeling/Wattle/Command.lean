import Wattle.Compile
import Wattle.Files
import Wattle.Json.Dump

/-!
# Commands

`compile` turns a source file into text, either the compiled module or a dump of an earlier
stage, and prints it or writes it to a file. `check` only says whether the file is in order.
-/

namespace Wattle

/-- The stage whose result is put out. -/
inductive Emit where
  | tokens | ast | typedAst | wat
deriving DecidableEq

namespace Emit

def all : List Emit :=
  [tokens, ast, typedAst, wat]

def name : Emit → String
  | tokens => "tokens"
  | ast => "ast"
  | typedAst => "typed-ast"
  | wat => "wat"

def ofName? (word : String) : Option Emit :=
  all.find? (·.name = word)

def dumped (j : Json) : String :=
  j.pretty ++ "\n"

/-- The text that a stage puts out for a source text. -/
def text (emit : Emit) (source : String) : Except CompileError String :=
  match emit with
  | tokens => (Compile.tokens source).map fun ts => dumped (Dump.tokens ts)
  | ast => (Compile.program source).map fun p => dumped (Dump.program Dump.untyped p)
  | typedAst => (Compile.typedProgram source).map fun p => dumped (Dump.program Dump.typed p)
  | wat => compile source

end Emit

/-- What the user asks for. -/
inductive Command where
  | compile (input : String) (emit : Emit) (output : Option String)
  | check (input : String)
deriving DecidableEq

/-- What a command leaves behind besides files. -/
structure Outcome where
  status : Nat
  stdout : String
  stderr : String
deriving DecidableEq

namespace Outcome

/-- The command did what was asked and prints `text`. -/
def success (text : String) : Outcome :=
  ⟨0, text, ""⟩

def failure (reason : String) : Outcome :=
  ⟨1, "", reason ++ "\n"⟩

end Outcome

namespace Command

variable {m : Type → Type} [Monad m]

/-- Put a text out: print it, or write it to a file. -/
def deliver (files : Files m) (text : String) : Option String → m Outcome
  | none => return .success text
  | some path => do
    match ← files.write path text.toUTF8 with
    | .ok () => return .success ""
    | .error fault => return .failure s!"failed to write {path}: {fault.reason}"

def withSource (files : Files m) (input : String) (next : String → m Outcome) : m Outcome := do
  match ← files.readText input with
  | .ok source => next source
  | .error fault => return .failure s!"failed to read {input}: {fault.reason}"

def verdict {α : Type} (input : String) (p : Program α) : String :=
  s!"{input}: ok ({p.funcs.length} functions, {p.memories.length} memories)\n"

/-- Carry out a command. Nothing is written unless the compilation succeeds. -/
def run (files : Files m) : Command → m Outcome
  | compile input emit output =>
    withSource files input fun source =>
      match emit.text source with
      | .ok text => deliver files text output
      | .error e => return .failure (e.diagnostic.render source input)
  | check input =>
    withSource files input fun source =>
      match Compile.typedProgram source with
      | .ok p => return .success (verdict input p)
      | .error e => return .failure (e.diagnostic.render source input)

/-- Read the options of `compile`; `input` is the file named so far. -/
def readOptions (emit : Emit) (input output : Option String) : List String → Option Command
  | [] => input.map fun path => compile path emit output
  | "-o" :: path :: rest => readOptions emit input (some path) rest
  | "--output" :: path :: rest => readOptions emit input (some path) rest
  | "--emit" :: stage :: rest =>
    match Emit.ofName? stage with
    | some chosen => readOptions chosen input output rest
    | none => none
  | word :: rest =>
    if input.isSome || word.startsWith "-" then none
    else readOptions emit (some word) output rest

def ofArgs? : List String → Option Command
  | "compile" :: rest => readOptions .wat none none rest
  | ["check", path] => some (check path)
  | _ => none

def usage : String :=
  "usage: compile INPUT [-o OUTPUT] [--emit tokens|ast|typed-ast|wat]\n       check INPUT\n"

end Command

end Wattle
