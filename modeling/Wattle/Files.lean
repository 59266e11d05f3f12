/-!
# Files

The files that a command reads and writes, seen through two operations that can fail. A folder in
memory is one such place; the disk of the machine is another.
-/

namespace Wattle

/-- Why a file cannot be read or written. -/
inductive FileFault where
  | missing
  | notText
  | other (reason : String)
deriving DecidableEq

def FileFault.reason : FileFault → String
  | missing => "No such file or directory (os error 2)"
  | notText => "stream did not contain valid UTF-8"
  | other reason => reason

/-- A place that holds files, in a monad where it can be used. -/
structure Files (m : Type → Type) where
  read : String → m (Except FileFault ByteArray)
  write : String → ByteArray → m (Except FileFault Unit)

def Files.readText {m : Type → Type} [Monad m] (files : Files m) (path : String) :
    m (Except FileFault String) := do
  match ← files.read path with
  | .error fault => return .error fault
  | .ok bytes =>
    match String.fromUTF8? bytes with
    | some text => return .ok text
    | none => return .error .notText

/-- A folder in memory: the names on the way to each file, and its content. -/
structure Folder where
  files : List (List String × ByteArray)

namespace Folder

/-- The names on the way to a file; a single dot stays in place. -/
def names (path : String) : List String :=
  ((path.splitOn "/").filter fun name => name ≠ "" ∧ name ≠ ".")

def single (path : String) (content : ByteArray) : Folder :=
  ⟨[(names path, content)]⟩

def content? (f : Folder) (path : String) : Option ByteArray :=
  f.files.lookup (names path)

/-- Whether a folder with the given names on the way to it exists: the root does, and so does
every folder on the way to a file. -/
def hasFolder (f : Folder) (folder : List String) : Bool :=
  folder.isEmpty || f.files.any fun file => folder.isPrefixOf file.1.dropLast

def put (f : Folder) (path : String) (content : ByteArray) : Folder :=
  ⟨(names path, content) :: f.files.filter (·.1 ≠ names path)⟩

/-- A folder in memory as a place that holds files. A file is created only in a folder that
exists. -/
def asFiles : Files (StateM Folder) where
  read path := do
    match (← get).content? path with
    | some bytes => return .ok bytes
    | none => return .error .missing
  write path content := do
    if (← get).hasFolder (names path).dropLast then
      modify (·.put path content)
      return .ok ()
    else return .error .missing

end Folder

end Wattle
