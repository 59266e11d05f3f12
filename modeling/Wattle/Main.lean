import Wattle.Command

/-!
# The program

Runs a command on the files of the machine.
-/

namespace Wattle

/-- The fault that an error of the operating system stands for. -/
def FileFault.ofError : IO.Error → FileFault
  | .noFileOrDirectory .. => .missing
  | e => .other (toString e)

def attempt {α : Type} (action : IO α) : IO (Except FileFault α) := do
  try return .ok (← action)
  catch e => return .error (.ofError e)

def disk : Files IO where
  read path := attempt (IO.FS.readBinFile path)
  write path content := attempt (IO.FS.writeBinFile path content)

end Wattle

/-- Carry out the command that the arguments ask for. -/
def main (args : List String) : IO UInt32 := do
  match Wattle.Command.ofArgs? args with
  | none =>
    IO.eprint Wattle.Command.usage
    return 2
  | some command =>
    let outcome ← command.run Wattle.disk
    IO.print outcome.stdout
    IO.eprint outcome.stderr
    return UInt32.ofNat outcome.status
