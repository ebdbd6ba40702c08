import Microcode.Command.Assemble
import Microcode.Command.Inspect

/-!
# Microcode.Main

The command line: `asm` runs the assembler and `disasm` the disassembler on the arguments that
follow.
-/

namespace Microcode

/-- Whether a system call gave the error code `n`; some calls give it negated. -/
def isSystemCode (n code : UInt32) : Bool := code == n || code == 0 - n

/-- The fault that a failed system call stands for. -/
def FileFault.ofSystem (e : IO.Error) : FileFault :=
  match e with
  | .noFileOrDirectory .. => .notFound
  | .inappropriateType _ code _ => if isSystemCode 20 code then .notDirectory else .isDirectory
  | .invalidArgument _ code _ => if isSystemCode 36 code then .nameTooLong else .other e.toString
  | _ => .other e.toString

/-- Runs a system call that may fail. -/
def attempt {α : Type} (action : IO α) : IO (Except FileFault α) := do
  try
    return .ok (← action)
  catch e =>
    return .error (.ofSystem e)

instance : FileAccess IO where
  readBytes path := attempt (IO.FS.readBinFile path)
  writeBytes path bytes := attempt (IO.FS.writeBinFile path bytes)
  removeFile path := do
    let _ ← attempt (IO.FS.removeFile path)

/-- The outcome of a call that names no tool. -/
def noTool : Outcome := { exit := usageExit, errors := Assembler.usage ++ Inspector.usage }

end Microcode

open Microcode in
/-- Runs a tool, writes what it has to say, and gives its exit status. -/
def main (args : List String) : IO UInt32 := do
  let outcome ← match args with
    | "asm" :: rest => Assembler.run rest
    | "disasm" :: rest => Inspector.run rest
    | _ => pure noTool
  (← IO.getStdout).putStr outcome.output
  (← IO.getStderr).putStr outcome.errors
  return outcome.exit.toUInt32
