import Microcode.Assembly.Listing
import Microcode.Command.Arguments
import Microcode.Command.Files
import Microcode.Program.Writer

/-!
# Microcode.Command.Assemble

The assembler as a command: reads a source, writes the control store and, if asked to, a listing.

If the source is wrong, nothing is written.  If the listing cannot be written, the control store is
removed again, so that a failed run leaves none behind.
-/

namespace Microcode

/-- What the arguments of the assembler say. -/
structure AssembleOptions where
  listing : Option String := none
  format : TableFormat := .vhdl
  tieBreak : TieBreak := .first
  source : String
  output : String
deriving DecidableEq, Repr

def TieBreak.word : TieBreak → String
  | .first => "first"
  | .reject => "reject"

def TieBreak.ofWord? (s : String) : Option TieBreak := all.find? (·.word == s)

namespace AssembleOptions

def form : ArgumentForm where
  options := [
    { long := "listing", short := some 'l', accepts := isPath },
    { long := "format", short := some 'f', accepts := fun s => (TableFormat.ofName? s).isSome },
    { long := "tie-break", accepts := fun s => (TieBreak.ofWord? s).isSome }]
  positional := [isPath, isPath]
  versioned := true

def parse (args : List String) : Except ArgumentStop AssembleOptions := do
  let a ← form.read args
  match a.positional with
  | [source, output] =>
    return {
      listing := a.value? "listing"
      format := ((a.value? "format").bind TableFormat.ofName?).getD .vhdl
      tieBreak := ((a.value? "tie-break").bind TieBreak.ofWord?).getD .first
      source
      output
    }
  | _ => throw .usage

end AssembleOptions

namespace Assembler

def sourceExit : Nat := 22

def fileExit : Nat := 74

/-- What is written about an assembly error in a source file: the lines that are to blame, each
followed by where it stands and what is wrong with it. -/
def diagnostics (file : String) (e : AsmError) : String :=
  let message := e.message
  match e with
  | .source _ text _ => s!"{text}\n{file}:{message}\n"
  | .undefinedLabels jumps =>
    let rows := jumps.map fun jump => jump.text ++ "\n" ++ file ++ ":" ++ jump.undefinedMessage
    "\n".intercalate (rows ++ ["quitting due to previous label error(s)\n"])
  | .tooManyInstructions _ => s!"{file}:error:{message}.\n"
  | .encoding _ => s!"{file}:error:{message}.\n"

/-- The outcome of a file error. -/
def fileFailure (activity path : String) (fault : FileFault) : Outcome :=
  let cause := fault.message
  { exit := fileExit, errors := s!"error: {activity} {path}: {cause}\n" }

variable {m : Type → Type} [Monad m] [FileAccess m]

/-- Writes the control store, then the listing. -/
def writeOutputs (o : AssembleOptions) (asm : Assembly) : m Outcome := do
  match ← writeText o.output (asm.program.write o.format) with
  | .error fault => return fileFailure "writing" o.output fault
  | .ok () =>
    match o.listing with
    | none => return {}
    | some path =>
      match ← writeText path asm.listing with
      | .ok () => return {}
      | .error fault =>
        FileAccess.removeFile o.output
        return fileFailure "writing" path fault

/-- Runs the assembler. -/
def runWith (o : AssembleOptions) : m Outcome := do
  match ← readText o.source with
  | .error fault => return fileFailure "reading" o.source fault
  | .ok source =>
    match assemble { tieBreak := o.tieBreak } source with
    | .error e => return { exit := sourceExit, errors := diagnostics o.source e }
    | .ok asm => writeOutputs o asm

def usage : String :=
  "Usage: ucode-asm [-l FILE] [-f vhdl|verilog|json] [--tie-break first|reject] SOURCE OUTPUT\n"

/-- Runs the assembler with the given arguments. -/
def run (args : List String) : m Outcome :=
  match AssembleOptions.parse args with
  | .ok o => runWith o
  | .error stop => return stop.outcome usage "ucode-asm 0.1.0\n"

end Assembler

end Microcode
