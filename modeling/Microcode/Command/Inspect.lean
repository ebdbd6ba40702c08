import Microcode.Command.Arguments
import Microcode.Command.Files
import Microcode.Flow.Report
import Microcode.Instruction.Disassembly
import Microcode.Program.Reader

/-!
# Microcode.Command.Inspect

The disassembler as a command: reads a control store and shows a range of words as source text, its
decode table, or the report on its control flow.
-/

namespace Microcode

/-- The forms of a report. -/
inductive ReportFormat where
  | text
  | json
deriving DecidableEq, Repr

namespace ReportFormat

def all : List ReportFormat := [.text, .json]

def name : ReportFormat → String
  | .text => "text"
  | .json => "json"

def ofName? (s : String) : Option ReportFormat := all.find? (·.name == s)

end ReportFormat

/-- What to show of a control store, and the file to write it to. -/
inductive Inspection where
  /-- The words from one address up to another, which is not included. -/
  | range (start stop : String) (out : Option String)
  | table
  | analyze (format : ReportFormat) (out : Option String)
deriving DecidableEq, Repr

/-- What the arguments of the disassembler say. -/
structure InspectOptions where
  input : String
  inspection : Inspection
deriving DecidableEq, Repr

/-! ## arguments -/

namespace Inspection

def names : List String := ["range", "table", "analyze"]

/-- The option for the file to write to. -/
def outOption : OptionSpec := { long := "out" }

/-- The option for the form of a report. -/
def formatOption : OptionSpec where
  long := "format"
  accepts s := (ReportFormat.ofName? s).isSome

/-- Reads the arguments after the name of an inspection. -/
def parse (name : String) (args : List String) : Except ArgumentStop Inspection := do
  match name with
  | "range" =>
    let a ← ArgumentForm.read { options := [outOption], positional := [anyValue, anyValue] } args
    match a.positional with
    | [start, stop] => return .range start stop (a.value? "out")
    | _ => throw .usage
  | "table" =>
    let _ ← ArgumentForm.read {} args
    return .table
  | "analyze" =>
    let a ← ArgumentForm.read { options := [formatOption, outOption] } args
    let format := ((a.value? "format").bind ReportFormat.ofName?).getD .text
    return .analyze format (a.value? "out")
  | _ => throw .usage

end Inspection

namespace InspectOptions

/-- The form of what stands before the name of an inspection. -/
def form : ArgumentForm := { positional := [isPath], versioned := true }

/-- Reads the arguments of the disassembler: the control store, then the name of an inspection and
its arguments. -/
def parseFrom (input : Option String) : List String → Except ArgumentStop InspectOptions
  | [] => .error .usage
  | arg :: rest =>
    if Inspection.names.contains arg then do
      let inspection ← Inspection.parse arg rest
      match input with
      | some input => return { input, inspection }
      | none => throw .usage
    else if arg == "help" then
      .error (if rest.all (Inspection.names ++ ["help"]).contains && rest.length ≤ 1 then .help
        else .usage)
    else
      match Dashed.ofArgument? arg with
      | some dashed => do
        let _ ← form.find dashed
        throw .usage
      | none => if input.isSome || !isPath arg then .error .usage else parseFrom (some arg) rest

/-- Reads the arguments of the disassembler. -/
def parse (args : List String) : Except ArgumentStop InspectOptions := parseFrom none args

end InspectOptions

/-! ## inspections -/

namespace Inspector

/-- Why a control store cannot be shown. -/
inductive InspectError where
  | file (fault : FileFault)
  | load (cause : LoadError)
  | address (cause : Text.NumeralError)
  | reversedRange
  | rangeTooLong
deriving DecidableEq, Repr

def InspectError.message : InspectError → String
  | .file fault => fault.message
  | .load cause => cause.message
  | .address cause => cause.message
  | .reversedRange => "end must be >= start"
  | .rangeTooLong => "end must be <= 512"

def wordRow (w : MicroWord) (address : Nat) : String :=
  Text.hex 3 address ++ ": " ++ Text.hex 8 w.toNat ++ "  " ++ w.disassemble ++ "\n"

/-- The words from `start` up to `stop`, which is not included. -/
def rangeText (p : Program) (start stop : Nat) : String :=
  String.join (((p.words.zipIdx.take stop).drop start).map fun (w, address) => wordRow w address)

/-- The line of an opcode in the decode table. -/
def opcodeRow (entry : Option Nat) (opcode : Nat) : String :=
  let target := entry.elim "(unmatched)" (Text.hex 3)
  Text.hex 3 (Program.decodeBase + opcode) ++ ": " ++ Text.binary 8 opcode ++ " -> " ++ target ++
    "\n"

/-- The decode table. -/
def tableText (p : Program) : String :=
  String.join (p.decodeEntries.zipIdx.map fun (entry, opcode) => opcodeRow entry opcode)

/-- The bounds of a range, which must lie in a control store and be in order. -/
def readRange (start stop : String) : Except InspectError (Nat × Nat) := do
  let first ← (Text.readAddress start).mapError .address
  let last ← (Text.readAddress stop).mapError .address
  if last < first then throw .reversedRange
  if Program.size < last then throw .rangeTooLong
  return (first, last)

/-- What an inspection shows. -/
def textOf (p : Program) : Inspection → Except InspectError String
  | .range start stop _ => do
    let (first, last) ← readRange start stop
    return rangeText p first last
  | .table => return tableText p
  | .analyze .text _ => return p.report.toText
  | .analyze .json _ => return p.report.toJson

/-- The file that an inspection is written to. -/
def outOf : Inspection → Option String
  | .range _ _ out => out
  | .table => none
  | .analyze _ out => out

def failureExit : Nat := 1

def failure (e : InspectError) : Outcome :=
  let message := e.message
  { exit := failureExit, errors := s!"Error: {message}\n" }

variable {m : Type → Type} [Monad m] [FileAccess m]

/-- Writes a text to a file, or to the standard output. -/
def deliver (out : Option String) (text : String) : m Outcome := do
  match out with
  | none => return { output := text }
  | some path =>
    match ← writeText path text with
    | .ok () => return {}
    | .error fault => return failure (.file fault)

/-- Runs the disassembler. -/
def runWith (o : InspectOptions) : m Outcome := do
  match ← readText o.input with
  | .error fault => return failure (.file fault)
  | .ok text =>
    match Program.read text with
    | .error cause => return failure (.load cause)
    | .ok p =>
      match textOf p o.inspection with
      | .error e => return failure e
      | .ok text => deliver (outOf o.inspection) text

def usage : String :=
  "Usage: ucode-disasm TABLE range START END [--out FILE]\n" ++
    "       ucode-disasm TABLE table\n" ++
    "       ucode-disasm TABLE analyze [--format text|json] [--out FILE]\n"

/-- Runs the disassembler with the given arguments. -/
def run (args : List String) : m Outcome :=
  match InspectOptions.parse args with
  | .ok o => runWith o
  | .error stop => return stop.outcome usage "ucode-disasm 0.1.0\n"

end Inspector

end Microcode
