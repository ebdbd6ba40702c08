import Microcode.Line.Error
import Microcode.Text.Blank

/-!
# Microcode.Assembly.Error

Why a source cannot be assembled, and the wording of it.
-/

namespace Microcode

/-- A jump whose target is still to be found: its label, its line number and the line's text. -/
structure PendingJump where
  label : String
  line : Nat
  text : String
deriving DecidableEq, Repr

namespace PendingJump

/-- The message for a jump to a label that no line defines. -/
def undefinedMessage (j : PendingJump) : String :=
  let line := j.line
  let label := j.label
  s!"{line}:error:undefined label '{label}'."

/-- A jump to an undefined label in a list of such jumps. -/
def undefinedItem (j : PendingJump) : String :=
  let line := j.line
  let label := j.label
  s!"'{label}' (line {line})"

end PendingJump

/-- Why a source cannot be assembled. -/
inductive AsmError where
  /-- A line is wrong; `text` is the line without the blanks it ends with. -/
  | source (line : Nat) (text : String) (cause : LineError)
  /-- Jumps to labels that no line defines, in source order. -/
  | undefinedLabels (jumps : List PendingJump)
  /-- The code does not fit below the decode table. -/
  | tooManyInstructions (count : Nat)
  | encoding (cause : EncodingError)
deriving DecidableEq, Repr

namespace AsmError

/-- An error of the line with the given number and text. -/
def ofLine (line : Nat) (raw : String) (cause : LineError) : AsmError :=
  .source line (Text.trimEndString raw) cause

def message : AsmError → String
  | .source line _ cause =>
    let what := cause.message
    s!"{line}:error:{what}."
  | .undefinedLabels jumps =>
    let count := jumps.length
    s!"{count} undefined label(s): " ++ ", ".intercalate (jumps.map (·.undefinedItem))
  | .tooManyInstructions count =>
    s!"{count} microinstructions do not fit below the decoding table (max 256)"
  | .encoding cause => cause.message

/-- The coarse kind of an assembly error. -/
def kind : AsmError → ErrorKind
  | .source _ _ cause => cause.kind
  | .undefinedLabels _ => .undefinedLabel
  | .tooManyInstructions _ => .encodingOverflow
  | .encoding _ => .encodingOverflow

/-- The line that is to blame, if it is a single one. -/
def line? : AsmError → Option Nat
  | .source line _ _ => some line
  | _ => none

end AsmError

end Microcode
