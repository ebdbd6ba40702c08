import Microcode.Text.Numeral
import Microcode.Word.Bits

/-!
# Microcode.Line.Error

What can be wrong with a source line, and the wording of it.
-/

namespace Microcode

/-- The coarse kind of an assembly error. -/
inductive ErrorKind where
  | badSyntax
  | flagConflict
  | undefinedLabel
  | encodingOverflow
deriving DecidableEq, Repr

/-- The kinds of line that have exactly one field. -/
inductive LineForm where
  | label
  | pragma
  | jump
deriving DecidableEq, Repr

def LineForm.name : LineForm → String
  | .label => "label"
  | .pragma => "pragma"
  | .jump => "JSR/TJSR"

/-- What is wrong with a source line. -/
inductive LineError where
  | tooManyFields
  | unexpectedFields (form : LineForm)
  | invalidLabel (name : String)
  | duplicateLabel (name : String) (firstLine : Nat)
  | unknownPragma (keyword : String)
  | invalidPattern (text : String)
  | duplicatePattern (text : String) (firstLine : Nat)
  | duplicateMnemonic (text : String) (firstLine : Nat)
  | unknownMnemonic (token : String)
  | missingJumpTarget
  | invalidJumpTarget (token : String)
  | malformedOperand
  | badOperandTarget (name : String)
  | badOperandSource (name : String)
  | malformedAlu
  | badAluTarget (name : String)
  | unknownAluOp (name : String)
  | malformedFlagList
  | unknownFlag (token : String)
  | flagConflict (token : String)
  /-- Two opcode patterns match an opcode and have the same number of wildcards. -/
  | ambiguousOpcode (opcode : UInt8) (first : String) (firstLine : Nat) (second : String)
  | encoding (cause : EncodingError)
deriving DecidableEq, Repr

namespace LineError

def message : LineError → String
  | .tooManyFields => "line has more than 3 fields"
  | .unexpectedFields form => "unexpected fields in " ++ form.name ++ " line"
  | .invalidLabel name => s!"invalid label '{name}'"
  | .duplicateLabel name firstLine => s!"label '{name}' already defined in line {firstLine}"
  | .unknownPragma keyword => s!"unknown pragma '{keyword}'"
  | .invalidPattern text => s!"invalid CPU opcode pattern '{text}'"
  | .duplicatePattern text firstLine =>
    s!"CPU opcode '{text}' already defined at line {firstLine}"
  | .duplicateMnemonic text firstLine =>
    s!"CPU instruction '{text}' already defined at line {firstLine}"
  | .unknownMnemonic token => s!"unknown microinstruction mnemonic '{token}'"
  | .missingJumpTarget => "missing jump target"
  | .invalidJumpTarget token => s!"invalid jump target '{token}', only labels are allowed"
  | .malformedOperand => "malformed operand control field"
  | .badOperandTarget name => s!"wrong target register '{name}' in operand control field"
  | .badOperandSource name => s!"invalid source '{name}' in operand control field"
  | .malformedAlu => "malformed ALU control field"
  | .badAluTarget name => s!"wrong target register '{name}' in ALU control field"
  | .unknownAluOp name => s!"unknown ALU operation '{name}'"
  | .malformedFlagList => "malformed flag list"
  | .unknownFlag token => s!"unknown flag '{token}'"
  | .flagConflict token => s!"flag conflict: '{token}' targets a field that is already set"
  | .ambiguousOpcode opcode first firstLine second =>
    let code := Text.hex 2 opcode.toNat
    s!"opcode 0x{code} matched with equal specificity by '{first}' (line {firstLine}) " ++
      s!"and '{second}'"
  | .encoding cause => cause.message

/-- The coarse kind of a line error. -/
def kind : LineError → ErrorKind
  | .flagConflict _ => .flagConflict
  | .encoding _ => .encodingOverflow
  | _ => .badSyntax

end LineError

end Microcode
