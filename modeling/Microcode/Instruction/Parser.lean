import Microcode.Instruction.Basic
import Microcode.Line.Error
import Microcode.Text.Pieces

/-!
# Microcode.Instruction.Parser

Reading a regular microinstruction from the fields of its line.

```
operand ::= 'nop' | ('t1' | 't2') '=' (register | alias | 'di')
alu     ::= [ 'nop' ] | carry-op | (register | alias | 'do') '=' alu-op
flags   ::= [ flag { ',' flag } ]
```

Case does not matter, and blanks around the pieces are ignored.  The word is built while the fields
are read, from left to right, and the first error ends the reading.  A flag conflicts with what was
written before it when its field is set already.
-/

namespace Microcode

/-- The pieces between the separators of a field, trimmed and in lower case. -/
def pieces (separator : Char) (field : List Char) : List String :=
  (field.splitOn separator).map fun s => String.ofList (Text.lower (Text.trim s))

namespace Instruction

/-- Writes a field of the word. -/
def write (f : Field) (value : Nat) : MicroWord.InPlace LineError Unit :=
  ExceptT.adapt .encoding (MicroWord.store f value)

/-- Writes several fields, one after the other. -/
def writeAll (values : List (Field × Nat)) : MicroWord.InPlace LineError Unit :=
  values.forM fun x => write x.1 x.2

/-- Reads the operand stage: what is loaded into a temporary register. -/
def operandStage (field : List Char) : MicroWord.InPlace LineError Unit :=
  match pieces '=' field with
  | [op] => if op == "nop" then pure () else throw .malformedOperand
  | [target, origin] => do
    let some temp := Temp.ofName? target | throw (.badOperandTarget target)
    write temp.field 1
    let some source := OperandSource.ofName? origin | throw (.badOperandSource origin)
    writeAll source.values
  | _ => throw .malformedOperand

/-- Reads the ALU stage: an operation, and where its result goes. -/
def aluStage (field : List Char) : MicroWord.InPlace LineError Unit :=
  match pieces '=' field with
  | [op] => do
    if op == "" || op == "nop" then return
    let some carryOp := CarryOp.ofName? op | throw (.unknownAluOp op)
    write .aluOp carryOp.code
  | [target, op] => do
    let some dest := AluDest.ofName? target | throw (.badAluTarget target)
    writeAll dest.values
    let some aluOp := AluOp.ofName? op | throw (.unknownAluOp op)
    write .aluOp aluOp.code
  | _ => throw .malformedAlu

/-- Reads a flag, whose field must be clear. -/
def writeFlag (token : String) : MicroWord.InPlace LineError Unit := do
  if token == "" then throw .malformedFlagList
  let some flag := Flag.ofToken? token | throw (.unknownFlag token)
  if (← get).isSet flag.field then throw (.flagConflict token)
  write flag.field flag.value

/-- Reads the flags. -/
def flagList (field : List Char) : MicroWord.InPlace LineError Unit :=
  if field.isEmpty then pure () else (pieces ',' field).forM writeFlag

/-- Builds the word of an instruction from its trimmed fields; the first one is always there. -/
def build (operand : List Char) (rest : List (List Char)) : Except LineError MicroWord :=
  MicroWord.zero.after do
    operandStage operand
    rest[0]?.forM aluStage
    rest[1]?.forM flagList

end Instruction

end Microcode
