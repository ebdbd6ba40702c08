import Microcode.Instruction.Parser

/-!
# Microcode.Proofs.Instruction.Syntax

Regular instructions as syntax: what the fields of a line say, apart from the word that is built
while they are read.

An instruction is an operand stage, an ALU stage and flags, and gives a list of field values.  The
readers here have no word at hand: where the parser finds the field of a flag set in the word, the
reader of flags finds an earlier flag with the same field.
-/

namespace Microcode

/-- The operand stage of an instruction. -/
inductive Operand where
  | nop
  | load (temp : Temp) (source : OperandSource)
deriving DecidableEq, Repr

/-- The ALU stage of an instruction. -/
inductive Alu where
  | nop
  | carry (op : CarryOp)
  | assign (dest : AluDest) (op : AluOp)
deriving DecidableEq, Repr

/-- A regular microinstruction. -/
structure Instruction where
  operand : Operand
  alu : Alu := .nop
  flags : List Flag := []
deriving DecidableEq, Repr

/-! ## field values -/

def Operand.values : Operand → List (Field × Nat)
  | .nop => []
  | .load temp source => (temp.field, 1) :: source.values

def Alu.values : Alu → List (Field × Nat)
  | .nop => []
  | .carry op => [(.aluOp, op.code)]
  | .assign dest op => dest.values ++ [(.aluOp, op.code)]

/-- The field values of an instruction, in the order in which they are written. -/
def Instruction.values (i : Instruction) : List (Field × Nat) :=
  i.operand.values ++ i.alu.values ++ i.flags.map fun flag => (flag.field, flag.value)

/-! ## reading -/

def Operand.parse (field : List Char) : Except LineError Operand :=
  match pieces '=' field with
  | [op] => if op == "nop" then .ok .nop else .error .malformedOperand
  | [target, origin] => do
    let some temp := Temp.ofName? target | throw (.badOperandTarget target)
    let some source := OperandSource.ofName? origin | throw (.badOperandSource origin)
    return .load temp source
  | _ => .error .malformedOperand

def Alu.parse (field : List Char) : Except LineError Alu :=
  match pieces '=' field with
  | [op] => do
    if op == "" || op == "nop" then return .nop
    let some carryOp := CarryOp.ofName? op | throw (.unknownAluOp op)
    return .carry carryOp
  | [target, op] => do
    let some dest := AluDest.ofName? target | throw (.badAluTarget target)
    let some aluOp := AluOp.ofName? op | throw (.unknownAluOp op)
    return .assign dest aluOp
  | _ => .error .malformedAlu

/-- Adds the flag with the given token to those read before it. -/
def Flag.append (earlier : List Flag) (token : String) : Except LineError (List Flag) := do
  if token == "" then throw .malformedFlagList
  let some flag := Flag.ofToken? token | throw (.unknownFlag token)
  if earlier.any (·.field == flag.field) then throw (.flagConflict token)
  return earlier ++ [flag]

def Flag.parseList (field : List Char) : Except LineError (List Flag) :=
  if field.isEmpty then .ok [] else (pieces ',' field).foldlM Flag.append []

/-- Reads an instruction from its trimmed fields; the first one is always there. -/
def Instruction.parse (operand : List Char) (rest : List (List Char)) :
    Except LineError Instruction := do
  return {
    operand := ← Operand.parse operand
    alu := ← rest[0]?.elim (.ok .nop) Alu.parse
    flags := ← rest[1]?.elim (.ok []) Flag.parseList
  }

end Microcode
