import Microcode.Instruction.Parser
import Microcode.Line.Basic

/-!
# Microcode.Line.Parser

Reading a source line.

```
line ::= ':' label
       | pragma [ params ]
       | ('JSR' | 'TJSR') label
       | operand [ ';' alu [ ';' flags ] ]
```

Two slashes begin a comment.  The first field decides what kind of line it is; the kinds other than
a regular instruction have only that field.  Case matters in labels and jump mnemonics.
-/

namespace Microcode

/-- The pragma with the given keyword; case does not matter. -/
def Pragma.ofKeyword? (keyword : List Char) : Option Pragma :=
  let keyword := String.ofList (Text.lower keyword)
  all.find? (·.keyword == keyword)

namespace Line

/-- A line without the blanks around it and without its comment. -/
def strip (raw : List Char) : List Char := Text.trimEnd (Text.before ['/', '/'] (Text.trim raw))

/-- Reads a label line from what follows the colon. -/
def parseLabel (name : List Char) : Except LineError Line :=
  if isIdentifier name then .ok (.label (String.ofList name))
  else .error (.invalidLabel (String.ofList name))

/-- Reads a pragma line: a keyword, and after the first blank the parameters. -/
def parsePragma (field : List Char) : Except LineError Line :=
  let keyword := field.takeWhile (!Text.isBlank ·)
  let params := field.dropWhile (!Text.isBlank ·)
  match Pragma.ofKeyword? keyword with
  | some p => .ok (.pragma p (String.ofList (Text.trim params)))
  | none => .error (.unknownPragma (String.ofList (Text.lower keyword)))

/-- Reads a jump line: a mnemonic and a label. -/
def parseJump (field : List Char) : Except LineError Line :=
  match Text.tokens field with
  | [] => .error .missingJumpTarget
  | mnemonic :: targets => do
    let mnemonic := String.ofList mnemonic
    let some kind := JumpKind.ofMnemonic? mnemonic | throw (.unknownMnemonic mnemonic)
    match targets with
    | [] => throw .missingJumpTarget
    | [target] =>
      if isIdentifier target then return .jump kind (String.ofList target)
      else throw (.invalidJumpTarget (String.ofList target))
    | _ => throw (.unexpectedFields .jump)

/-- Reads a line of which only the first field may be there. -/
def alone (form : LineForm) (rest : List (List Char)) (line : Except LineError Line) :
    Except LineError Line :=
  if rest.isEmpty then line else .error (.unexpectedFields form)

/-- Reads a line from its trimmed fields. -/
def ofFields (head : List Char) (rest : List (List Char)) : Except LineError Line :=
  match head with
  | ':' :: name => alone .label rest (parseLabel name)
  | '_' :: '_' :: _ => alone .pragma rest (parsePragma head)
  | 'J' :: 'S' :: 'R' :: _ => alone .jump rest (parseJump head)
  | 'T' :: 'J' :: 'S' :: 'R' :: _ => alone .jump rest (parseJump head)
  | _ => (Instruction.build head rest).map .word

/-- The number of fields a line may have. -/
def maxFields : Nat := 3

/-- Reads a line.  Blank lines and lines with only a comment give `none`. -/
def parse (raw : String) : Except LineError (Option Line) :=
  let code := strip raw.toList
  if code.isEmpty then .ok none
  else
    let fields := (code.splitOn ';').map Text.trim
    if maxFields < fields.length then .error .tooManyFields
    else (ofFields (fields.headD []) fields.tail).map some

end Line

end Microcode
