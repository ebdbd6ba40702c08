import Microcode.Instruction.Basic
import Microcode.Text.Numeral
import Microcode.Word.Jump

/-!
# Microcode.Instruction.Disassembly

A word as source text.

A jump shows its target as a number, since labels are gone once a word exists.  A plain word shows
its operand stage, its ALU stage and, if it has any, its flags in the order of `Flag.all`.  Codes
that have no name are shown in binary.
-/

namespace Microcode.MicroWord

/-- The register that the bank address fields of a word select. -/
def bankName (w : MicroWord) : String :=
  let select := w.read .rbAddrSel
  if select == 0 then
    let index := w.read .rbAddr
    ((Register.ofIndex? index).map (·.name)).getD s!"r{index}"
  else
    let high := (w.drives .rbAddrMsb).toNat
    ((Alias.ofSelect? select high).map (·.name)).getD s!"ir{select}"

/-- The operand stage of a plain word. -/
def operandText (w : MicroWord) : String :=
  let source := if w.drives .muxIn then w.bankName else "DI"
  match w.drives .ldT1, w.drives .ldT2 with
  | false, false => "NOP"
  | true, false => "T1 = " ++ source
  | false, true => "T2 = " ++ source
  | true, true => "T1 = T2 = " ++ source

/-- An ALU code that has no name. -/
def codeText (code : Nat) : String := "0b" ++ Text.binary 6 code

/-- The ALU stage of a plain word. -/
def aluText (w : MicroWord) : String :=
  let code := w.read .aluOp
  let assigned := ((AluOp.ofCode? code).map (·.name)).getD (codeText code)
  if w.drives .rbWe then w.bankName ++ " = " ++ assigned
  else if w.drives .doWe then "DO = " ++ assigned
  else if code == 0 then "NOP"
  else ((CarryOp.ofCode? code).map (·.name)).getD (codeText code)

/-- The flags whose value stands in their field. -/
def flags (w : MicroWord) : List Flag := Flag.all.filter fun flag => w.read flag.field == flag.value

/-- A plain word as source text. -/
def plainText (w : MicroWord) : String :=
  let stages := w.operandText ++ " ; " ++ w.aluText
  if w.flags.isEmpty then stages
  else stages ++ " ; " ++ ", ".intercalate (w.flags.map (·.token))

/-- A word as source text. -/
def disassemble (w : MicroWord) : String :=
  match w.jumpKind?, w.jumpTarget? with
  | some kind, some target => kind.mnemonic ++ " 0x" ++ Text.hex 3 target
  | _, _ => w.plainText

end Microcode.MicroWord
