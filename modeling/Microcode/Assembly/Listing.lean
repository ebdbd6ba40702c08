import Microcode.Assembly.Basic
import Microcode.Text.Numeral

/-!
# Microcode.Assembly.Listing

The listing of an assembly.

A row shows an address, a word in binary and a text.  The first rows follow the source line by
line, and only lines that give a word have an address.  After them come the padding words, then the
decode table, each row with the mnemonic bound to its entry address.
-/

namespace Microcode.Assembly

/-- A text moved to the right end of a column. -/
def column (width : Nat) (s : String) : String := String.ofList (s.toList.leftpad width ' ')

/-- A row of the listing. -/
def row (address digits text : String) : String :=
  column 4 address ++ "  " ++ column 32 digits ++ "  " ++ text ++ "\n"

def wordRow (address : Nat) (w : MicroWord) (text : String) : String :=
  row (Text.hex 3 address ++ ":") w.digits text

/-- A heading, after two empty lines. -/
def banner (text : String) : String := "\n\n" ++ row "" "" text

/-- The row of a source line. -/
def traceRow (p : Program) (line : TraceLine) : String :=
  match line.address with
  | some address => wordRow address.toNat ((p.get? address.toNat).getD .zero) line.text
  | none => row "" "" line.text

/-- What the listing says about the entry of an opcode. -/
def note (asm : Assembly) (opcode : UInt8) : String :=
  match (asm.decode.get? opcode).bind asm.mnemonics.get? with
  | some mnemonic => "// " ++ mnemonic
  | none => "//"

/-- The words of the control store with their addresses. -/
def addressed (asm : Assembly) : List (MicroWord × Nat) := asm.program.words.zipIdx

def paddingRows (asm : Assembly) : List String :=
  ((asm.addressed.take Program.decodeBase).drop asm.authored).map fun (w, address) =>
    wordRow address w ""

def decodeRows (asm : Assembly) : List String :=
  (asm.addressed.drop Program.decodeBase).map fun (w, address) =>
    wordRow address w (asm.note (.ofNat (address - Program.decodeBase)))

def listing (asm : Assembly) : String :=
  String.join (asm.trace.map (traceRow asm.program)) ++
    banner "// PADDING INSTRUCTIONS INSERTED AUTOMATICALLY." ++
    String.join asm.paddingRows ++
    banner "// DECODING TABLE INSERTED AUTOMATICALLY." ++
    String.join asm.decodeRows ++
    banner "// END OF LISTING."

end Microcode.Assembly
