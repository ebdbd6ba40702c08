import Microcode.Line.Error
import Microcode.Text.Blank
import Microcode.Word.Bits

/-!
# Microcode.Opcode.Pattern

Patterns that match CPU opcodes.

A pattern has one symbol for each bit of an opcode, most significant bit first.  The characters `0`
and `1` stand for that bit, every other character is a wildcard.  Double quotes are dropped before
the pattern is read, and blanks are refused.  The cost of a pattern is the number of its wildcards:
the lower the cost, the fewer opcodes it matches.
-/

namespace Microcode

/-- One place of an opcode pattern. -/
inductive Symbol where
  | zero
  | one
  | any
deriving DecidableEq, Repr

namespace Symbol

/-- The symbol that a character stands for. -/
def ofChar : Char → Symbol
  | '0' => .zero
  | '1' => .one
  | _ => .any

/-- Whether a bit may stand in the place of a symbol. -/
def admits : Symbol → Bool → Bool
  | .zero, bit => !bit
  | .one, bit => bit
  | .any, _ => true

end Symbol

/-- A pattern, the address that its opcodes are decoded to, and the line it stands on. -/
structure OpcodePattern where
  text : String
  entry : UInt16
  line : Nat
  length_text : text.toList.length = 8
deriving DecidableEq, Repr

namespace OpcodePattern

/-- Reads a pattern. -/
def parse (params : String) (entry : UInt16) (line : Nat) : Except LineError OpcodePattern :=
  let chars := params.toList.filter (· != '"')
  if h : chars.length = 8 ∧ !chars.any Text.isBlank then
    .ok ⟨String.ofList chars, entry, line, by simp [h.1]⟩
  else .error (.invalidPattern (String.ofList chars))

def symbols (p : OpcodePattern) : List Symbol := p.text.toList.map Symbol.ofChar

/-- The number of wildcards. -/
def cost (p : OpcodePattern) : Nat := p.symbols.count .any

/-- Whether a pattern matches an opcode. -/
def covers (p : OpcodePattern) (opcode : UInt8) : Bool :=
  (p.symbols.zipWith Symbol.admits (Bits.ofNat 8 opcode.toNat)).all id

@[simp] theorem length_symbols (p : OpcodePattern) : p.symbols.length = 8 := by
  simp only [symbols, List.length_map, p.length_text]

end OpcodePattern

end Microcode
