import Microcode.Word.Jump

/-!
# Microcode.Line.Basic

The four kinds of source line.
-/

namespace Microcode

/-- Directives to the assembler. -/
inductive Pragma where
  /-- `__code PATTERN`: the CPU opcodes that are decoded to the current address. -/
  | code
  /-- `__asm TEXT`: the CPU instruction implemented from the current address on. -/
  | mnemonic
  | reset
  | fetch
  | halt
deriving DecidableEq, Repr

namespace Pragma

def all : List Pragma := [.code, .mnemonic, .reset, .fetch, .halt]

/-- The keyword of a pragma, in lower case. -/
def keyword : Pragma → String
  | .code => "__code"
  | .mnemonic => "__asm"
  | .reset => "__reset"
  | .fetch => "__fetch"
  | .halt => "__halt"

end Pragma

/-- A source line that is not blank. -/
inductive Line where
  /-- `:name` gives a name to the address of the next word. -/
  | label (name : String)
  | pragma (pragma : Pragma) (params : String)
  /-- A jump to a label, which need not be known yet. -/
  | jump (kind : JumpKind) (label : String)
  /-- A regular instruction, encoded. -/
  | word (word : MicroWord)
deriving DecidableEq, Repr

/-- Letters, digits and underscores, not beginning with a digit. -/
def isIdentifier : List Char → Bool
  | [] => false
  | c :: rest => (c.isAlpha || c == '_') && rest.all fun c => c.isAlphanum || c == '_'

end Microcode
