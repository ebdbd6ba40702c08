import Microcode.Assembly.Mnemonic
import Microcode.Assembly.Slot
import Microcode.Line.Parser
import Microcode.Opcode.Decode

/-!
# Microcode.Assembly.Draft

The first pass: reading the lines of a source one by one.

A draft holds what the lines read so far have defined.  A regular instruction or a jump adds a
slot; a label, an opcode pattern or a mnemonic is bound to the address of the next slot.  Addresses
have 16 bits and wrap, which no finished assembly can show since code has at most 256 words.
-/

namespace Microcode

/-- A source line without the blanks it ends with, and the address of the word it gave. -/
structure TraceLine where
  text : String
  address : Option UInt16
deriving DecidableEq, Repr

/-- What the lines read so far have defined. -/
structure Draft where
  labels : LabelTable := {}
  patterns : PatternSet := {}
  mnemonics : MnemonicTable := {}
  slots : Array Slot := #[]
  trace : Array TraceLine := #[]
deriving DecidableEq, Repr

/-- Whether a line gives a word. -/
def Line.emits : Line → Bool
  | .label _ => false
  | .pragma _ _ => false
  | .jump _ _ => true
  | .word _ => true

namespace Draft

/-- The address of the next slot. -/
def here (d : Draft) : UInt16 := .ofNat d.slots.size

/-- Obeys a pragma. -/
def addPragma (d : Draft) (line : Nat) (params : String) : Pragma → Except LineError Draft
  | .code => do
    let patterns ← d.patterns.register (← OpcodePattern.parse params d.here line)
    return { d with patterns }
  | .mnemonic => do
    let mnemonics ← d.mnemonics.bind params d.here line
    return { d with mnemonics }
  | .reset => .ok d
  | .fetch => .ok d
  | .halt => .ok d

/-- Takes in a line with the given number and text. -/
def addContent (d : Draft) (line : Nat) (raw : String) : Line → Except LineError Draft
  | .label name => do
    let labels ← d.labels.define name d.here line
    return { d with labels }
  | .pragma pragma params => d.addPragma line params pragma
  | .jump kind label => do
    let word ← (MicroWord.openJump kind).mapError .encoding
    let pending := some ⟨label, line, Text.trimEndString raw⟩
    return { d with slots := d.slots.push { word, line, pending } }
  | .word word => return { d with slots := d.slots.push { word, line } }

/-- Reads a line and takes it in. -/
def addLine (d : Draft) (line : Nat) (raw : String) : Except LineError Draft := do
  let content ← Line.parse raw
  let address := if content.any Line.emits then some d.here else none
  let d ← content.elim (.ok d) (d.addContent line raw)
  return { d with trace := d.trace.push ⟨Text.trimEndString raw, address⟩ }

/-- Reads all lines of a source; lines are numbered from 1. -/
def ofLines (lines : List String) : Except AsmError Draft :=
  (lines.zipIdx 1).foldlM
    (fun d (raw, line) => (d.addLine line raw).mapError (.ofLine line raw)) {}

end Draft

end Microcode
