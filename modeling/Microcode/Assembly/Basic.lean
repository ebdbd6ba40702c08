import Microcode.Assembly.Config
import Microcode.Assembly.Draft
import Microcode.Program.Basic

/-!
# Microcode.Assembly.Basic

Assembling a source into a control store.

The steps, each of which may fail, in this order: read all lines (`Draft.ofLines`), check that the
code fits below the decode table, resolve the jumps (`Slot.resolve`), build the decode table
(`PatternSet.decodeTable`) and encode it (`DecodeTable.words`).
-/

namespace Microcode

/-- An assembled source. -/
structure Assembly where
  program : Program
  /-- The number of words that the source gives; they stand at the addresses from 0 on. -/
  authored : Nat
  labels : LabelTable
  patterns : PatternSet
  decode : DecodeTable
  mnemonics : MnemonicTable
  /-- The source lines with their addresses. -/
  trace : List TraceLine
deriving DecidableEq, Repr

/-- The control store with the given code, and after it the words of a decode table. -/
def Program.ofTable (code : List MicroWord) (t : DecodeTable) : Except EncodingError Program :=
  match h : t.words with
  | .ok words => .ok (.ofParts code words (DecodeTable.length_of_words h))
  | .error e => .error e

namespace Draft

/-- The decode table of a draft.  An ambiguity is an error of the second pattern's line. -/
def decodeTable (d : Draft) (config : Config) (lines : List String) :
    Except AsmError DecodeTable :=
  (d.patterns.decodeTable config.tieBreak).mapError fun ambiguity =>
    let line := ambiguity.second.line
    .ofLine line (lines.getD (line - 1) "") ambiguity.toLineError

/-- The second pass. -/
def finish (d : Draft) (config : Config) (lines : List String) : Except AsmError Assembly := do
  let authored := d.slots.size
  if Program.decodeBase < authored then throw (.tooManyInstructions authored)
  let code ← Slot.resolve d.labels d.slots.toList
  let decode ← d.decodeTable config lines
  let program ← (Program.ofTable code decode).mapError .encoding
  return {
    program
    authored
    labels := d.labels
    patterns := d.patterns
    decode
    mnemonics := d.mnemonics
    trace := d.trace.toList
  }

end Draft

/-- Assembles the lines of a source. -/
def assembleLines (config : Config) (lines : List String) : Except AsmError Assembly := do
  (← Draft.ofLines lines).finish config lines

/-- Assembles a source. -/
def assemble (config : Config) (source : String) : Except AsmError Assembly :=
  assembleLines config (Text.linesOf source)

end Microcode
