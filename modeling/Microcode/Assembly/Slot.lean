import Microcode.Assembly.Error
import Microcode.Assembly.Label
import Microcode.Word.Jump

/-!
# Microcode.Assembly.Slot

Words that wait for their jump targets.

The first pass gives one slot per word.  Once all labels are known, `Slot.resolve` writes the
address of its label into every jump.  A target that cannot be written is reported at once; labels
that no line defines are collected and reported together.
-/

namespace Microcode

/-- A word of the first pass, the line it comes from, and the jump target it may still need. -/
structure Slot where
  word : MicroWord
  line : Nat
  pending : Option PendingJump := none
deriving DecidableEq, Repr

/-- What the second pass has of the slots it went over: their words, and the jumps among them whose
labels are not defined. -/
structure Resolved where
  words : Array MicroWord := #[]
  undefined : Array PendingJump := #[]

/-- Goes over a slot: a pending jump gets the address of its label. -/
def Resolved.add (labels : LabelTable) (r : Resolved) (slot : Slot) :
    Except EncodingError Resolved :=
  match slot.pending with
  | none => .ok { r with words := r.words.push slot.word }
  | some jump =>
    match labels.address? jump.label with
    | some target => do
      let word ← slot.word.setJumpTarget target.toNat
      return { r with words := r.words.push word }
    | none => .ok { words := r.words.push slot.word, undefined := r.undefined.push jump }

/-- The words of all slots with their jump targets. -/
def Slot.resolve (labels : LabelTable) (slots : List Slot) : Except AsmError (List MicroWord) := do
  let resolved ← (slots.foldlM (Resolved.add labels) {}).mapError .encoding
  if resolved.undefined.isEmpty then return resolved.words.toList
  throw (.undefinedLabels resolved.undefined.toList)

end Microcode
