import Microcode.Word.Basic

/-!
# Microcode.Word.Jump

Jump words: the two kinds of call, and the target they carry.

The field `flags2` tells a jump from any other word.  A target has eight bits; its first two stand
in `jumpDstH`, the other six in `jumpDstL`.
-/

namespace Microcode

/-- The two kinds of jump; both save the return address. -/
inductive JumpKind where
  /-- Calls always. -/
  | call
  /-- Calls when the tested condition holds. -/
  | condCall
deriving DecidableEq, Repr

namespace JumpKind

def all : List JumpKind := [.call, .condCall]

def mnemonic : JumpKind → String
  | .call => "JSR"
  | .condCall => "TJSR"

/-- The value of the field `flags2` in a jump. -/
def code : JumpKind → Nat
  | .call => 0b010
  | .condCall => 0b100

/-- The jump with the given mnemonic; case matters. -/
def ofMnemonic? (s : String) : Option JumpKind := all.find? (·.mnemonic == s)

def ofCode? (n : Nat) : Option JumpKind := all.find? (·.code == n)

end JumpKind

namespace MicroWord

def targetWidth : Nat := 8

/-- The kind of jump a word is, or `none` for a plain word. -/
def jumpKind? (w : MicroWord) : Option JumpKind := JumpKind.ofCode? (w.read .flags2)

/-- Writes the target of a jump word: two checks, then the two parts of the target. -/
def aim (target : Nat) : InPlace EncodingError Unit := do
  if (← get).jumpKind? = none then throw .notAJump
  let bits ← MonadExcept.ofExcept (Bits.encode target targetWidth)
  storeBits .jumpDstH (bits.take Field.jumpDstH.width)
  storeBits .jumpDstL (bits.drop Field.jumpDstH.width)

def setJumpTarget (w : MicroWord) (target : Nat) : Except EncodingError MicroWord :=
  w.after (aim target)

/-- The target of a jump word. -/
def jumpTarget? (w : MicroWord) : Option Nat :=
  w.jumpKind?.map fun _ => w.read .jumpDstH <<< Field.jumpDstL.width ||| w.read .jumpDstL

/-- A jump word whose target is not yet known. -/
def openJump (kind : JumpKind) : Except EncodingError MicroWord := zero.write .flags2 kind.code

/-- A jump word to `target`. -/
def jump (kind : JumpKind) (target : Nat) : Except EncodingError MicroWord :=
  zero.after do
    store .flags2 kind.code
    aim target

end MicroWord

end Microcode
