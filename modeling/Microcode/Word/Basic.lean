import Microcode.Word.Field

/-!
# Microcode.Word.Basic

The 32-bit microinstruction word, and reading and writing its fields.

A field is written by cutting its bits out of the word's list of bits and putting the new ones in
their place.  Words are built in place (`MicroWord.InPlace`): a step checks what it is given and then
changes the word that stands there, and the steps after it go on from that word.
-/

namespace Microcode

/-- One microinstruction. -/
structure MicroWord where
  bits : BitVec 32
deriving DecidableEq, Repr, Hashable

namespace MicroWord

/-- The word with the given number; numbers from `2 ^ 32` on wrap. -/
def ofNat (n : Nat) : MicroWord := ⟨BitVec.ofNat _ n⟩

/-- The word as a number below `2 ^ 32`. -/
def toNat (w : MicroWord) : Nat := w.bits.toNat

def zero : MicroWord := ofNat 0

instance : Inhabited MicroWord := ⟨zero⟩

/-- The 32 bits of a word, most significant first. -/
def toBits (w : MicroWord) : List Bool := Bits.ofNat 32 w.toNat

/-- The word with the given bits, most significant first. -/
def ofBits (bits : List Bool) : MicroWord := ofNat (Bits.value bits)

@[simp] theorem length_toBits (w : MicroWord) : w.toBits.length = 32 := by
  simp [toBits]

/-! ## reading fields -/

/-- The bits of a field. -/
def slice (w : MicroWord) (f : Field) : List Bool := (w.toBits.drop f.start).take f.width

/-- The number in a field. -/
def read (w : MicroWord) (f : Field) : Nat := Bits.value (w.slice f)

/-- Whether any bit of a field is set. -/
def isSet (w : MicroWord) (f : Field) : Bool := (w.slice f).any id

/-! ## writing fields -/

/-- The word with the bits of a field replaced. -/
def splice (w : MicroWord) (f : Field) (bits : List Bool) : MicroWord :=
  ofBits (w.toBits.take f.start ++ bits ++ w.toBits.drop f.stop)

/-- Steps that change a word in place: each starts from what the step before it left, and this stays
when a later step is refused. -/
abbrev InPlace (ε : Type) := ExceptT ε (StateM MicroWord)

/-- Writes bits into a field; there must be as many as the field has. -/
def storeBits (f : Field) (bits : List Bool) : InPlace EncodingError Unit := do
  if bits.length ≠ f.width then throw (.widthMismatch f.name f.width bits.length)
  modify (·.splice f bits)

/-- Writes a number into a field; it must fit. -/
def store (f : Field) (value : Nat) : InPlace EncodingError Unit := do
  storeBits f (← MonadExcept.ofExcept (Bits.encode value f.width))

/-- The word that steps leave, unless one of them is refused. -/
def after {ε : Type} (w : MicroWord) (steps : InPlace ε Unit) : Except ε MicroWord :=
  match steps w with
  | (.ok _, written) => .ok written
  | (.error e, _) => .error e

def writeBits (w : MicroWord) (f : Field) (bits : List Bool) : Except EncodingError MicroWord :=
  w.after (storeBits f bits)

def write (w : MicroWord) (f : Field) (value : Nat) : Except EncodingError MicroWord :=
  w.after (store f value)

end MicroWord

/-! ## control lines -/

/-- The control lines: fields of one bit that switch a part of the data path. -/
inductive ControlLine where
  | ldAddr
  | ldAl
  | ldT1
  | ldT2
  | muxIn
  | rbAddrMsb
  | clrAcy
  | doWe
  | rbWe
deriving DecidableEq, Repr

namespace ControlLine

/-- The control lines, from the first bit of the word to the last. -/
def all : List ControlLine :=
  [.ldAddr, .ldAl, .ldT1, .ldT2, .muxIn, .rbAddrMsb, .clrAcy, .doWe, .rbWe]

def name : ControlLine → String
  | .ldAddr => "LD_ADDR"
  | .ldAl => "LD_AL"
  | .ldT1 => "LD_T1"
  | .ldT2 => "LD_T2"
  | .muxIn => "MUX_IN"
  | .rbAddrMsb => "RB_ADDR_MSB"
  | .clrAcy => "CLR_ACY"
  | .doWe => "DO_WE"
  | .rbWe => "RB_WE"

/-- The number of the line's bit in a word. -/
def position : ControlLine → Nat
  | .ldAddr => 25
  | .ldAl => 24
  | .ldT1 => 23
  | .ldT2 => 22
  | .muxIn => 21
  | .rbAddrMsb => 15
  | .clrAcy => 14
  | .doWe => 7
  | .rbWe => 6

end ControlLine

namespace MicroWord

/-- Whether a word sets a control line. -/
def drives (w : MicroWord) (line : ControlLine) : Bool := w.bits.getLsbD line.position

def controlLines (w : MicroWord) : List ControlLine := ControlLine.all.filter w.drives

/-! ## digits -/

def digits (w : MicroWord) : String := Bits.toString w.toBits

end MicroWord

end Microcode
