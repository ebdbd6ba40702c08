/-!
# Microcode.Word.Bits

Lists of bits, most significant bit first, and the numbers they stand for.

* `Bits.value`: the number a list of bits stands for;
* `Bits.ofNat`: the last `width` bits of a number;
* `Bits.encode`: a number in exactly `width` bits, refused when it does not fit.

The check is made on a value of 32 bits (`Bits.encodeWord`), with the shift of such values: only a
width below 32 is asked for by a shift, since a shift by 32 would be no shift at all.
-/

namespace Microcode

/-- Why the bit packer refuses a value. -/
inductive EncodingError where
  /-- The value does not fit in the given number of bits. -/
  | overflow (value width : Nat)
  /-- A field was given more or fewer bits than it has. -/
  | widthMismatch (field : String) (expected got : Nat)
  /-- A jump target was written into a word that is no jump. -/
  | notAJump
deriving DecidableEq, Repr

def EncodingError.message : EncodingError → String
  | .overflow value width => s!"BUG! value {value} does not fit in {width} bits"
  | .widthMismatch field expected got =>
    s!"BUG! field {field} is {expected} bits wide, got {got} bits"
  | .notAJump => "BUG! jump target written into a non-jump microinstruction"

namespace Bits

/-- The number that a list of bits stands for, most significant bit first. -/
def value (bits : List Bool) : Nat := bits.foldl (fun n b => 2 * n + b.toNat) 0

/-- The last `width` bits of `n`, most significant first. -/
def ofNat (width n : Nat) : List Bool :=
  (List.range width).map fun i => n.testBit (width - 1 - i)

@[simp] theorem length_ofNat (width n : Nat) : (ofNat width n).length = width := by
  simp [ofNat]

/-- A value of 32 bits in exactly `width` bits; a width is at least 1 and at most 32. -/
def encodeWord (value : UInt32) (width : Nat) : Except EncodingError (List Bool) :=
  if width == 0 || 32 < width || (width < 32 && value >>> UInt32.ofNat width != 0) then
    .error (.overflow value.toNat width)
  else .ok (ofNat width value.toNat)

/-- A number in exactly `width` bits; one that needs more than 32 bits fits in no width. -/
def encode (n width : Nat) : Except EncodingError (List Bool) :=
  if h : n < UInt32.size then encodeWord (.ofNatLT n h) width else .error (.overflow n width)

def digit (b : Bool) : Char := if b then '1' else '0'

/-- A list of bits as a string of binary digits. -/
def toString (bits : List Bool) : String := String.ofList (bits.map digit)

end Bits

end Microcode
