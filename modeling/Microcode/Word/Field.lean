import Microcode.Word.Bits

/-!
# Microcode.Word.Field

Named bit ranges of a microinstruction word, and the layout of the control word.

Bit 31 is the first bit of the word and bit 0 the last.  A field names its most significant bit
and its width, and lies inside the word.  Two pairs of fields of the layout overlap on purpose:
`aluOp` and `jumpDstL` share bits 5 to 0, since a jump has no ALU operation, and `rbAddrMsb` is
the last bit of `rbAddr`, for a bank address that is taken from the opcode.
-/

namespace Microcode

/-- A named range of bits inside a word. -/
structure Field where
  name : String
  /-- The number of the field's first bit; the first bit of a word has number 31. -/
  msb : Nat
  width : Nat
  msb_lt : msb < 32 := by decide
  width_pos : 1 ≤ width := by decide
  width_le : width ≤ msb + 1 := by decide
deriving DecidableEq, Repr

/-- Why a bit range is no field. -/
inductive FieldError where
  | outsideWord
  | pastLastBit
deriving DecidableEq, Repr

def FieldError.message : FieldError → String
  | .outsideWord => "field msb outside the word"
  | .pastLastBit => "field runs past bit 0"

namespace Field

/-- The field with the given bounds, if it lies inside a word. -/
def ofBounds (name : String) (msb width : Nat) : Except FieldError Field :=
  if hm : msb < 32 then
    if hw : 1 ≤ width ∧ width ≤ msb + 1 then .ok ⟨name, msb, width, hm, hw.1, hw.2⟩
    else .error .pastLastBit
  else .error .outsideWord

/-- How many bits of the word stand before the field. -/
def start (f : Field) : Nat := 31 - f.msb

/-- How many bits of the word stand before the end of the field. -/
def stop (f : Field) : Nat := f.start + f.width

/-- How many bits of the word stand after the field. -/
def shift (f : Field) : Nat := f.msb + 1 - f.width

/-- As many ones as the field has bits.  A field that is the whole word is apart, since a shift by
32 would leave the one where it is. -/
def ones (f : Field) : UInt32 :=
  if f.width == 32 then 0xFFFFFFFF else 1 <<< UInt32.ofNat f.width - 1

/-- The word whose set bits are those of the field, as a number. -/
def mask (f : Field) : Nat := (f.ones <<< UInt32.ofNat f.shift).toNat

/-! ## the control word

Fields that begin with `ld` load a register, and those that end in `We` write the result of the ALU;
`rb` is the register bank.
-/

/-- Sequencer flags: decoding, interrupts, input and output, halt. -/
def flags1 : Field := { name := "flags1", msb := 31, width := 3 }

/-- Sequencer flags: end, return, memory access, and the two jumps. -/
def flags2 : Field := { name := "flags2", msb := 28, width := 3 }

def ldAddr : Field := { name := "ld_addr", msb := 25, width := 1 }

def ldAl : Field := { name := "ld_al", msb := 24, width := 1 }

def ldT1 : Field := { name := "ld_t1", msb := 23, width := 1 }

def ldT2 : Field := { name := "ld_t2", msb := 22, width := 1 }

/-- Takes the operand from the register bank; if clear, from the data input. -/
def muxIn : Field := { name := "mux_in", msb := 21, width := 1 }

/-- Which opcode field gives the bank address; 0 for none. -/
def rbAddrSel : Field := { name := "rb_addr_sel", msb := 20, width := 2 }

def rbAddr : Field := { name := "rb_addr", msb := 18, width := 4 }

/-- Which register of a pair is meant, when the opcode gives the bank address. -/
def rbAddrMsb : Field := { name := "rb_addr_msb", msb := 15, width := 1 }

def clrAcy : Field := { name := "clr_acy", msb := 14, width := 1 }

def jumpDstH : Field := { name := "jump_dst_h", msb := 11, width := 2 }

/-- Which processor flags an operation changes. -/
def fp : Field := { name := "fp", msb := 9, width := 2 }

def doWe : Field := { name := "do_we", msb := 7, width := 1 }

def rbWe : Field := { name := "rb_we", msb := 6, width := 1 }

def aluOp : Field := { name := "alu_op", msb := 5, width := 6 }

def jumpDstL : Field := { name := "jump_dst_l", msb := 5, width := 6 }

def all : List Field :=
  [flags1, flags2, ldAddr, ldAl, ldT1, ldT2, muxIn, rbAddrSel, rbAddr, rbAddrMsb, clrAcy,
    jumpDstH, fp, doWe, rbWe, aluOp, jumpDstL]

def ofName? (name : String) : Option Field := all.find? (·.name == name)

/-! ## bounds -/

theorem stop_le (f : Field) : f.stop ≤ 32 := by
  have := f.msb_lt
  have := f.width_le
  simp only [stop, start]
  omega

theorem stop_add_shift (f : Field) : f.stop + f.shift = 32 := by
  have := f.msb_lt
  have := f.width_le
  simp only [stop, start, shift]
  omega

end Field

end Microcode
