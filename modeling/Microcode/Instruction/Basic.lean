import Microcode.Instruction.Bank
import Microcode.Word.Basic

/-!
# Microcode.Instruction.Basic

The vocabulary of regular microinstructions: what their names stand for in the word.

An instruction has three parts: an operand stage that may load a temporary register, an ALU stage
that may write a result, and flags.  Sources, destinations and flags give the field values that they
write.
-/

namespace Microcode

/-! ## operand stage -/

/-- The temporary registers in front of the ALU. -/
inductive Temp where
  | t1
  | t2
deriving DecidableEq, Repr

namespace Temp

/-- Both temporary registers. -/
def all : List Temp := [.t1, .t2]

def name : Temp → String
  | .t1 => "t1"
  | .t2 => "t2"

/-- The field that loads a temporary register. -/
def field : Temp → Field
  | .t1 => .ldT1
  | .t2 => .ldT2

def ofName? (s : String) : Option Temp := all.find? (·.name == s)

end Temp

/-- What a temporary register is loaded from. -/
inductive OperandSource where
  | bank (ref : BankRef)
  /-- The data input lines. -/
  | dataIn
deriving DecidableEq, Repr

def OperandSource.ofName? (s : String) : Option OperandSource :=
  (BankRef.ofName? s).map .bank <|> if s == "di" then some .dataIn else none

/-- The field values that a source writes. -/
def OperandSource.values : OperandSource → List (Field × Nat)
  | .bank (.register r) => [(.rbAddrSel, 0b00), (.rbAddr, r.index), (.muxIn, 1)]
  | .bank (.alias a) => [(.rbAddrSel, a.select), (.rbAddrMsb, a.high), (.muxIn, 1)]
  | .dataIn => [(.muxIn, 0)]

/-! ## ALU stage -/

/-- ALU operations on the carry flag, without operand and destination. -/
inductive CarryOp where
  | cpc
  | sec
deriving DecidableEq, Repr

namespace CarryOp

/-- Both carry operations. -/
def all : List CarryOp := [.cpc, .sec]

def name : CarryOp → String
  | .cpc => "cpc"
  | .sec => "sec"

def code : CarryOp → Nat
  | .cpc => 0b101100
  | .sec => 0b101101

def ofName? (s : String) : Option CarryOp := all.find? (·.name == s)

def ofCode? (n : Nat) : Option CarryOp := all.find? (·.code == n)

end CarryOp

/-- ALU operations with a destination. -/
inductive AluOp where
  | add | adc | sub | sbb | and | orl | not | xrl | rla | rra | rlca | rrca | aaa | t1 | rst
  | daa | psw
deriving DecidableEq, Repr

namespace AluOp

/-- All operations with a destination. -/
def all : List AluOp :=
  [.add, .adc, .sub, .sbb, .and, .orl, .not, .xrl, .rla, .rra, .rlca, .rrca, .aaa, .t1, .rst,
    .daa, .psw]

def name : AluOp → String
  | .add => "add"
  | .adc => "adc"
  | .sub => "sub"
  | .sbb => "sbb"
  | .and => "and"
  | .orl => "orl"
  | .not => "not"
  | .xrl => "xrl"
  | .rla => "rla"
  | .rra => "rra"
  | .rlca => "rlca"
  | .rrca => "rrca"
  | .aaa => "aaa"
  | .t1 => "t1"
  | .rst => "rst"
  | .daa => "daa"
  | .psw => "psw"

def code : AluOp → Nat
  | .add => 0b001100
  | .adc => 0b001101
  | .sub => 0b001110
  | .sbb => 0b001111
  | .and => 0b000100
  | .orl => 0b000110
  | .not => 0b000111
  | .xrl => 0b000101
  | .rla => 0b000000
  | .rra => 0b000001
  | .rlca => 0b000010
  | .rrca => 0b000011
  | .aaa => 0b111000
  | .t1 => 0b010111
  | .rst => 0b011111
  | .daa => 0b101000
  | .psw => 0b110000

def ofName? (s : String) : Option AluOp := all.find? (·.name == s)

def ofCode? (n : Nat) : Option AluOp := all.find? (·.code == n)

end AluOp

/-- Where the result of an ALU operation goes. -/
inductive AluDest where
  | bank (ref : BankRef)
  /-- The data output register. -/
  | dataOut
deriving DecidableEq, Repr

def AluDest.ofName? (s : String) : Option AluDest :=
  (BankRef.ofName? s).map .bank <|> if s == "do" then some .dataOut else none

/-- The field values that a destination writes. -/
def AluDest.values : AluDest → List (Field × Nat)
  | .bank (.register r) => [(.rbAddr, r.index), (.rbWe, 1)]
  | .bank (.alias a) => [(.rbAddrSel, a.select), (.rbAddrMsb, a.high), (.rbWe, 1)]
  | .dataOut => [(.doWe, 1)]

/-! ## flags -/

/-- The flags.  Each writes one nonzero value into one field. -/
inductive Flag where
  | ldAl | ldAddr | fpR | fpC | fpRc | clrAcy | decode | ei | di | io | auxcy | clrt1 | halt
  | done | ret | rd | wr | setacy
deriving DecidableEq, Repr

namespace Flag

/-- All flags, in the order in which they are written out. -/
def all : List Flag :=
  [.ldAl, .ldAddr, .fpR, .fpC, .fpRc, .clrAcy, .decode, .ei, .di, .io, .auxcy, .clrt1, .halt,
    .done, .ret, .rd, .wr, .setacy]

def token : Flag → String
  | .ldAl => "#ld_al"
  | .ldAddr => "#ld_addr"
  | .fpR => "#fp_r"
  | .fpC => "#fp_c"
  | .fpRc => "#fp_rc"
  | .clrAcy => "#clr_acy"
  | .decode => "#decode"
  | .ei => "#ei"
  | .di => "#di"
  | .io => "#io"
  | .auxcy => "#auxcy"
  | .clrt1 => "#clrt1"
  | .halt => "#halt"
  | .done => "#end"
  | .ret => "#ret"
  | .rd => "#rd"
  | .wr => "#wr"
  | .setacy => "#setacy"

/-- The field that a flag writes; flags with the same field exclude each other. -/
def field : Flag → Field
  | .ldAl => .ldAl
  | .ldAddr => .ldAddr
  | .fpR => .fp
  | .fpC => .fp
  | .fpRc => .fp
  | .clrAcy => .clrAcy
  | .decode => .flags1
  | .ei => .flags1
  | .di => .flags1
  | .io => .flags1
  | .auxcy => .flags1
  | .clrt1 => .flags1
  | .halt => .flags1
  | .done => .flags2
  | .ret => .flags2
  | .rd => .flags2
  | .wr => .flags2
  | .setacy => .flags2

/-- The value that a flag writes.  The values 010 and 100 of `flags2` are left to the jumps. -/
def value : Flag → Nat
  | .ldAl => 0b1
  | .ldAddr => 0b1
  | .fpR => 0b10
  | .fpC => 0b01
  | .fpRc => 0b11
  | .clrAcy => 0b1
  | .decode => 0b001
  | .ei => 0b011
  | .di => 0b010
  | .io => 0b100
  | .auxcy => 0b101
  | .clrt1 => 0b110
  | .halt => 0b111
  | .done => 0b001
  | .ret => 0b011
  | .rd => 0b101
  | .wr => 0b110
  | .setacy => 0b111

def ofToken? (s : String) : Option Flag := all.find? (·.token == s)

end Flag

end Microcode
