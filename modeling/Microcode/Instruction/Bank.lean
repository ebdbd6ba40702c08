/-!
# Microcode.Instruction.Bank

The register bank, and the two ways a microinstruction addresses it.

A register is addressed directly by its index, or through a field of the CPU opcode: such an alias
has a select code, and for register pairs a bit that picks one half of the pair.
-/

namespace Microcode

/-- The registers of the bank. -/
inductive Register where
  | b | c | d | e | h | l | f | a | ph | pl | x | y | z | w | sh | sl
deriving DecidableEq, Repr

namespace Register

def all : List Register :=
  [.b, .c, .d, .e, .h, .l, .f, .a, .ph, .pl, .x, .y, .z, .w, .sh, .sl]

def name : Register → String
  | .b => "_b"
  | .c => "_c"
  | .d => "_d"
  | .e => "_e"
  | .h => "_h"
  | .l => "_l"
  | .f => "_f"
  | .a => "_a"
  | .ph => "_ph"
  | .pl => "_pl"
  | .x => "_x"
  | .y => "_y"
  | .z => "_z"
  | .w => "_w"
  | .sh => "_sh"
  | .sl => "_sl"

/-- The place of a register in the bank. -/
def index : Register → Nat
  | .b => 0b0000
  | .c => 0b0001
  | .d => 0b0010
  | .e => 0b0011
  | .h => 0b0100
  | .l => 0b0101
  | .f => 0b0110
  | .a => 0b0111
  | .ph => 0b1000
  | .pl => 0b1001
  | .x => 0b1010
  | .y => 0b1011
  | .z => 0b1100
  | .w => 0b1101
  | .sh => 0b1110
  | .sl => 0b1111

def ofName? (s : String) : Option Register := all.find? (·.name == s)

def ofIndex? (n : Nat) : Option Register := all.find? (·.index == n)

end Register

/-- Registers whose place in the bank is taken from a field of the CPU opcode. -/
inductive Alias where
  /-- The source register field. -/
  | source
  /-- The destination register field. -/
  | dest
  /-- The first register of the pair field. -/
  | pairFirst
  /-- The second register of the pair field. -/
  | pairSecond
deriving DecidableEq, Repr

namespace Alias

def all : List Alias := [.source, .dest, .pairFirst, .pairSecond]

def name : Alias → String
  | .source => "\x7bs\x7d"
  | .dest => "\x7bd\x7d"
  | .pairFirst => "\x7bp\x7d0"
  | .pairSecond => "\x7bp\x7d1"

/-- Which opcode field gives the address; 0 would mean none. -/
def select : Alias → Nat
  | .source => 0b01
  | .dest => 0b10
  | .pairFirst => 0b11
  | .pairSecond => 0b11

/-- Which register of a pair is meant. -/
def high : Alias → Nat
  | .source => 0
  | .dest => 0
  | .pairFirst => 0
  | .pairSecond => 1

def ofName? (s : String) : Option Alias := all.find? (·.name == s)

/-- The alias with the given select code and pair bit. -/
def ofSelect? (select high : Nat) : Option Alias :=
  all.find? fun a => a.select == select && a.high == high

end Alias

/-- A register of the bank, named directly or through the opcode. -/
inductive BankRef where
  | register (r : Register)
  | alias (a : Alias)
deriving DecidableEq, Repr

namespace BankRef

def name : BankRef → String
  | .register r => r.name
  | .alias a => a.name

def ofName? (s : String) : Option BankRef :=
  (Register.ofName? s).map .register <|> (Alias.ofName? s).map .alias

end BankRef

end Microcode
