import Microcode.Json.Value
import Microcode.Program.Basic
import Microcode.Text.Numeral

/-!
# Microcode.Program.Writer

The three written forms of a control store.

* VHDL: a package with the words as an array constant, one quoted literal to a line;
* Verilog: an include file that fills a memory, one assignment to a line;
* JSON: a list of numbers, one to a line.

`Program.read` in `Microcode.Program.Reader` reads each of them back.
-/

namespace Microcode

/-- The written forms of a control store. -/
inductive TableFormat where
  | vhdl
  | verilog
  | json
deriving DecidableEq, Repr

namespace TableFormat

def all : List TableFormat := [.vhdl, .verilog, .json]

def name : TableFormat → String
  | .vhdl => "vhdl"
  | .verilog => "verilog"
  | .json => "json"

def ofName? (s : String) : Option TableFormat := all.find? (·.name == s)

end TableFormat

namespace Program

/-! ## VHDL -/

def vhdlHead : String :=
  "-- light8080_ucode_pkg.vhdl -- Microcode table for light8080 CPU core.\n" ++
    "library ieee;\n" ++
    "use ieee.std_logic_1164.all;\n" ++
    "use ieee.numeric_std.all;\n\n" ++
    "package light8080_ucode_pkg is\n\n" ++
    "  type t_rom is array (0 to 511) of std_logic_vector(31 downto 0);\n" ++
    "  constant microcode : t_rom := (\n"

/-- The line of a word in a VHDL package; a comma follows every word but the last. -/
def vhdlRow (w : MicroWord) (address : Nat) : String :=
  let separator := if address < 511 then "," else " "
  "  \"" ++ w.digits ++ "\"" ++ separator ++ " -- " ++ Text.hex 3 address ++ "\n"

def vhdlFoot : String := "\n);\nend package;\n"

def toVhdl (p : Program) : String :=
  vhdlHead ++ String.join (p.words.zipIdx.map fun (w, address) => vhdlRow w address) ++ vhdlFoot

/-! ## Verilog -/

def verilogHead : String :=
  "// light8080_ucode.inc.v -- Microcode table for light8080 CPU core.\n" ++
    "reg [31:0] microcode [0:511];\n\n" ++
    "initial begin\n"

/-- The line of a word in a Verilog include file. -/
def verilogRow (w : MicroWord) (address : Nat) : String :=
  "  microcode[9'h" ++ Text.hex 3 address ++ "] = 32'b" ++ w.digits ++ ";\n"

def verilogFoot : String := "end\n"

def toVerilog (p : Program) : String :=
  verilogHead ++ String.join (p.words.zipIdx.map fun (w, address) => verilogRow w address) ++
    verilogFoot

/-! ## JSON -/

def toJson (p : Program) : String :=
  (JsonValue.list (p.words.map fun w => .ofNat w.toNat)).pretty 0

/-- The control store in a written form. -/
def write (p : Program) : TableFormat → String
  | .vhdl => p.toVhdl
  | .verilog => p.toVerilog
  | .json => p.toJson

end Program

end Microcode
