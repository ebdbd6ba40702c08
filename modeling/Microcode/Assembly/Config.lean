import Microcode.Json.Reader
import Microcode.Opcode.Decode

/-!
# Microcode.Assembly.Config

Settings of an assembly, and reading them from JSON.

The settings are an object with the member `tie_break`, which must be there exactly once; members
of other names are ignored.  A list of the one setting is accepted too.  A tie-break is its name as
a string, or an object whose only member has that name and the value null.
-/

namespace Microcode

/-- Settings of an assembly. -/
structure Config where
  tieBreak : TieBreak := .first
deriving DecidableEq, Repr

namespace TieBreak

def all : List TieBreak := [.first, .reject]

def name : TieBreak → String
  | .first => "FirstRegistered"
  | .reject => "Reject"

/-- The tie-break whose name a JSON string stands for. -/
def ofRaw? (raw : String) : Option TieBreak := do
  let s ← JsonValue.unescape? raw
  all.find? (·.name == s)

/-- The tie-break that a JSON value stands for. -/
def ofJson? : JsonValue → Option TieBreak
  | .string raw => ofRaw? raw
  | .object [(key, .null)] => ofRaw? key
  | _ => none

end TieBreak

namespace Config

/-- The settings that a JSON value stands for. -/
def ofJson? : JsonValue → Option Config
  | .list [value] => do return { tieBreak := ← TieBreak.ofJson? value }
  | .object members => do
    let named ← members.mapM fun (key, value) => do return (← JsonValue.unescape? key, value)
    match named.filter (·.1 == "tie_break") with
    | [(_, value)] => return { tieBreak := ← TieBreak.ofJson? value }
    | _ => none
  | _ => none

/-- Reads settings. -/
def parse? (text : String) : Option Config := JsonValue.parse? text >>= ofJson?

end Config

end Microcode
