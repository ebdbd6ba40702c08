import Microcode.Line.Error

/-!
# Microcode.Assembly.Label

The labels of a source and the addresses they stand for.
-/

namespace Microcode

/-- The address a label stands for, and the line that defines it. -/
structure LabelDef where
  address : UInt16
  line : Nat
deriving DecidableEq, Repr

/-- The labels defined so far, the latest first. -/
structure LabelTable where
  defs : List (String × LabelDef) := []
deriving DecidableEq, Repr

namespace LabelTable

def size (t : LabelTable) : Nat := t.defs.length

def isEmpty (t : LabelTable) : Bool := t.defs.isEmpty

def get? (t : LabelTable) (name : String) : Option LabelDef := t.defs.lookup name

def address? (t : LabelTable) (name : String) : Option UInt16 := (t.get? name).map (·.address)

/-- Defines a label; a name may be defined only once. -/
def define (t : LabelTable) (name : String) (address : UInt16) (line : Nat) :
    Except LineError LabelTable :=
  match t.get? name with
  | some earlier => .error (.duplicateLabel name earlier.line)
  | none => .ok ⟨(name, ⟨address, line⟩) :: t.defs⟩

end LabelTable

end Microcode
