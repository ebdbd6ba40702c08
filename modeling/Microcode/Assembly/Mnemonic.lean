import Microcode.Line.Error

/-!
# Microcode.Assembly.Mnemonic

The mnemonics of a source: which CPU instruction is implemented from an address on.

A mnemonic may stand on one line only.  Several mnemonics may be bound to one address, and then the
last one counts.
-/

namespace Microcode

/-- A mnemonic, the address it is bound to, and the line it stands on. -/
structure Mnemonic where
  text : String
  address : UInt16
  line : Nat
deriving DecidableEq, Repr

/-- The mnemonics bound so far, the latest first. -/
structure MnemonicTable where
  bindings : List Mnemonic := []
deriving DecidableEq, Repr

namespace MnemonicTable

/-- The mnemonic that counts at an address. -/
def get? (t : MnemonicTable) (address : UInt16) : Option String :=
  (t.bindings.find? (·.address == address)).map (·.text)

/-- Binds a mnemonic to an address. -/
def bind (t : MnemonicTable) (text : String) (address : UInt16) (line : Nat) :
    Except LineError MnemonicTable :=
  match t.bindings.find? (·.text == text) with
  | some earlier => .error (.duplicateMnemonic text earlier.line)
  | none => .ok ⟨⟨text, address, line⟩ :: t.bindings⟩

/-- The mnemonics that count at the addresses below `bound`, by ascending address. -/
def below (t : MnemonicTable) (bound : Nat) : List (Nat × String) :=
  (List.range bound).filterMap fun address =>
    (t.get? (.ofNat address)).map fun text => (address, text)

end MnemonicTable

end Microcode
