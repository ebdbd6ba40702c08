import Microcode.Word.Basic

/-!
# Microcode.Program.Basic

The control store: 512 words, of which the first 256 hold code and the last 256 the decode table.
-/

namespace Microcode

/-- Why a text is not a control store. -/
inductive LoadError where
  | wrongLength (got expected : Nat)
  /-- A line holds a literal that is no word. -/
  | badLiteral (line : Nat) (text : String)
  /-- A JSON list of words has the wrong length. -/
  | jsonLength (got expected : Nat)
  /-- The text begins like a JSON list and is no JSON list of words. -/
  | badJson
deriving DecidableEq, Repr

def LoadError.lengthMessage (got expected : Nat) : String :=
  s!"microcode table has {got} words, expected {expected}"

def LoadError.message : LoadError → String
  | .wrongLength got expected => lengthMessage got expected
  | .badLiteral line text => s!"line {line}: malformed microinstruction literal '{text}'"
  | .jsonLength got expected => "malformed JSON table: " ++ lengthMessage got expected
  | .badJson => "malformed JSON table: not a list of 32-bit words"

/-- A control store. -/
structure Program where
  words : List MicroWord
  length_words : words.length = 512
deriving DecidableEq, Repr

namespace Program

def size : Nat := 512

/-- The address of the decode table; code lies below it. -/
def decodeBase : Nat := 256

/-- The word in unused places below the decode table: an instruction that only ends a sequence. -/
def paddingWord : MicroWord := .ofNat 0x04000000

/-- The control store with the given words. -/
def ofWords (words : List MicroWord) : Except LoadError Program :=
  if h : words.length = 512 then .ok ⟨words, h⟩
  else .error (.wrongLength words.length 512)

/-- Exactly `n` words: those given, then `filler`. -/
def fill (n : Nat) (filler : MicroWord) (words : List MicroWord) : List MicroWord :=
  (words ++ List.replicate n filler).take n

@[simp] theorem length_fill (n : Nat) (filler : MicroWord) (words : List MicroWord) :
    (fill n filler words).length = n := by
  simp [fill]

/-- The control store with the given code and decode table.  Unused places of the code hold the
padding word. -/
def ofParts (code decode : List MicroWord) (hdecode : decode.length = 256) : Program where
  words := fill 256 paddingWord code ++ decode
  length_words := by simp [hdecode]

def get? (p : Program) (address : Nat) : Option MicroWord := p.words[address]?

/-- The words of the decode table, by opcode. -/
def decodeWords (p : Program) : List MicroWord := p.words.drop decodeBase

@[simp] theorem length_decodeWords (p : Program) : p.decodeWords.length = 256 := by
  simp [decodeWords, decodeBase, p.length_words]

end Program

end Microcode
