import Microcode.Opcode.Pattern
import Microcode.Word.Jump

/-!
# Microcode.Opcode.Decode

The decode table: the entry address of every CPU opcode.

An opcode is decoded by the cheapest of the patterns that match it.  When several patterns are
equally cheap, the tie-break decides: the one registered first wins, or the table is refused.
-/

namespace Microcode

/-- What to do when two patterns of the same cost match one opcode. -/
inductive TieBreak where
  /-- Keep the pattern that was registered first. -/
  | first
  /-- Refuse the table. -/
  | reject
deriving DecidableEq, Repr

/-- Two equally cheap patterns that match the same opcode. -/
structure Ambiguity where
  opcode : UInt8
  first : OpcodePattern
  second : OpcodePattern
deriving DecidableEq, Repr

/-- An ambiguity as an error of the line of its second pattern. -/
def Ambiguity.toLineError (a : Ambiguity) : LineError :=
  .ambiguousOpcode a.opcode a.first.text a.first.line a.second.text

/-- Patterns in the order in which they were registered. -/
structure PatternSet where
  patterns : List OpcodePattern := []
deriving DecidableEq, Repr

/-- The entry address of every opcode, by opcode; `none` where no pattern matches. -/
@[ext] structure DecodeTable where
  entries : List (Option UInt16)
  length_entries : entries.length = 256
deriving DecidableEq, Repr

/-- A step over a list gives one result for each item. -/
theorem Result.length_of_mapM {ε α β : Type} {f : α → Except ε β} {xs : List α} {ys : List β}
    (h : xs.mapM f = .ok ys) : ys.length = xs.length := by
  induction xs generalizing ys with
  | nil =>
      cases h
      rfl
  | cons x xs ih =>
      rw [List.mapM_cons] at h
      cases hx : f x with
      | error e =>
          rw [hx] at h
          cases h
      | ok y =>
          cases hrest : xs.mapM f with
          | error e =>
              rw [hx, hrest] at h
              cases h
          | ok rest =>
              rw [hx, hrest] at h
              cases h
              rw [List.length_cons, List.length_cons, ih hrest]

namespace PatternSet

def size (s : PatternSet) : Nat := s.patterns.length

def isEmpty (s : PatternSet) : Bool := s.patterns.isEmpty

/-- Registers a pattern; a text may be registered only once. -/
def register (s : PatternSet) (p : OpcodePattern) : Except LineError PatternSet :=
  match s.patterns.find? (·.text == p.text) with
  | some earlier => .error (.duplicatePattern p.text earlier.line)
  | none => .ok ⟨s.patterns ++ [p]⟩

/-- The patterns of least cost among those that match an opcode. -/
def cheapest (s : PatternSet) (opcode : UInt8) : List OpcodePattern :=
  let matching := s.patterns.filter (·.covers opcode)
  match (matching.map (·.cost)).min? with
  | none => []
  | some least => matching.filter (·.cost == least)

/-- The pattern that decodes an opcode. -/
def bestMatch (s : PatternSet) (opcode : UInt8) (tie : TieBreak) :
    Except Ambiguity (Option OpcodePattern) :=
  match s.cheapest opcode, tie with
  | first :: second :: _, .reject => .error ⟨opcode, first, second⟩
  | tied, _ => .ok tied.head?

/-- The entry address of an opcode, if a pattern matches it. -/
def entryFor (s : PatternSet) (tie : TieBreak) (opcode : UInt8) :
    Except Ambiguity (Option UInt16) := do
  return (← s.bestMatch opcode tie).map (·.entry)

/-- The decode table of a set of patterns.  Opcodes are looked at in ascending order, and the
first ambiguity is the one reported. -/
def decodeTable (s : PatternSet) (tie : TieBreak) : Except Ambiguity DecodeTable :=
  match h : (List.range 256).mapM fun v => s.entryFor tie (.ofNat v) with
  | .ok entries => .ok ⟨entries, by rw [Result.length_of_mapM h, List.length_range]⟩
  | .error ambiguity => .error ambiguity

end PatternSet

namespace DecodeTable

def get? (t : DecodeTable) (opcode : UInt8) : Option UInt16 := t.entries[opcode.toNat]?.join

/-- The number of opcodes that have an entry address. -/
def matched (t : DecodeTable) : Nat := t.entries.countP (·.isSome)

/-- The word of an opcode that no pattern matches: a call of address 0. -/
def unmatchedWord : MicroWord := .ofNat 0x08000000

/-- The words of the table: a call of the entry address for each opcode. -/
def words (t : DecodeTable) : Except EncodingError (List MicroWord) :=
  t.entries.mapM fun
    | some entry => MicroWord.jump .call entry.toNat
    | none => .ok unmatchedWord

theorem length_of_words {t : DecodeTable} {words : List MicroWord} (h : t.words = .ok words) :
    words.length = 256 := by
  rw [Result.length_of_mapM h, t.length_entries]

end DecodeTable

end Microcode
