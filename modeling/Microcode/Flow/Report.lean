import Microcode.Flow.Basic
import Microcode.Json.Value
import Microcode.Text.Numeral

/-!
# Microcode.Flow.Report

A summary of the entry points and the control flow of a control store, as text and as JSON.
-/

namespace Microcode

/-- An entry address and the opcodes that are decoded to it. -/
structure EntryPoint where
  address : Nat
  opcodes : List Nat
deriving DecidableEq, Repr

/-- The summary of a control store. -/
structure Report where
  /-- The entry points by ascending address. -/
  entries : List EntryPoint
  /-- The opcodes without entry. -/
  unmatched : List Nat
  edges : List Edge
  /-- The number of addresses that can be reached from address 0 and the entry points. -/
  reachable : Nat
deriving DecidableEq, Repr

def EdgeKind.name : EdgeKind → String
  | .fallthrough => "ft"
  | .call => "jsr"
  | .condCall => "tjsr"

/-- Adds an opcode under its entry address.  The entry points stand by ascending address; an opcode
with a new address gets a new one. -/
def EntryPoint.insert (address opcode : Nat) : List EntryPoint → List EntryPoint
  | [] => [⟨address, [opcode]⟩]
  | e :: es =>
    if address < e.address then ⟨address, [opcode]⟩ :: e :: es
    else if address = e.address then ⟨address, e.opcodes ++ [opcode]⟩ :: es
    else e :: insert address opcode es

/-- Opcodes, sorted by their entries. -/
structure Grouping where
  entries : List EntryPoint := []
  unmatched : List Nat := []
deriving DecidableEq, Repr

/-- Adds an opcode with its entry. -/
def Grouping.add (g : Grouping) (x : Option Nat × Nat) : Grouping :=
  match x.1 with
  | some address => { g with entries := EntryPoint.insert address x.2 g.entries }
  | none => { g with unmatched := g.unmatched ++ [x.2] }

namespace Program

/-- The opcodes of a control store, sorted by their entries. -/
def grouping (p : Program) : Grouping := p.decodeEntries.zipIdx.foldl Grouping.add {}

/-- The report of a control store. -/
def report (p : Program) : Report :=
  let grouping := p.grouping
  let walk := p.walk (0 :: grouping.entries.map (·.address))
  { entries := grouping.entries
    unmatched := grouping.unmatched
    edges := walk.edges
    reachable := walk.visited.length }

end Program

namespace Report

def entryRow (e : EntryPoint) : String :=
  let address := Text.hex 3 e.address
  let count := e.opcodes.length
  let first := Text.hex 2 (e.opcodes.headD 0)
  s!"  {address} <- {count} opcode(s), first 0x{first}\n"

def edgeRow (e : Edge) : String :=
  let source := Text.hex 3 e.source
  let target := Text.hex 3 e.target
  let kind := e.kind.name
  s!"  {source} -> {target} ({kind})\n"

def countRow (name : String) (count : Nat) : String := s!"  {name} : {count}\n"

def toText (r : Report) : String :=
  "Analysis summary:\n" ++
    countRow "entries  " r.entries.length ++
    countRow "unmatched" r.unmatched.length ++
    countRow "reachable" r.reachable ++
    countRow "edges    " r.edges.length ++
    "Entries:\n" ++ String.join (r.entries.map entryRow) ++
    "Edges:\n" ++ String.join (r.edges.map edgeRow)

def entryJson (e : EntryPoint) : JsonValue :=
  .object [("addr", .ofNat e.address), ("opcodes", .list (e.opcodes.map .ofNat))]

def edgeJson (e : Edge) : JsonValue :=
  .object [("from", .ofNat e.source), ("to", .ofNat e.target), ("kind", .string e.kind.name)]

def toJson (r : Report) : String :=
  JsonValue.pretty 0 <| .object [
    ("entries", .list (r.entries.map entryJson)),
    ("unmatched", .list (r.unmatched.map .ofNat)),
    ("edges", .list (r.edges.map edgeJson)),
    ("reachable", .ofNat r.reachable)]

end Report

end Microcode
