import Microcode.Program.Basic
import Microcode.Word.Jump

/-!
# Microcode.Flow.Basic

The control flow of the code in a control store.

A word leads to the next address unless it ends its sequence; a jump also leads to its target.
`Program.walk` visits all addresses below the decode table that can be reached from the given ones,
in breadth-first order, and lists the edges in the order in which it finds them.
-/

namespace Microcode

/-- How control gets from one word to another. -/
inductive EdgeKind where
  | fallthrough
  | call
  | condCall
deriving DecidableEq, Repr

/-- A step from one address to another. -/
structure Edge where
  source : Nat
  target : Nat
  kind : EdgeKind
deriving DecidableEq, Repr

/-- The kind of the edge to the target of a jump. -/
def JumpKind.edgeKind : JumpKind → EdgeKind
  | .call => .call
  | .condCall => .condCall

/-- Whether a plain word is the last one of its sequence: it halts, ends or returns. -/
def MicroWord.endsSequence (w : MicroWord) : Bool :=
  w.read .flags1 == 0b111 || w.read .flags2 == 0b001 || w.read .flags2 == 0b011

namespace Program

/-- The edge to the next address, if code can stand there. -/
def fallthroughEdge (pc : Nat) : List Edge :=
  if pc + 1 < decodeBase then [⟨pc, pc + 1, .fallthrough⟩] else []

/-- The edges that leave an address. -/
def edgesFrom (p : Program) (pc : Nat) : List Edge :=
  match p.get? pc with
  | none => []
  | some w =>
    match w.jumpKind?, w.jumpTarget? with
    | some kind, some target => ⟨pc, target, kind.edgeKind⟩ :: fallthroughEdge pc
    | _, _ => if w.endsSequence then [] else fallthroughEdge pc

theorem length_fallthroughEdge_le (pc : Nat) : (fallthroughEdge pc).length ≤ 1 := by
  unfold fallthroughEdge
  split <;> simp

theorem length_edgesFrom_le (p : Program) (pc : Nat) : (p.edgesFrom pc).length ≤ 2 := by
  have := length_fallthroughEdge_le pc
  unfold edgesFrom
  split
  · simp
  · split
    · simp only [List.length_cons]
      omega
    · split
      · simp
      · omega

/-- What a walk has found: the addresses it has not visited, and the edges it has seen. -/
structure WalkState where
  unvisited : List Nat
  edges : Array Edge := #[]

/-- Visits the addresses in the queue and all that they lead to.  Each visit takes an address off
the unvisited ones and adds at most two to the queue, so the walk ends. -/
def walkFrom (p : Program) (s : WalkState) (queue : List Nat) : WalkState :=
  match queue with
  | [] => s
  | pc :: rest =>
    if _h : pc ∈ s.unvisited then
      let found := p.edgesFrom pc
      walkFrom p ⟨s.unvisited.erase pc, s.edges ++ found⟩ (rest ++ found.map (·.target))
    else walkFrom p s rest
termination_by 3 * s.unvisited.length + queue.length
decreasing_by
  · have hlen := length_edgesFrom_le p pc
    have hpos := List.length_pos_of_mem _h
    simp only [List.length_erase_of_mem _h, List.length_append, List.length_map,
      List.length_cons]
    omega
  · simp

/-- The addresses at which code can stand. -/
def codeAddresses : List Nat := List.range decodeBase

/-- A finished walk: the visited addresses in ascending order, and the edges that leave them. -/
structure Walk where
  visited : List Nat
  edges : List Edge
deriving DecidableEq, Repr

/-- Walks through the code from the given addresses. -/
def walk (p : Program) (seeds : List Nat) : Walk :=
  let s := p.walkFrom { unvisited := codeAddresses } seeds
  { visited := codeAddresses.filter (!s.unvisited.contains ·)
    edges := s.edges.toList }

/-! ## the decode table -/

/-- The entry address that a word of the decode table stands for.  The word of an opcode without
entry calls address 0, so an entry at address 0 cannot be told from it. -/
def entryOf (w : MicroWord) : Option Nat :=
  match w.jumpKind?, w.jumpTarget? with
  | some .call, some target => if target = 0 then none else some target
  | _, _ => none

/-- The entry address of every opcode, by opcode. -/
def decodeEntries (p : Program) : List (Option Nat) := p.decodeWords.map entryOf

end Program

end Microcode
