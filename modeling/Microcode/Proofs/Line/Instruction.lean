import Microcode.Proofs.Instruction.Fields
import Microcode.Proofs.Instruction.Grammar
import Microcode.Proofs.Line.Parser

/-!
# Microcode.Proofs.Line.Instruction

Which lines are regular instructions, and what their words are.

The first characters of a line settle what kind of line it is.  A field that spells an operand stage
begins like none of the other kinds (`Operand.Spelled.ne_append`), so the lines that give a word are
those whose fields spell an instruction, and the word is the one with the instruction's fields.
-/

namespace Microcode

open Text Result

/-! ## how a field begins -/

/-- What a text begins with, up to the first separator, is what its first piece begins with. -/
theorem exists_splitOn_append {separator : Char} {start : List Char} (h : separator ∉ start)
    (s : List Char) :
    ∃ first others, (start ++ s).splitOn separator = (start ++ first) :: others := by
  induction start with
  | nil => exact List.exists_cons_of_ne_nil (List.splitOn_ne_nil separator s)
  | cons c start ih =>
      rw [List.mem_cons, not_or] at h
      obtain ⟨first, others, hcut⟩ := ih h.2
      have hc : (c == separator) = false := beq_eq_false_iff_ne.mpr (Ne.symm h.1)
      refine ⟨first, others, ?_⟩
      rw [List.cons_append, List.splitOn_cons_eq_if_modifyHead, hcut, hc]
      rfl

/-- So is what the first piece of a field begins with, in lower case. -/
theorem exists_pieces_append {separator : Char} {start : List Char} (hne : start ≠ [])
    (h : ∀ c ∈ start, isBlank c = false ∧ c ≠ separator) (s : List Char) :
    ∃ more others,
      pieces separator (start ++ s) = String.ofList (lower start ++ more) :: others := by
  obtain ⟨first, others, hcut⟩ := exists_splitOn_append (fun hmem => (h _ hmem).2 rfl) s
  have hstart : trimStart (start ++ first) = start ++ first := by
    refine trimStart_eq_self fun c hc => (h c ?_).1
    rw [List.head?_append_of_ne_nil _ hne] at hc
    exact List.mem_of_mem_head? hc
  have hend : trimEnd start = start :=
    trimEnd_eq_self fun c hc => (h c (List.mem_of_getLast? hc)).1
  refine ⟨lower (trimEnd first), others.map fun s => String.ofList (lower (trim s)), ?_⟩
  rw [pieces, hcut, List.map_cons, trim, hstart, trimEnd_append hend, lower, List.map_append,
    ← lower, ← lower]

/-- How the lines begin that are not regular instructions. -/
def Line.starts : List (List Char) := [[':'], ['_', '_'], ['J', 'S', 'R'], ['T', 'J', 'S', 'R']]

/-- An operand stage begins in none of these ways. -/
theorem Operand.Spelled.ne_append {o : Operand} {field : List Char}
    (h : o.Spelled (pieces '=' field)) (start : List Char) (hstart : start ∈ Line.starts)
    (s : List Char) : field ≠ start ++ s := by
  rintro rfl
  have hchars : ∀ start ∈ Line.starts, start ≠ [] ∧ ∀ c ∈ start, isBlank c = false ∧ c ≠ '=' := by
    simp [Line.starts, isBlank]
  obtain ⟨hne, hchars⟩ := hchars start hstart
  obtain ⟨more, others, hpieces⟩ := exists_pieces_append hne hchars s
  rw [hpieces] at h
  have hfirst : String.ofList (lower start ++ more) ∈ ["nop", "t1", "t2"] := by
    generalize String.ofList (lower start ++ more) = name at h
    cases h with
    | nop => simp
    | load temp _ => cases temp <;> simp [Temp.name]
  simp only [Line.starts, List.mem_cons, List.not_mem_nil, or_false] at hstart
  rcases hstart with rfl | rfl | rfl | rfl <;>
    simp [← String.toList_inj, lower] at hfirst

namespace Line

/-- A field that spells an operand stage is the first one of a regular instruction. -/
theorem ofFields_of_spelled {o : Operand} {head : List Char} (h : o.Spelled (pieces '=' head))
    (rest : List (List Char)) :
    ofFields head rest = (Instruction.build head rest).map .word := by
  unfold ofFields
  split
  · next name => exact absurd rfl (h.ne_append [':'] (by decide) name)
  · next more => exact absurd rfl (h.ne_append ['_', '_'] (by decide) more)
  · next more => exact absurd rfl (h.ne_append ['J', 'S', 'R'] (by decide) more)
  · next more => exact absurd rfl (h.ne_append ['T', 'J', 'S', 'R'] (by decide) more)
  · rfl

/-- The fields that are read as a word are those that spell an instruction with that word. -/
theorem ofFields_eq_word_iff {head : List Char} {rest : List (List Char)} (hrest : rest.length ≤ 2)
    {w : MicroWord} :
    ofFields head rest = .ok (.word w) ↔
      ∃ i : Instruction, i.Spelled (head :: rest) ∧ w = i.image := by
  constructor
  · intro h
    obtain ⟨i, hi, hw⟩ := readFrom_of_ofFields h
    exact ⟨i, (Instruction.parse_eq_ok_iff_spelled hrest).mp hi, hw⟩
  · rintro ⟨i, hi, rfl⟩
    have hparse := (Instruction.parse_eq_ok_iff_spelled hrest).mpr hi
    have hoperand : i.operand.Spelled (pieces '=' head) := hi.operand_spelled
    rw [ofFields_of_spelled hoperand, Instruction.build_eq, hparse]
    rfl

/-- A line gives a word when its fields spell an instruction with that word. -/
theorem parse_eq_image_iff {raw : String} {w : MicroWord} :
    parse raw = .ok (some (.word w)) ↔
      ∃ i : Instruction, i.Spelled (fields raw) ∧ w = i.image := by
  obtain ⟨head, rest, hfields⟩ := exists_fields_eq_cons raw
  rw [parse_eq_some_iff, hfields, List.headD_cons, List.tail_cons, List.length_cons, maxFields]
  constructor
  · rintro ⟨-, hlen, hread⟩
    exact (ofFields_eq_word_iff (by omega)).mp hread
  · rintro ⟨i, hi, rfl⟩
    obtain ⟨hlen, hhead⟩ := hi.bounds
    rw [List.length_cons] at hlen
    refine ⟨fun hblank => ?_, by omega, (ofFields_eq_word_iff (by omega)).mpr ⟨i, hi, rfl⟩⟩
    have hempty : fields raw = [[]] := by simp [fields, hblank]
    simp [(List.cons.inj (hfields.symm.trans hempty)).1] at hhead

/-- The word of a line is known from the fields of the instruction that the line spells, and lines
that spell none give no word. -/
theorem parse_eq_word_iff (raw : String) (w : MicroWord) :
    parse raw = .ok (some (.word w)) ↔
      ∃ i : Instruction, i.Spelled (fields raw) ∧ i.EncodedBy w := by
  rw [parse_eq_image_iff]
  exact exists_congr fun i => and_congr_right fun hi =>
    (Instruction.encodedBy_iff hi.pairwise_flags).symm

end Line

end Microcode
