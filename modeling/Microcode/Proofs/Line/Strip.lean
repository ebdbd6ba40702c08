import Microcode.Line.Parser
import Microcode.Proofs.Text.Pieces

/-!
# Microcode.Proofs.Line.Strip

What stands around the code of a line does not matter.

A line is read from what is left of it once blanks and the comment are taken away
(`Line.parse_congr`).  Blanks in front of it, blanks behind it and a comment behind it change nothing
of that (`strip_blanks_append`, `strip_append_blanks`, `strip_append_comment`), unless the line ends in
a slash, which the comment would take with it.  What is left is trimmed and has no comment
(`trimmed_strip`, `not_infix_strip`), and such a line is left as it is (`strip_eq_self`).
-/

namespace Microcode.Text

/-! ## markers and blanks -/

/-- The blanks that a text ends with do not matter for what stands before a marker, once the blanks
at the end are taken away there. -/
theorem trimEnd_before_trimEnd {c : Char} (hc : isBlank c = false) (s : List Char) :
    trimEnd (before [c, c] (trimEnd s)) = trimEnd (before [c, c] s) := by
  obtain ⟨blanks, hblanks, hs⟩ := exists_trimEnd_append s
  have hnot : c ∉ blanks := fun hmem => by simp [hblanks c hmem] at hc
  rcases before_append (s := trimEnd s) hnot with hbefore | hbefore
  · rw [← hbefore, hs]
  · rw [← trimEnd_append_blanks hblanks, ← hbefore, hs]

theorem getLast?_of_trimStart {s : List Char} {c : Char} (h : (trimStart s).getLast? = some c) :
    s.getLast? = some c := by
  obtain ⟨front, hfront⟩ := List.dropWhile_suffix (l := s) isBlank
  rw [← hfront, List.getLast?_append, ← trimStart, h, Option.some_or]

end Microcode.Text

namespace Microcode.Line

open Text

/-- A line is read from what is left of it without blanks and comment. -/
theorem parse_congr {raw raw' : String} (h : strip raw.toList = strip raw'.toList) :
    parse raw = parse raw' := by
  simp only [parse, h]

theorem strip_eq (s : List Char) : strip s = trimEnd (before ['/', '/'] (trimStart s)) :=
  trimEnd_before_trimEnd (by decide) (trimStart s)

/-- What is left of a line has no blanks around it. -/
theorem trimmed_strip (s : List Char) : Trimmed (strip s) :=
  trimmed_trimEnd ((trimEnd_isPrefix _).trans ((before_isPrefix _ _).trans (trimEnd_isPrefix _)))

/-- What is left of a line has no comment. -/
theorem not_infix_strip (s : List Char) : ¬['/', '/'] <:+: strip s := fun h =>
  not_infix_before (List.cons_ne_nil _ _) _ (h.trans (trimEnd_isPrefix _).isInfix)

/-- A line without blanks around it and without a comment is left as it is. -/
theorem strip_eq_self {s : List Char} (h : Trimmed s) (hcomment : ¬['/', '/'] <:+: s) :
    strip s = s := by
  rw [strip, trim_eq_self h, before_eq_self hcomment, trimEnd_eq_self h.2]

/-- Blanks in front of a line do not matter. -/
theorem strip_blanks_append {blanks : List Char} (h : ∀ c ∈ blanks, isBlank c = true)
    (s : List Char) : strip (blanks ++ s) = strip s := by
  rw [strip, strip, trim_blanks_append h]

/-- Blanks behind a line do not matter. -/
theorem strip_append_blanks {blanks : List Char} (h : ∀ c ∈ blanks, isBlank c = true)
    (s : List Char) : strip (s ++ blanks) = strip s := by
  rw [strip, strip, trim_append_blanks h]

/-- A comment behind a line does not matter, if no slash stands before it. -/
theorem strip_append_comment {s : List Char} (h : s.getLast? ≠ some '/') (comment : List Char) :
    strip (s ++ '/' :: '/' :: comment) = strip s := by
  have hslash : (trimStart s).getLast? ≠ some '/' := fun hlast => h (getLast?_of_trimStart hlast)
  rw [strip_eq, strip_eq, trimStart_append rfl, before_append_pair hslash]

/-- Nor does a carriage return that is part of the line end. -/
theorem strip_dropReturn (s : List Char) : strip (dropReturn s) = strip s := by
  unfold dropReturn
  split
  · next hlast =>
      obtain ⟨front, rfl⟩ := List.getLast?_eq_some_iff.mp (beq_iff_eq.mp hlast)
      rw [List.dropLast_concat, strip_append_blanks (List.forall_mem_singleton.mpr rfl)]
  · rfl

end Microcode.Line
