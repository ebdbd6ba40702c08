import Microcode.Text.Blank

/-!
# Microcode.Text.Pieces

Cutting a text into pieces.

* `lines`: the lines of a text.  A line feed ends a line, a carriage return just before it is
  part of the line end, and a text that ends in a line feed has no empty line after it.
* `tokens`: the maximal runs of characters that are not blank.
* `before`, `after?`: the part before, and the part after, the first occurrence of a marker.
* `lower`: the text with `A` to `Z` in lower case, all else unchanged.
-/

namespace Microcode.Text

/-- A line without the carriage return it may end in. -/
def dropReturn (line : List Char) : List Char :=
  if line.getLast? == some '\r' then line.dropLast else line

/-- The lines of a text.  All pieces but the last one end in a line feed; the last one counts
only when it holds something, and keeps a carriage return it may end in. -/
def lines (s : List Char) : List (List Char) :=
  let pieces := s.splitOn '\n'
  let rest := pieces.getLast?.getD []
  pieces.dropLast.map dropReturn ++ if rest.isEmpty then [] else [rest]

/-- The lines of a string. -/
def linesOf (s : String) : List String := (lines s.toList).map String.ofList

/-- The maximal runs of characters that are not blank. -/
def tokens (s : List Char) : List (List Char) :=
  (s.splitOnP isBlank).filter fun t => !t.isEmpty

/-- The part of a text before the first occurrence of `marker`, or all of it. -/
def before (marker s : List Char) : List Char :=
  (s.foldr
    (fun c (rest, kept) =>
      (c :: rest, if marker.isPrefixOf (c :: rest) then [] else c :: kept))
    ([], [])).2

/-- The part of a text after the first occurrence of `marker`, if there is one. -/
def after? (marker : List Char) : List Char → Option (List Char)
  | [] => if marker.isEmpty then some [] else none
  | c :: rest =>
    if marker.isPrefixOf (c :: rest) then some ((c :: rest).drop marker.length)
    else after? marker rest

/-- The text with `A` to `Z` in lower case. -/
def lower (s : List Char) : List Char := s.map Char.toLower

end Microcode.Text
