/-!
# Microcode.Text.Blank

Blank characters and trimming.

A character is blank when it has the Unicode property `White_Space`: 25 code points, among them
tab, line feed, carriage return, space, no-break space and the ideographic space.  Texts are
lists of characters, so that every function here is a composition of list functions.
-/

namespace Microcode.Text

/-- The 25 code points with the Unicode property `White_Space`. -/
def isBlank (c : Char) : Bool :=
  let n := c.toNat
  (9 ≤ n && n ≤ 13) || n == 0x20 || n == 0x85 || n == 0xA0 || n == 0x1680 ||
    (0x2000 ≤ n && n ≤ 0x200A) || n == 0x2028 || n == 0x2029 || n == 0x202F ||
    n == 0x205F || n == 0x3000

def trimStart (s : List Char) : List Char := s.dropWhile isBlank

def trimEnd (s : List Char) : List Char := (s.reverse.dropWhile isBlank).reverse

def trim (s : List Char) : List Char := trimEnd (trimStart s)

@[simp] theorem trim_nil : trim [] = [] := rfl

/-- A string without the blanks it ends with. -/
def trimEndString (s : String) : String := String.ofList (trimEnd s.toList)

end Microcode.Text
