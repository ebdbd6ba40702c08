/-!
# Microcode.Json.Token

The tokens of a JSON text.

Between tokens only space, tab, line feed and carriage return may stand.  A string holds no control
character, and a backslash begins one of the known escapes.  What is neither a string nor one of
the six marks runs up to the next blank, mark or quote, and must be a number or one of the three
literal names.
-/

namespace Microcode

/-- A token of a JSON text. -/
inductive JsonToken where
  | openList
  | closeList
  | openObject
  | closeObject
  | comma
  | colon
  | null
  | bool (b : Bool)
  | number (text : String)
  | string (raw : String)
deriving DecidableEq, Repr

namespace JsonToken

/-! ## blanks and marks -/

/-- The four blanks of JSON. -/
def isSpace (c : Char) : Bool := c == ' ' || c == '\t' || c == '\n' || c == '\r'

/-- The token of a mark. -/
def ofMark? : Char → Option JsonToken
  | '[' => some .openList
  | ']' => some .closeList
  | '\x7b' => some .openObject
  | '\x7d' => some .closeObject
  | ',' => some .comma
  | ':' => some .colon
  | _ => none

/-- Whether a character ends a number or a name. -/
def isDelimiter (c : Char) : Bool := isSpace c || (ofMark? c).isSome || c == '"'

/-! ## numbers and names -/

/-- One or more digits. -/
def isDigits (s : List Char) : Bool := !s.isEmpty && s.all Char.isDigit

/-- An exponent or nothing. -/
def isExponent : List Char → Bool
  | [] => true
  | c :: '+' :: digits => (c == 'e' || c == 'E') && isDigits digits
  | c :: '-' :: digits => (c == 'e' || c == 'E') && isDigits digits
  | c :: digits => (c == 'e' || c == 'E') && isDigits digits

/-- A fraction or nothing, then an exponent or nothing. -/
def isFraction : List Char → Bool
  | '.' :: c :: rest => c.isDigit && isExponent (rest.dropWhile Char.isDigit)
  | s => isExponent s

/-- A number without its sign; a zero is followed by no digit. -/
def isUnsigned : List Char → Bool
  | [] => false
  | '0' :: rest => isFraction rest
  | c :: rest => c.isDigit && isFraction (rest.dropWhile Char.isDigit)

/-- A number. -/
def isNumber : List Char → Bool
  | '-' :: s => isUnsigned s
  | s => isUnsigned s

/-- The token of a number or a name. -/
def ofWord? (s : List Char) : Option JsonToken :=
  if s == ['n', 'u', 'l', 'l'] then some .null
  else if s == ['t', 'r', 'u', 'e'] then some (.bool true)
  else if s == ['f', 'a', 'l', 's', 'e'] then some (.bool false)
  else if isNumber s then some (.number (String.ofList s))
  else none

/-! ## strings -/

/-- The value of a hexadecimal digit of either case. -/
def hexValue? (c : Char) : Option Nat :=
  if c.isDigit then some (c.toNat - '0'.toNat)
  else if 'a' ≤ c && c ≤ 'f' then some (c.toNat - 'a'.toNat + 10)
  else if 'A' ≤ c && c ≤ 'F' then some (c.toNat - 'A'.toNat + 10)
  else none

/-- The number that four hexadecimal digits stand for. -/
def unit? (a b c d : Char) : Option Nat := do
  return (((← hexValue? a) * 16 + (← hexValue? b)) * 16 + (← hexValue? c)) * 16 + (← hexValue? d)

/-- The character that a one-letter escape stands for. -/
def escape? : Char → Option Char
  | '"' => some '"'
  | '\\' => some '\\'
  | '/' => some '/'
  | 'b' => some '\x08'
  | 'f' => some '\x0c'
  | 'n' => some '\n'
  | 'r' => some '\r'
  | 't' => some '\t'
  | _ => none

/-- Reads up to the closing quote.  Gives the text read, after `done` in reverse, and the rest. -/
def quoted (done : List Char) : List Char → Option (List Char × List Char)
  | [] => none
  | '\\' :: 'u' :: a :: b :: c :: d :: rest =>
    if (unit? a b c d).isSome then quoted (d :: c :: b :: a :: 'u' :: '\\' :: done) rest else none
  | '\\' :: e :: rest => if (escape? e).isSome then quoted (e :: '\\' :: done) rest else none
  | c :: rest =>
    if c == '"' then some (done.reverse, rest)
    else if c == '\\' || c.toNat < 0x20 then none
    else quoted (c :: done) rest

theorem length_lt_of_quoted {done s raw rest : List Char} (h : quoted done s = some (raw, rest)) :
    rest.length < s.length := by
  fun_induction quoted done s <;> simp_all <;> omega

/-- The characters that the text of a string stands for.  An escape for half a surrogate pair needs
its other half. -/
def unescape? : List Char → Option (List Char)
  | [] => some []
  | '\\' :: 'u' :: a :: b :: c :: d :: rest => do
    let high ← unit? a b c d
    if 0xD800 ≤ high && high < 0xDC00 then
      match rest with
      | '\\' :: 'u' :: e :: f :: g :: h :: rest =>
        let low ← unit? e f g h
        if 0xDC00 ≤ low && low < 0xE000 then
          let char := Char.ofNat (0x10000 + (high - 0xD800) * 0x400 + (low - 0xDC00))
          return char :: (← unescape? rest)
        else none
      | _ => none
    else if 0xDC00 ≤ high && high < 0xE000 then none
    else return Char.ofNat high :: (← unescape? rest)
  | '\\' :: e :: rest => do return (← escape? e) :: (← unescape? rest)
  | c :: rest => do return c :: (← unescape? rest)

/-! ## texts -/

theorem length_dropWhile_le (p : Char → Bool) (s : List Char) :
    (s.dropWhile p).length ≤ s.length :=
  (List.dropWhile_suffix p).length_le

/-- The tokens of a text, after `done` in reverse. -/
def scan (done : List JsonToken) : List Char → Option (List JsonToken)
  | [] => some done.reverse
  | c :: rest =>
    if isSpace c then scan done rest
    else if c == '"' then
      match _h : quoted [] rest with
      | some (raw, after) => scan (.string (String.ofList raw) :: done) after
      | none => none
    else
      match ofMark? c with
      | some token => scan (token :: done) rest
      | none =>
        match ofWord? (c :: rest.takeWhile (!isDelimiter ·)) with
        | some token => scan (token :: done) (rest.dropWhile (!isDelimiter ·))
        | none => none
termination_by s => s.length
decreasing_by
  · simp
  · have := length_lt_of_quoted _h
    simp only [List.length_cons]
    omega
  · simp
  · have := length_dropWhile_le (!isDelimiter ·) rest
    simp only [List.length_cons]
    omega

end JsonToken

end Microcode
