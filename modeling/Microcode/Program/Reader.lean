import Microcode.Json.Token
import Microcode.Program.Basic
import Microcode.Text.Numeral
import Microcode.Text.Pieces

/-!
# Microcode.Program.Reader

Reading a control store from any of its written forms.

A text whose first character that is not blank is `[` is a JSON list of numbers.  Any other text is
read line by line.  A line is first cut at `--` and then at `//`.  If two double quotes are left,
the text between the first two is a literal; otherwise what follows `32'b`, up to a semicolon or a
blank, is one.  A literal has 32 binary digits, between which underscores may stand.  All other
lines are passed over.
-/

namespace Microcode.Program

/-! ## hardware description languages -/

/-- A line without its comment. -/
def codeOf (line : List Char) : List Char :=
  Text.before ['/', '/'] (Text.before ['-', '-'] line)

/-- The text between the first two double quotes. -/
def quotedLiteral? (code : List Char) : Option (List Char) := do
  let rest ← Text.after? ['"'] code
  if rest.contains '"' then some (rest.takeWhile (· != '"')) else none

/-- The text after the mark of a 32-bit binary literal. -/
def sizedLiteral? (code : List Char) : Option (List Char) := do
  let rest ← Text.after? ['3', '2', '\'', 'b'] code
  some (rest.takeWhile fun c => c != ';' && !Text.isBlank c)

/-- The literal of a line. -/
def literal? (line : List Char) : Option (List Char) :=
  quotedLiteral? (codeOf line) <|> sizedLiteral? (codeOf line)

/-- The word that a literal stands for. -/
def wordOfLiteral? (literal : List Char) : Option MicroWord :=
  let digits := literal.filter (· != '_')
  if digits.length == 32 && digits.all fun c => c == '0' || c == '1' then
    some (.ofBits (digits.map (· == '1')))
  else none

/-- The word of the line with the given number, if it has one. -/
def readLine (line : List Char) (number : Nat) : Except LoadError (Option MicroWord) :=
  match literal? line with
  | none => .ok none
  | some literal =>
    match wordOfLiteral? literal with
    | some w => .ok (some w)
    | none => .error (.badLiteral number (String.ofList literal))

/-- Reads a control store line by line. -/
def ofHdl (text : List Char) : Except LoadError Program := do
  let words ← ((Text.lines text).zipIdx 1).mapM fun (line, number) => readLine line number
  ofWords (words.filterMap id)

/-! ## JSON -/

/-- A piece of a JSON text without the blanks around it. -/
def trimSpace (s : List Char) : List Char :=
  ((s.dropWhile JsonToken.isSpace).reverse.dropWhile JsonToken.isSpace).reverse

/-- The word that an item of a JSON list stands for: a number of 32 bits without a needless zero in
front. -/
def wordOfItem? (item : List Char) : Option MicroWord :=
  let digits := trimSpace item
  if JsonToken.isDigits digits && (digits.length == 1 || digits.head? != some '0') then
    match Text.readDigits 10 0 digits with
    | .ok n => some (.ofNat n)
    | .error _ => none
  else none

/-- The words between the brackets of a JSON list. -/
def wordsOfItems? (items : List Char) : Option (List MicroWord) :=
  if items.all JsonToken.isSpace then some [] else (items.splitOn ',').mapM wordOfItem?

/-- Reads a control store from a JSON list.  Its length is checked before anything that may follow
the closing bracket. -/
def ofJson (text : List Char) : Except LoadError Program :=
  match text.dropWhile JsonToken.isSpace with
  | '[' :: rest =>
    match wordsOfItems? (rest.takeWhile (· != ']')), rest.dropWhile (· != ']') with
    | some words, _ :: after =>
      if h : words.length = 512 then
        if after.all JsonToken.isSpace then .ok ⟨words, h⟩ else .error .badJson
      else .error (.jsonLength words.length 512)
    | _, _ => .error .badJson
  | _ => .error .badJson

/-- Reads a control store. -/
def read (text : String) : Except LoadError Program :=
  let chars := text.toList
  if (Text.trimStart chars).head? == some '[' then ofJson chars else ofHdl chars

end Microcode.Program
