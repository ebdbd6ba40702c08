import Microcode.Text.Blank

/-!
# Microcode.Text.Numeral

Writing numbers with a fixed number of places, and reading an address.

An address is written in decimal, or in hexadecimal after `0x` or `0X`, with blanks around it.
One `+` may stand before the digits, also after `0x`.  The digits are read from left to right and
the first problem met is the one reported: a character that is no digit of the radix, or a value
that no longer fits in 32 bits.
-/

namespace Microcode.Text

/-! ## writing -/

/-- The digits of `n` in `radix`, filled up with zeros to `width` places. -/
def padded (radix width n : Nat) : List Char := (Nat.toDigits radix n).leftpad width '0'

/-- Lower-case hexadecimal digits of `n`, at least `width` of them. -/
def hex (width n : Nat) : String := String.ofList (padded 16 width n)

/-- Binary digits of `n`, at least `width` of them. -/
def binary (width n : Nat) : String := String.ofList (padded 2 width n)

/-! ## reading -/

/-- Why a text is not the address it should be. -/
inductive NumeralError where
  | empty
  | invalidDigit
  | tooLarge
deriving DecidableEq, Repr

def NumeralError.message : NumeralError → String
  | .empty => "cannot parse integer from empty string"
  | .invalidDigit => "invalid digit found in string"
  | .tooLarge => "number too large to fit in target type"

/-- The value of a character as a digit of `radix`; letters of either case follow `9`. -/
def digit? (radix : Nat) (c : Char) : Option Nat :=
  let value :=
    if c.isDigit then some (c.toNat - '0'.toNat)
    else if c.isLower then some (c.toNat - 'a'.toNat + 10)
    else if c.isUpper then some (c.toNat - 'A'.toNat + 10)
    else none
  value.filter (· < radix)

/-- Numbers that are read are below this bound, `2 ^ 32`. -/
def numberBound : Nat := 0x100000000

/-- Appends digits of `radix` to the number `n`, from left to right. -/
def readDigits (radix n : Nat) : List Char → Except NumeralError Nat
  | [] => .ok n
  | c :: rest =>
    match digit? radix c with
    | none => .error .invalidDigit
    | some d =>
      if n * radix + d < numberBound then readDigits radix (n * radix + d) rest
      else .error .tooLarge

/-- A number in `radix`: digits after at most one `+`. -/
def readNumber (radix : Nat) : List Char → Except NumeralError Nat
  | [] => .error .empty
  | ['+'] => .error .invalidDigit
  | '+' :: digits => readDigits radix 0 digits
  | digits => readDigits radix 0 digits

/-- An address: hexadecimal after `0x` or `0X`, decimal otherwise, blanks around it ignored. -/
def readAddress (s : String) : Except NumeralError Nat :=
  match trim s.toList with
  | '0' :: 'x' :: digits => readNumber 16 digits
  | '0' :: 'X' :: digits => readNumber 16 digits
  | digits => readNumber 10 digits

end Microcode.Text
