/-! # Hexadecimal digits -/

namespace CommandLine.Number

/-- The hexadecimal digits, in lower case. -/
def hexDigitChars : List Char :=
  ['0', '1', '2', '3', '4', '5', '6', '7', '8', '9', 'a', 'b', 'c', 'd', 'e', 'f']

/-- The character of a digit below sixteen. -/
def hexChar (d : Nat) : Char :=
  hexDigitChars.getD d '0'

/-- The value of a hexadecimal digit of either case. -/
def hexValue (c : Char) : Option Nat :=
  hexDigitChars.idxOf? c.toLower

/-- The hexadecimal digits of a number, without leading zeros; zero has one digit. -/
def hexDigits (n : Nat) : List Char :=
  if n < 16 then [hexChar n] else hexDigits (n / 16) ++ [hexChar (n % 16)]

/-- The number that hexadecimal digits spell; other characters count as zero. -/
def ofHexDigits (cs : List Char) : Nat :=
  cs.foldl (fun n c => 16 * n + (hexValue c).getD 0) 0

/-- The hexadecimal digits of a number, with leading zeros up to a width. -/
def paddedHex (width n : Nat) : List Char :=
  List.replicate (width - (hexDigits n).length) '0' ++ hexDigits n

end CommandLine.Number
