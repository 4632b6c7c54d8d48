import CommandLine.Number.Hex
import CommandLine.Number.Integer
import CommandLine.Toml.Basic

/-! # TOML values without parts

    Numbers, truth values and dates are written as one word; texts between quotes. Their forms are
    those of the TOML specification, and no theorem depends on them. -/

namespace CommandLine.Toml

/-- Digits of a base with single underscores between them, without the underscores. -/
def plainDigits (isDigit : Char → Bool) (cs : List Char) : Option (List Char) :=
  let groups := cs.splitOn '_'
  if groups.all fun group => !group.isEmpty && group.all isDigit then some groups.flatten else none

/-- Whether decimal digits have no needless leading zero. -/
def hasNoLeadingZero (digits : List Char) : Bool :=
  digits.length ≤ 1 || digits.head? != some '0'

/-- Splits a sign off a word. -/
def splitSign (cs : List Char) : Bool × List Char :=
  match cs with
  | '-' :: rest => (true, rest)
  | '+' :: rest => (false, rest)
  | _ => (false, cs)

/-- An integer in decimal notation. -/
def decimal? (cs : List Char) : Option Int :=
  let (negative, unsigned) := splitSign cs
  match plainDigits Char.isDigit unsigned with
  | none => none
  | some digits =>
    let n : Int := Number.ofDigits digits
    if hasNoLeadingZero digits then some (if negative then -n else n) else none

/-- The value of digits of a base of at most sixteen. -/
def ofBase (base : Nat) (digits : List Char) : Nat :=
  digits.foldl (fun n c => base * n + (Number.hexValue c).getD 0) 0

/-- An integer in the notation of some base. -/
def based? (base : Nat) (cs : List Char) : Option Int :=
  let isDigit (c : Char) : Bool := ((Number.hexValue c).filter (· < base)).isSome
  (plainDigits isDigit cs).map fun digits => ofBase base digits

/-- An integer. -/
def integer? (cs : List Char) : Option Int :=
  let n := match cs with
    | '0' :: 'x' :: digits => based? 16 digits
    | '0' :: 'o' :: digits => based? 8 digits
    | '0' :: 'b' :: digits => based? 2 digits
    | _ => decimal? cs
  n.filter Number.fitsInt64

/-- Whether a word is a float: a decimal integer with a fraction or an exponent, or a special
    value. -/
def isFloat (cs : List Char) : Bool :=
  let (_, unsigned) := splitSign cs
  let isMark (c : Char) : Bool := c == 'e' || c == 'E'
  let mantissa := unsigned.takeWhile (!isMark ·)
  let exponent := unsigned.dropWhile (!isMark ·)
  let whole := mantissa.takeWhile (· != '.')
  let fraction := mantissa.dropWhile (· != '.')
  let isDigits (cs : List Char) : Bool := (plainDigits Char.isDigit cs).isSome
  let wholeFits := ((plainDigits Char.isDigit whole).map hasNoLeadingZero).getD false
  let fractionFits := fraction.isEmpty || isDigits (fraction.drop 1)
  let exponentFits := exponent.isEmpty || isDigits (splitSign (exponent.drop 1)).2
  unsigned == "inf".toList || unsigned == "nan".toList ||
    (wholeFits && fractionFits && exponentFits && !(fraction.isEmpty && exponent.isEmpty))

/-- A number of a fixed count of digits between two bounds. -/
def fixed? (count low high : Nat) (cs : List Char) : Option Nat :=
  if cs.length = count then (Number.readDigits cs).filter fun n => low ≤ n && n ≤ high else none

/-- The number of days of a month. -/
def daysIn (year month : Nat) : Nat :=
  let isLeap := year % 4 = 0 && (year % 100 ≠ 0 || year % 400 = 0)
  if month = 2 then (if isLeap then 29 else 28)
  else if [4, 6, 9, 11].contains month then 30 else 31

/-- Whether a word is a date. -/
def isDate (cs : List Char) : Bool :=
  match cs.splitOn '-' with
  | [year, month, day] =>
    match fixed? 4 0 9999 year, fixed? 2 1 12 month with
    | some y, some m => (fixed? 2 1 (daysIn y m) day).isSome
    | _, _ => false
  | _ => false

/-- Whether a word is a time of day. -/
def isTime (cs : List Char) : Bool :=
  match cs.splitOn ':' with
  | [hour, minute, second] =>
    let whole := second.takeWhile (· != '.')
    let fraction := second.dropWhile (· != '.')
    (fixed? 2 0 23 hour).isSome && (fixed? 2 0 59 minute).isSome && (fixed? 2 0 60 whole).isSome &&
      (fraction.isEmpty || (Number.readDigits (fraction.drop 1)).isSome)
  | _ => false

/-- Whether a word is an offset from universal time. -/
def isOffset (cs : List Char) : Bool :=
  match cs with
  | ['Z'] => true
  | ['z'] => true
  | sign :: rest =>
    (sign == '+' || sign == '-') &&
      match rest.splitOn ':' with
      | [hour, minute] => (fixed? 2 0 23 hour).isSome && (fixed? 2 0 59 minute).isSome
      | _ => false
  | [] => false

/-- Whether a word is a date, a time of day, or both with or without an offset. -/
def isMoment (cs : List Char) : Bool :=
  let date := cs.take 10
  let clock := cs.drop 11
  let isOffsetStart (c : Char) : Bool := c == 'Z' || c == 'z' || c == '+' || c == '-'
  let offset := clock.dropWhile (!isOffsetStart ·)
  let delimited := ((cs[10]?).map fun c => ['T', 't', ' '].contains c).getD false
  isDate cs || isTime cs ||
    (isDate date && delimited && isTime (clock.takeWhile (!isOffsetStart ·)) &&
      (offset.isEmpty || isOffset offset))

/-- The value that a word spells. -/
def ofWord? (cs : List Char) : Option Toml :=
  if cs = "true".toList then some (.truth true)
  else if cs = "false".toList then some (.truth false)
  else match integer? cs with
    | some n => some (.integer n)
    | none =>
      if isFloat cs then some (.float (String.ofList cs))
      else if isMoment cs then some (.moment (String.ofList cs))
      else none

/-- Whether a character may stand in a comment or text: no control character but the tab. -/
def isShown (c : Char) : Bool :=
  c == '\t' || (0x20 ≤ c.toNat && c.toNat ≠ 0x7f)

/-- The text after a line end, if there is one. -/
def lineEnd? : List Char → Option (List Char)
  | '\n' :: rest => some rest
  | '\r' :: '\n' :: rest => some rest
  | _ => none

/-- Reads the code point of an escape. -/
def readCodePoint (width : Nat) (cs : List Char) : Option (Char × List Char) :=
  let digits := cs.take width
  let code := Number.ofHexDigits digits
  if digits.length = width && (digits.all fun c => (Number.hexValue c).isSome) &&
      (code < 0xd800 || (0xe000 ≤ code && code < 0x110000)) then
    some (Char.ofNat code, cs.drop width)
  else none

/-- Reads an escaped character after the backslash. -/
def readEscape (cs : List Char) : Option (Char × List Char) :=
  match cs with
  | 'u' :: rest => readCodePoint 4 rest
  | 'U' :: rest => readCodePoint 8 rest
  | c :: rest =>
    ([('b', '\x08'), ('t', '\t'), ('n', '\n'), ('f', '\x0c'), ('r', '\r'), ('"', '"'),
      ('\\', '\\')].lookup c).map fun d => (d, rest)
  | [] => none

/-- Reads a text on one line after its opening quote. In a literal text a backslash stands for
    itself. -/
def readText (quote : Char) (fuel : Nat) (read : List Char) (cs : List Char) :
    Option (String × List Char) :=
  match fuel, cs with
  | 0, _ => none
  | _, [] => none
  | fuel + 1, c :: rest =>
    if c = quote then some (String.ofList read.reverse, rest)
    else if c = '\\' && quote = '"' then
      match readEscape rest with
      | some (d, rest) => readText quote fuel (d :: read) rest
      | none => none
    else if isShown c then readText quote fuel (c :: read) rest
    else none

/-- The text after a backslash at the end of a line: without the white space and line ends up to the
    next other character. -/
def afterLineBreak? (cs : List Char) : Option (List Char) :=
  let rest := cs.dropWhile fun c => c == ' ' || c == '\t'
  (lineEnd? rest).map fun rest =>
    rest.dropWhile fun c => c == ' ' || c == '\t' || c == '\n' || c == '\r'

/-- Reads a text of several lines after its opening quotes. Up to two quotes may stand before the
    closing ones. -/
def readLongText (quote : Char) (fuel : Nat) (read : List Char) (cs : List Char) :
    Option (String × List Char) :=
  match fuel, cs with
  | 0, _ => none
  | _, [] => none
  | fuel + 1, c :: rest =>
    if c = quote then
      let count := (cs.takeWhile (· == quote)).length
      if count < 3 then readLongText quote fuel (c :: read) rest
      else
        let kept := min (count - 3) 2
        some (String.ofList (List.replicate kept quote ++ read).reverse, cs.drop (kept + 3))
    else if c = '\\' && quote = '"' then
      match readEscape rest, afterLineBreak? rest with
      | some (d, rest), _ => readLongText quote fuel (d :: read) rest
      | none, some rest => readLongText quote fuel read rest
      | none, none => none
    else match lineEnd? cs with
      | some rest => readLongText quote fuel ('\n' :: read) rest
      | none => if isShown c then readLongText quote fuel (c :: read) rest else none

/-- Reads a text from its opening quotes on. -/
def readQuoted (quote : Char) (cs : List Char) : Option (String × List Char) :=
  if (cs.takeWhile (· == quote)).length ≥ 3 then
    let body := cs.drop 3
    readLongText quote (cs.length + 1) [] ((lineEnd? body).getD body)
  else readText quote (cs.length + 1) [] (cs.drop 1)

end CommandLine.Toml
