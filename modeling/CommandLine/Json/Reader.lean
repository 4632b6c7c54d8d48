import CommandLine.Json.Basic

/-! # Reading JSON text

    A text is read as one JSON value with white space around it, by the JSON grammar. Arrays and
    objects may be nested `maxDepth` deep, the recursion limit that JSON readers document. No
    theorem depends on which texts are read. -/

namespace CommandLine.Json

/-- How deep arrays and objects may be nested. -/
def maxDepth : Nat := 127

/-- Whether a character may stand between the parts of a JSON text. -/
def isSpace (c : Char) : Bool :=
  c == ' ' || c == '\n' || c == '\t' || c == '\r'

/-- The text after the white space at its start. -/
def skipSpace (cs : List Char) : List Char :=
  cs.dropWhile isSpace

/-- Reads four hexadecimal digits. -/
def readHex4 : List Char → Option (Nat × List Char)
  | a :: b :: c :: d :: rest =>
    if [a, b, c, d].all fun x => (Number.hexValue x).isSome then
      some (Number.ofHexDigits [a, b, c, d], rest)
    else none
  | _ => none

/-- Reads the code point of an escape from its four hexadecimal digits on. A high surrogate must be
    followed by the escape of a low one. -/
def readCodePoint (cs : List Char) : Option (Char × List Char) := do
  let (high, rest) ← readHex4 cs
  if high < 0xd800 || 0xe000 ≤ high then return (Char.ofNat high, rest)
  guard (high < 0xdc00)
  match rest with
  | '\\' :: 'u' :: rest =>
    let (low, rest) ← readHex4 rest
    guard (0xdc00 ≤ low && low < 0xe000)
    return (Char.ofNat (0x10000 + (high - 0xd800) * 0x400 + (low - 0xdc00)), rest)
  | _ => none

/-- The character that a one-letter escape stands for. -/
def escaped? (c : Char) : Option Char :=
  [('"', '"'), ('\\', '\\'), ('/', '/'), ('b', '\x08'), ('f', '\x0c'), ('n', '\n'), ('r', '\r'),
    ('t', '\t')].lookup c

/-- Reads a string after its opening quote; `read` holds its characters so far, the last first. -/
def readString (fuel : Nat) (read : List Char) (cs : List Char) : Option (String × List Char) :=
  match fuel, cs with
  | 0, _ => none
  | _, [] => none
  | _, '"' :: rest => some (String.ofList read.reverse, rest)
  | fuel + 1, '\\' :: 'u' :: rest =>
    match readCodePoint rest with
    | some (c, rest) => readString fuel (c :: read) rest
    | none => none
  | fuel + 1, '\\' :: c :: rest =>
    match escaped? c with
    | some c => readString fuel (c :: read) rest
    | none => none
  | fuel + 1, c :: rest =>
    if c.toNat < 0x20 || c = '\\' then none else readString fuel (c :: read) rest

/-- Whether the digits of a whole number have no needless leading zero. -/
def isWholePart (digits : List Char) : Bool :=
  match digits with
  | [] => false
  | ['0'] => true
  | c :: _ => c != '0'

/-- Reads a number. -/
def readNumber (cs : List Char) : Option (Json × List Char) := do
  let negative := cs.head? == some '-'
  let unsigned := if negative then cs.drop 1 else cs
  let whole := unsigned.takeWhile Char.isDigit
  let afterWhole := unsigned.dropWhile Char.isDigit
  guard (isWholePart whole)
  let (fraction, afterFraction) ← match afterWhole with
    | '.' :: rest =>
      let digits := rest.takeWhile Char.isDigit
      if digits.isEmpty then none else some (digits, rest.dropWhile Char.isDigit)
    | rest => some ([], rest)
  let isExponentChar (c : Char) : Bool := c.isDigit || c == '+' || c == '-'
  let (exponent, rest) ← match afterFraction with
    | c :: rest =>
      if c = 'e' || c = 'E' then
        match Number.readSigned (rest.takeWhile isExponentChar) with
        | some n => some (some n, rest.dropWhile isExponentChar)
        | none => none
      else some (none, afterFraction)
    | [] => some (none, [])
  if fraction.isEmpty && exponent.isNone then
    let n := Number.ofDigits whole
    if negative && n == 0 then return (.real (-0.0), rest)
    return (.integer (if negative then -(n : Int) else (n : Int)), rest)
  let x := Number.nearestReal (Number.ofDigits (whole ++ fraction))
    (exponent.getD 0 - (fraction.length : Int))
  guard x.isFinite
  return (.real (if negative then -x else x), rest)

mutual

/-- Reads a value. -/
def readValue (fuel depth : Nat) (cs : List Char) : Option (Json × List Char) :=
  match fuel with
  | 0 => none
  | fuel + 1 =>
    match skipSpace cs with
    | 'n' :: 'u' :: 'l' :: 'l' :: rest => some (.null, rest)
    | 't' :: 'r' :: 'u' :: 'e' :: rest => some (.bool true, rest)
    | 'f' :: 'a' :: 'l' :: 's' :: 'e' :: rest => some (.bool false, rest)
    | '"' :: rest => (readString (rest.length + 1) [] rest).map fun (s, rest) => (.text s, rest)
    | '[' :: rest =>
      match depth, skipSpace rest with
      | 0, _ => none
      | _, ']' :: rest => some (.array [], rest)
      | depth + 1, rest => (readItems fuel depth rest).map fun (items, rest) => (.array items, rest)
    | '\x7b' :: rest =>
      match depth, skipSpace rest with
      | 0, _ => none
      | _, '\x7d' :: rest => some (.object [], rest)
      | depth + 1, rest =>
        (readFields fuel depth rest).map fun (fields, rest) => (.object fields, rest)
    | rest => readNumber rest

/-- Reads the items of an array that has at least one, with its closing bracket. -/
def readItems (fuel depth : Nat) (cs : List Char) : Option (List Json × List Char) :=
  match fuel with
  | 0 => none
  | fuel + 1 =>
    match readValue fuel depth cs with
    | none => none
    | some (item, rest) =>
      match skipSpace rest with
      | ']' :: rest => some ([item], rest)
      | ',' :: rest =>
        (readItems fuel depth rest).map fun (items, rest) => (item :: items, rest)
      | _ => none

/-- Reads the fields of an object that has at least one, with its closing brace. -/
def readFields (fuel depth : Nat) (cs : List Char) : Option (List (String × Json) × List Char) :=
  match fuel with
  | 0 => none
  | fuel + 1 =>
    match skipSpace cs with
    | '"' :: rest =>
      match readString (rest.length + 1) [] rest with
      | none => none
      | some (name, rest) =>
        match skipSpace rest with
        | ':' :: rest =>
          match readValue fuel depth rest with
          | none => none
          | some (value, rest) =>
            match skipSpace rest with
            | '\x7d' :: rest => some ([(name, value)], rest)
            | ',' :: rest =>
              (readFields fuel depth rest).map fun (fields, rest) => ((name, value) :: fields, rest)
            | _ => none
        | _ => none
    | _ => none

end

/-- The JSON value that a text spells. -/
def ofText? (text : String) : Option Json :=
  let cs := text.toList
  match readValue (2 * cs.length + 2) maxDepth cs with
  | some (j, rest) => if (skipSpace rest).isEmpty then some j else none
  | none => none

end CommandLine.Json
