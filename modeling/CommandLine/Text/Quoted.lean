import CommandLine.Number.Hex
import CommandLine.Text.Printable

/-! # Quoted texts

    Texts as they are shown to a person who debugs a command: between double quotes, with controls
    and characters that would not show on their own escaped. A record of named fields is shown with
    these texts as its parts. -/

namespace CommandLine.Text

/-- How one character shows between double quotes. -/
def escapeChar (c : Char) : List Char :=
  if c = '"' then ['\\', '"']
  else if c = '\\' then ['\\', '\\']
  else if c = '\n' then ['\\', 'n']
  else if c = '\r' then ['\\', 'r']
  else if c = '\t' then ['\\', 't']
  else if c = '\x00' then ['\\', '0']
  else if isExtender c || !isPrintable c then
    ['\\', 'u', '\x7b'] ++ Number.hexDigits c.toNat ++ ['\x7d']
  else [c]

/-- A text between double quotes. -/
def quoted (text : String) : String :=
  String.ofList ('"' :: text.toList.flatMap escapeChar ++ ['"'])

/-- Texts one after the other, with a separator between neighbours. -/
def joined (separator : String) (texts : List String) : String :=
  String.intercalate separator texts

/-- A list of shown items between brackets. -/
def bracketed (items : List String) : String :=
  "[" ++ joined ", " items ++ "]"

/-- A set or map of shown items between braces. -/
def braced (items : List String) : String :=
  "\x7b" ++ joined ", " items ++ "\x7d"

/-- A shown record: its name and its fields, each with its shown value. -/
def record (name : String) (fields : List (String × String)) : String :=
  name ++ " \x7b " ++ joined ", " (fields.map fun (key, value) => key ++ ": " ++ value) ++ " \x7d"

/-- A shown optional value. -/
def optional : Option String → String
  | none => "None"
  | some shown => "Some(" ++ shown ++ ")"

end CommandLine.Text
