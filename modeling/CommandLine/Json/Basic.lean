import CommandLine.Number.Hex
import CommandLine.Number.Real

/-! # JSON values and their compact text

    The compact text has no white space between its parts and escapes what the JSON grammar asks to
    be escaped. Values are only carried in and out; no theorem depends on their text. -/

namespace CommandLine

/-- A JSON value. Numbers without fraction and exponent are integers of any size. The fields of an
    object are kept in their order, repeated names included. -/
inductive Json where
  | null
  | bool (b : Bool)
  | integer (n : Int)
  | real (x : Float)
  | text (s : String)
  | array (items : List Json)
  | object (fields : List (String × Json))
deriving Inhabited

namespace Json

/-- The natural number as a JSON value. -/
def nat (n : Nat) : Json :=
  .integer n

/-- The value if there is one, otherwise null. -/
def ofOption : Option Json → Json
  | none => .null
  | some j => j

/-- An array of texts. -/
def texts (items : List String) : Json :=
  .array (items.map .text)

/-- The first field of an object under a name. -/
def field? (j : Json) (name : String) : Option Json :=
  match j with
  | .object fields => fields.lookup name
  | _ => none

/-- How one character is written inside a JSON string. -/
def escapeChar (c : Char) : List Char :=
  if c = '"' then ['\\', '"']
  else if c = '\\' then ['\\', '\\']
  else if c = '\n' then ['\\', 'n']
  else if c = '\r' then ['\\', 'r']
  else if c = '\t' then ['\\', 't']
  else if c = '\x08' then ['\\', 'b']
  else if c = '\x0c' then ['\\', 'f']
  else if c.toNat < 0x20 then ['\\', 'u'] ++ Number.paddedHex 4 c.toNat
  else [c]

/-- A JSON string. -/
def quote (s : String) : String :=
  String.ofList ('"' :: s.toList.flatMap escapeChar ++ ['"'])

mutual

/-- The compact text of a value. -/
def render : Json → String
  | .null => "null"
  | .bool b => if b then "true" else "false"
  | .integer n => Number.showInt n
  | .real x => Number.showReal x
  | .text s => quote s
  | .array items => "[" ++ String.intercalate "," (renderItems items) ++ "]"
  | .object fields => "\x7b" ++ String.intercalate "," (renderFields fields) ++ "\x7d"

/-- The compact texts of the items of an array. -/
def renderItems : List Json → List String
  | [] => []
  | j :: rest => j.render :: renderItems rest

/-- The compact texts of the fields of an object. -/
def renderFields : List (String × Json) → List String
  | [] => []
  | (name, j) :: rest => (quote name ++ ":" ++ j.render) :: renderFields rest

end

end Json

end CommandLine
