import CommandLine.Json.Basic
import CommandLine.Value

/-! # Data as JSON

    Data is written as an object with one field, whose name is the kind of the data. Integers are
    written as decimal texts and floating point numbers as the hexadecimal digits of their bits, so
    that no reader rounds them. -/

namespace CommandLine.Datum

/-- An object with one field. -/
def single (kind : String) (j : Json) : Json :=
  .object [(kind, j)]

mutual

/-- The JSON form of data. -/
def toJson : Datum → Json
  | .text s => single "str" (.text s)
  | .integer n => single "int" (.text (Number.showInt n))
  | .real x => single "float" (.text (String.ofList (Number.paddedHex 16 x.toBits.toNat)))
  | .truth b => single "bool" (.bool b)
  | .uuid u => single "uuid" (.text u.toText)
  | .variant name => single "enum" (.text name)
  | .unit => .text "unit"
  | .left d => single "left" d.toJson
  | .right d => single "right" d.toJson
  | .mapped d => single "mapped" d.toJson
  | .fields entries => single "agg" (.array (fieldsToJson entries))
  | .copy none => single "copy" .null
  | .copy (some d) => single "copy" d.toJson

/-- The JSON forms of named data: an array of a name and its data, or null, for each. -/
def fieldsToJson : List (String × Option Datum) → List Json
  | [] => []
  | (name, none) :: rest => .array [.text name, .null] :: fieldsToJson rest
  | (name, some d) :: rest => .array [.text name, d.toJson] :: fieldsToJson rest

end

/-- The data of a kind that has a text as its JSON form. -/
def ofText? (kind text : String) : Option Datum :=
  match kind with
  | "str" => some (.text text)
  | "int" => (Number.readInt text).map .integer
  | "float" => some (.real (Float.ofBits (Number.ofHexDigits text.toList).toUInt64))
  | "uuid" => (Uuid.ofString? text).map .uuid
  | "enum" => some (.variant text)
  | _ => none

mutual

/-- The data that has a JSON form. -/
def ofJson? : Json → Option Datum
  | .text s => if s = "unit" then some .unit else none
  | .object [(kind, .text s)] =>
    if kind = "copy" && s = "unit" then some (.copy (some .unit)) else ofText? kind s
  | .object [(kind, .bool b)] => if kind = "bool" then some (.truth b) else none
  | .object [(kind, .null)] => if kind = "copy" then some (.copy none) else none
  | .object [(kind, .array items)] =>
    if kind = "agg" then (fieldsOfJson? items).map .fields else none
  | .object [(kind, .object inner)] =>
    match kind, ofJson? (.object inner) with
    | "left", some d => some (.left d)
    | "right", some d => some (.right d)
    | "mapped", some d => some (.mapped d)
    | "copy", some d => some (.copy (some d))
    | _, _ => none
  | _ => none

/-- The named data that have JSON forms. -/
def fieldsOfJson? : List Json → Option (List (String × Option Datum))
  | [] => some []
  | .array [.text name, .null] :: rest => (fieldsOfJson? rest).map ((name, none) :: ·)
  | .array [.text name, j] :: rest =>
    match ofJson? j, fieldsOfJson? rest with
    | some d, some entries => some ((name, some d) :: entries)
    | _, _ => none
  | _ => none

end

end CommandLine.Datum
