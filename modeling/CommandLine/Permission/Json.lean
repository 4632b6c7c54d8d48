import CommandLine.Json.Basic
import CommandLine.Permission

/-! # Permissions as JSON

    The permission that asks for nothing is written as its name, any other as an object whose only
    field is its kind. -/

namespace CommandLine.Permission

mutual

/-- The JSON form of a permission. -/
def toJson : Permission → Json
  | .empty => .text "Empty"
  | .right name => .object [("Node", .text name)]
  | .anyOf members => .object [("AnyOf", .array (toJsons members))]
  | .allOf members => .object [("AllOf", .array (toJsons members))]

/-- The JSON forms of some permissions. -/
def toJsons : List Permission → List Json
  | [] => []
  | p :: rest => p.toJson :: toJsons rest

end

mutual

/-- The permission that has a JSON form. The one that asks for nothing may also be written as an
    object with a null field. -/
def ofJson? : Json → Option Permission
  | .text name => if name = "Empty" then some .empty else none
  | .object [(kind, .null)] => if kind = "Empty" then some .empty else none
  | .object [(kind, .text name)] => if kind = "Node" then some (.right name) else none
  | .object [(kind, .array items)] =>
    if kind = "AnyOf" then (ofJsons? items).map .anyOf
    else if kind = "AllOf" then (ofJsons? items).map .allOf
    else none
  | _ => none

/-- The permissions that have JSON forms. -/
def ofJsons? : List Json → Option (List Permission)
  | [] => some []
  | j :: rest =>
    match ofJson? j, ofJsons? rest with
    | some p, some members => some (p :: members)
    | _, _ => none

end

end CommandLine.Permission
