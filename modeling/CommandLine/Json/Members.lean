import CommandLine.Json.Basic

/-! # Records as JSON

    A record is read from an object with a field for each of its members, or from an array with an
    item for each. A member of an object may be given once at most; fields that are no members are
    ignored. This is how readers derived from the members of a record are documented to work; the
    theorems do not look into it. -/

namespace CommandLine.Json

/-- The member of an object under a name: nothing when it is given more than once. -/
def member? (fields : List (String × Json)) (name : String) : Option (Option Json) :=
  match fields.filter (·.1 == name) with
  | [] => some none
  | [(_, value)] => some (some value)
  | _ => none

/-- The members of a record, from an object or from an array. -/
def members? (names : List String) : Json → Option (List (Option Json))
  | .object fields => names.mapM (member? fields)
  | .array items => if items.length = names.length then some (items.map some) else none
  | _ => none

/-- A text. -/
def text? : Json → Option String
  | .text s => some s
  | _ => none

/-- A natural number of 64 bits. -/
def count? : Json → Option Nat
  | .integer n => if 0 ≤ n && n < Int.pow 2 64 then some n.toNat else none
  | _ => none

/-- A text that may be missing or null. -/
def optionalText? : Option Json → Option (Option String)
  | none => some none
  | some .null => some none
  | some (.text s) => some (some s)
  | _ => none

end CommandLine.Json
