import CommandLine.Completion
import CommandLine.Json.Members

/-! # Completions as JSON -/

namespace CommandLine

namespace Suggestion

/-- The JSON form of a suggestion. A missing label or description has no field. -/
def toJson (s : Suggestion) : Json :=
  .object <| [("value", Json.text s.value)] ++
    (s.label.map fun t => ("label", Json.text t)).toList ++
    (s.description.map fun t => ("description", Json.text t)).toList

/-- The suggestion that has a JSON form. -/
def ofJson? (j : Json) : Option Suggestion :=
  match Json.members? ["value", "label", "description"] j with
  | some [some (.text value), label, description] => do
    return { value, label := ← Json.optionalText? label,
             description := ← Json.optionalText? description }
  | _ => none

end Suggestion

namespace Completion

/-- The JSON form of a completion. -/
def toJson (c : Completion) : Json :=
  .object
    [("input", .text c.input), ("start", .nat c.start), ("end", .nat c.stop),
     ("list", .array (c.list.map Suggestion.toJson))]

/-- The completion that has a JSON form. -/
def ofJson? (j : Json) : Option Completion :=
  match Json.members? ["input", "start", "end", "list"] j with
  | some [some (.text input), some start, some stop, some (.array items)] => do
    return { input, start := ← Json.count? start, stop := ← Json.count? stop,
             list := ← items.mapM Suggestion.ofJson? }
  | _ => none

end Completion

end CommandLine
