import CommandLine.Text.Lowercase

/-! # Suggestions

    A suggestion is a text that could stand in place of a partly typed token. Suggestions are kept
    when they start with what was typed, up to case, and of several with the same text the first is
    kept. -/

namespace CommandLine

/-- A text to insert, with an optional label to show in its place and an optional description. -/
structure Suggestion where
  value : String
  label : Option String := none
  description : Option String := none
deriving DecidableEq, Repr

namespace Suggestion

/-- A suggestion without label and description. -/
def ofText (value : String) : Suggestion :=
  { value }

/-- The label, or the text when there is none. -/
def shownLabel (s : Suggestion) : String :=
  s.label.getD s.value

/-- Whether a suggestion starts with a typed text, up to case. -/
def continues (s : Suggestion) (typed : String) : Bool :=
  (Text.lowercase typed).toList.isPrefixOf (Text.lowercase s.value).toList

/-- The suggestions that start with a typed text, up to case. -/
def matching (typed : String) (list : List Suggestion) : List Suggestion :=
  list.filter (·.continues typed)

/-- The suggestions whose texts are not in `seen`, each text once. -/
def firstsExcept : List String → List Suggestion → List Suggestion
  | _, [] => []
  | seen, s :: rest =>
    if seen.contains s.value then firstsExcept seen rest
    else s :: firstsExcept (s.value :: seen) rest

/-- The first suggestion of every text. -/
def firsts (list : List Suggestion) : List Suggestion :=
  firstsExcept [] list

end Suggestion

end CommandLine
