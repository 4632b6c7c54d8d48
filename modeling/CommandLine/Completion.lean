import CommandLine.Suggestion
import CommandLine.Text.Bytes

/-! # Completions

    A completion holds the suggestions for one place of a line and the range of bytes that they
    replace. When there are several suggestions and they share more characters than were typed, the
    shared characters are filled in. -/

namespace CommandLine

open Text

/-- Suggestions to replace the bytes from `start` to `stop` of a text. -/
structure Completion where
  input : String
  start : Nat
  stop : Nat
  list : List Suggestion
deriving DecidableEq, Repr

namespace Completion

/-- The text before the replaced range. -/
def front (c : Completion) : List Char :=
  (splitAtByte c.start c.input.toList).1

/-- The text after the replaced range. -/
def back (c : Completion) : List Char :=
  (splitAtByte c.stop c.input.toList).2

/-- The text in the replaced range. -/
def typed (c : Completion) : List Char :=
  (splitAtByte (c.stop - c.start) (splitAtByte c.start c.input.toList).2).1

/-- The line with the range replaced by a text. -/
def splice (c : Completion) (value : List Char) : String :=
  String.ofList (c.front ++ value ++ c.back)

/-- The line with the range replaced by a suggestion. -/
def fullLine (c : Completion) (s : Suggestion) : String :=
  c.splice s.value.toList

/-- The line completed with each suggestion. -/
def fullLines (c : Completion) : List String :=
  c.list.map c.fullLine

/-- The longest common start of two texts. -/
def commonStart : List Char → List Char → List Char
  | a :: as, b :: bs => if a = b then a :: commonStart as bs else []
  | _, _ => []

/-- The longest common start of all suggestions, when it is longer than the replaced text. -/
def sharedStart (c : Completion) : Option (List Char) :=
  match c.list with
  | [] => none
  | first :: others =>
    let shared := others.foldl (fun start s => commonStart start s.value.toList) first.value.toList
    if byteLength c.typed < byteLength shared then some shared else none

/-- What happens to a line when a completion is asked for. -/
inductive Response where
  /-- The suggestions are shown. -/
  | choices (list : List Suggestion)
  /-- The shared start of the suggestions is filled in, and they are shown. -/
  | filled (line : String) (list : List Suggestion)
deriving DecidableEq, Repr

/-- Fills in the shared start of several suggestions, if it is longer than what was typed. -/
def respond (c : Completion) : Response :=
  if c.list.length ≤ 1 then .choices c.list
  else match c.sharedStart with
    | some shared => .filled (c.splice shared) c.list
    | none => .choices c.list

end Completion

end CommandLine
