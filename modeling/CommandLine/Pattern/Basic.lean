import CommandLine.Pattern.CharSet

/-! # Patterns

    A pattern describes a set of texts. `Pattern.ends` gives the places where a match that starts at
    a place can end; a pattern is found in a text when a match starts anywhere in it.

    This is the documented meaning of regular expressions whose matches are searched for anywhere in
    a text: alternatives, repetitions, groups, anchors and word edges. Whether there is a match does
    not depend on which match would be preferred, so that greedy and lazy repetitions mean the same
    here. The theorems hold of checks with any pattern and do not look into it. -/

namespace CommandLine

/-- A pattern. -/
inductive Pattern where
  /-- Matches the empty text. -/
  | empty
  /-- Matches one character of a set. -/
  | chars (ignoreCase : Bool) (s : CharSet)
  /-- Matches at the start of the text, or of a line of it. -/
  | start (ofLine : Bool)
  /-- Matches at the end of the text, or of a line of it. -/
  | stop (ofLine : Bool)
  /-- Matches where a word begins or ends, or where none does. -/
  | wordEdge (isEdge : Bool)
  /-- Matches one pattern after the other. -/
  | seq (a b : Pattern)
  /-- Matches either of two patterns. -/
  | alt (a b : Pattern)
  /-- Matches a pattern at least `least` times, and at most `most` times if that is given. -/
  | times (a : Pattern) (least : Nat) (most : Option Nat)
deriving Repr

namespace Pattern

/-- A place in a text: the character before it and the text after it. -/
structure Place where
  last : Option Char
  rest : List Char
deriving DecidableEq, Repr

/-- Whether a word begins or ends at a place. -/
def Place.isWordEdge (p : Place) : Bool :=
  let isWord (c : Option Char) : Bool := (c.map Text.isWordChar).getD false
  isWord p.last != isWord p.rest.head?

/-- The places that can be reached in `n` steps. -/
def afterSteps (step : Place → List Place) : Nat → List Place → List Place
  | 0, places => places
  | n + 1, places => afterSteps step n (places.flatMap step).eraseDups

/-- The places that can be reached in at most `n` steps. -/
def withinSteps (step : Place → List Place) : Nat → List Place → List Place
  | 0, places => places
  | n + 1, places => places ++ withinSteps step n (places.flatMap step).eraseDups

/-- The places where a match that starts at a place can end. A repetition without limit takes at
    most as many useful steps as there are characters left. -/
def ends : Pattern → Place → List Place
  | .empty, p => [p]
  | .chars ignoreCase s, p =>
    match p.rest with
    | [] => []
    | c :: rest => if s.contains ignoreCase c then [⟨some c, rest⟩] else []
  | .start ofLine, p =>
    if p.last.isNone || (ofLine && p.last == some '\n') then [p] else []
  | .stop ofLine, p =>
    if p.rest.isEmpty || (ofLine && p.rest.head? == some '\n') then [p] else []
  | .wordEdge isEdge, p => if p.isWordEdge == isEdge then [p] else []
  | .seq a b, p => ((a.ends p).flatMap b.ends).eraseDups
  | .alt a b, p => (a.ends p ++ b.ends p).eraseDups
  | .times a least most, p =>
    let more := match most with
      | some most => min (most - least) (p.rest.length + 1)
      | none => p.rest.length + 1
    (withinSteps a.ends more (afterSteps a.ends least [p])).eraseDups

/-- Whether a match starts at a place or after it. -/
def foundFrom (pattern : Pattern) (last : Option Char) : List Char → Bool
  | [] => !(pattern.ends ⟨last, []⟩).isEmpty
  | c :: rest => !(pattern.ends ⟨last, c :: rest⟩).isEmpty || pattern.foundFrom (some c) rest

/-- Whether a match starts anywhere in a text. -/
def foundIn (pattern : Pattern) (text : String) : Bool :=
  pattern.foundFrom none text.toList

end Pattern

end CommandLine
