import CommandLine.Parser.Flags

/-! # Aggregates

    An aggregate reads its parts one after the other and stores their values in a context of its
    own, from which its value is built. The caller's context does not change; its line is left where
    the last part left it, also by an error. -/

namespace CommandLine

namespace Part

variable {P Q : Type}

/-- The part with a function applied to its parser. -/
def map (f : P → Q) (part : Part P) : Part Q :=
  { part with parser := f part.parser }

/-- Reads parts one after the other and stores their values. -/
def readEach : List (Part Reader) → Context → Line → Reading Unit
  | [], ctx, line => ⟨.ok (), ctx, line⟩
  | part :: rest, ctx, line =>
    ((part.parser ctx line).withFact "component" part.name).andThen fun value ctx line =>
      readEach rest (ctx.store part.name value) line

/-- Reads parts one after the other and builds a value from the context that holds theirs. -/
def readAll (parts : List (Part Reader)) (build : Context → Except ArgumentError Value) : Reader :=
  fun ctx line =>
    let inner := readEach parts ctx line
    match inner.result with
    | .ok () => ⟨build inner.context, ctx, inner.line⟩
    | .error e => ⟨.error e, ctx, inner.line⟩

/-- The part to which the last token of a line belongs, with its context and line. -/
def locate : List (Part Ability) → Context → Line → Option (Part Ability × Context × Line)
  | [], _, _ => none
  | part :: rest, ctx, line =>
    if line.isLastToken then some (part, ctx, line)
    else
      let reading := part.parser.read ctx line
      match reading.result with
      | .ok value => locate rest (reading.context.store part.name value) reading.line
      | .error _ => none

/-- Suggests texts for the part to which the last token of a line belongs. -/
def suggestAll (parts : List (Part Ability)) : Suggester := fun ctx line =>
  match locate parts ctx line with
  | some (part, ctx, line) => (part.suggester.getD part.parser.suggest) ctx line
  | none => return []

end Part

end CommandLine
