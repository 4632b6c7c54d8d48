import CommandLine.Parser.Flags

/-! # Alternatives

    Alternatives are tried in order, each on the context and line as they were at the start. The
    first that accepts leaves its value, context and line; when none accepts, context and line are
    as at the start and the error has a fact for each failure. -/

namespace CommandLine

namespace Alternatives

/-- The error when no alternative accepts. -/
def refusal (name : String) (line : Line) (failures : List ArgumentError) : ArgumentError :=
  { parser := name
    input := line.peekToken
    reason := .custom "no alternative accepted the input"
    facts := failures.map fun e => (e.parser, e.reason.message) }

/-- Tries alternatives after others that failed with `failures`. -/
def readAfter (name : String) (failures : List ArgumentError) : List Reader → Reader
  | [], ctx, line => ⟨.error (refusal name line failures), ctx, line⟩
  | reader :: rest, ctx, line =>
    let attempt := reader ctx line
    match attempt.result with
    | .ok _ => attempt
    | .error e => readAfter name (failures ++ [e]) rest ctx line

/-- Tries alternatives in order. -/
def read (name : String) (readers : List Reader) : Reader :=
  readAfter name [] readers

/-- The suggestions of all alternatives. -/
def gather : List Suggester → Suggester
  | [], _, _ => return []
  | suggest :: rest, ctx, line => do
    let list ← suggest ctx line
    return list ++ (← gather rest ctx line)

/-- The suggestions of all alternatives, each text once. -/
def suggest (suggesters : List Suggester) : Suggester := fun ctx line =>
  return Suggestion.firsts (← gather suggesters ctx line)

end Alternatives

end CommandLine
