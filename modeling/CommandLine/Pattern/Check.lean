import CommandLine.Component
import CommandLine.Pattern.Reader

/-! # Checks by pattern

    A check finds its pattern in the next token or refuses the line. What the theorems use of it is
    that it looks at nothing but this token (`Pattern.check_seesTokens`). -/

namespace CommandLine.Pattern

/-- Refuses a line whose next token does not contain a match of the pattern, which was written as
    `source`. A line without tokens passes. -/
def check (source : String) (pattern : Pattern) : Check := fun _ line =>
  if line.isBlank || pattern.foundIn line.peekToken then none
  else some
    { parser := "regex", input := line.peekToken, reason := .patternMismatch,
      facts := [("pattern", source)] }

end CommandLine.Pattern
