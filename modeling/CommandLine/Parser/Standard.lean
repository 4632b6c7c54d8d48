import CommandLine.Number.Real
import CommandLine.Parser.Basic
import CommandLine.Text.Alphabetic
import CommandLine.Text.Lowercase

/-! # Standard parsers

    Readers for texts, numbers, truth values, identifiers and enumerations, and the texts they
    suggest. All but the longer texts read one token and interpret it; `Reader.ofToken` is what they
    share. -/

namespace CommandLine

/-- Whether a text starts with a letter. -/
def startsWithLetter (text : List Char) : Bool :=
  (text.head?.map Text.isAlphabetic).getD false

/-- Whether a token is one or two hyphens and then a letter. A negative number is not. -/
def looksLikeFlag (token : String) : Bool :=
  match token.toList with
  | '-' :: '-' :: name => startsWithLetter name
  | '-' :: name => startsWithLetter name
  | _ => false

/-- Reads one token and interprets it; an error is reported when no token is left. -/
def Reader.ofToken (parser : String) (interpret : String → Except ArgumentError Value) : Reader :=
  fun ctx line =>
    if line.isBlank then ⟨.error (.noInput parser), ctx, line⟩
    else ⟨interpret line.peekToken, ctx, line.skipToken⟩

/-- The place before the first token that looks like a flag, or the end of the line. -/
def Line.skipToFlag (line : Line) : Line :=
  if _ : line.isBlank then line
  else if looksLikeFlag line.peekToken then line
  else line.skipToken.skipToFlag
termination_by line.rest.length
decreasing_by exact Line.length_rest_skipToken_lt (by simpa using ‹¬line.isBlank = true›)

namespace Parser

/-- Reads a text. -/
def readText (mode : TextMode) : Reader := fun ctx line =>
  if line.isBlank then ⟨.error (.noInput (textName mode)), ctx, line⟩
  else match mode with
    | .word => ⟨.ok (.plain (.text line.peekToken)), ctx, line.skipToken⟩
    | .rest => ⟨.ok (.plain (.text line.readRest.1)), ctx, line.readRest.2⟩
    | .untilFlag =>
      let read := line.skipToFlag.readSince line
      if read = "" then ⟨.error (.noInput (textName mode)), ctx, line.skipToFlag⟩
      else ⟨.ok (.plain (.text read)), ctx, line.skipToFlag⟩

/-- The integer that a token spells, if it is between two bounds. -/
def interpretInteger (min max : Int) (token : String) : Except ArgumentError Value :=
  match Number.readInt token with
  | none => .error { parser := "integer", input := token, reason := .invalidFormat }
  | some n =>
    if min ≤ n ∧ n ≤ max then .ok (.plain (.integer n))
    else .error
      { parser := "integer", input := token, reason := .outOfRange,
        facts := [("min", Number.showInt min), ("max", Number.showInt max)] }

/-- The finite number that a token spells, if it is between two bounds. -/
def interpretReal (min max : Float) (token : String) : Except ArgumentError Value :=
  match (Number.readReal token).filter Float.isFinite with
  | none => .error { parser := "float", input := token, reason := .invalidFormat }
  | some x =>
    if x < min || max < x then .error
      { parser := "float", input := token, reason := .outOfRange,
        facts := [("min", Number.showReal min), ("max", Number.showReal max)] }
    else .ok (.plain (.real x))

/-- The words for true. -/
def trueWords (liberal : Bool) : List String :=
  if liberal then ["true", "yes", "on"] else ["true"]

/-- The words for false. -/
def falseWords (liberal : Bool) : List String :=
  if liberal then ["false", "no", "off"] else ["false"]

/-- The truth value that a token names, in letters of any case. -/
def interpretTruth (liberal : Bool) (token : String) : Except ArgumentError Value :=
  let word := Text.lowercase token
  if (trueWords liberal).contains word then .ok (.plain (.truth true))
  else if (falseWords liberal).contains word then .ok (.plain (.truth false))
  else .error
    { parser := "boolean", input := token, reason := .invalidFormat,
      facts := [("liberal", if liberal then "true" else "false")] }

/-- The identifier that a token spells. -/
def interpretUuid (token : String) : Except ArgumentError Value :=
  match Uuid.ofString? token with
  | some u => .ok (.plain (.uuid u))
  | none => .error { parser := "uuid", input := token, reason := .invalidFormat }

/-- The member of an enumeration that a token names, up to the case of ASCII letters. -/
def findVariant (variants : List Variant) (token : String) : Option Variant :=
  variants.find? fun v => Text.sameUpToCase v.name token

/-- The value of the member of an enumeration that a token names. -/
def interpretVariant (variants : List Variant) (token : String) : Except ArgumentError Value :=
  match findVariant variants token with
  | some v => .ok (.plain (.variant v.name))
  | none => .error
    { parser := "enum", input := token, reason := .unknownValue,
      facts := [("values", Text.joined ", " (variants.map (·.name)))] }

/-- The members of an enumeration with their descriptions. -/
def suggestVariants (variants : List Variant) : List Suggestion :=
  variants.map fun v => { value := v.name, description := v.description }

/-- The integers that a typed text can stand for at once or after one more digit, in the order in
    which they are suggested. A typed sign counts for the digit too. -/
def nextIntegers (min max : Int) (typed : String) : List Int :=
  let within (n : Int) : Bool := min ≤ n && n ≤ max
  let digits : List Int := [0, 1, 2, 3, 4, 5, 6, 7, 8, 9]
  if typed = "" then digits.filter within
  else if typed = "-" then (digits.map fun d => -d).filter fun n => within n && n != 0
  else match Number.readInt typed with
    | none => []
    | some n =>
      let negative := typed.toList.head? == some '-'
      let longer := digits.map fun d => if negative then 10 * n - d else 10 * n + d
      [n].filter within ++
        longer.filter fun next =>
          Number.fitsInt64 (10 * n) && Number.fitsInt64 next && within next && next != n

/-- The integers that a typed text can stand for at once or after one more digit. -/
def suggestIntegers (min max : Int) (typed : String) : List Suggestion :=
  (nextIntegers min max typed).map fun n => .ofText (Number.showInt n)

/-- All words for truth values. -/
def suggestTruth (liberal : Bool) : List Suggestion :=
  (trueWords liberal ++ falseWords liberal).map .ofText

end Parser

end CommandLine
