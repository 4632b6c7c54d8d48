import CommandLine.Text.Blank
import CommandLine.Text.Lowercase
import CommandLine.Text.Word

/-! # Sets of characters in patterns

    A set of characters is built from ranges and named classes. When case is ignored, a range
    contains a character if it contains one that differs from it by case alone. The classes are the
    documented ones of regular expressions over Unicode: decimal digits, white space and word
    characters. -/

namespace CommandLine

/-- A set of characters. -/
inductive CharSet where
  | nothing
  | range (low high : Char)
  | digit
  | word
  | blank
  | not (s : CharSet)
  | union (a b : CharSet)
deriving DecidableEq, Repr

namespace CharSet

/-- The set of one character. -/
def single (c : Char) : CharSet :=
  .range c c

/-- All characters but the line feed. -/
def anyButNewline : CharSet :=
  .not (single '\n')

/-- All characters. -/
def all : CharSet :=
  .not .nothing

/-- The small letters that equal another small letter up to case. -/
def foldedLetters : List (Char × Char) :=
  [('µ', 'μ'), ('ſ', 's'), ('\u0345', 'ι'), ('ς', 'σ'), ('ϐ', 'β'), ('ϑ', 'θ'), ('ϕ', 'φ'),
    ('ϖ', 'π'), ('ϰ', 'κ'), ('ϱ', 'ρ'), ('ϵ', 'ε'), ('ẛ', 'ṡ'), ('\u1fbe', 'ι')]

/-- The letter that stands for all letters which differ from `c` by case alone. -/
def fold (c : Char) : Char :=
  let lowered := match Text.lowerChar c with
    | [d] => d
    | _ => c
  (foldedLetters.lookup lowered).getD lowered

/-- The capital of a run whose lowercase form has the code point `code`. -/
def capitalIn? (run : Text.CaseRun) (code : Nat) : Option Char :=
  let capital := (code - run.shift).toNat
  if run.covers capital then some (Char.ofNat capital) else none

/-- The characters that differ from `c` by case alone, and `c`. -/
def variants (c : Char) : List Char :=
  let folded := fold c
  let capitals :=
    (if folded.isLower then [folded.toUpper] else []) ++
      Text.caseRuns.filterMap (capitalIn? · folded.toNat)
  let letters := (foldedLetters.filter (·.2 == folded)).map (·.1)
  c :: folded :: capitals ++ letters

/-- Whether a set contains a character. -/
def contains (ignoreCase : Bool) : CharSet → Char → Bool
  | .nothing, _ => false
  | .range low high, c =>
    let within (d : Char) : Bool := low ≤ d && d ≤ high
    if ignoreCase then (variants c).any within else within c
  | .digit, c => Text.isDecimalDigit c
  | .word, c => Text.isWordChar c
  | .blank, c => Text.isBlank c
  | .not s, c => !s.contains ignoreCase c
  | .union a b, c => a.contains ignoreCase c || b.contains ignoreCase c

end CharSet

end CommandLine
