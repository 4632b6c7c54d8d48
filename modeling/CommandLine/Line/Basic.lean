import CommandLine.Line.Token
import CommandLine.Text.Bytes

/-! # Lines

    A line is a text with a place in it: what has been read and what is left. Reading moves
    characters from what is left to what has been read, so the text stays the same
    (`text_readToken`). The cursor of a line is the byte length of what has been read. -/

namespace CommandLine

open Text

/-- A text and a place in it. -/
structure Line where
  before : List Char
  rest : List Char
deriving DecidableEq, Repr, Inhabited

namespace Line

/-- A line of which nothing has been read. -/
def ofString (text : String) : Line :=
  ⟨[], text.toList⟩

/-- All characters of a line. -/
def text (line : Line) : List Char :=
  line.before ++ line.rest

/-- The number of bytes that have been read. -/
def cursor (line : Line) : Nat :=
  byteLength line.before

/-- What is left of a line. -/
def remaining (line : Line) : String :=
  String.ofList line.rest

/-- Whether nothing is left. -/
def isEmpty (line : Line) : Bool :=
  line.rest.isEmpty

/-- Whether nothing but white space is left. -/
def isBlank (line : Line) : Bool :=
  (trimStart line.rest).isEmpty

/-- The next character. -/
def peekChar (line : Line) : Option Char :=
  line.rest.head?

/-- Reads one character, if one is left. -/
def readChar (line : Line) : Option Char × Line :=
  match line.rest with
  | [] => (none, line)
  | c :: rest => (some c, ⟨line.before ++ [c], rest⟩)

/-- Reads the white space at the place. -/
def skipBlank (line : Line) : Line :=
  ⟨line.before ++ line.rest.takeWhile Text.isBlank, trimStart line.rest⟩

/-- The next token, without reading it. It stands for the empty text when none is left. -/
def peekToken (line : Line) : String :=
  String.ofList (Token.cut line.rest).value

/-- The line after its next token. -/
def skipToken (line : Line) : Line :=
  let token := Token.cut line.rest
  ⟨line.before ++ (token.blank ++ token.raw), token.rest⟩

/-- Reads the next token. -/
def readToken (line : Line) : String × Line :=
  (line.peekToken, line.skipToken)

/-- The line with all of it read. -/
def finish (line : Line) : Line :=
  ⟨line.text, []⟩

/-- Reads all that is left, without the white space around it. -/
def readRest (line : Line) : String × Line :=
  (String.ofList (trim line.rest), line.finish)

/-- The tokens that are left. -/
def tokens (line : Line) : List String :=
  (Token.all line.rest).map (String.ofList ·.value)

/-- Whether at most one token is left, and no white space follows it. -/
def isLastToken (line : Line) : Bool :=
  line.skipToken.isEmpty

/-- What was read since an earlier place of the same line, without the white space around it. -/
def readSince (line earlier : Line) : String :=
  String.ofList (trim (line.before.drop earlier.before.length))

theorem text_skipBlank (line : Line) : line.skipBlank.text = line.text := by
  simp [skipBlank, text, trimStart, List.takeWhile_append_dropWhile]

/-- Reading a token keeps the text. -/
theorem text_skipToken (line : Line) : line.skipToken.text = line.text := by
  have := Token.cut_append line.rest
  simp only [skipToken, text, List.append_assoc] at this ⊢
  rw [this]

theorem text_readToken (line : Line) : line.readToken.2.text = line.text :=
  line.text_skipToken

theorem text_finish (line : Line) : line.finish.text = line.text := by
  simp [finish, text]

/-- A line on which a token is left gets shorter when it is read. -/
theorem length_rest_skipToken_lt {line : Line} (h : line.isBlank = false) :
    line.skipToken.rest.length < line.rest.length :=
  Token.length_rest_lt fun hnil => by simp [isBlank, hnil] at h

end Line

end CommandLine
