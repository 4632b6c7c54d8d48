import CommandLine.Text.Blank

/-! # Tokens

    A text is read token by token. A token is a run of characters other than white space, or, when
    it starts with a quote, everything up to the next quote of the same kind; inside quotes a
    backslash stands for nothing itself and takes the character after it as it is. A quote that is
    never closed runs to the end of the text.

    `Token.cut` takes the first token off a text and keeps what it was cut from, so that
    `Token.cut_append` can say that nothing is lost. `Token.all` is the list of all tokens. -/

namespace CommandLine

open Text

/-- The first token of a text: the white space before it, its characters as they are written, the
    characters it stands for, and the text after it. -/
structure Token where
  blank : List Char
  raw : List Char
  value : List Char
  rest : List Char
deriving DecidableEq, Repr

namespace Token

/-- Puts a character that stands for nothing itself in front of a token. -/
def mark (c : Char) (token : Token) : Token :=
  { token with raw := c :: token.raw }

/-- Puts a character that stands for itself in front of a token. -/
def push (c : Char) (token : Token) : Token :=
  { token with raw := c :: token.raw, value := c :: token.value }

/-- Reads what follows an opening quote, up to and including the closing one. After a backslash,
    `escaped`, the next character stands for itself. -/
def quoted (quote : Char) : Bool → List Char → Token
  | _, [] => ⟨[], [], [], []⟩
  | true, c :: text => (quoted quote false text).push c
  | false, c :: text =>
    if c = '\\' then (quoted quote true text).mark c
    else if c = quote then ⟨[], [c], [], text⟩
    else (quoted quote false text).push c

/-- Whether a character opens a quoted token. -/
def isQuote (c : Char) : Bool :=
  c == '"' || c == '\''

/-- The first token of a text that starts with no white space. -/
def head : List Char → Token
  | [] => ⟨[], [], [], []⟩
  | c :: text =>
    if isQuote c then (quoted c false text).mark c
    else
      { blank := []
        raw := (c :: text).takeWhile (!isBlank ·)
        value := (c :: text).takeWhile (!isBlank ·)
        rest := (c :: text).dropWhile (!isBlank ·) }

/-- The first token of a text. A text of white space has the empty token. -/
def cut (text : List Char) : Token :=
  { head (trimStart text) with blank := text.takeWhile isBlank }

/-- Nothing of a quoted text is lost. -/
theorem quoted_append (quote : Char) (escaped : Bool) (text : List Char) :
    (quoted quote escaped text).raw ++ (quoted quote escaped text).rest = text := by
  fun_induction quoted quote escaped text <;> simp_all [mark, push]

/-- Nothing of a text is lost when its first token is read. -/
theorem head_append (text : List Char) : (head text).raw ++ (head text).rest = text := by
  unfold head
  split
  · rfl
  · split
    · simp [mark, quoted_append]
    · exact List.takeWhile_append_dropWhile

/-- The white space, the written token and the rest make up the text. -/
theorem cut_append (text : List Char) :
    (cut text).blank ++ (cut text).raw ++ (cut text).rest = text := by
  rw [List.append_assoc]
  simp only [cut, head_append, trimStart, List.takeWhile_append_dropWhile]

/-- A text that starts with a character other than white space has a written token. -/
theorem head_raw_ne_nil {c : Char} {text : List Char} (h : isBlank c = false) :
    (head (c :: text)).raw ≠ [] := by
  simp only [head]
  split
  · simp [mark]
  · simp [h]

/-- A text is white space only when its first token is not written. -/
theorem cut_raw_eq_nil_iff {text : List Char} : (cut text).raw = [] ↔ trimStart text = [] := by
  unfold cut
  cases h : trimStart text with
  | nil => simp [head]
  | cons c rest =>
      have hc : isBlank c = false := by
        have := List.head?_dropWhile_not isBlank text
        rw [show text.dropWhile isBlank = c :: rest from h] at this
        simpa using this
      simp [head_raw_ne_nil hc]

/-- The text after a written token is shorter than the text. -/
theorem length_rest_lt {text : List Char} (h : trimStart text ≠ []) :
    (cut text).rest.length < text.length := by
  have hraw : (cut text).raw ≠ [] := fun hnil => h (cut_raw_eq_nil_iff.1 hnil)
  have hpos := List.length_pos_iff.2 hraw
  have := congrArg List.length (cut_append text)
  simp only [List.length_append] at this
  omega

/-- All tokens of a text, in order. -/
def all (text : List Char) : List Token :=
  if _ : trimStart text = [] then []
  else cut text :: all (cut text).rest
termination_by text.length
decreasing_by exact length_rest_lt ‹_›

end Token

end CommandLine
