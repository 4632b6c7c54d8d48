import CommandLine.Text.Ranges

/-! # White space

    The characters that separate tokens are those with the Unicode property `White_Space`. Texts are
    lists of characters here; `trim` drops white space at both ends. -/

namespace CommandLine.Text

/-- The white space of all scripts. -/
def blanks : List (Nat × Nat) :=
  [(0x9, 0xd), (0x20, 0x20), (0x85, 0x85), (0xa0, 0xa0), (0x1680, 0x1680), (0x2000, 0x200a),
   (0x2028, 0x2029), (0x202f, 0x202f), (0x205f, 0x205f), (0x3000, 0x3000)]

/-- Whether a character is white space. -/
def isBlank (c : Char) : Bool :=
  inRanges blanks c

/-- A text without the white space at its start. -/
def trimStart (text : List Char) : List Char :=
  text.dropWhile isBlank

/-- A text without the white space at its end. -/
def trimEnd (text : List Char) : List Char :=
  (text.reverse.dropWhile isBlank).reverse

/-- A text without the white space at its ends. -/
def trim (text : List Char) : List Char :=
  trimEnd (trimStart text)

/-- Core's white space is white space. -/
theorem isBlank_of_isWhitespace {c : Char} (h : c.isWhitespace = true) : isBlank c = true := by
  have : c = ' ' ∨ c = '\t' ∨ c = '\r' ∨ c = '\n' := by
    simpa [Char.isWhitespace, or_assoc] using h
  rcases this with rfl | rfl | rfl | rfl <;> rfl

/-- Neither quote is white space. -/
theorem isBlank_quote : isBlank '"' = false ∧ isBlank '\'' = false :=
  ⟨rfl, rfl⟩

end CommandLine.Text
