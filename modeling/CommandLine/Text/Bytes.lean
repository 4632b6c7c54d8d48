/-! # Byte lengths

    Cursors count the bytes of a text's UTF-8 form. A text is cut at a byte count by keeping the
    characters that fit into it, so that no character is cut in two. -/

namespace CommandLine.Text

/-- The number of bytes of a text in UTF-8. -/
def byteLength : List Char → Nat
  | [] => 0
  | c :: rest => c.utf8Size + byteLength rest

/-- The characters of a text that fit into `count` bytes, and the characters after them. -/
def splitAtByte (count : Nat) : List Char → List Char × List Char
  | [] => ([], [])
  | c :: rest =>
    if c.utf8Size ≤ count then
      let parts := splitAtByte (count - c.utf8Size) rest
      (c :: parts.1, parts.2)
    else ([], c :: rest)

theorem byteLength_append (a b : List Char) :
    byteLength (a ++ b) = byteLength a + byteLength b := by
  induction a with
  | nil => simp [byteLength]
  | cons c a ih => simp [byteLength, ih, Nat.add_assoc]

/-- Nothing is lost at a cut. -/
theorem splitAtByte_append (count : Nat) (text : List Char) :
    (splitAtByte count text).1 ++ (splitAtByte count text).2 = text := by
  induction text generalizing count with
  | nil => rfl
  | cons c rest ih =>
      unfold splitAtByte
      split
      · simp [ih]
      · rfl

/-- The part before a cut fits. -/
theorem byteLength_splitAtByte_le (count : Nat) (text : List Char) :
    byteLength (splitAtByte count text).1 ≤ count := by
  induction text generalizing count with
  | nil => simp [splitAtByte, byteLength]
  | cons c rest ih =>
      unfold splitAtByte
      split
      · have := ih (count - c.utf8Size)
        simp only [byteLength]
        omega
      · simp [byteLength]

/-- A text's own byte length cuts nothing off. -/
theorem splitAtByte_byteLength (text rest : List Char) :
    splitAtByte (byteLength text) (text ++ rest) = (text, rest) := by
  induction text with
  | nil =>
      cases rest with
      | nil => rfl
      | cons c rest =>
          have := c.utf8Size_pos
          simp only [List.nil_append, byteLength, splitAtByte]
          rw [if_neg (by omega)]
  | cons c text ih =>
      simp [byteLength, splitAtByte, ih]

end CommandLine.Text
