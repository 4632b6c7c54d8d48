import CommandLine.Proofs.Line.Front

/-! # Places of a line, in bytes

    The cursor of a line counts the bytes of what has been read. It stands between two characters of
    the text or at one of its ends, and there is a line for each such place and only one
    (`Line.existsUnique_at`), so that what is said of all lines is said of all texts and all cursors
    that are inside no character. Going onward on a line keeps the text and moves the cursor
    forward, at most to the end (`Line.Onward.ahead`). -/

namespace CommandLine

open Text

namespace Text

/-- A text takes the bytes of its characters. -/
theorem byteLength_eq_utf8ByteSize (text : List Char) :
    byteLength text = (String.ofList text).utf8ByteSize := by
  induction text with
  | nil => rfl
  | cons c text ih =>
      rw [byteLength, ih, String.ofList_cons, String.utf8ByteSize_append,
        String.utf8ByteSize_singleton]

/-- A byte position that is not past the end of a text and inside none of its characters. -/
def Boundary (text : List Char) (position : Nat) : Prop :=
  String.Pos.Raw.IsValid (String.ofList text) ⟨position⟩

/-- Such a position is the length of what is in front of it. -/
theorem boundary_iff {text : List Char} {position : Nat} :
    Boundary text position ↔ ∃ front, front <+: text ∧ byteLength front = position := by
  rw [Boundary, String.Pos.Raw.isValid_iff_exists_append]
  constructor
  · rintro ⟨front, back, htext, hposition⟩
    refine ⟨front.toList, ⟨back.toList, ?_⟩, ?_⟩
    · rw [← String.toList_append, ← htext, String.toList_ofList]
    · rw [byteLength_eq_utf8ByteSize, String.ofList_toList]
      exact (congrArg String.Pos.Raw.byteIdx hposition).symm
  · rintro ⟨front, ⟨back, rfl⟩, rfl⟩
    refine ⟨String.ofList front, String.ofList back, String.ofList_append, ?_⟩
    rw [byteLength_eq_utf8ByteSize]
    rfl

end Text

namespace Line

variable {a b : Line}

theorem boundary_cursor (line : Line) : Boundary line.text line.cursor :=
  boundary_iff.mpr ⟨line.before, List.prefix_append _ _, rfl⟩

/-- For every text and every place in it that is inside no character there is one line. -/
theorem existsUnique_at {text : List Char} {position : Nat} (h : Boundary text position) :
    ∃! line : Line, line.text = text ∧ line.cursor = position := by
  obtain ⟨front, ⟨back, rfl⟩, rfl⟩ := boundary_iff.mp h
  refine ⟨⟨front, back⟩, ⟨rfl, rfl⟩, ?_⟩
  rintro ⟨before, rest⟩ ⟨htext, hcursor⟩
  have htext : before ++ rest = front ++ back := htext
  have hcursor : byteLength before = byteLength front := hcursor
  -- two prefixes of one text with as many bytes are one prefix
  have hfront : front <+: before :=
    prefix_of_byteLength_le (htext ▸ List.prefix_append front back) (List.prefix_append before rest)
      (Nat.le_of_eq hcursor.symm)
  obtain ⟨more, rfl⟩ := hfront
  rw [byteLength_append] at hcursor
  have hmore : more = [] := by
    by_contra hsome
    have hpos := byteLength_pos hsome
    omega
  subst hmore
  rw [List.append_nil] at htext ⊢
  rw [List.append_cancel_left htext]

/-- A place of the same text at or behind another one: not past the end, and inside no character. -/
structure Ahead (a b : Line) : Prop where
  text : b.text = a.text
  start : a.cursor ≤ b.cursor
  stop : b.cursor ≤ byteLength a.text
  boundary : Boundary a.text b.cursor

theorem Reads.text_eq {span : List Char} (h : a.Reads span b) : b.text = a.text := by
  rw [Line.text, Line.text, h.before, h.rest, List.append_assoc]

theorem Reads.cursor_eq {span : List Char} (h : a.Reads span b) :
    b.cursor = a.cursor + byteLength span := by
  rw [cursor, cursor, h.before, byteLength_append]

/-- The way onward leads ahead. -/
theorem Onward.ahead (h : a.Onward b) : a.Ahead b := by
  obtain ⟨span, hspan⟩ := h
  have htext := hspan.text_eq
  refine ⟨htext, ?_, ?_, htext ▸ b.boundary_cursor⟩
  · rw [hspan.cursor_eq]
    exact Nat.le_add_right _ _
  · rw [← htext, Line.text, byteLength_append]
    exact Nat.le_add_right _ _

/-- A line on which a token is left goes on when it is read. -/
theorem cursor_lt_skipToken (h : a.isBlank = false) : a.cursor < a.skipToken.cursor := by
  have hwritten : (Token.cut a.rest).raw ≠ [] := by
    intro hnil
    rw [isBlank, Token.cut_raw_eq_nil_iff.mp hnil] at h
    cases h
  have hpos := byteLength_pos hwritten
  rw [a.reads_skipToken.cursor_eq, byteLength_append]
  omega

end Line

end CommandLine
