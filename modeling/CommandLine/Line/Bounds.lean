import CommandLine.Line.Basic

/-! # The token at a cursor

    A completion replaces the token that the cursor touches. `Line.tokenBounds` finds it in the
    whole text of a line: the first token whose written characters start at or before the cursor and
    end at or after it, as a range of bytes. Where no token is touched the range is empty and stands
    at the cursor. -/

namespace CommandLine

open Text

/-- A range of bytes of a text. -/
structure Span where
  start : Nat
  stop : Nat
deriving DecidableEq, Repr

namespace Span

/-- The touched token of a text that starts at the byte `offset`. -/
def touched (cursor offset : Nat) (text : List Char) : Span :=
  let token := Token.cut text
  let start := offset + byteLength token.blank
  let stop := start + byteLength token.raw
  if _ : trimStart text = [] then ⟨cursor, cursor⟩
  else if cursor < start then ⟨cursor, cursor⟩
  else if cursor ≤ stop then ⟨start, stop⟩
  else touched cursor stop token.rest
termination_by text.length
decreasing_by exact Token.length_rest_lt ‹_›

end Span

namespace Line

/-- The last byte position at or before `cursor` that is in the text and inside no character. -/
def floorCursor (line : Line) (cursor : Nat) : Nat :=
  byteLength (splitAtByte cursor line.text).1

/-- The range of the token that the cursor touches. -/
def tokenBounds (line : Line) (cursor : Nat) : Span :=
  Span.touched (line.floorCursor cursor) 0 line.text

/-- The line with the text that lies between two byte positions, of which nothing has been read. -/
def between (line : Line) (start stop : Nat) : Line :=
  ⟨[], (splitAtByte (stop - start) (splitAtByte start line.text).2).1⟩

end Line

end CommandLine
