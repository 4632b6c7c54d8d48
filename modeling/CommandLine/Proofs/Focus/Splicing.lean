import CommandLine.Proofs.Focus.Bounds

/-! # Suggestions in place of the touched token

    A suggestion takes the place of the token that the cursor touches, and the line that comes of it
    is read again. What is in front of the range is settled, so its tokens stay. A suggestion without
    white space and quotes takes up the characters that come directly behind it
    (`Token.Plain.tokens_append`). So the other tokens stay exactly where white space comes behind
    the range, or nothing (`Completion.tokens_fullLine_iff`). That fails only where the touched token
    is quoted: other text may follow its closing quote directly. -/

namespace CommandLine

open Text

namespace Token

/-- A plain word makes one token with the characters that come behind it, up to white space. -/
theorem Plain.tokens_append {word : List Char} (h : Plain word) (more : List Char) :
    (Line.mk [] (word ++ more)).tokens =
      String.ofList (word ++ more.takeWhile (!isBlank ·)) ::
        (Line.mk [] (more.dropWhile (!isBlank ·))).tokens := by
  have hplain : Plain (String.ofList (word ++ more.takeWhile (!isBlank ·))).toList := by
    rw [String.toList_ofList]
    exact h.append_run more
  have htokens := Line.tokens_of_stands (hplain.stands (apart_dropWhile more)) []
  rw [String.toList_ofList, List.append_assoc, List.takeWhile_append_dropWhile] at htokens
  exact htokens

/-- It is a token of its own exactly if white space comes behind it, or nothing. -/
theorem Plain.tokens_append_iff {word : String} (h : Plain word.toList) (more : List Char) :
    (Line.mk [] (word.toList ++ more)).tokens = word :: (Line.mk [] more).tokens ↔ Apart more := by
  rw [h.tokens_append]
  constructor
  · intro htokens
    have htext := congrArg String.toList (List.cons.inj htokens).1
    rw [String.toList_ofList, List.append_right_eq_self] at htext
    exact apart_iff.mpr htext
  · intro hapart
    have hnone := apart_iff.mp hapart
    have hall := List.takeWhile_append_dropWhile (p := (!isBlank ·)) (l := more)
    rw [hnone, List.nil_append] at hall
    rw [hnone, hall, List.append_nil, String.ofList_toList]

variable {front piece written behind : List Char} {line : Line}

/-- The tokens of a line are those in front of the touched token, the token, and those behind. -/
theorem Around.tokens_eq (h : Around line.text front piece written behind) :
    (Line.mk [] line.text).tokens =
      line.tokensUpTo (byteLength front) ++
        (line.touched? (byteLength (front ++ piece))).toList.map (·.token) ++
        line.tokensFrom (byteLength front + byteLength written) := by
  rw [← map_placed 0, h.placed_eq, Line.tokensUpTo, h.filter_front, Line.touched?, h.touched_eq,
    toList_head?_here, Line.tokensFrom, h.filter_behind, Nat.zero_add, List.map_append,
    List.map_append, List.append_assoc]

/-- Another text in place of the touched token leaves the tokens in front of it. -/
theorem Around.tokens_splice (h : Around line.text front piece written behind)
    (value : List Char) :
    (Line.mk [] (front ++ (value ++ behind))).tokens =
      line.tokensUpTo (byteLength front) ++ (Line.mk [] (value ++ behind)).tokens := by
  rw [h.settled.tokens_append, Line.tokensUpTo, h.filter_front, map_placed]

theorem Around.tokens_behind (h : Around line.text front piece written behind) :
    (Line.mk [] behind).tokens = line.tokensFrom (byteLength front + byteLength written) := by
  rw [Line.tokensFrom, h.filter_behind, map_placed]

/-- Only behind a quoted token comes other text directly. -/
theorem Around.exists_quote (h : Around line.text front piece written behind)
    (hbehind : ¬Apart behind) :
    ∃ quote tail, written = quote :: tail ∧ isQuote quote = true := by
  rcases h.token with ⟨-, hapart⟩ | ⟨hwritten, -, -⟩
  · exact absurd hapart hbehind
  · exact (h.stands hwritten).exists_quote hbehind

end Token

namespace Completion

/-- A suggestion without white space and quotes replaces the touched token, or is inserted at the
    cursor if no token is touched. The tokens in front of the range stay as they are. If white space
    comes behind the range, or nothing, the suggestion is one token and the others stay as well, and
    only then. Other text comes directly behind the range only if the touched token is quoted. -/
theorem tokens_fullLine_iff {c : Completion} {cursor : Nat}
    (hbounds : (Line.ofString c.input).tokenBounds cursor = ⟨c.start, c.stop⟩) {s : Suggestion}
    (hs : Token.Plain s.value.toList) :
    (Line.ofString c.input).tokens =
        (Line.ofString c.input).tokensUpTo c.start ++
          ((Line.ofString c.input).touched?
            ((Line.ofString c.input).floorCursor cursor)).toList.map (·.token) ++
          (Line.ofString c.input).tokensFrom c.stop ∧
      (Line.ofString c.input).tokensUpTo c.start <+: (Line.ofString (c.fullLine s)).tokens ∧
      ((Line.ofString (c.fullLine s)).tokens =
          (Line.ofString c.input).tokensUpTo c.start ++
            s.value :: (Line.ofString c.input).tokensFrom c.stop ↔
        Token.Apart c.back) ∧
      (¬Token.Apart c.back → ∃ quote tail, c.typed = quote :: tail ∧ Token.isQuote quote = true) := by
  obtain ⟨front, piece, written, behind, haround, hplace, hspan⟩ :=
    (Line.ofString c.input).exists_around cursor
  have hwhole : c.input.toList = front ++ (written ++ behind) := haround.whole
  obtain ⟨hstart, hstop⟩ := Span.mk.inj (hbounds.symm.trans hspan)
  obtain ⟨hfront, htyped, hback⟩ := parts_eq hwhole hstart hstop
  have hfull : Line.ofString (c.fullLine s) = ⟨[], front ++ (s.value.toList ++ behind)⟩ := by
    rw [fullLine, splice, hfront, hback, List.append_assoc, Line.ofString, String.toList_ofList]
  have hspliced := haround.tokens_splice s.value.toList
  rw [hfull, hspliced, htyped, hback, hstart, hstop, hplace, ← haround.tokens_behind]
  refine ⟨?_, List.prefix_append _ _, ?_, haround.exists_quote⟩
  · rw [haround.tokens_behind]
    exact haround.tokens_eq
  · rw [List.append_cancel_left_eq]
    exact hs.tokens_append_iff behind

/-- In place of a quoted amount with a cursor in it, the suggestion is a token of its own, and the
    quoted name behind it stays. -/
theorem tokens_fullLine_amount :
    let c : Completion := ⟨"give \"10 20\" 'a b'", 5, 12, []⟩
    let s : Suggestion := .ofText "15"
    (Line.ofString c.input).tokenBounds 8 = ⟨c.start, c.stop⟩ ∧ Token.Plain s.value.toList ∧
      Token.Apart c.back ∧ c.fullLine s = "give 15 'a b'" ∧
      (Line.ofString (c.fullLine s)).tokens =
        (Line.ofString c.input).tokensUpTo c.start ++
          s.value :: (Line.ofString c.input).tokensFrom c.stop := by
  intro c s
  have hbounds : (Line.ofString c.input).tokenBounds 8 = ⟨c.start, c.stop⟩ := by decide +kernel
  have hs : Token.Plain s.value.toList := by decide +kernel
  have hapart : Token.Apart c.back := Token.apart_iff.mpr (by decide +kernel)
  obtain ⟨-, -, hiff, -⟩ := tokens_fullLine_iff hbounds hs
  exact ⟨hbounds, hs, hapart, by decide +kernel, hiff.mpr hapart⟩

/-- In place of a quoted mode that other text follows directly, the suggestion makes one token with
    that text, so that the token behind the range is lost. -/
theorem tokens_fullLine_fused :
    let c : Completion := ⟨"gamemode \"crea\"x", 9, 15, [.ofText "creative"]⟩
    (Line.ofString c.input).tokenBounds 14 = ⟨c.start, c.stop⟩ ∧
      Token.Plain "creative".toList ∧
      (Line.ofString c.input).tokensUpTo c.start = ["gamemode"] ∧
      (Line.ofString c.input).tokensFrom c.stop = ["x"] ∧
      c.fullLines = ["gamemode creativex"] ∧
      (Line.ofString "gamemode creativex").tokens = ["gamemode", "creativex"] ∧
      ["gamemode", "creativex"] ≠ ["gamemode", "creative", "x"] := by
  decide +kernel

end Completion

end CommandLine
