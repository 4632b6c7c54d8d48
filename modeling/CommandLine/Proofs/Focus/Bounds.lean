import CommandLine.Focus
import CommandLine.Proofs.Line.Boundary
import CommandLine.Proofs.Line.Placed
import CommandLine.Proofs.Line.WholeTokens
import Mathlib.Order.Bounds.Defs

/-! # The bounds of a completion

    A completion cuts the text at the cursor, looks for suggestions in the text up to there, and
    replaces the token that the cursor touches in the whole text. That the two views of the text
    agree is said by `Line.Fits`: the bounds are those of the first token that the cursor touches,
    and the text up to the cursor has the same tokens in front of it as the whole text, and then at
    most a piece of that token.

    So what is looked for is the token at which reading the text up to the cursor comes to its last
    (`Line.exists_readsToLast`), and the bounds cut the text into parts
    (`Completion.inRange_of_parts`). -/

namespace CommandLine

open Text

/-! ## Texts cut at a position -/

/-- The text that fits into a number of bytes is the longest that does. -/
theorem Text.prefix_splitAtByte {front text : List Char} {position : Nat} (hfront : front <+: text)
    (hfits : byteLength front ≤ position) : front <+: (splitAtByte position text).1 := by
  induction front generalizing text position with
  | nil => exact List.nil_prefix
  | cons c front ih =>
      obtain ⟨rest, rfl⟩ := hfront
      rw [byteLength] at hfits
      rw [List.cons_append, splitAtByte, if_pos (by omega)]
      exact List.cons_prefix_cons.mpr ⟨rfl, ih (List.prefix_append front rest) (by omega)⟩

/-- A text is cut at the last place in front of a position that is inside no character. -/
theorem Text.isGreatest_splitAtByte (position : Nat) (text : List Char) :
    IsGreatest {place | Boundary text place ∧ place ≤ position}
      (byteLength (splitAtByte position text).1) := by
  constructor
  · exact ⟨boundary_iff.mpr ⟨_, ⟨_, splitAtByte_append position text⟩, rfl⟩,
      byteLength_splitAtByte_le position text⟩
  · rintro place ⟨hplace, hle⟩
    obtain ⟨front, hfront, rfl⟩ := boundary_iff.mp hplace
    obtain ⟨more, hmore⟩ := prefix_splitAtByte hfront hle
    rw [← hmore, byteLength_append]
    exact Nat.le_add_right _ _

theorem Text.boundary_of_prefix {front text : List Char} (h : front <+: text) :
    Boundary text (byteLength front) :=
  boundary_iff.mpr ⟨front, h, rfl⟩

theorem Line.between_eq {line : Line} {front middle back : List Char}
    (h : line.text = front ++ (middle ++ back)) {start stop : Nat} (hstart : start = byteLength front)
    (hstop : stop = byteLength front + byteLength middle) :
    line.between start stop = ⟨[], middle⟩ := by
  have hbytes : stop - start = byteLength middle := by omega
  rw [Line.between, h, hbytes, hstart, splitAtByte_byteLength, splitAtByte_byteLength]

/-! ## Reading up to the last token -/

namespace Line

/-- Behind a settled text, reading comes to the piece as its last token. -/
theorem exists_readsToLast {piece front : List Char} (hsettled : Token.Settled piece front)
    (hlast : (Token.cut piece).rest = []) {line : Line} (hline : line.rest = front ++ piece) :
    ∃ last, line.ReadsToLast last ∧ last.peekToken = String.ofList (Token.cut piece).value := by
  induction hsettled generalizing line with
  | @blank front hblank =>
      have hcut := Token.cut_behind_blank hblank piece
      rw [← hline] at hcut
      refine ⟨line, .last ?_, ?_⟩
      · rw [isLastToken, isEmpty, skipToken, hcut, hlast]
        rfl
      · rw [peekToken, hcut]
  | @token front rest token written cuts further behind ih =>
      have hcut := cuts piece
      rw [← hline] at hcut
      have hnext : line.skipToken.rest = rest ++ piece := congrArg Token.rest hcut
      obtain ⟨last, hreads, hpeek⟩ := ih hnext
      refine ⟨last, .token ?_ hreads, hpeek⟩
      rw [isLastToken, isEmpty, skipToken, hcut]
      exact List.isEmpty_eq_false_iff.mpr further

/-! ## The bounds of the touched token -/

/-- Bounds that fit the tokens of a text and the text up to a place in it: the bounds of the first
    token that holds the place, or else the place itself. The tokens up to the place are those of
    the text that end in front of the bounds, and a piece of the token if the place is inside. -/
structure Fits (line : Line) (place : Nat) (bounds : Span) : Prop where
  start_le : bounds.start ≤ place
  le_stop : place ≤ bounds.stop
  stop_le : bounds.stop ≤ byteLength line.text
  start : Boundary line.text bounds.start
  stop : Boundary line.text bounds.stop
  touched : bounds = ((line.touched? place).map (·.span)).getD ⟨place, place⟩
  tokens : (line.between 0 place).tokens =
    line.tokensUpTo bounds.start ++
      if bounds.start < place then [(line.between bounds.start place).peekToken] else []

end Line

namespace Token

variable {text front piece written behind : List Char}

/-- A piece of the touched token starts as the token does, with no white space. -/
theorem Around.trimStart_piece (h : Around text front piece written behind) (hsome : piece ≠ []) :
    trimStart piece ≠ [] := by
  obtain ⟨c, piece, rfl⟩ := List.exists_cons_of_ne_nil hsome
  obtain ⟨missing, rfl⟩ := h.piece
  obtain ⟨_, _, hstart, hc⟩ := (h.stands (List.cons_ne_nil _ _)).starts
  obtain ⟨rfl, -⟩ := List.cons.inj hstart
  rw [trimStart, List.dropWhile_cons_of_neg (by simp [hc])]
  exact List.cons_ne_nil c piece

/-- A piece of the touched token is one token, unless there is nothing of it. -/
theorem Around.tokens_piece (h : Around text front piece written behind) :
    (Line.mk [] piece).tokens =
      if byteLength front < byteLength (front ++ piece) then [(Line.mk [] piece).peekToken]
      else [] := by
  rw [byteLength_append]
  by_cases hpiece : piece = []
  · subst hpiece
    rw [if_neg (by simp only [byteLength]; omega)]
    exact Line.tokens_of_isBlank rfl
  · have hpos := byteLength_pos hpiece
    have hfurther : (Line.mk [] piece).isBlank = false :=
      List.isEmpty_eq_false_iff.mpr (h.trimStart_piece hpiece)
    have hnothing : (Line.mk [] piece).skipToken.isBlank = true := by
      rw [Line.isBlank, Line.skipToken, h.rest_cut_piece]
      rfl
    rw [if_pos (by omega), Line.tokens_of_further hfurther, Line.tokens_of_isBlank hnothing]

/-- The text up to the cursor, and the piece of the touched token in it. -/
theorem Around.between_eq {line : Line} (h : Around line.text front piece written behind) :
    line.between 0 (byteLength (front ++ piece)) = ⟨[], front ++ piece⟩ ∧
      line.between (byteLength front) (byteLength (front ++ piece)) = ⟨[], piece⟩ := by
  obtain ⟨missing, hmissing⟩ := h.piece
  have hfrom : line.text = front ++ (piece ++ (missing ++ behind)) := by
    rw [h.whole, ← hmissing, List.append_assoc piece]
  have hupTo : line.text = [] ++ ((front ++ piece) ++ (missing ++ behind)) := by
    rw [hfrom, List.nil_append, List.append_assoc]
  exact ⟨line.between_eq hupTo rfl (Nat.zero_add _).symm,
    line.between_eq hfrom rfl (byteLength_append front piece)⟩

/-- The parts of a text around the touched token give bounds that fit. -/
theorem Around.fits {line : Line} (h : Around line.text front piece written behind) :
    line.Fits (byteLength (front ++ piece))
      ⟨byteLength front, byteLength front + byteLength written⟩ := by
  obtain ⟨missing, hmissing⟩ := h.piece
  have hwritten := congrArg byteLength hmissing
  have hpiece := byteLength_append front piece
  have hwhole := congrArg byteLength h.whole
  rw [byteLength_append] at hwritten
  rw [byteLength_append, byteLength_append] at hwhole
  constructor
  · show byteLength front ≤ byteLength (front ++ piece)
    omega
  · show byteLength (front ++ piece) ≤ byteLength front + byteLength written
    omega
  · show byteLength front + byteLength written ≤ byteLength line.text
    omega
  · exact boundary_of_prefix ⟨_, h.whole.symm⟩
  · have hstop : front ++ written <+: line.text :=
      ⟨behind, by rw [h.whole, List.append_assoc]⟩
    rw [← byteLength_append]
    exact boundary_of_prefix hstop
  · rw [Line.touched?, h.touched_eq]
    rcases h.token with ⟨rfl, -⟩ | ⟨hsome, -, -⟩
    · -- the place itself, where nothing is touched
      obtain rfl : piece = [] := List.prefix_nil.mp h.piece
      rw [here_nil, List.append_nil]
      rfl
    · rw [here_of_written hsome]
      rfl
  · obtain ⟨hupTo, hfrom⟩ := h.between_eq
    rw [hupTo, hfrom, h.settled.tokens_append, h.tokens_piece, Line.tokensUpTo, h.filter_front,
      map_placed]

end Token

/-! ## Completions -/

namespace Completion

/-- A completion whose range cuts its text into three parts, at places that are inside no
    character. -/
structure InRange (c : Completion) : Prop where
  ordered : c.start ≤ c.stop
  start : Boundary c.input.toList c.start
  stop : Boundary c.input.toList c.stop
  whole : c.front ++ (c.typed ++ c.back) = c.input.toList
  front : byteLength c.front = c.start
  typed : byteLength (c.front ++ c.typed) = c.stop

/-- The parts of a text in front of the range, in it and behind it. -/
theorem parts_eq {c : Completion} {front middle back : List Char}
    (htext : c.input.toList = front ++ (middle ++ back)) (hstart : c.start = byteLength front)
    (hstop : c.stop = byteLength front + byteLength middle) :
    c.front = front ∧ c.typed = middle ∧ c.back = back := by
  have hbytes : c.stop - c.start = byteLength middle := by omega
  refine ⟨?_, ?_, ?_⟩
  · rw [Completion.front, htext, hstart, splitAtByte_byteLength]
  · rw [Completion.typed, hbytes, htext, hstart, splitAtByte_byteLength, splitAtByte_byteLength]
  · rw [Completion.back, htext, hstop, ← byteLength_append, ← List.append_assoc,
      splitAtByte_byteLength]

theorem inRange_of_parts {c : Completion} {front middle back : List Char}
    (htext : c.input.toList = front ++ (middle ++ back)) (hstart : c.start = byteLength front)
    (hstop : c.stop = byteLength front + byteLength middle) : c.InRange := by
  obtain ⟨hfront, htyped, hback⟩ := parts_eq htext hstart hstop
  have hbytes := byteLength_append front middle
  constructor
  · omega
  · exact hstart ▸ boundary_of_prefix ⟨_, htext.symm⟩
  · rw [hstop, ← hbytes]
    exact boundary_of_prefix ⟨back, by rw [htext, List.append_assoc]⟩
  · rw [hfront, htyped, hback, htext]
  · rw [hfront, hstart]
  · rw [hfront, htyped, hbytes, hstop]

end Completion

/-- Every line is parted at every cursor around the token that the cursor touches. -/
theorem Line.exists_around (line : Line) (cursor : Nat) :
    ∃ front piece written behind, Token.Around line.text front piece written behind ∧
      line.floorCursor cursor = byteLength (front ++ piece) ∧
      line.tokenBounds cursor = ⟨byteLength front, byteLength front + byteLength written⟩ := by
  have htext : line.text = (splitAtByte cursor line.text).1 ++ (splitAtByte cursor line.text).2 :=
    (splitAtByte_append cursor line.text).symm
  obtain ⟨front, piece, written, behind, haround, hupTo, htouched⟩ :=
    Span.exists_around htext (Nat.zero_add _).symm
  refine ⟨front, piece, written, behind, haround, congrArg byteLength hupTo, ?_⟩
  rw [Nat.zero_add] at htouched
  exact htouched

namespace Tree

/-- A completion looks for suggestions in the text up to the cursor, and chooses those that continue
    what is between the start of the touched token and the cursor. -/
theorem complete_eq (t : Tree) (limits : Limits) (ctx : Context) (text : String) (cursor : Nat)
    (memory : Memory) {place : Nat} {bounds : Span}
    (hplace : (Line.ofString text).floorCursor cursor = place)
    (hbounds : (Line.ofString text).tokenBounds cursor = bounds) :
    (t.complete limits ctx text cursor memory).1 =
      { input := text
        start := bounds.start
        stop := bounds.stop
        list := limits.choose ((Line.ofString text).between bounds.start place).peekToken
          ((t.focus ctx ((Line.ofString text).between 0 place)).suggest memory).1 } := by
  subst hplace hbounds
  rfl

end Tree

end CommandLine
