import CommandLine.Proofs.Line.Span

/-! # Lines up to the white space before the next token

    White space in front of a token is read with the token, so it does not matter whether it was
    read before. `Line.Agrees` is equality of lines up to that; whatever is read off lines that
    agree is the same, and so is the line that is left once a token has been read. -/

namespace CommandLine

open Text

namespace Line

/-- The same place of the same text, up to white space before the next token. -/
def Agrees (a b : Line) : Prop :=
  a.skipBlank = b.skipBlank

theorem Agrees.refl (a : Line) : a.Agrees a :=
  rfl

theorem Agrees.trans {a b c : Line} (hab : a.Agrees b) (hbc : b.Agrees c) : a.Agrees c :=
  Eq.trans hab hbc

theorem skipBlank_skipBlank (a : Line) : a.skipBlank.skipBlank = a.skipBlank := by
  have htake : (trimStart a.rest).takeWhile Text.isBlank = [] :=
    List.takeWhile_eq_nil_iff.mpr (List.dropWhile_get_zero_not _ a.rest)
  have hdrop : trimStart (trimStart a.rest) = trimStart a.rest :=
    List.dropWhile_eq_self_iff.mpr (List.dropWhile_get_zero_not _ a.rest)
  simp only [skipBlank, htake, hdrop, List.append_nil]

/-- Reading the white space before a token leads to a line that agrees. -/
theorem skipBlank_agrees (a : Line) : a.skipBlank.Agrees a :=
  a.skipBlank_skipBlank

theorem isBlank_eq_skipBlank (a : Line) : a.isBlank = a.skipBlank.rest.isEmpty :=
  rfl

theorem skipToken_eq_skipBlank (a : Line) :
    a.skipToken = ⟨a.skipBlank.before ++ (Token.head a.skipBlank.rest).raw,
      (Token.head a.skipBlank.rest).rest⟩ := by
  simp [skipToken, skipBlank, Token.cut]

variable {a b : Line}

theorem Agrees.isBlank (h : a.Agrees b) : a.isBlank = b.isBlank := by
  rw [isBlank_eq_skipBlank, isBlank_eq_skipBlank, h]

theorem Agrees.peekToken (h : a.Agrees b) : a.peekToken = b.peekToken :=
  congrArg (fun line : Line => String.ofList (Token.head line.rest).value) h

/-- The white space before a token is read with the token. -/
theorem Agrees.skipToken (h : a.Agrees b) : a.skipToken = b.skipToken := by
  rw [skipToken_eq_skipBlank, skipToken_eq_skipBlank, h]

theorem Agrees.isLastToken (h : a.Agrees b) : a.isLastToken = b.isLastToken := by
  unfold Line.isLastToken
  rw [h.skipToken]

theorem Agrees.finish (h : a.Agrees b) : a.finish = b.finish := by
  unfold Line.finish
  rw [← text_skipBlank a, ← text_skipBlank b, h]

theorem Agrees.readRest (h : a.Agrees b) : a.readRest = b.readRest := by
  have hrest : a.skipBlank.rest = b.skipBlank.rest := congrArg Line.rest h
  show (String.ofList (trimEnd a.skipBlank.rest), _) = (String.ofList (trimEnd b.skipBlank.rest), _)
  rw [hrest, h.finish]

/-- On a line of white space at most one token is left, which is empty. -/
theorem isLastToken_of_isBlank (h : a.isBlank = true) : a.isLastToken = true := by
  have hrest : a.skipBlank.rest = [] := List.isEmpty_iff.mp h
  rw [Line.isLastToken, isEmpty, skipToken_eq_skipBlank, hrest]
  rfl

/-- Before the last token there is more than white space. -/
theorem isBlank_of_further (h : ¬a.isLastToken = true) : a.isBlank = false := by
  by_contra hblank
  exact h (isLastToken_of_isBlank (by simpa using hblank))

/-! ## Texts up to a flag -/

/-- Where the next token is no flag, what is read up to a flag is the same on lines that agree. -/
theorem Agrees.skipToFlag_eq (h : a.Agrees b) (hblank : a.isBlank = false)
    (hflag : looksLikeFlag a.peekToken = false) : a.skipToFlag = b.skipToFlag := by
  rw [skipToFlag.eq_def a, skipToFlag.eq_def b, ← h.isBlank, ← h.peekToken, ← h.skipToken]
  simp [hblank, hflag]

theorem skipToFlag_self (hblank : a.isBlank = false) (hflag : looksLikeFlag a.peekToken = true) :
    a.skipToFlag = a := by
  rw [skipToFlag.eq_def]
  simp [hblank, hflag]

theorem Agrees.skipToFlag (h : a.Agrees b) (hblank : a.isBlank = false) :
    a.skipToFlag.Agrees b.skipToFlag := by
  cases hflag : looksLikeFlag a.peekToken with
  | false => exact congrArg Line.skipBlank (h.skipToFlag_eq hblank hflag)
  | true =>
      rw [skipToFlag_self hblank hflag,
        skipToFlag_self (h.isBlank ▸ hblank) (h.peekToken ▸ hflag)]
      exact h

/-- White space that was read before does not count for the text that was read since. -/
theorem readSince_skipBlank {c : Line} (h : a.skipBlank.before <+: c.before) :
    c.readSince a = c.readSince a.skipBlank := by
  obtain ⟨tail, htail⟩ := h
  have hblank : ∀ x ∈ a.rest.takeWhile Text.isBlank, Text.isBlank x = true :=
    fun x hx => List.mem_takeWhile_imp hx
  unfold readSince
  rw [← htail, List.drop_left]
  show String.ofList (trim ((a.before ++ a.rest.takeWhile Text.isBlank ++ tail).drop _)) = _
  rw [List.append_assoc, List.drop_left]
  unfold trim trimStart
  rw [List.dropWhile_append_of_pos hblank]

theorem readSince_self (a : Line) : a.readSince a = "" := by
  simp [readSince, trim, trimEnd, trimStart]

/-- The text up to a flag is the same on lines that agree. -/
theorem Agrees.readSince_skipToFlag (h : a.Agrees b) (hblank : a.isBlank = false) :
    a.skipToFlag.readSince a = b.skipToFlag.readSince b := by
  cases hflag : looksLikeFlag a.peekToken with
  | true =>
      -- nothing is read at all
      rw [skipToFlag_self hblank hflag,
        skipToFlag_self (h.isBlank ▸ hblank) (h.peekToken ▸ hflag), readSince_self, readSince_self]
  | false =>
      -- both lines end at one place, and what they differ in is trimmed
      have hbefore : a.skipBlank.before <+: a.skipToFlag.before := by
        rw [skipToFlag.eq_def]
        simp only [hblank, hflag, Bool.false_eq_true, dite_false, if_false]
        refine List.IsPrefix.trans ?_ (onward_skipToFlag _).before
        rw [skipToken_eq_skipBlank]
        exact List.prefix_append _ _
      have hsame := h.skipToFlag_eq hblank hflag
      have hother : b.skipBlank.before <+: b.skipToFlag.before := by
        rw [← h, ← hsame]
        exact hbefore
      rw [readSince_skipBlank hbefore, readSince_skipBlank hother, hsame, h]

end Line

end CommandLine
