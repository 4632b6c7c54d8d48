import CommandLine.Proofs.Line.Tokenizing

/-! # Places between whole tokens

    A place of a line is reached by reading whole tokens (`Line.Passes`), so that what is known of
    the tokens that are left at one place is known at the other. From any place, reading on comes to
    the same last token (`Line.Passes.readsToLast`), and if no white space comes behind the last
    token, this is so at every place (`Line.Passes.endsInToken`). -/

namespace CommandLine.Line

variable {a b c line last : Line}

/-- Some tokens are read from a line, or none. -/
inductive Passes : Line → Line → Prop where
  | none {line : Line} : Passes line line
  | token {line last : Line} (further : line.isBlank = false)
      (more : Passes line.skipToken last) : Passes line last

/-- At least one token is read from a line. -/
structure PassesSome (line last : Line) : Prop where
  further : line.isBlank = false
  more : line.skipToken.Passes last

/-- Tokens are read from a line until the last one is left, or none. -/
inductive ReadsToLast : Line → Line → Prop where
  | last {line : Line} (last : line.isLastToken = true) : ReadsToLast line line
  | token {line last : Line} (further : line.isLastToken = false)
      (more : ReadsToLast line.skipToken last) : ReadsToLast line last

/-- No white space comes behind the last token of a line. -/
def EndsInToken (line : Line) : Prop :=
  ∃ tokens last, line.Cuts tokens last ∧ last.rest = []

/-! ## Reading on -/

theorem PassesSome.passes (h : line.PassesSome b) : line.Passes b :=
  .token h.further h.more

theorem Passes.trans (hab : a.Passes b) (hbc : b.Passes c) : a.Passes c := by
  induction hab with
  | none => exact hbc
  | token further _ ih => exact .token further (ih hbc)

theorem PassesSome.trans_passes (hab : a.PassesSome b) (hbc : b.Passes c) : a.PassesSome c :=
  ⟨hab.further, hab.more.trans hbc⟩

theorem isBlank_of_rest (h : line.rest = []) : line.isBlank = true := by
  rw [isBlank, h]
  rfl

/-- Nothing is read where nothing is left. -/
theorem Passes.eq_of_rest (h : a.Passes b) (ha : a.rest = []) : b = a := by
  cases h with
  | none => rfl
  | token further _ =>
      rw [isBlank_of_rest ha] at further
      cases further

/-- A token that was read with something left behind it is not the last. -/
theorem PassesSome.isLastToken (h : a.PassesSome b) (hb : b.isEmpty = false) :
    a.isLastToken = false := by
  rw [Line.isLastToken, ← Bool.not_eq_true]
  intro hempty
  rw [h.more.eq_of_rest (List.isEmpty_iff.mp hempty), hempty] at hb
  cases hb

theorem isEmpty_of_further (h : line.isBlank = false) : line.isEmpty = false := by
  rw [isEmpty, List.isEmpty_eq_false_iff]
  intro hrest
  rw [isBlank_of_rest hrest] at h
  cases h

/-! ## The last token -/

/-- Reading on comes to the same last token, from every place that is not behind it. -/
theorem Passes.readsToLast (h : a.Passes b) (hb : b.isEmpty = false) (ha : a.ReadsToLast last) :
    b.ReadsToLast last := by
  induction h with
  | none => exact ha
  | token further more ih =>
      have hlast := PassesSome.isLastToken ⟨further, more⟩ hb
      cases ha with
      | last ends =>
          rw [ends] at hlast
          cases hlast
      | token _ behind => exact ih hb behind

theorem ReadsToLast.eq_of_last (h : line.ReadsToLast last) (hlast : line.isLastToken = true) :
    last = line := by
  cases h with
  | last _ => rfl
  | token further _ =>
      rw [hlast] at further
      cases further

theorem Passes.endsInToken (h : a.Passes b) (ha : a.EndsInToken) : b.EndsInToken := by
  induction h with
  | none => exact ha
  | token further _ ih =>
      obtain ⟨tokens, last, hcuts, hrest⟩ := ha
      cases hcuts with
      | done blank =>
          rw [blank] at further
          cases further
      | token _ more => exact ih ⟨_, last, more, hrest⟩

/-- Where a line ends in a token, the last token is the only one that is left. -/
theorem EndsInToken.isLastToken_iff (h : line.EndsInToken) (further : line.isBlank = false) :
    line.isLastToken = true ↔ line.tokens.length = 1 := by
  obtain ⟨tokens, last, hcuts, hrest⟩ := h
  have hsome : tokens ≠ [] := by
    rintro rfl
    cases hcuts with
    | done blank =>
        rw [blank] at further
        cases further
  rw [hcuts.isLastToken_iff, Line.tokens, List.length_map, ← hcuts.eq_all, List.length_eq_one_iff]
  constructor
  · rintro (hnil | ⟨hone, -⟩)
    · exact absurd hnil hsome
    · exact hone
  · exact fun hone => Or.inr ⟨hone, hrest⟩

theorem EndsInToken.rest_eq_nil (h : line.EndsInToken) (hblank : line.isBlank = true) :
    line.rest = [] := by
  obtain ⟨tokens, last, hcuts, hrest⟩ := h
  cases hcuts with
  | done _ => exact hrest
  | token further _ =>
      rw [hblank] at further
      cases further

end CommandLine.Line
