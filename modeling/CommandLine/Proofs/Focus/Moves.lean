import CommandLine.Focus

/-! # The ways of a completion

    A completion passes an edge in one of three ways, and finds its focus in one of three others.
    `Position.Passed` and `Position.Stopped` write them down, so that `Position.advance` is opened
    here only. The router has the same edges before it; `stepAtToken_word`,
    `stepAtToken_atArgument` and `stepAtToken_atFlags` say what it does with them at a token. -/

namespace CommandLine

namespace Position

variable {ignoreCase : Bool} {p q : Position} {a : Argument} {child : Node}

/-- The next token selects no literal that leads to a command the sender may run. -/
def PastLiterals (ignoreCase : Bool) (p : Position) : Prop :=
  ∀ l child, p.node.findLiteral ignoreCase p.line.peekToken = some (l, child) →
    child.permits p.context = false

/-- The next token is for the argument, unless flags come first. -/
structure AtArgument (ignoreCase : Bool) (p : Position) (a : Argument) (child : Node) : Prop where
  past : p.PastLiterals ignoreCase
  edge : p.node.argument = some (a, child)
  permitted : child.permits p.context = true

/-- The next token is for the flag group. -/
structure AtFlags (ignoreCase : Bool) (p : Position) (g : FlagGroup) (ending : List Entry) :
    Prop where
  past : p.PastLiterals ignoreCase
  argument : ∀ a child, p.node.argument = some (a, child) → child.permits p.context = false
  edge : p.node.flags = some (g, ending)
  permitted : Node.anyPermitted p.context ending = true

/-- The next token looks like a flag at an argument that may be left out. -/
def mayLeaveOut (p : Position) (a : Argument) : Bool :=
  looksLikeFlag p.line.peekToken && !a.isRequired

/-- The argument is left out for the sake of flags behind it. -/
def skips (p : Position) (a : Argument) (child : Node) : Bool :=
  p.mayLeaveOut a && child.flagsBelow?.isSome

/-- The router turns to the flags of the node, although the next token could be the argument. -/
def detours (p : Position) (a : Argument) (child : Node) : Bool :=
  p.mayLeaveOut a && child.flagsBelow?.isNone && p.node.flags.isSome

/-- Where there are flags behind an argument, the router does not turn to others. -/
theorem detours_of_skips (h : p.skips a child = true) : p.detours a child = false := by
  rw [skips] at h
  rw [detours]
  cases hbelow : child.flagsBelow? with
  | none => simp [hbelow] at h
  | some below => simp

/-- How a completion passes an edge. -/
inductive Passed (ignoreCase : Bool) (p : Position) : Position → Prop where
  | word {l : Literal} {child : Node}
      (found : p.node.findLiteral ignoreCase p.line.peekToken = some (l, child))
      (permitted : child.permits p.context = true) :
      Passed ignoreCase p { node := child, context := p.context, line := p.line.skipToken }
  | leftOut {a : Argument} {child : Node} (atArgument : p.AtArgument ignoreCase a child)
      (skips : p.skips a child = true) :
      Passed ignoreCase p { node := child, context := p.context, line := p.line }
  | read {a : Argument} {child : Node} {value : Value}
      (atArgument : p.AtArgument ignoreCase a child) (skips : p.skips a child = false)
      (reads : (a.read p.context p.line).result = .ok value) :
      Passed ignoreCase p
        { node := child
          context := (a.read p.context p.line).context.store a.name value
          line := (a.read p.context p.line).line }

/-- A token at which a completion cannot go on, and for which there is nothing to suggest. -/
inductive Stuck (ignoreCase : Bool) (p : Position) : Prop where
  /-- The argument does not read the token, and there is more behind what it looked at. -/
  | rejected {a : Argument} {child : Node} {e : ArgumentError}
      (atArgument : p.AtArgument ignoreCase a child) (skips : p.skips a child = false)
      (refuses : (a.read p.context p.line).result = .error e)
      (more : (a.read p.context p.line).line.isBlank = false) : Stuck ignoreCase p
  /-- No literal, argument or flag group that the token could be for leads to a command that the
      sender may run. -/
  | unmatched (past : p.PastLiterals ignoreCase)
      (argument : ∀ a child, p.node.argument = some (a, child) → child.permits p.context = false)
      (flags : ∀ g ending, p.node.flags = some (g, ending) →
        Node.anyPermitted p.context ending = false) : Stuck ignoreCase p

/-- How a completion finds its focus. -/
inductive Stopped (ignoreCase : Bool) (p : Position) : Focus → Prop where
  | node (last : p.line.isLastToken = true) :
      Stopped ignoreCase p (.node p.node p.context p.line)
  | argument {a : Argument} {child : Node} (atArgument : p.AtArgument ignoreCase a child) :
      Stopped ignoreCase p (.argument a (a.read p.context p.line).context p.line)
  | flags {g : FlagGroup} {ending : List Entry} (further : p.line.isLastToken = false)
      (atFlags : p.AtFlags ignoreCase g ending) :
      Stopped ignoreCase p (.flags g p.context p.line)
  | nowhere (further : p.line.isLastToken = false) (stuck : p.Stuck ignoreCase) :
      Stopped ignoreCase p .nowhere

/-! ## The completion -/

theorem focusOnFlags_stopped (further : p.line.isLastToken = false)
    (past : p.PastLiterals ignoreCase)
    (argument : ∀ a child, p.node.argument = some (a, child) → child.permits p.context = false) :
    p.Stopped ignoreCase p.focusOnFlags := by
  rw [focusOnFlags]
  split
  · next hnone => exact .nowhere further (.unmatched past argument (by simp [hnone]))
  · next g ending hedge =>
      split
      · next hpermitted => exact .flags further ⟨past, argument, hedge, hpermitted⟩
      · next hdenied =>
          refine .nowhere further (.unmatched past argument ?_)
          intro g' ending' hedge'
          cases hedge.symm.trans hedge'
          exact Bool.eq_false_iff.mpr hdenied

/-- What a completion does at a token that selects no literal. -/
theorem advancePastLiterals_cases (further : p.line.isLastToken = false)
    (past : p.PastLiterals ignoreCase) :
    (∃ q, p.advancePastLiterals = .ok q ∧ p.Passed ignoreCase q) ∨
      ∃ found, p.advancePastLiterals = .error found ∧ p.Stopped ignoreCase found := by
  rw [advancePastLiterals]
  split
  · next hnone =>
      refine .inr ⟨_, rfl, focusOnFlags_stopped further past ?_⟩
      simp [hnone]
  · next a child hedge =>
      split
      · next hdenied =>
          refine .inr ⟨_, rfl, focusOnFlags_stopped further past ?_⟩
          intro a' child' hedge'
          cases hedge.symm.trans hedge'
          simpa using hdenied
      · next hpermitted =>
          have hat : p.AtArgument ignoreCase a child :=
            ⟨past, hedge, by simpa using hpermitted⟩
          split
          · next hskips => exact .inl ⟨_, rfl, .leftOut hat hskips⟩
          · next hskips =>
              have hskips : p.skips a child = false := by simpa [skips, mayLeaveOut] using hskips
              -- whether the parser ran into the last token decides between a move and a stop
              simp only [advanceArgument]
              split
              · next value hreads =>
                  split
                  · exact .inr ⟨_, rfl, .argument hat⟩
                  · exact .inl ⟨_, rfl, .read hat hskips hreads⟩
              · next e hrefuses =>
                  split
                  · exact .inr ⟨_, rfl, .argument hat⟩
                  · next hmore =>
                      exact .inr ⟨_, rfl, .nowhere further
                        (.rejected hat hskips hrefuses (Bool.eq_false_iff.mpr hmore))⟩

/-- What a completion does. -/
theorem advance_cases (ignoreCase : Bool) (p : Position) :
    (∃ q, p.advance ignoreCase = .ok q ∧ p.line.isLastToken = false ∧ p.Passed ignoreCase q) ∨
      ∃ found, p.advance ignoreCase = .error found ∧ p.Stopped ignoreCase found := by
  have further (hlast : ¬p.line.isLastToken = true) (past : p.PastLiterals ignoreCase) :
      (∃ q, p.advancePastLiterals = .ok q ∧ p.line.isLastToken = false ∧
        p.Passed ignoreCase q) ∨
      ∃ found, p.advancePastLiterals = .error found ∧ p.Stopped ignoreCase found := by
    have hlast : p.line.isLastToken = false := by simpa using hlast
    rcases advancePastLiterals_cases hlast past with ⟨q, hq, hpassed⟩ | hstopped
    · exact .inl ⟨q, hq, hlast, hpassed⟩
    · exact .inr hstopped
  rw [advance]
  split
  · next hlast => exact .inr ⟨_, rfl, .node hlast⟩
  · next hlast =>
      split
      · next hnone => exact further hlast (by simp [PastLiterals, hnone])
      · next l child hfound =>
          split
          · next hpermitted =>
              exact .inl ⟨_, rfl, by simpa using hlast, .word hfound hpermitted⟩
          · next hdenied =>
              refine further hlast ?_
              intro l' child' hfound'
              cases hfound.symm.trans hfound'
              simpa using hdenied

/-- At the last token the focus is the node. -/
theorem advance_of_last (ignoreCase : Bool) (h : p.line.isLastToken = true) :
    p.advance ignoreCase = .error (.node p.node p.context p.line) := by
  simp only [advance, h, if_true]

/-- A completion takes a literal that the next token selects. -/
theorem advance_word {l : Literal} (further : p.line.isLastToken = false)
    (found : p.node.findLiteral ignoreCase p.line.peekToken = some (l, child))
    (permitted : child.permits p.context = true) :
    p.advance ignoreCase =
      .ok { node := child, context := p.context, line := p.line.skipToken } := by
  simp [advance, further, found, permitted]

theorem advance_pastLiterals (further : p.line.isLastToken = false)
    (past : p.PastLiterals ignoreCase) : p.advance ignoreCase = p.advancePastLiterals := by
  rw [advance, further, if_neg Bool.false_ne_true]
  split
  · rfl
  · next l child hfound => rw [past l child hfound, if_neg Bool.false_ne_true]

/-- Where the next token is for the argument, a completion reads the argument. -/
theorem advance_atArgument (hfurther : p.line.isLastToken = false)
    (hat : p.AtArgument ignoreCase a child) (hskips : p.skips a child = false) :
    p.advance ignoreCase = p.advanceArgument a child := by
  rw [advance_pastLiterals hfurther hat.past, advancePastLiterals, hat.edge]
  simp only [hat.permitted, Bool.not_true, Bool.false_eq_true, if_false]
  exact if_neg (Bool.eq_false_iff.mp hskips)

theorem advance_passed (h : p.advance ignoreCase = .ok q) :
    p.line.isLastToken = false ∧ p.Passed ignoreCase q := by
  rcases advance_cases ignoreCase p with ⟨q', hq', hpassed⟩ | ⟨found, hfound, -⟩
  · cases h.symm.trans hq'
    exact hpassed
  · cases h.symm.trans hfound

theorem advance_stopped {found : Focus} (h : p.advance ignoreCase = .error found) :
    p.Stopped ignoreCase found := by
  rcases advance_cases ignoreCase p with ⟨q', hq', -⟩ | ⟨found', hfound', hstopped⟩
  · cases h.symm.trans hq'
  · cases h.symm.trans hfound'
    exact hstopped

theorem focus_of_advance {found : Focus} (h : p.advance ignoreCase = .error found) :
    p.focus ignoreCase = found := by
  rw [focus.eq_def]
  split
  · next next hadvance => cases h.symm.trans hadvance
  · next found' hadvance =>
      cases h.symm.trans hadvance
      rfl

theorem focus_of_passed (h : p.advance ignoreCase = .ok q) :
    p.focus ignoreCase = q.focus ignoreCase := by
  rw [focus.eq_def]
  split
  · next next hadvance =>
      cases h.symm.trans hadvance
      rfl
  · next found hadvance => cases h.symm.trans hadvance

/-- A completion has nowhere to go at the tokens where it is stuck, and only there. -/
theorem advance_eq_nowhere_iff :
    p.advance ignoreCase = .error .nowhere ↔ p.line.isLastToken = false ∧ p.Stuck ignoreCase := by
  constructor
  · intro h
    cases advance_stopped h with
    | nowhere further stuck => exact ⟨further, stuck⟩
  · rintro ⟨further, stuck⟩
    cases stuck with
    | rejected hat hskips hrefuses hmore =>
        rw [advance_atArgument further hat hskips]
        simp only [advanceArgument, hrefuses, hmore, Bool.false_eq_true, if_false]
    | unmatched past argument flags =>
        have hflags : p.focusOnFlags = .nowhere := by
          rw [focusOnFlags]
          split
          · rfl
          · next g ending hedge => rw [flags g ending hedge, if_neg Bool.false_ne_true]
        rw [advance_pastLiterals further past, advancePastLiterals, hflags]
        split
        · rfl
        · next a child hedge => rw [argument a child hedge, Bool.not_false, if_pos rfl]

/-! ## The router -/

theorem step_of_token (hblank : p.line.isBlank = false) :
    p.step ignoreCase = p.skipBlank.stepAtToken ignoreCase := by
  simp [step, hblank]

/-- The router takes a literal that the next token selects. -/
theorem stepAtToken_word {l : Literal}
    (found : p.node.findLiteral ignoreCase p.line.peekToken = some (l, child))
    (permitted : child.permits p.context = true) :
    p.stepAtToken ignoreCase =
      .descend { node := child, context := p.context, line := p.line.skipToken } := by
  simp [stepAtToken, found, permitted]

theorem stepAtToken_pastLiterals (past : p.PastLiterals ignoreCase) :
    ∃ denied, p.stepAtToken ignoreCase = p.stepAtArgument denied := by
  rw [stepAtToken]
  split
  · exact ⟨_, rfl⟩
  · next l child hfound =>
      rw [past l child hfound]
      exact ⟨_, rfl⟩

/-- What the router does where the next token is for the argument. -/
theorem stepAtToken_atArgument (hat : p.AtArgument ignoreCase a child) :
    ∃ denied, p.stepAtToken ignoreCase =
      if p.skips a child then p.skipArgument a child
      else if p.detours a child then p.stepAtFlags denied
      else p.readArgument denied a child := by
  obtain ⟨denied, hdenied⟩ := stepAtToken_pastLiterals hat.past
  have hstep : p.stepAtArgument denied =
      if p.mayLeaveOut a then
        if child.flagsBelow?.isSome then p.skipArgument a child
        else if p.node.flags.isNone then p.readArgument denied a child
        else p.stepAtFlags denied
      else p.readArgument denied a child := by
    simp only [stepAtArgument, hat.edge, hat.permitted, Bool.not_true, Bool.false_eq_true, if_false]
    rfl
  refine ⟨denied, ?_⟩
  rw [hdenied, hstep]
  -- the three conditions of the router are told apart by the flags below and beside
  rw [skips, detours]
  cases p.mayLeaveOut a with
  | false => rfl
  | true => cases child.flagsBelow? <;> cases p.node.flags <;> rfl

/-- The router turns to the flags where the next token is for no argument. -/
theorem stepAtToken_pastArgument (past : p.PastLiterals ignoreCase)
    (argument : ∀ a child, p.node.argument = some (a, child) → child.permits p.context = false) :
    ∃ denied, p.stepAtToken ignoreCase = p.stepAtFlags denied := by
  obtain ⟨denied, hdenied⟩ := stepAtToken_pastLiterals past
  rw [hdenied, stepAtArgument]
  split
  · exact ⟨_, rfl⟩
  · next a child hargument =>
      rw [argument a child hargument]
      exact ⟨_, rfl⟩

/-- The router reads a flag group where the next token is for it. -/
theorem stepAtToken_atFlags {g : FlagGroup} {ending : List Entry}
    (hat : p.AtFlags ignoreCase g ending) :
    ∃ denied, p.stepAtToken ignoreCase = p.readFlags denied g ending := by
  obtain ⟨denied, hdenied⟩ := stepAtToken_pastArgument hat.past hat.argument
  refine ⟨denied, ?_⟩
  rw [hdenied]
  simp [stepAtFlags, hat.edge, hat.permitted]

end Position

end CommandLine
