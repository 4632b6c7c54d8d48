import CommandLine.Proofs.Focus.Bounds
import CommandLine.Proofs.Focus.Replay
import CommandLine.Proofs.Parser.Onward

/-! # Where a completion stops

    Until a completion finds its focus it passes whole tokens, as long as all parsers are the
    library's: each of them leaves the line behind a token or at its end (`Line.Strides`), and at
    the end of the line a completion does not go on. So from the place of the focus, reading the
    tokens that are left comes to the last token of the whole line, and at a node the last token is
    all that is left (`Position.focus_leadsTo`). This token is a piece of the one that the cursor
    touches, for which suggestions are chosen (`Tree.complete_fits`).

    There is no focus where a completion is stuck at a token with more behind it: an argument
    rejects the token, or the sender may go on to nothing that it could be for
    (`Tree.focus_eq_nowhere_iff`). -/

namespace CommandLine

open Text

/-! ## Steps of reading -/

/-- Whole tokens are read from a line, or all that is left. -/
def Line.Strides (a b : Line) : Prop :=
  a.Passes b ∨ b.rest = []

theorem Line.advances_strides : Advances Line.Strides where
  refl _ := .inl .none
  token line := by
    cases hblank : line.isBlank with
    | true => exact .inr (List.isEmpty_iff.mp (isLastToken_of_isBlank hblank))
    | false => exact .inl (.token hblank .none)
  finish _ := .inr rfl
  trans hab hbc := by
    rcases hbc with hbc | hnothing
    · rcases hab with hab | hnothing
      · exact .inl (hab.trans hbc)
      · exact .inr (hbc.eq_of_rest hnothing ▸ hnothing)
    · exact .inr hnothing

theorem Argument.strides_read {a : Argument} (ha : a.parser.Within .closed) (ctx : Context)
    (line : Line) : line.Strides (a.read ctx line).line := by
  rw [read]
  split
  · exact Line.advances_strides.refl line
  · exact ha.moves Line.advances_strides (fun _ => False.elim) ctx line

/-! ## The place of a focus -/

/-- From the place of a focus, reading on comes to a last token, which is all that is left at a
    node. Where there is no focus, nothing is suggested for any token. -/
inductive Focus.LeadsTo (last : Line) : Focus → Prop where
  | node {n : Node} {ctx : Context} : LeadsTo last (.node n ctx last)
  | argument {a : Argument} {ctx : Context} {line : Line} (reads : line.ReadsToLast last) :
      LeadsTo last (.argument a ctx line)
  | flags {g : FlagGroup} {ctx : Context} {line : Line} (reads : line.ReadsToLast last) :
      LeadsTo last (.flags g ctx line)
  | nowhere : LeadsTo last .nowhere

namespace Position

variable {ignoreCase : Bool} {p q : Position} {last : Line}

/-- Behind an edge that a completion passed something is left of the line. -/
theorem isEmpty_of_advance (h : p.advance ignoreCase = .ok q) : q.line.isEmpty = false := by
  obtain ⟨hfurther, hpassed⟩ := advance_passed h
  cases hpassed with
  | word _ _ => exact hfurther
  | leftOut _ _ =>
      exact Line.isEmpty_of_further (Line.isBlank_of_further (Bool.eq_false_iff.mp hfurther))
  | read hat hskips hreads =>
      rw [advance_atArgument hfurther hat hskips] at h
      simp only [advanceArgument, hreads] at h
      split at h
      · cases h
      · next hempty => exact Bool.eq_false_iff.mpr hempty

/-- A completion passes whole tokens. -/
theorem passes_of_advance (hp : p.node.Carries (Component.Within .closed))
    (h : p.advance ignoreCase = .ok q) : p.line.Passes q.line := by
  obtain ⟨hfurther, hpassed⟩ := advance_passed h
  have hsome := isEmpty_of_advance h
  cases hpassed with
  | word _ _ => exact .token (Line.isBlank_of_further (Bool.eq_false_iff.mp hfurther)) .none
  | leftOut _ _ => exact .none
  | @read a child _ hat _ _ =>
      have ha := (hp.argument a child hat.edge).argument.1
      rcases a.strides_read ha p.context p.line with hpasses | hnothing
      · exact hpasses
      · -- a parser that has read all that is left is where the completion stops
        rw [Line.isEmpty, hnothing] at hsome
        cases hsome

/-- A completion has no focus exactly if it comes to a token, with more behind it, at which it is
    stuck: the argument rejects it, or nothing that the sender may go on to takes it. -/
theorem focus_eq_nowhere_iff :
    p.focus ignoreCase = .nowhere ↔
      ∃ n q, turns (replayed ignoreCase) n p = some q ∧ q.line.isLastToken = false ∧
        q.Stuck ignoreCase := by
  constructor
  · intro h
    obtain ⟨n, q, hturns, hstop⟩ := exists_turns_focus ignoreCase p
    rw [h] at hstop
    exact ⟨n, q, hturns, advance_eq_nowhere_iff.mp hstop⟩
  · rintro ⟨n, q, hturns, hstuck⟩
    rw [focus_eq_of_turns hturns]
    exact focus_of_advance (advance_eq_nowhere_iff.mpr hstuck)

/-- A completion stops where reading on comes to the last token. -/
theorem focus_leadsTo (ignoreCase : Bool)
    (hp : p.node.Everywhere (Node.Carries (Component.Within .closed)))
    (hlast : p.line.ReadsToLast last) : (p.focus ignoreCase).LeadsTo last := by
  fun_induction focus ignoreCase p with
  | case1 p next hadvance ih =>
      have hnext := (passes_of_advance hp.here hadvance).readsToLast (isEmpty_of_advance hadvance)
        hlast
      exact ih (everywhere_replayed hp (by rw [replayed, hadvance])) hnext
  | case2 p found hadvance =>
      cases advance_stopped hadvance with
      | node hends => exact hlast.eq_of_last hends ▸ .node
      | argument _ => exact .argument hlast
      | flags _ _ => exact .flags hlast
      | nowhere _ _ => exact .nowhere

end Position

/-! ## Completions -/

namespace Tree

/-- A completion has no focus exactly if the edges that it passes from the root lead to a token,
    with more behind it, at which it is stuck. -/
theorem focus_eq_nowhere_iff (t : Tree) (ctx : Context) (line : Line) :
    t.focus ctx line = .nowhere ↔
      ∃ n q, turns (Position.replayed t.rules.ignoreCase) n (Position.start t ctx line) = some q ∧
        q.line.isLastToken = false ∧ q.Stuck t.rules.ignoreCase :=
  Position.focus_eq_nowhere_iff

theorem Built.focus_leadsTo {t : Tree} (ht : t.Built (Component.Within .closed)) (ctx : Context)
    {line last : Line} (hlast : line.ReadsToLast last) : (t.focus ctx line).LeadsTo last := by
  refine Position.focus_leadsTo t.rules.ignoreCase (ht.carries ?_) hlast
  exact fun _ _ _ _ => ⟨by simp [Component.parsers], by simp [Component.storedKeys]⟩

/-- In every text the cursor is moved back to the last place that is inside no character. The bounds
    of the touched token fit the text and its tokens there. They are the range that is replaced,
    which cuts the text into parts. The suggestions are chosen for the token at which reading the
    text up to the cursor comes to its last, which is where a completion stops that has met no
    parsers but the library's. -/
theorem complete_fits (t : Tree) (limits : Limits) (ctx : Context) (text : String) (cursor : Nat)
    (memory : Memory) :
    let line := Line.ofString text
    let place := line.floorCursor cursor
    let c := (t.complete limits ctx text cursor memory).1
    IsGreatest {place | Boundary text.toList place ∧ place ≤ cursor} place ∧
      line.Fits place (line.tokenBounds cursor) ∧
      c.input = text ∧ ⟨c.start, c.stop⟩ = line.tokenBounds cursor ∧ c.InRange ∧
      ∃ last, (line.between 0 place).ReadsToLast last ∧
        (t.Built (Component.Within .closed) → (t.focus ctx (line.between 0 place)).LeadsTo last) ∧
        c.list = limits.choose last.peekToken
          ((t.focus ctx (line.between 0 place)).suggest memory).1 := by
  intro line place c
  obtain ⟨front, piece, written, behind, haround, hplace, hbounds⟩ := line.exists_around cursor
  have hplace : place = byteLength (front ++ piece) := hplace
  have hwhole : text.toList = front ++ (written ++ behind) := haround.whole
  obtain ⟨hupTo, hfrom⟩ := haround.between_eq
  obtain ⟨last, hreads, hpeek⟩ := Line.exists_readsToLast haround.settled haround.rest_cut_piece
    (congrArg Line.rest hupTo)
  have htyped : (line.between (byteLength front) place).peekToken = last.peekToken := by
    rw [hplace, hfrom, hpeek, Line.peekToken]
  have hc : c = _ := t.complete_eq limits ctx text cursor memory rfl hbounds
  rw [← hplace] at hreads
  refine ⟨isGreatest_splitAtByte cursor text.toList, ?_, rfl, rfl, ?_, last, hreads, ?_, ?_⟩
  · rw [hplace, hbounds]
    exact haround.fits
  · rw [hc]
    exact Completion.inRange_of_parts hwhole rfl rfl
  · exact fun ht => ht.focus_leadsTo ctx hreads
  · rw [hc, ← htyped]

theorem giving_closed : giving.Built (Component.Within .closed) := by
  refine .of_command ?_
  simp only [Command.give, List.forall_mem_cons]
  refine ⟨.literal "give", ⟨?_, fun _ _ => trivial⟩, by simp⟩
  exact List.forall_mem_singleton.mpr (.text .word)

/-- The cursor is inside the first character of what is to be given. It is moved back behind the
    quote, which is where the completion stops, and the whole quoted token is replaced. -/
theorem complete_fits_give :
    let line := Line.ofString "give  \"é b\" c"
    giving.Built (Component.Within .closed) ∧ line.floorCursor 8 = 7 ∧
      line.tokenBounds 8 = ⟨6, 12⟩ ∧ line.Fits 7 ⟨6, 12⟩ ∧
      ∃ last, (line.between 0 7).ReadsToLast last ∧
        (giving.focus (.ofRight "give") (line.between 0 7)).LeadsTo last := by
  intro line
  have hplace : line.floorCursor 8 = 7 := by decide +kernel
  have hbounds : line.tokenBounds 8 = ⟨6, 12⟩ := by decide +kernel
  obtain ⟨-, hfits, -, -, -, last, hreads, hleads, -⟩ :=
    complete_fits giving {} (.ofRight "give") "give  \"é b\" c" 8 {}
  rw [hplace] at hfits hreads hleads
  rw [hbounds] at hfits
  exact ⟨giving_closed, hplace, hbounds, hfits, last, hreads, hleads giving_closed⟩

end Tree

end CommandLine
