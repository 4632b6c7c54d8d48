import CommandLine.Proofs.Line.Span
import CommandLine.Proofs.Parser.Frame

/-! # Parsers go onward

    Whatever a parser makes of a line, it leaves the line at the same place or at a later one:
    alternatives go back to their start before the next is tried, the parts of an aggregate and the
    flags of a group go on from one another. `Parser.Within.moves` says so for every relation
    between places that the steps of reading are in (`Advances`), so that more may be known of the
    steps, or less of the parsers of the surrounding program. A flag group ends at the end of the
    line (`Flag.isBlank_readTokens`). -/

namespace CommandLine

/-- A relation between places of a line in which what is read between them is nothing, a token, all
    that is left, or one after the other. -/
structure Advances (L : Line → Line → Prop) : Prop where
  refl : ∀ line, L line line
  token : ∀ line : Line, L line line.skipToken
  finish : ∀ line : Line, L line line.finish
  trans : ∀ {a b c}, L a b → L b c → L a c

theorem Advances.toFlag {L : Line → Line → Prop} (hL : Advances L) (line : Line) :
    L line line.skipToFlag := by
  fun_induction Line.skipToFlag line with
  | case1 line _ => exact hL.refl line
  | case2 line _ _ => exact hL.refl line
  | case3 line _ _ ih => exact hL.trans (hL.token line) ih

/-- A reader that leaves a line at a place in relation to where it began. -/
def Reader.Moves (L : Line → Line → Prop) (reader : Reader) : Prop :=
  ∀ ctx line, L line (reader ctx line).line

variable {L : Line → Line → Prop}

theorem Line.advances_onward : Advances Line.Onward :=
  ⟨.refl, onward_skipToken, onward_finish, fun hab hbc => hab.trans hbc⟩

/-- No more is left of a line than there was. -/
def Line.Shrinks (a b : Line) : Prop :=
  b.rest.length ≤ a.rest.length

theorem Line.advances_shrinks : Advances Line.Shrinks where
  refl _ := Nat.le_refl _
  token line := line.onward_skipToken.length_le
  finish line := line.onward_finish.length_le
  trans hab hbc := Nat.le_trans hbc hab

/-! ## Readers -/

theorem Reading.moves_andThen {α β : Type} (hL : Advances L) {line : Line} {r : Reading α}
    {next : α → Context → Line → Reading β} (hr : L line r.line)
    (hnext : ∀ value ctx after, L after (next value ctx after).line) :
    L line (r.andThen next).line := by
  rw [andThen]
  split
  · exact hL.trans hr (hnext _ _ _)
  · exact hr

theorem Reader.moves_ofToken (hL : Advances L) (parser : String)
    (interpret : String → Except ArgumentError Value) :
    (Reader.ofToken parser interpret).Moves L := by
  intro ctx line
  rw [Reader.ofToken]
  split
  · exact hL.refl line
  · exact hL.token line

theorem Parser.moves_readText (hL : Advances L) (mode : TextMode) :
    Reader.Moves L (Parser.readText mode) := by
  intro ctx line
  unfold readText
  split
  · exact hL.refl line
  · cases mode with
    | word => exact hL.token line
    | rest => exact hL.finish line
    | untilFlag =>
        simp only
        split <;> exact hL.toFlag line

theorem Alternatives.moves_readAfter (hL : Advances L) (name : String) {readers : List Reader}
    (hreaders : ∀ reader ∈ readers, reader.Moves L) (failures : List ArgumentError) :
    Reader.Moves L (readAfter name failures readers) := by
  induction readers generalizing failures with
  | nil => exact fun _ line => hL.refl line
  | cons reader rest ih =>
      obtain ⟨hreader, hrest⟩ := List.forall_mem_cons.mp hreaders
      intro ctx line
      simp only [readAfter]
      split
      · exact hreader ctx line
      · -- the next alternative begins where this one did
        exact ih hrest _ ctx line

/-! ## Aggregates -/

namespace Part

theorem moves_readEach (hL : Advances L) {parts : List (Part Reader)}
    (h : ∀ part ∈ parts, part.parser.Moves L) (ctx : Context) (line : Line) :
    L line (readEach parts ctx line).line := by
  induction parts generalizing ctx line with
  | nil => exact hL.refl line
  | cons part parts ih =>
      obtain ⟨hpart, hparts⟩ := List.forall_mem_cons.mp h
      exact Reading.moves_andThen hL (hpart ctx line) fun _ _ after => ih hparts _ after

theorem moves_readAll (hL : Advances L) {parts : List (Part Reader)}
    (h : ∀ part ∈ parts, part.parser.Moves L) (build : Context → Except ArgumentError Value) :
    Reader.Moves L (readAll parts build) := by
  intro ctx line
  simp only [readAll]
  split <;> exact moves_readEach hL h ctx line

end Part

/-! ## Flag groups -/

namespace Flag

/-- A flag whose value, if it takes one, is read by a reader that moves along. -/
def Moves (L : Line → Line → Prop) (flag : Flag Reader) : Prop :=
  ∀ reader, flag.value = some reader → reader.Moves L

theorem Moves.read (hL : Advances L) {flag : Flag Reader} (h : flag.Moves L) (token : String)
    (ctx : Context) (line : Line) : L line (flag.read token ctx line).line := by
  rw [Flag.read]
  split
  · exact hL.refl line
  · exact hL.refl line
  · next reader _ hvalue =>
      split
      · exact hL.refl line
      · exact Reading.moves_andThen hL (h reader hvalue ctx line) fun _ _ after => hL.refl after

theorem moves_readEach (hL : Advances L) {flags : List (Flag Reader)}
    (h : ∀ flag ∈ flags, flag.Moves L) (token : String) (ctx : Context) (line : Line) :
    L line (readEach token flags ctx line).line := by
  induction flags generalizing ctx line with
  | nil => exact hL.refl line
  | cons flag flags ih =>
      obtain ⟨hflag, hflags⟩ := List.forall_mem_cons.mp h
      exact Reading.moves_andThen hL (hflag.read hL token ctx line) fun _ => ih hflags

theorem moves_readTokens (hL : Advances L) {group : List (Flag Reader)}
    (h : ∀ flag ∈ group, flag.Moves L) (fuel : Nat) (ctx : Context) (line : Line) :
    L line (readTokens group fuel ctx line).line := by
  induction fuel generalizing ctx line with
  | zero =>
      rw [readTokens]
      split <;> exact hL.refl line
  | succ fuel ih =>
      rw [readTokens]
      split
      · exact hL.refl line
      · simp only
        split
        · exact hL.token line
        · next flags hflags =>
            have heach := moves_readEach hL (forall_of_resolve h hflags) line.peekToken ctx
              line.skipToken
            exact Reading.moves_andThen hL (hL.trans (hL.token line) heach)
              fun _ => ih

/-- A flag group that succeeds has read the line up to its end. The number of tokens that may be
    read covers the line, because every turn takes at least one character. -/
theorem isBlank_readTokens {group : List (Flag Reader)} (h : ∀ flag ∈ group, flag.Moves Line.Shrinks)
    {fuel : Nat} {ctx : Context} {line : Line} (hfuel : line.rest.length ≤ fuel)
    (hok : (readTokens group fuel ctx line).result = .ok ()) :
    (readTokens group fuel ctx line).line.isBlank = true := by
  induction fuel generalizing ctx line with
  | zero =>
      have hblank := Line.isBlank_of_length hfuel
      rw [readTokens, if_pos hblank]
      exact hblank
  | succ fuel ih =>
      rw [readTokens] at hok ⊢
      split
      · next hblank => exact hblank
      · next hblank =>
          have hblank : line.isBlank = false := by simpa using hblank
          rw [if_neg (by simp [hblank])] at hok
          simp only at hok ⊢
          split
          · next hnone =>
              rw [hnone] at hok
              cases hok
          · next flags hflags =>
              rw [hflags] at hok
              have hshorter := Line.length_rest_skipToken_lt hblank
              have heach : (readEach line.peekToken flags ctx line.skipToken).line.rest.length ≤
                  line.skipToken.rest.length :=
                moves_readEach Line.advances_shrinks (forall_of_resolve h hflags) _ ctx _
              simp only at hok
              obtain ⟨_, -, hnext⟩ := Reading.andThen_ok hok
              rw [hnext] at hok ⊢
              exact ih (by omega) hok

end Flag

/-! ## Parsers -/

/-- A parser moves as far as its parts do, one after the other. -/
theorem Parser.Within.moves {allowed : Allowed} (hL : Advances L)
    (hhost : ∀ h, allowed.host h → h.read.Moves L) {p : Parser} (h : p.Within allowed) :
    Reader.Moves L p.read := by
  induction h with
  | text mode => exact moves_readText hL mode
  | integer | real | truth | uuid | enumeration => exact Reader.moves_ofToken hL _ _
  | host ok => exact hhost _ ok
  | cached _ ih => exact ih
  | map _ ih => exact ih
  | flatMap _ _ ih =>
      intro ctx line
      exact Reading.moves_andThen hL (ih ctx line) fun _ _ after => hL.refl after
  | firstOf _ ih =>
      refine Alternatives.moves_readAfter hL _ ?_ []
      rw [readers_eq]
      exact List.forall_mem_map.mpr ih
  | either _ _ ihFirst ihSecond =>
      refine Alternatives.moves_readAfter hL _ ?_ []
      rw [List.forall_mem_cons]
      exact ⟨ihFirst, List.forall_mem_singleton.mpr ihSecond⟩
  | aggregate _ _ ih =>
      refine Part.moves_readAll hL ?_ _
      rw [readParts_eq]
      exact List.forall_mem_map.mpr ih
  | flags _ _ ih =>
      intro ctx line
      refine Flag.moves_readTokens hL ?_ _ ctx line
      rw [readFlags_eq]
      exact List.forall_mem_map.mpr fun flag hflag => Flag.forall_value_map (ih flag hflag)

end CommandLine
