import CommandLine.Proofs.Parser.Arrival

/-! # Suggestions for the parts of an aggregate

    An aggregate looks for the part to which the last token of a line belongs: parts are read as long
    as more than one token is left, and the part that is reached with the last token is asked. So
    the part in which reading ends (`Part.Ends`) is asked for its suggestions, in a context that
    holds the values of the parts in front of it, if the last token is all that is left for it
    (`Parser.suggest_part`).

    A part that reads several tokens may begin in front of the last token and read it on its way.
    Nothing is tested inside the part, so that it is not asked: the part behind it is, on an empty
    line, or none (`Parser.suggest_part_overrun`). -/

namespace CommandLine

namespace Part

/-- The suggester of a part: its own, or else the one of its parser. -/
def suggests (part : Part Parser) : Suggester :=
  part.suggester.getD part.parser.suggest

/-- Suggests what the first of some parts does, and nothing if there is none. -/
def suggestFirst : List (Part Parser) → Suggester
  | [] => fun _ _ => return []
  | part :: _ => part.suggests

/-- Reading ends in a part: there are tokens left for it, and it refuses them or leaves none. -/
structure Ends (owner : Part Parser) (child : Context) (start : Line) : Prop where
  further : start.isBlank = false
  last : ∀ value, (owner.parser.read child start).result = .ok value →
    (owner.parser.read child start).line.isBlank = true

variable {front : List (Part Parser)} {ctx child : Context} {line start : Line}
  {values : List (String × Value)}

/-- With the last token, the first part is asked. -/
theorem suggestAll_of_isLastToken (hlast : line.isLastToken = true) (parts : List (Part Parser))
    (ctx : Context) :
    suggestAll (parts.map (Part.map Parser.ability)) ctx line = suggestFirst parts ctx line := by
  cases parts with
  | nil => rfl
  | cons part parts =>
      rw [List.map_cons, suggestAll, locate, if_pos hlast]
      rfl

/-- With more tokens, the first part is read. -/
theorem suggestAll_of_accepts {part : Part Parser} {value : Value}
    (hlast : line.isLastToken = false) (haccepts : (part.parser.read ctx line).result = .ok value)
    (parts : List (Part Parser)) :
    suggestAll ((part :: parts).map (Part.map Parser.ability)) ctx line =
      suggestAll (parts.map (Part.map Parser.ability))
        ((part.parser.read ctx line).context.store part.name value)
        (part.parser.read ctx line).line := by
  simp only [suggestAll, List.map_cons, locate, Part.map, Parser.ability, hlast, haccepts,
    Bool.false_eq_true, if_false]

theorem suggestAll_of_refuses {part : Part Parser} {e : ArgumentError}
    (hlast : line.isLastToken = false) (hrefuses : (part.parser.read ctx line).result = .error e)
    (parts : List (Part Parser)) :
    suggestAll ((part :: parts).map (Part.map Parser.ability)) ctx line = return [] := by
  simp only [suggestAll, List.map_cons, locate, Part.map, Parser.ability, hlast, hrefuses,
    Bool.false_eq_true, if_false]

/-- Parts behind which tokens are left are read. -/
theorem Reads.suggestAll_append (h : Reads front ctx line values child start)
    (hfront : ∀ part ∈ front, part.parser.Stepwise) (hstart : start.isBlank = false)
    (more : List (Part Parser)) :
    suggestAll ((front ++ more).map (Part.map Parser.ability)) ctx line =
      suggestAll (more.map (Part.map Parser.ability)) child start := by
  induction h with
  | done => rfl
  | part accepts further ih =>
      obtain ⟨hpart, hparts⟩ := List.forall_mem_cons.mp hfront
      have hnext := further.passes fun part hmem => (hparts part hmem).arrives
      have hlast := ((hpart.arrives _ _ _ accepts).trans_passes hnext).isLastToken
        (Line.isEmpty_of_further hstart)
      rw [List.cons_append, suggestAll_of_accepts hlast accepts]
      exact ih hparts hstart

end Part

namespace Parser

variable {front behind : List (Part Parser)} {owner : Part Parser}
  {build : Context → Except ArgumentError Value} {ctx child : Context} {line start : Line}
  {values : List (String × Value)}

theorem suggest_aggregate (parts : List (Part Parser))
    (build : Context → Except ArgumentError Value) :
    (aggregate parts build).suggest = Part.suggestAll (parts.map (Part.map ability)) := by
  rw [Parser.suggest, suggestParts_eq]

/-- On a line that ends in a token, let reading the parts of an aggregate end in one of them. The
    context there holds the values of the parts in front of it and nothing else new. If one token is
    left for the part, it is asked for suggestions there. If there are more, it is not asked: where
    it accepts them, the next part is, on the empty line, and where it refuses them, none is. -/
theorem suggest_part (hparts : ∀ part ∈ front ++ [owner], part.parser.Stepwise)
    (hline : line.EndsInToken) (hfront : Part.Reads front ctx line values child start)
    (howner : owner.Ends child start) :
    child = ctx.holding values ∧
      Part.readEach ((front ++ owner :: behind).map (Part.map read)) ctx line =
        Part.readEach ((owner :: behind).map (Part.map read)) child start ∧
      (start.tokens.length = 1 →
        (aggregate (front ++ owner :: behind) build).suggest ctx line =
          owner.suggests child start) ∧
      (start.tokens.length ≠ 1 →
        (∀ value, (owner.parser.read child start).result = .ok value →
          (owner.parser.read child start).line.rest = [] ∧
            (aggregate (front ++ owner :: behind) build).suggest ctx line =
              Part.suggestFirst behind (child.store owner.name value)
                (owner.parser.read child start).line) ∧
        ∀ e, (owner.parser.read child start).result = .error e →
          (aggregate (front ++ owner :: behind) build).suggest ctx line = return []) := by
  obtain ⟨hbefore, hlastPart⟩ := List.forall_mem_append.mp hparts
  have hstepwise : owner.parser.Stepwise := hlastPart owner List.mem_cons_self
  have hstart : start.EndsInToken :=
    (hfront.passes fun part hmem => (hbefore part hmem).arrives).endsInToken hline
  have hreached := hfront.suggestAll_append hbefore howner.further (owner :: behind)
  rw [suggest_aggregate, hreached]
  refine ⟨hfront.context_eq fun part hmem => (hbefore part hmem).within,
    hfront.readEach_append (owner :: behind), fun hone => ?_, fun hmore => ?_⟩
  · exact Part.suggestAll_of_isLastToken ((hstart.isLastToken_iff howner.further).mpr hone) _ child
  · have hlast : start.isLastToken = false :=
      Bool.eq_false_iff.mpr fun hlast => hmore ((hstart.isLastToken_iff howner.further).mp hlast)
    refine ⟨fun value haccepts => ?_, fun e hrefuses => Part.suggestAll_of_refuses hlast hrefuses _⟩
    have hblank := howner.last value haccepts
    have hends := (hstepwise.arrives child start value haccepts).passes.endsInToken hstart
    refine ⟨hends.rest_eq_nil hblank, ?_⟩
    rw [Part.suggestAll_of_accepts hlast haccepts, hstepwise.within.context_eq,
      Part.suggestAll_of_isLastToken (Line.isLastToken_of_isBlank hblank)]

/-- Two coordinates. -/
def coordinates : Parser :=
  .aggregate [⟨"x", .integer 0 99, none⟩, ⟨"y", .integer 0 99, none⟩]
    fun _ => .ok (.plain .unit)

/-- Where something is. -/
def spot : Part Parser :=
  ⟨"place", coordinates, none⟩

/-- How a place is called. -/
def label : Part Parser :=
  ⟨"label", .text .word, some (always [.ofText "home", .ofText "spawn"])⟩

/-- A place and its label. -/
def waypoint : Parser :=
  .aggregate [spot, label] fun _ => .ok (.plain .unit)

theorem stepwise_waypoint : ∀ part ∈ [spot, label], part.parser.Stepwise := by
  have hcoordinates : coordinates.Stepwise := by
    refine .aggregate (List.cons_ne_nil _ _) ?_
    rw [List.forall_mem_cons, List.forall_mem_singleton]
    exact ⟨.token rfl, .token rfl⟩
  rw [List.forall_mem_cons, List.forall_mem_singleton]
  exact ⟨hcoordinates, .token rfl⟩

/-- The context of someone who walks to a place. -/
def walker : Context :=
  { sender := ⟨"Steve", "player", 0, []⟩ }

/-- Behind two coordinates the label is asked, with the place in its context. -/
theorem suggest_part_label :
    (Line.ofString "1 2 ho").EndsInToken ∧
      Part.Reads [spot] walker (.ofString "1 2 ho") [("place", .plain .unit)]
        (walker.store "place" (.plain .unit)) ⟨"1 2".toList, " ho".toList⟩ ∧
      label.Ends (walker.store "place" (.plain .unit)) ⟨"1 2".toList, " ho".toList⟩ ∧
      (Line.mk "1 2".toList " ho".toList).tokens.length = 1 ∧
      (waypoint.suggest walker (.ofString "1 2 ho") {}).1 = [.ofText "home", .ofText "spawn"] := by
  have hline : (Line.ofString "1 2 ho").EndsInToken :=
    ⟨_, _, .token rfl (.token rfl (.token rfl (.done rfl))), rfl⟩
  have hspot : Part.Reads [spot] walker (.ofString "1 2 ho") [("place", .plain .unit)]
      (walker.store "place" (.plain .unit)) ⟨"1 2".toList, " ho".toList⟩ := .part rfl .done
  have hlabel : label.Ends (walker.store "place" (.plain .unit)) ⟨"1 2".toList, " ho".toList⟩ :=
    ⟨rfl, fun _ _ => rfl⟩
  have hone : (Line.mk "1 2".toList " ho".toList).tokens.length = 1 := by decide +kernel
  have hasks : waypoint.suggest walker (.ofString "1 2 ho") = label.suggests _ _ :=
    (suggest_part stepwise_waypoint hline hspot hlabel).2.2.1 hone
  refine ⟨hline, hspot, hlabel, hone, ?_⟩
  rw [hasks]
  rfl

/-- On two coordinates reading ends in the place, which reads both. The last of them could be
    continued by one more digit, but the label behind it is asked. -/
theorem suggest_part_overrun :
    (Line.ofString "1 2").EndsInToken ∧ (∀ part ∈ [spot, label], part.parser.Stepwise) ∧
      spot.Ends walker (.ofString "1 2") ∧
      (coordinates.read walker (.ofString "1 2")).result.isOk = true ∧
      (spot.suggests walker (.ofString "1 2") {}).1.map (·.value) =
        ["2", "20", "21", "22", "23", "24", "25", "26", "27", "28", "29"] ∧
      (waypoint.suggest walker (.ofString "1 2") {}).1.map (·.value) = ["home", "spawn"] := by
  refine ⟨⟨_, _, .token rfl (.token rfl (.done rfl)), rfl⟩, stepwise_waypoint, ⟨rfl, ?_⟩, ?_⟩
  · exact fun _ _ => rfl
  · decide +kernel

end Parser

end CommandLine
