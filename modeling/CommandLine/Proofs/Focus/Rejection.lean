import CommandLine.Proofs.Focus.Replay

/-! # Completions after a rejected token

    A token in front of the one that is being typed may be for an argument that does not take it.
    Then nothing should be suggested, because no command begins as the line does. A parser that has
    read the token and refused it leaves the line behind it, and a completion looks there: if more
    than white space follows, nothing is suggested, but if the cursor stands right after the white
    space behind the token, the completion takes the argument for the one that is being typed
    (`Tree.complete_after_rejection`). A check that refuses the token has read nothing. -/

namespace CommandLine

/-- A parser that reads one token, also when it refuses it. -/
inductive Parser.OneToken : Parser → Prop where
  | word : OneToken (.text .word)
  | integer (min max : Int) : OneToken (.integer min max)
  | real (min max : Float) : OneToken (.real min max)
  | truth (liberal : Bool) : OneToken (.truth liberal)
  | uuid : OneToken .uuid
  | enumeration (variants : List Variant) : OneToken (.enumeration variants)
  | cached {slot lifetime : Nat} {inner : Parser} (one : OneToken inner) :
      OneToken (.cached slot lifetime inner)
  | map {f : Value → Value} {inner : Parser} (one : OneToken inner) : OneToken (.map f inner)
  | flatMap {f : Context → Value → Except ArgumentError Value} {inner : Parser}
      (one : OneToken inner) : OneToken (.flatMap f inner)

/-- A component whose parser, if it is an argument, reads one token. -/
def Component.OneToken : Component → Prop
  | .argument a => a.parser.OneToken
  | _ => True

/-- Whatever it makes of the token, the parser leaves the line behind it. -/
theorem Parser.OneToken.read {p : Parser} (h : p.OneToken) (ctx : Context) {line : Line}
    (hblank : line.isBlank = false) :
    (p.read ctx line).line = line.skipToken ∧ (p.read ctx line).context = ctx := by
  have hofToken (name : String) (interpret : String → Except ArgumentError Value) :
      (Reader.ofToken name interpret ctx line).line = line.skipToken ∧
        (Reader.ofToken name interpret ctx line).context = ctx := by
    rw [Reader.ofToken, hblank]
    exact ⟨rfl, rfl⟩
  induction h with
  | word =>
      rw [Parser.read, readText, hblank]
      exact ⟨rfl, rfl⟩
  | integer _ _ => exact hofToken _ _
  | real _ _ => exact hofToken _ _
  | truth _ => exact hofToken _ _
  | uuid => exact hofToken _ _
  | enumeration _ => exact hofToken _ _
  | cached _ ih => exact ih
  | map _ ih => exact ih
  | flatMap _ ih =>
      obtain ⟨hline, hcontext⟩ := ih
      simp only [Parser.read, Parser.refine, Reading.andThen]
      split
      · exact ⟨hline, hcontext⟩
      · exact ⟨hline, hcontext⟩

/-- Whether a check refuses an argument before its parser is asked. -/
def Argument.refuses (a : Argument) (ctx : Context) (line : Line) : Bool :=
  (a.extras.checks.findSome? fun check => check ctx line).isSome

/-- An argument of one token is read up to its end, unless a check refuses it. -/
theorem Argument.read_oneToken {a : Argument} (h : a.parser.OneToken) (ctx : Context) {line : Line}
    (hblank : line.isBlank = false) :
    (a.read ctx line).line = (if a.refuses ctx line then line else line.skipToken) ∧
      (a.read ctx line).context = ctx := by
  rw [Argument.read, refuses]
  cases a.extras.checks.findSome? fun check => check ctx line with
  | some e => exact ⟨rfl, rfl⟩
  | none => exact h.read ctx hblank

namespace Position

variable {ignoreCase : Bool} {p q : Position} {a : Argument} {child : Node}

/-- A complete token is for an argument that does not take it. -/
structure Rejects (ignoreCase : Bool) (p : Position) (a : Argument) : Prop where
  complete : p.line.isLastToken = false
  argument : ∃ child, p.AtArgument ignoreCase a child ∧ p.skips a child = false
  refused : (a.read p.context p.line).result.isOk = false

/-- The focus of a completion that comes by a rejected token. -/
theorem Rejects.focus_eq (h : p.Rejects ignoreCase a) (hone : a.parser.OneToken) :
    p.focus ignoreCase =
      if a.refuses p.context p.line = false ∧ p.line.skipToken.isBlank = true then
        .argument a p.context p.line
      else .nowhere := by
  obtain ⟨child, hat, hskips⟩ := h.argument
  obtain ⟨err, hrefused⟩ : ∃ err, (a.read p.context p.line).result = .error err := by
    have hrefused := h.refused
    cases hresult : (a.read p.context p.line).result with
    | error err => exact ⟨err, rfl⟩
    | ok value =>
        rw [hresult] at hrefused
        cases hrefused
  have hblank : p.line.isBlank = false :=
    Line.isBlank_of_further (Bool.eq_false_iff.mp h.complete)
  obtain ⟨hline, hcontext⟩ := Argument.read_oneToken hone p.context hblank
  refine focus_of_advance ?_
  rw [advance_atArgument h.complete hat hskips]
  simp only [advanceArgument, hrefused, hline, hcontext]
  -- a check that refuses leaves the token on the line, and then more than white space is left
  cases a.refuses p.context p.line with
  | true => simp [hblank]
  | false =>
      rw [if_neg Bool.false_ne_true]
      cases p.line.skipToken.isBlank <;> rfl

end Position

/-- The token that the cursor touches, up to the cursor. -/
def Line.typed (text : String) (cursor : Nat) : String :=
  let line := Line.ofString text
  (line.between (line.tokenBounds cursor).start (line.floorCursor cursor)).peekToken

/-- Where nothing is suggested, nothing is chosen unless something has to be. -/
theorem Limits.choose_nil (limits : Limits) (hforce : limits.force = false) (typed : String) :
    limits.choose typed [] = [] := by
  rw [choose, hforce, Bool.and_false, if_neg Bool.false_ne_true]
  cases limits.most with
  | none => rfl
  | some most => exact List.take_nil

namespace Tree

/-- The list of a completion is chosen from what is suggested at its focus. -/
theorem list_complete (t : Tree) (limits : Limits) (ctx : Context) (text : String) (cursor : Nat)
    (memory : Memory) :
    (t.complete limits ctx text cursor memory).1.list =
      limits.choose (Line.typed text cursor)
        ((t.focus ctx (.upTo text cursor)).suggest memory).1 :=
  rfl

/-- A completion that comes by a rejected token suggests nothing, except where the argument has read
    the token and nothing but white space lies between the token and the cursor; there it suggests
    what the argument would suggest. -/
theorem complete_after_rejection {t : Tree}
    (ht : t.root.Everywhere (Node.Carries Component.OneToken)) {limits : Limits}
    (hforce : limits.force = false) (ctx : Context) (text : String) (cursor : Nat)
    (memory : Memory) {n : Nat} {p : Position} {a : Argument}
    (hreached : turns (Position.replayed t.rules.ignoreCase) n
      (Position.start t ctx (.upTo text cursor)) = some p)
    (hrejects : p.Rejects t.rules.ignoreCase a) :
    (t.complete limits ctx text cursor memory).1.list =
      if a.refuses p.context p.line = false ∧ p.line.skipToken.isBlank = true then
        limits.choose (Line.typed text cursor) (a.suggest p.context p.line memory).1
      else [] := by
  obtain ⟨child, hat, -⟩ := hrejects.argument
  have hcarries : p.node.Everywhere (Node.Carries Component.OneToken) :=
    turns_keep (I := fun q : Position => q.node.Everywhere (Node.Carries Component.OneToken)) ht
      Position.everywhere_replayed hreached
  have hfocus : t.focus ctx (.upTo text cursor) = _ :=
    (Position.focus_eq_of_turns hreached).trans
      (hrejects.focus_eq (hcarries.here.argument a child hat.edge))
  rw [list_complete, hfocus]
  split
  · rfl
  · exact limits.choose_nil hforce _

end Tree

/-- The argument of `toggle`. -/
def Argument.on : Argument where
  name := "on"
  parser := .truth false

/-- `toggle <on>`. -/
def Command.toggle : Command where
  components := [.literal { name := "toggle" }, .argument .on]

/-- A tree with a command whose argument reads one token. -/
def Tree.toggling : Tree :=
  ({} : Tree).apply (.insert .toggle)

theorem Tree.toggling_oneToken :
    Tree.toggling.root.Everywhere (Node.Carries Component.OneToken) := by
  have hbuilt : Tree.toggling.Built Component.OneToken := by
    refine .of_command ?_
    simp only [Command.toggle, List.forall_mem_cons]
    exact ⟨trivial, .truth false, by simp⟩
  exact hbuilt.carries fun _ _ _ _ => trivial

/-- The place behind `toggle` on a line. -/
def Position.toggled (rest : String) : Position where
  node := { Node.empty with argument := some (.on, { Node.empty with ending := [⟨0, .toggle⟩] }) }
  context := .ofRight ""
  line := ⟨"toggle".toList, rest.toList⟩

theorem Position.toggled_rejects {rest : String} (complete : (toggled rest).line.isLastToken = false)
    (word : looksLikeFlag (toggled rest).line.peekToken = false)
    (refused : (Argument.on.read (.ofRight "") (toggled rest).line).result.isOk = false) :
    (toggled rest).Rejects Tree.toggling.rules.ignoreCase .on := by
  refine ⟨complete, ⟨_, ⟨?_, rfl, rfl⟩, ?_⟩, refused⟩
  · rintro l child ⟨⟩
  · rw [skips, mayLeaveOut, word, Bool.false_and, Bool.false_and]

/-- With a token behind the one that is rejected, nothing is suggested. -/
theorem Tree.complete_after_rejection_toggle :
    (Tree.toggling.complete {} (.ofRight "") "toggle maybe x" 14 {}).1.list = [] := by
  have hreached : turns (Position.replayed Tree.toggling.rules.ignoreCase) 1
      (Position.start Tree.toggling (.ofRight "") (.upTo "toggle maybe x" 14)) =
        some (.toggled " maybe x") := rfl
  have hrejects : (Position.toggled " maybe x").Rejects Tree.toggling.rules.ignoreCase .on :=
    Position.toggled_rejects (by decide +kernel) (by decide +kernel) (by decide +kernel)
  rw [Tree.complete_after_rejection Tree.toggling_oneToken rfl _ _ _ _ hreached hrejects]
  exact if_neg (by decide +kernel)

/-- Right behind the white space that follows a rejected token, the values are suggested that the
    argument would take in place of the token. -/
theorem Tree.completion_suggests_after_rejection :
    Tree.toggling.root.Everywhere (Node.Carries Component.OneToken) ∧
      (∃ p a, turns (Position.replayed Tree.toggling.rules.ignoreCase) 1
        (Position.start Tree.toggling (.ofRight "") (.upTo "toggle maybe " 13)) = some p ∧
        p.Rejects Tree.toggling.rules.ignoreCase a) ∧
      (Tree.toggling.complete {} (.ofRight "") "toggle maybe " 13 {}).1.list.map (·.value) =
        ["true", "false"] := by
  refine ⟨Tree.toggling_oneToken, ⟨.toggled " maybe ", .on, rfl, ?_⟩, by decide +kernel⟩
  exact Position.toggled_rejects (by decide +kernel) (by decide +kernel) (by decide +kernel)

end CommandLine
