import CommandLine.Completion
import CommandLine.Line.Bounds
import CommandLine.Route

/-! # The focus of a completion

    To complete a line, the tokens before the one that is being typed are routed again, in a context
    of their own. `Focus` says what the last token belongs to: to any edge of a node, to an argument
    whose parser ran into it, or to the flags of a group. `Position.advance` passes one edge or
    finds the focus, and `Position.focus` passes edges until the focus is found. In difference to
    routing, no defaults are filled in, and no texts are recorded for the arguments. -/

namespace CommandLine

/-- What the last token of a line belongs to. -/
inductive Focus where
  /-- Any edge of a node. -/
  | node (n : Node) (ctx : Context) (line : Line)
  /-- An argument, which starts at the given line. -/
  | argument (a : Argument) (ctx : Context) (line : Line)
  /-- The flags of a group. -/
  | flags (g : FlagGroup) (ctx : Context) (line : Line)
  /-- A token before it is in error. -/
  | nowhere

namespace Position

/-- Passes an argument, unless its parser runs into the last token. -/
def advanceArgument (p : Position) (a : Argument) (child : Node) : Except Focus Position :=
  let r := a.read p.context p.line
  match r.result with
  | .ok value =>
    if r.line.isEmpty then .error (.argument a r.context p.line)
    else .ok { node := child, context := r.context.store a.name value, line := r.line }
  | .error _ =>
    if r.line.isBlank then .error (.argument a r.context p.line) else .error .nowhere

/-- The focus at a complete token that selects no literal and that no argument reads. -/
def focusOnFlags (p : Position) : Focus :=
  match p.node.flags with
  | none => .nowhere
  | some (g, ending) =>
    if Node.anyPermitted p.context ending then .flags g p.context p.line else .nowhere

/-- Passes a complete token that selects no literal, or finds the focus. -/
def advancePastLiterals (p : Position) : Except Focus Position :=
  match p.node.argument with
  | none => .error p.focusOnFlags
  | some (a, child) =>
    if !child.permits p.context then .error p.focusOnFlags
    else if looksLikeFlag p.line.peekToken && !a.isRequired && child.flagsBelow?.isSome then
      .ok { node := child, context := p.context, line := p.line }
    else p.advanceArgument a child

/-- Passes one edge, or finds the focus. -/
def advance (ignoreCase : Bool) (p : Position) : Except Focus Position :=
  if p.line.isLastToken then .error (.node p.node p.context p.line)
  else match p.node.findLiteral ignoreCase p.line.peekToken with
    | none => p.advancePastLiterals
    | some (_, child) =>
      if child.permits p.context then
        .ok { node := child, context := p.context, line := p.line.skipToken }
      else p.advancePastLiterals

theorem advanceArgument_ok {p q : Position} {a : Argument} {child : Node}
    (h : p.advanceArgument a child = .ok q) : q.node = child := by
  simp only [advanceArgument] at h
  split at h
  · split at h <;> cases h
    rfl
  · split at h <;> cases h

/-- A passed token that selects no literal leads along the argument. -/
theorem advancePastLiterals_ok {p q : Position} (h : p.advancePastLiterals = .ok q) :
    ∃ a, p.node.argument = some (a, q.node) := by
  unfold advancePastLiterals at h
  split at h
  · cases h
  · next a child hargument =>
    split at h
    · cases h
    · split at h
      · cases h
        exact ⟨a, hargument⟩
      · exact ⟨a, advanceArgument_ok h ▸ hargument⟩

/-- A passed edge leads to a smaller node. -/
theorem sizeOf_advance_lt {ignoreCase : Bool} {p q : Position}
    (h : p.advance ignoreCase = .ok q) : sizeOf q.node < sizeOf p.node := by
  have pastLiterals (h : p.advancePastLiterals = .ok q) : sizeOf q.node < sizeOf p.node :=
    let ⟨_, hargument⟩ := advancePastLiterals_ok h
    Node.sizeOf_lt_of_argument hargument
  unfold advance at h
  split at h
  · cases h
  · split at h
    · exact pastLiterals h
    · next l child hfound =>
      split at h
      · cases h
        exact Node.sizeOf_lt_of_mem_literals (List.mem_of_find?_eq_some hfound)
      · exact pastLiterals h

/-- Passes edges until the focus is found. -/
def focus (ignoreCase : Bool) (p : Position) : Focus :=
  match _ : p.advance ignoreCase with
  | .ok next => next.focus ignoreCase
  | .error found => found
termination_by sizeOf p.node
decreasing_by exact sizeOf_advance_lt ‹_›

end Position

namespace Literal

/-- The names of a literal as suggestions, each with the description of the literal. -/
def suggestions (l : Literal) : List Suggestion :=
  l.names.map fun name => { value := name, description := l.extras.description }

end Literal

namespace FlagGroup

/-- Suggests texts for the last of some flags. -/
def suggest (g : FlagGroup) : Suggester :=
  (Parser.flags g.flags).suggest

end FlagGroup

namespace Node

/-- Suggests texts for a token at a node: the names of the literals, texts for the argument, and
    flags, also those behind optional arguments; only what leads to a command the sender may run. -/
def suggest (n : Node) : Suggester := fun ctx line => do
  let literals := n.literals.filter fun (_, child) => child.permits ctx
  let names := literals.flatMap fun (l, _) => l.suggestions
  let values ← match n.argument with
    | none => pure []
    | some (a, child) => if child.permits ctx then a.suggest ctx line else pure []
  let flags ← match n.flagsBelow? with
    | none => pure []
    | some (g, ending) => if anyPermitted ctx ending then g.suggest ctx line else pure []
  return names ++ values ++ flags

end Node

/-- The suggestions at a focus. -/
def Focus.suggest : Focus → Recall (List Suggestion)
  | .node n ctx line => n.suggest ctx line
  | .argument a ctx line => a.suggest ctx line
  | .flags g ctx line => g.suggest ctx line
  | .nowhere => return []

/-- How many suggestions are given. -/
structure Limits where
  most : Option Nat := none
  /-- Where there is no suggestion, the empty text is suggested. -/
  force : Bool := false

/-- The first suggestions of each text that extend what was typed, within limits. -/
def Limits.choose (limits : Limits) (typed : String) (list : List Suggestion) : List Suggestion :=
  let all := Suggestion.firsts (Suggestion.matching typed list)
  let chosen := match limits.most with
    | none => all
    | some most => all.take most
  if chosen.isEmpty && limits.force then [.ofText ""] else chosen

namespace Tree

/-- What the last token of a line belongs to. -/
def focus (t : Tree) (ctx : Context) (line : Line) : Focus :=
  (Position.start t ctx line).focus t.rules.ignoreCase

/-- The completion of the token of a text that the cursor touches. -/
def complete (t : Tree) (limits : Limits) (ctx : Context) (text : String) (cursor : Nat) :
    Recall Completion := do
  let line := Line.ofString text
  let stop := line.floorCursor cursor
  let bounds := line.tokenBounds cursor
  let typed := (line.between bounds.start stop).peekToken
  let list ← (t.focus ctx (line.between 0 stop)).suggest
  return { input := text, start := bounds.start, stop := bounds.stop,
           list := limits.choose typed list }

end Tree

end CommandLine
