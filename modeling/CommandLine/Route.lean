import CommandLine.Tree

/-! # Routing

    A line is routed through the tree in one pass without turning back. `Position` says where the
    pass stands: at a node, with a context, before the rest of the line. `Position.step` takes it
    one edge further, or ends it with a command or a failure:

    * at the end of the line the commands that end at the node are chosen from; where none ends, an
      optional argument or else a flag group is entered;
    * otherwise the next token selects a literal, or else the argument reads it, or else the flag
      group does. A token that looks like a flag skips optional arguments before a flag group.

    Edges below which the sender may run no command are not taken. The first permission that kept
    the sender from an edge is reported if the pass then fails at the node.

    `Position.run` takes steps until the pass ends; each step leads to a smaller node. -/

namespace CommandLine

/-- A command and the context that its arguments were read into. -/
structure Resolved where
  entry : Entry
  context : Context

/-- The form of a resolved command that shows its parts. -/
def Resolved.describe (r : Resolved) : String :=
  Text.record "ResolvedCommand"
    [("command", r.entry.command.describe), ("context", r.context.describe)]

/-- Where a line is being routed. -/
structure Position where
  node : Node
  context : Context
  line : Line
  atRoot : Bool := false

/-- The outcome of a step. -/
inductive Step where
  /-- The line is routed on from another position. -/
  | descend (next : Position)
  /-- The line leads to a command. -/
  | arrive (found : Resolved)
  /-- The line leads nowhere. -/
  | fail (failure : Failure)

namespace Node

/-- The text of the first permission that a sender lacks among those of some commands. -/
def lackedPermission (ctx : Context) (entries : List Entry) : String :=
  ((entries.find? fun e => !e.command.isPermitted ctx).map (·.command.permission.toText)).getD ""

/-- How the components read that may follow a node and lead to a command the sender may run. -/
def expected (n : Node) (ctx : Context) : List String :=
  (n.branches.filter fun (_, entries) => anyPermitted ctx entries).map (·.1.usage)

/-- The flag group at a node, or the one behind its optional arguments. -/
def flagsBelow? : Node → Option (FlagGroup × List Entry)
  | ⟨_, _, _, some flags⟩ => some flags
  | ⟨_, _, none, none⟩ => none
  | ⟨_, _, some (a, child), none⟩ => if a.isRequired then none else child.flagsBelow?

end Node

namespace Step

/-- Chooses the first command that the sender may run and that is for the sender. -/
def select (ctx : Context) (ending : List Entry) : Step :=
  let permitted := ending.filter fun e => e.command.isPermitted ctx
  if permitted.isEmpty then .fail (.noPermission (Node.lackedPermission ctx ending))
  else match permitted.find? fun e => e.command.accepts ctx.sender with
    | some e => .arrive ⟨e, ctx⟩
    | none => .fail (.invalidSender (permitted.filterMap fun e => e.command.senderTypeName))

end Step

namespace Position

/-- The position before a line at the root of a tree. -/
def start (t : Tree) (ctx : Context) (line : Line) : Position :=
  { node := t.root, context := ctx, line, atRoot := true }

/-- A missing permission outranks any other failure. -/
def preferDenied (denied : Option String) (failure : Failure) : Failure :=
  (denied.map .noPermission).getD failure

/-- The failure when no edge fits. -/
def noMatch (p : Position) (denied : Option String) : Failure :=
  preferDenied denied <|
    if p.atRoot then .noSuchCommand p.line.peekToken
    else .invalidSyntax (String.ofList (Text.trim p.line.rest)) (p.node.expected p.context)

/-- The failure for an error in the flags after a node. -/
def flagsFailure (p : Position) (e : ArgumentError) : Failure :=
  match e.reason with
  | .unknownFlag => .invalidSyntax e.input (p.node.expected p.context)
  | .noFlagPermission => .noPermission ((e.fact? "permission").getD "")
  | _ => .badArgument ((e.fact? "flag").getD "flags") e

/-- The step along an argument that is left out. -/
def skipArgument (p : Position) (a : Argument) (child : Node) : Step :=
  match a.fill p.context with
  | .ok context => .descend { node := child, context, line := p.line }
  | .error e => .fail (.badArgument a.name e)

/-- The context after an argument was read. -/
def argumentRead (a : Argument) (before : Line) (value : Value) (r : Reading Value) : Context :=
  (r.context.store a.name value).recordConsumed a.name (r.line.readSince before)

/-- The step along an argument that is read. -/
def readArgument (p : Position) (denied : Option String) (a : Argument) (child : Node) : Step :=
  let r := a.read p.context p.line
  match r.result with
  | .ok value =>
    .descend { node := child, context := argumentRead a p.line value r, line := r.line }
  | .error e => .fail (preferDenied denied (.badArgument a.name e))

/-- The step along a flag group, which ends at a command. -/
def readFlags (p : Position) (denied : Option String) (g : FlagGroup) (ending : List Entry) :
    Step :=
  let r := (Parser.flags g.flags).read p.context p.line
  match r.result with
  | .ok _ => .select r.context ending
  | .error e => .fail (preferDenied denied (p.flagsFailure e))

/-- The step at a token that selects no literal and that no argument reads. -/
def stepAtFlags (p : Position) (denied : Option String) : Step :=
  match p.node.flags with
  | none => .fail (p.noMatch denied)
  | some (g, ending) =>
    if Node.anyPermitted p.context ending then p.readFlags denied g ending
    else .fail (p.noMatch (denied.or (some (Node.lackedPermission p.context ending))))

/-- The step at a token that selects no literal. -/
def stepAtArgument (p : Position) (denied : Option String) : Step :=
  match p.node.argument with
  | none => p.stepAtFlags denied
  | some (a, child) =>
    if !child.permits p.context then
      p.stepAtFlags (denied.or (some (Node.lackedPermission p.context child.entries)))
    else if looksLikeFlag p.line.peekToken && !a.isRequired then
      if child.flagsBelow?.isSome then p.skipArgument a child
      else if p.node.flags.isNone then p.readArgument denied a child
      else p.stepAtFlags denied
    else p.readArgument denied a child

/-- The step at a token. -/
def stepAtToken (ignoreCase : Bool) (p : Position) : Step :=
  match p.node.findLiteral ignoreCase p.line.peekToken with
  | none => p.stepAtArgument none
  | some (_, child) =>
    if child.permits p.context then
      .descend { node := child, context := p.context, line := p.line.skipToken }
    else p.stepAtArgument (some (Node.lackedPermission p.context child.entries))

/-- The step at the end of a line into a flag group, which has nothing to read. -/
def stepIntoFlags (p : Position) : Step :=
  match p.node.flags with
  | none => .fail (p.noMatch none)
  | some (_, ending) =>
    if Node.anyPermitted p.context ending then .select p.context ending
    else .fail (p.noMatch none)

/-- The step at the end of a line. -/
def stepAtEnd (p : Position) : Step :=
  if p.atRoot then .fail (.noSuchCommand "")
  else if !p.node.ending.isEmpty then .select p.context p.node.ending
  else match p.node.argument with
    | none => p.stepIntoFlags
    | some (a, child) =>
      if !a.isRequired && child.permits p.context then p.skipArgument a child
      else p.stepIntoFlags

/-- The position with the white space before the next token read. -/
def skipBlank (p : Position) : Position :=
  { p with line := p.line.skipBlank }

/-- The next step of the pass. -/
def step (ignoreCase : Bool) (p : Position) : Step :=
  if p.line.isBlank then p.skipBlank.stepAtEnd else p.skipBlank.stepAtToken ignoreCase

theorem skipArgument_descend {p q : Position} {a : Argument} {child : Node}
    (h : p.skipArgument a child = .descend q) : q.node = child := by
  unfold skipArgument at h
  split at h <;> cases h
  rfl

theorem readArgument_descend {p q : Position} {denied : Option String} {a : Argument}
    {child : Node} (h : p.readArgument denied a child = .descend q) : q.node = child := by
  simp only [readArgument] at h
  split at h <;> cases h
  rfl

theorem select_ne_descend {ctx : Context} {ending : List Entry} {q : Position} :
    Step.select ctx ending ≠ .descend q := by
  simp only [Step.select]
  split
  · simp
  · split <;> simp

theorem stepAtFlags_ne_descend {p q : Position} {denied : Option String} :
    p.stepAtFlags denied ≠ .descend q := by
  unfold stepAtFlags
  split
  · simp
  · split
    · simp only [readFlags]
      split
      · exact select_ne_descend
      · simp
    · simp

theorem stepIntoFlags_ne_descend {p q : Position} : p.stepIntoFlags ≠ .descend q := by
  unfold stepIntoFlags
  split
  · simp
  · split
    · exact select_ne_descend
    · simp

/-- A step at a token that selects no literal leads along the argument. -/
theorem stepAtArgument_descend {p q : Position} {denied : Option String}
    (h : p.stepAtArgument denied = .descend q) :
    ∃ a, p.node.argument = some (a, q.node) := by
  unfold stepAtArgument at h
  split at h
  · exact absurd h stepAtFlags_ne_descend
  · next a child hargument =>
    have found : q.node = child → ∃ a, p.node.argument = some (a, q.node) :=
      fun hq => ⟨a, hq ▸ hargument⟩
    split at h
    · exact absurd h stepAtFlags_ne_descend
    · split at h
      · split at h
        · exact found (skipArgument_descend h)
        · split at h
          · exact found (readArgument_descend h)
          · exact absurd h stepAtFlags_ne_descend
      · exact found (readArgument_descend h)

/-- A step at a token leads along a literal or the argument. -/
theorem stepAtToken_descend {ignoreCase : Bool} {p q : Position}
    (h : p.stepAtToken ignoreCase = .descend q) :
    (∃ l, (l, q.node) ∈ p.node.literals) ∨ ∃ a, p.node.argument = some (a, q.node) := by
  unfold stepAtToken at h
  split at h
  · exact .inr (stepAtArgument_descend h)
  · next l child hfound =>
    split at h
    · cases h
      exact .inl ⟨l, List.mem_of_find?_eq_some hfound⟩
    · exact .inr (stepAtArgument_descend h)

/-- A step at the end of a line leads along the argument. -/
theorem stepAtEnd_descend {p q : Position} (h : p.stepAtEnd = .descend q) :
    ∃ a, p.node.argument = some (a, q.node) := by
  unfold stepAtEnd at h
  split at h
  · cases h
  · split at h
    · exact absurd h select_ne_descend
    · split at h
      · exact absurd h stepIntoFlags_ne_descend
      · next a child hargument =>
        split at h
        · exact ⟨a, skipArgument_descend h ▸ hargument⟩
        · exact absurd h stepIntoFlags_ne_descend

/-- A step leads along a literal or the argument of the node. -/
theorem step_descend {ignoreCase : Bool} {p q : Position} (h : p.step ignoreCase = .descend q) :
    (∃ l, (l, q.node) ∈ p.node.literals) ∨ ∃ a, p.node.argument = some (a, q.node) := by
  unfold step at h
  split at h
  · exact .inr (stepAtEnd_descend (p := p.skipBlank) h)
  · exact stepAtToken_descend (p := p.skipBlank) h

/-- A step leads to a smaller node. -/
theorem sizeOf_step_lt {ignoreCase : Bool} {p q : Position}
    (h : p.step ignoreCase = .descend q) : sizeOf q.node < sizeOf p.node := by
  rcases step_descend h with ⟨l, hl⟩ | ⟨a, ha⟩
  · exact Node.sizeOf_lt_of_mem_literals hl
  · exact Node.sizeOf_lt_of_argument ha

/-- Takes steps until the pass ends. -/
def run (ignoreCase : Bool) (p : Position) : Except Failure Resolved :=
  match _ : p.step ignoreCase with
  | .descend next => next.run ignoreCase
  | .arrive found => .ok found
  | .fail failure => .error failure
termination_by sizeOf p.node
decreasing_by exact sizeOf_step_lt ‹_›

end Position

/-- Routes a line to a command. -/
def Tree.route (t : Tree) (ctx : Context) (text : String) : Except Failure Resolved :=
  (Position.start t ctx (.ofString text)).run t.rules.ignoreCase

end CommandLine
