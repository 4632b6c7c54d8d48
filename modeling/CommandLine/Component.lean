import CommandLine.Parser.Suggest

/-! # Components

    A command is a sequence of components. A literal is a fixed word with aliases, an argument is a
    value that a parser reads, and a flag group takes the flags at the end of the line. -/

namespace CommandLine

/-- Looks at a line before an argument is read from it, and may refuse it. -/
abbrev Check := Context → Line → Option ArgumentError

/-- What any component may carry besides its role. -/
structure Extras where
  description : Option String := none
  /-- Asked for suggestions in place of the parser. -/
  suggester : Option Suggester := none
  /-- Run in order before the parser. -/
  checks : List Check := []

/-- A fixed word. -/
structure Literal where
  name : String
  aliases : List String := []
  extras : Extras := {}

/-- The value of an argument that was left out. -/
inductive Default where
  /-- A fixed value. -/
  | constant (value : Value)
  /-- A value that depends on the context. -/
  | computed (f : Context → Value)
  /-- The value that the parser of the argument reads from a text. -/
  | parsed (text : String)

/-- Whether an argument may be left out, and what stands for it then. -/
inductive Need where
  | required
  | optional (default : Option Default)

/-- A value that a parser reads. -/
structure Argument where
  name : String
  parser : Parser
  need : Need := .required
  extras : Extras := {}

/-- The flags at the end of a command. -/
structure FlagGroup where
  flags : List (Flag Parser)
  extras : Extras := {}

/-- A part of a command. -/
inductive Component where
  | literal (l : Literal)
  | argument (a : Argument)
  | flags (g : FlagGroup)

namespace Literal

/-- The name of a literal and its aliases. -/
def names (l : Literal) : List String :=
  l.name :: l.aliases

/-- Whether a token selects a literal: it is one of its names, or equals one up to the case of ASCII
    letters when case is ignored. -/
def answers (ignoreCase : Bool) (token : String) (l : Literal) : Bool :=
  l.names.any fun name => if ignoreCase then Text.sameUpToCase name token else name == token

/-- What tells a name from others: the name, or its lowercase form when case is ignored. -/
def key (ignoreCase : Bool) (name : String) : String :=
  if ignoreCase then Text.lowercase name else name

/-- The keys of all names of a literal. -/
def keys (ignoreCase : Bool) (l : Literal) : List String :=
  l.names.map (key ignoreCase)

/-- The literal with the aliases of another whose keys are new to it. -/
def merge (ignoreCase : Bool) (l other : Literal) : Literal :=
  let known := l.keys ignoreCase
  let added := other.aliases.filter fun name => !known.contains (key ignoreCase name)
  { l with aliases := l.aliases ++ added }

end Literal

namespace Need

/-- Whether something must be given. -/
def isRequired : Need → Bool
  | .required => true
  | .optional _ => false

/-- What stands for something that was left out. -/
def default? : Need → Option Default
  | .required => none
  | .optional default => default

end Need

namespace Argument

/-- Whether an argument must be given. -/
def isRequired (a : Argument) : Bool :=
  a.need.isRequired

/-- Reads an argument after its checks. -/
def read (a : Argument) : Reader := fun ctx line =>
  match a.extras.checks.findSome? fun check => check ctx line with
  | some e => ⟨.error e, ctx, line⟩
  | none => a.parser.read ctx line

/-- The context with the default of an argument, if it has one. A default that is parsed is read in
    the same context, from a line of its own, and without the checks. -/
def fill (a : Argument) (ctx : Context) : Except ArgumentError Context :=
  match a.need.default? with
  | none => .ok ctx
  | some (.constant value) => .ok (ctx.store a.name value)
  | some (.computed f) => .ok (ctx.store a.name (f ctx))
  | some (.parsed text) =>
    let reading := a.parser.read ctx (.ofString text)
    reading.result.map (reading.context.store a.name)

/-- Suggests texts for an argument. -/
def suggest (a : Argument) : Suggester :=
  a.extras.suggester.getD a.parser.suggest

end Argument

namespace Component

/-- The three kinds of components. -/
inductive Kind where
  | literal
  | argument
  | flags
deriving DecidableEq, Repr

/-- The kind of a component. -/
def kind : Component → Kind
  | .literal _ => .literal
  | .argument _ => .argument
  | .flags _ => .flags

/-- The name of a kind. -/
def Kind.name : Kind → String
  | .literal => "Literal"
  | .argument => "Argument"
  | .flags => "Flag"

/-- The place of a kind among the components that may follow a component. -/
def Kind.rank : Kind → Nat
  | .literal => 0
  | .argument => 1
  | .flags => 2

/-- The name of a component. -/
def name : Component → String
  | .literal l => l.name
  | .argument a => a.name
  | .flags _ => "flags"

/-- The aliases of a component. -/
def aliases : Component → List String
  | .literal l => l.aliases
  | _ => []

/-- What a component carries besides its role. -/
def extras : Component → Extras
  | .literal l => l.extras
  | .argument a => a.extras
  | .flags g => g.extras

/-- Whether a component must be given. -/
def isRequired : Component → Bool
  | .literal _ => true
  | .argument a => a.isRequired
  | .flags _ => false

/-- Whether a component is an argument that may read all that is left of a line. -/
def isGreedy : Component → Bool
  | .argument a => a.parser.greedy
  | _ => false

/-- Whether a component is a flag group. -/
def isFlags : Component → Bool
  | .flags _ => true
  | _ => false

/-- What stands for a component that was left out. -/
def default? : Component → Option Default
  | .argument a => a.need.default?
  | _ => none

/-- Whether a token selects a component that is a literal. -/
def answers (ignoreCase : Bool) (token : String) : Component → Bool
  | .literal l => l.answers ignoreCase token
  | _ => false

/-- The keys under which a component stores values. -/
def storedKeys : Component → List String
  | .literal _ => []
  | .argument a => [a.name]
  | .flags g => g.flags.map (·.name)

/-- How a component reads in a usage text. -/
def usage : Component → String
  | .literal l => l.name
  | .argument a => if a.isRequired then "<" ++ a.name ++ ">" else "[" ++ a.name ++ "]"
  | .flags g => "[" ++ Text.joined "|" (g.flags.map fun flag => "--" ++ flag.name) ++ "]"

/-- The form of a default that shows how it is made. -/
def describeDefault : Default → String
  | .constant _ => "Constant(..)"
  | .computed _ => "Dynamic(..)"
  | .parsed text => "Parsed(" ++ Text.quoted text ++ ")"

/-- The form of a component that shows how it is built. -/
def describe (c : Component) : String :=
  Text.record "CommandComponent"
    [("name", Text.quoted c.name),
     ("aliases", Text.bracketed (c.aliases.map Text.quoted)),
     ("kind", c.kind.name),
     ("required", if c.isRequired then "true" else "false"),
     ("default", Text.optional (c.default?.map describeDefault)),
     ("preprocessors", Number.showNat c.extras.checks.length)]

end Component

end CommandLine
