import CommandLine.Component

/-! # Commands

    A command is a sequence of components with a permission, a kind of senders it is for, and a
    handler that is run when a line leads to it. Notes on a command are read back by the surrounding
    program. -/

namespace CommandLine

/-- A kind of senders. -/
structure SenderType where
  name : String
  accepts : Sender → Bool

/-- How a handler ends. -/
inductive Ending where
  | completed
  | failed (message : String)
  /-- The handler broke off without an answer. -/
  | brokeOff (message : String)
deriving DecidableEq, Repr

/-- What a handler writes down: a label and the context it was run in. -/
structure LogEntry where
  label : String
  context : Context

/-- What running a handler leaves. -/
structure Handled where
  log : List LogEntry := []
  ending : Ending := .completed

/-- Runs a command. -/
abbrev Handler := Context → Handled

/-- The handler that does nothing. -/
def Handler.idle : Handler :=
  fun _ => {}

/-- A command. -/
structure Command where
  components : List Component
  permission : Permission := .empty
  senderType : Option SenderType := none
  description : Option String := none
  notes : Store Note := .empty
  handler : Handler := .idle

namespace Command

/-- A command of some components; flags, if there are any, make a flag group at the end. -/
def withFlags (c : Command) (flags : List (Flag Parser)) : Command :=
  if flags.isEmpty then c else { c with components := c.components ++ [.flags { flags }] }

/-- The name of the first component. -/
def rootName (c : Command) : String :=
  (c.components.head?.map (·.name)).getD ""

/-- The name of the kind of senders that a command is for. -/
def senderTypeName (c : Command) : Option String :=
  c.senderType.map (·.name)

/-- Whether a command is for a sender. -/
def accepts (c : Command) (sender : Sender) : Bool :=
  match c.senderType with
  | none => true
  | some t => t.accepts sender

/-- Whether a sender may run a command. -/
def isPermitted (ctx : Context) (c : Command) : Bool :=
  ctx.grants c.permission

/-- How a command is to be typed. -/
def usage (c : Command) : String :=
  Text.joined " " (c.components.map (·.usage))

/-- The form of the name of a note. -/
def describeNoteName (name : String) : String :=
  "MetaKey(" ++ Text.quoted name ++ ")"

/-- The form of the notes on a command that shows their names. -/
def describeNotes (notes : Store Note) : String :=
  Text.braced (notes.sortedNames.map Text.quoted)

/-- The form of a command that shows how it is built. -/
def describe (c : Command) : String :=
  let senderType := c.senderTypeName.map fun name => "SenderType(" ++ Text.quoted name ++ ")"
  Text.record "Command"
    [("syntax", Text.quoted c.usage),
     ("permission", c.permission.describe),
     ("sender_type", Text.optional senderType),
     ("meta", describeNotes c.notes)]

end Command

/-- A command that was added to a tree, with the number it was given. Two entries are the same
    registration when their numbers are equal. -/
structure Entry where
  serial : Nat
  command : Command

end CommandLine
