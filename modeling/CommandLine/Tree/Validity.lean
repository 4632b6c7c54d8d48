import CommandLine.Command

/-! # Valid commands

    Before a command is added to a tree its components are looked at in order. No two components may
    store values under the same key, nothing may follow a flag group, only a flag group may follow
    an argument that reads all that is left, and nothing that must be given may follow an optional
    argument. -/

namespace CommandLine

namespace Command

/-- The first key that is in `seen` or occurs earlier in the list. -/
def repeatedKey? : List String → List String → Option String
  | _, [] => none
  | seen, key :: rest => if seen.contains key then some key else repeatedKey? (key :: seen) rest

/-- What the components before the current one mean for those that follow. -/
structure Progress where
  /-- The component before is a flag group. -/
  afterFlags : Bool := false
  /-- An argument that may be left out came before. -/
  optionalSeen : Bool := false
  /-- An argument that reads all that is left came before. -/
  greedySeen : Bool := false

/-- The progress after a component. -/
def Progress.next (p : Progress) (c : Component) : Progress :=
  if c.isFlags then { p with afterFlags := true }
  else
    { afterFlags := false
      optionalSeen := p.optionalSeen || !c.isRequired
      greedySeen := p.greedySeen || c.isGreedy }

/-- Looks at the order of components, for the command with the usage text `path`. -/
def checkOrder (path : String) (p : Progress) : List Component → Except RegistrationError Unit
  | [] => .ok ()
  | c :: rest =>
    if p.afterFlags || (p.greedySeen && !c.isFlags) then
      .error (.unreachableAfterGreedy path c.name)
    else if !c.isFlags && c.isRequired && p.optionalSeen then
      .error (.requiredAfterOptional path c.name)
    else checkOrder path (p.next c) rest

/-- Looks at the components of a command. -/
def validate (c : Command) : Except RegistrationError Unit :=
  if c.components.isEmpty then .error .emptyCommand
  else match repeatedKey? [] (c.components.flatMap (·.storedKeys)) with
    | some key => .error (.duplicateKey c.usage key)
    | none => checkOrder c.usage {} c.components

end Command

end CommandLine
