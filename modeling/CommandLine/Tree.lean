import CommandLine.Tree.Remove
import CommandLine.Tree.Validity

/-! # Trees of commands

    A tree is the trie of all commands with the rules by which it changes. A tree that is locked
    does not change, unless it is set to ignore the lock. -/

namespace CommandLine

/-- The commands that may be typed. -/
structure Tree where
  rules : Rules := {}
  ignoreLock : Bool := false
  locked : Bool := false
  root : Node := .empty
  /-- The number of the next command. -/
  nextSerial : Nat := 0

namespace Tree

/-- The name of the root in messages. -/
def rootName : String := "<root>"

/-- Locks a tree. -/
def lock (t : Tree) : Tree :=
  { t with locked := true }

/-- Whether the commands of a tree may change. -/
def checkUnlocked (t : Tree) : Except RegistrationError Unit :=
  if t.locked && !t.ignoreLock then .error .treeLocked else .ok ()

/-- Adds a command, which gets the next number. -/
def insert (t : Tree) (c : Command) : Except RegistrationError (Tree × Entry) := do
  t.checkUnlocked
  c.validate
  Node.check t.rules c c.components rootName t.root
  let entry := ⟨t.nextSerial, c⟩
  let root ← Node.insert t.rules entry c.components rootName t.root
  return ({ t with root, nextSerial := t.nextSerial + 1 }, entry)

/-- Removes a command, and the parts of the tree that only it needs. -/
def remove (t : Tree) (e : Entry) : Except RegistrationError Tree := do
  t.checkUnlocked
  match Node.remove t.rules.ignoreCase e.serial e.command.components rootName t.root with
  | some root => return { t with root }
  | none => throw (.unknownCommand e.command.usage)

/-- Removes the first literal at the root that a name selects, and gives the commands below it. -/
def removeRoot (t : Tree) (name : String) : Except RegistrationError (Tree × List Entry) := do
  t.checkUnlocked
  let selected (edge : Literal × Node) : Bool := edge.1.answers t.rules.ignoreCase name
  match t.root.literals.find? selected with
  | some (_, child) =>
    let literals := t.root.literals.eraseP selected
    return ({ t with root := { t.root with literals } }, child.entries)
  | none => throw (.unknownCommand name)

/-- All commands of a tree. -/
def entries (t : Tree) : List Entry :=
  t.root.entries

/-- The names of the literals that commands start with. -/
def rootNames (t : Tree) : List String :=
  t.root.literals.map (·.1.name)

end Tree

end CommandLine
