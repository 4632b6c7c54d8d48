import CommandLine.Tree

/-! # Tries

    The commands of a tree are stored in a trie. A fork of it holds the commands that end there and
    its children in one list, sorted by the rank of their components: literals come first, then the
    argument, then the flag group. Nothing but the way in which children are put into the list keeps
    it in order. `Tree` has the children of each node taken apart by their kind, which is how they
    are looked at when a line is read. -/

namespace CommandLine

/-- The component with the aliases of another, if both are literals. -/
def Component.merge (ignoreCase : Bool) : Component → Component → Component
  | .literal old, .literal l => .literal (old.merge ignoreCase l)
  | old, _ => old

/-- A key of a literal that another one has, too. -/
def Literal.commonKey? (ignoreCase : Bool) (l other : Literal) : Option String :=
  (l.keys ignoreCase).find? fun key => (other.keys ignoreCase).contains key

/-- The literal that a component is. -/
def Component.literal? : Component → Option Literal
  | .literal l => some l
  | _ => none

/-- A place in a trie: the commands that end here, and the components that may follow with what is
    below them. -/
structure Fork where
  ending : List Entry
  children : List (Component × Fork)

namespace Fork

/-- The fork without commands. -/
def empty : Fork :=
  ⟨[], []⟩

/-- Whether no command ends at a fork that has no children. -/
def isBare (f : Fork) : Bool :=
  f.ending.isEmpty && f.children.isEmpty

/-- The literals among the children of a fork. -/
def literals (f : Fork) : List Literal :=
  f.children.filterMap (·.1.literal?)

mutual

/-- All commands at and below a fork: those that end here first, then those below its children. -/
def entries : Fork → List Entry
  | ⟨ending, children⟩ => ending ++ childEntries children

/-- All commands below some children. -/
def childEntries : List (Component × Fork) → List Entry
  | [] => []
  | (_, child) :: rest => child.entries ++ childEntries rest

end

/-- The children with one more, before the first of higher rank. -/
def insertChild (child : Component × Fork) (children : List (Component × Fork)) :
    List (Component × Fork) :=
  children.insertIdx (children.findIdx fun other => child.1.kind.rank < other.1.kind.rank) child

/-- A child of a fork with its place in the list of children. -/
abbrev Slot := (Component × Fork) × Nat

/-- Compares a literal with a child. A child of the same key is where the literal goes; one that has
    another key in common with it is in its way. -/
def compareLiteral (ignoreCase : Bool) (name : String) (l : Literal) (same : Option Slot)
    (slot : Slot) : Except RegistrationError (Option Slot) :=
  match slot.1.1 with
  | .literal other =>
    if Literal.key ignoreCase other.name = Literal.key ignoreCase l.name then .ok (some slot)
    else match l.commonKey? ignoreCase other with
      | some key => .error (.duplicateAlias name key)
      | none => .ok same
  | _ => .ok same

/-- The first child of a kind. -/
def ofKind (kind : Component.Kind) (children : List (Component × Fork)) : Option Slot :=
  children.zipIdx.find? fun slot => slot.1.1.kind == kind

/-- The signature of a component that is a flag group. -/
def signature? : Component → Option (List String)
  | .flags g => some (Flag.signature g.flags)
  | _ => none

/-- Where a component goes among the children of a fork: to one that it shares, or to a new one. -/
def slot (ignoreCase : Bool) (name : String) (children : List (Component × Fork)) :
    Component → Except RegistrationError (Option Slot)
  | .literal l => children.zipIdx.foldlM (compareLiteral ignoreCase name l) none
  | .argument a =>
    match ofKind .argument children with
    | none => .ok none
    | some slot =>
      if slot.1.1.name = a.name then .ok (some slot)
      else .error (.ambiguousNode name slot.1.1.name a.name)
  | .flags g =>
    match ofKind .flags children with
    | none => .ok none
    | some slot =>
      if signature? slot.1.1 = signature? (.flags g) then .ok (some slot)
      else .error (.conflictingFlags name)

/-- Looks for conflicts of a command with the components below a fork. -/
def check (rules : Rules) (c : Command) :
    List Component → String → Fork → Except RegistrationError Unit
  | [], _, f => Node.checkEnding rules c f.ending
  | component :: rest, name, f =>
    match slot rules.ignoreCase name f.children component with
    | .error err => .error err
    | .ok none => .ok ()
    | .ok (some ((old, child), _)) => check rules c rest old.name child

/-- Adds a command along its components. -/
def insert (rules : Rules) (e : Entry) :
    List Component → String → Fork → Except RegistrationError Fork
  | [], _, f => .ok { f with ending := Node.settle rules e f.ending }
  | component :: rest, name, f =>
    match slot rules.ignoreCase name f.children component with
    | .error err => .error err
    | .ok none =>
      (insert rules e rest component.name empty).map fun child =>
        { f with children := insertChild (component, child) f.children }
    | .ok (some ((old, child), index)) =>
      (insert rules e rest old.name child).map fun child =>
        { f with
          children := f.children.set index (old.merge rules.ignoreCase component, child) }

/-- Removes the command with a number that ends where the components lead, if there is one. A child
    below which no command is left is removed with it. -/
def remove (ignoreCase : Bool) (serial : Nat) : List Component → String → Fork → Option Fork
  | [], _, f => (Node.withoutEntry serial f.ending).map fun ending => { f with ending }
  | component :: rest, name, f =>
    match slot ignoreCase name f.children component with
    | .ok (some ((old, child), index)) =>
      (remove ignoreCase serial rest old.name child).map fun child =>
        if child.isBare then { f with children := f.children.eraseIdx index }
        else { f with children := f.children.set index (old, child) }
    | _ => none

end Fork

/-- The commands that may be typed, as they are stored. -/
structure Trie where
  rules : Rules := {}
  ignoreLock : Bool := false
  locked : Bool := false
  root : Fork := .empty
  /-- The number of the next command. -/
  nextSerial : Nat := 0

namespace Trie

/-- Locks a trie. -/
def lock (t : Trie) : Trie :=
  { t with locked := true }

/-- Whether the commands of a trie may change. -/
def checkUnlocked (t : Trie) : Except RegistrationError Unit :=
  if t.locked && !t.ignoreLock then .error .treeLocked else .ok ()

/-- Adds a command, which gets the next number. -/
def insert (t : Trie) (c : Command) : Except RegistrationError (Trie × Entry) := do
  t.checkUnlocked
  c.validate
  Fork.check t.rules c c.components Tree.rootName t.root
  let entry := ⟨t.nextSerial, c⟩
  let root ← Fork.insert t.rules entry c.components Tree.rootName t.root
  return ({ t with root, nextSerial := t.nextSerial + 1 }, entry)

/-- Removes a command, and the parts of the trie that only it needs. -/
def remove (t : Trie) (e : Entry) : Except RegistrationError Trie := do
  t.checkUnlocked
  match Fork.remove t.rules.ignoreCase e.serial e.command.components Tree.rootName t.root with
  | some root => return { t with root }
  | none => throw (.unknownCommand e.command.usage)

/-- Removes the first child of the root that is a literal which a name selects, and gives the
    commands below it. -/
def removeRoot (t : Trie) (name : String) : Except RegistrationError (Trie × List Entry) := do
  t.checkUnlocked
  match t.root.children.zipIdx.find? fun slot => slot.1.1.answers t.rules.ignoreCase name with
  | some ((_, child), index) =>
    return ({ t with root := { t.root with children := t.root.children.eraseIdx index } },
      child.entries)
  | none => throw (.unknownCommand name)

/-- All commands of a trie. -/
def entries (t : Trie) : List Entry :=
  t.root.entries

/-- The names of the literals that commands start with. -/
def rootNames (t : Trie) : List String :=
  t.root.literals.map (·.name)

end Trie

end CommandLine
