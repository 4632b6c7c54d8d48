import CommandLine.Tree.Node

/-! # Adding commands to nodes

    A command is added along the path of its components. A component that the node has already is
    shared: a literal by its name, an argument by its name, and a flag group by its signature; a
    shared literal takes over new aliases. Other components are new edges, if they do not conflict
    with those that are there. `Node.check` looks for conflicts without adding anything. -/

namespace CommandLine

/-- How commands are added and removed. -/
structure Rules where
  ignoreCase : Bool := false
  replaceCommands : Bool := false

namespace Node

/-- Whether an edge is the one that a literal shares. -/
def shares (ignoreCase : Bool) (l : Literal) (edge : Literal × Node) : Bool :=
  Literal.key ignoreCase edge.1.name == Literal.key ignoreCase l.name

/-- A key of a literal that a literal of another name has too. -/
def clash? (n : Node) (ignoreCase : Bool) (l : Literal) : Option String :=
  (n.literals.filter fun edge => !shares ignoreCase l edge).findSome? fun (other, _) =>
    (l.keys ignoreCase).find? fun key => (other.keys ignoreCase).contains key

/-- The literals of a node around the one that a literal shares. -/
structure LiteralSlot where
  before : List (Literal × Node)
  edge : Literal × Node
  after : List (Literal × Node)

/-- Where a literal goes below a node: to an edge that it shares, or to a new one after the
    others. -/
def literalSlot (n : Node) (ignoreCase : Bool) (name : String) (l : Literal) :
    Except RegistrationError (Option LiteralSlot) :=
  match n.clash? ignoreCase l with
  | some key => .error (.duplicateAlias name key)
  | none =>
    match n.literals.dropWhile fun edge => !shares ignoreCase l edge with
    | [] => .ok none
    | edge :: after =>
      .ok (some ⟨n.literals.takeWhile fun edge => !shares ignoreCase l edge, edge, after⟩)

/-- Where an argument goes below a node: to the argument that is there, or to a new edge. -/
def argumentSlot (n : Node) (name : String) (a : Argument) :
    Except RegistrationError (Option (Argument × Node)) :=
  match n.argument with
  | none => .ok none
  | some (old, child) =>
    if old.name = a.name then .ok (some (old, child))
    else .error (.ambiguousNode name old.name a.name)

/-- Where a flag group goes below a node: to the group that is there, or to a new edge. -/
def flagsSlot (n : Node) (name : String) (g : FlagGroup) :
    Except RegistrationError (Option (FlagGroup × List Entry)) :=
  match n.flags with
  | none => .ok none
  | some (old, ending) =>
    if Flag.signature old.flags = Flag.signature g.flags then .ok (some (old, ending))
    else .error (.conflictingFlags name)

/-- Whether two commands are for the same kind of senders. -/
def sameSenders (c : Command) (e : Entry) : Bool :=
  e.command.senderTypeName == c.senderTypeName

/-- Whether a command may end where others end: none of them is for the same senders, or it replaces
    them. -/
def checkEnding (rules : Rules) (c : Command) (ending : List Entry) :
    Except RegistrationError Unit :=
  if !rules.replaceCommands && ending.any (sameSenders c) then
    .error (.duplicateCommand c.usage)
  else .ok ()

/-- Looks for conflicts of a command with the components below a node. -/
def check (rules : Rules) (c : Command) :
    List Component → String → Node → Except RegistrationError Unit
  | [], _, n => checkEnding rules c n.ending
  | .literal l :: rest, name, n =>
    match n.literalSlot rules.ignoreCase name l with
    | .error e => .error e
    | .ok none => .ok ()
    | .ok (some slot) => check rules c rest slot.edge.1.name slot.edge.2
  | .argument a :: rest, name, n =>
    match n.argumentSlot name a with
    | .error e => .error e
    | .ok none => .ok ()
    | .ok (some (old, child)) => check rules c rest old.name child
  | .flags g :: _, name, n =>
    match n.flagsSlot name g with
    | .error e => .error e
    | .ok none => .ok ()
    | .ok (some (_, ending)) => checkEnding rules c ending

/-- The commands that end at a place, with one more after them. It replaces those for the same
    senders if the rules say so. -/
def settle (rules : Rules) (e : Entry) (ending : List Entry) : List Entry :=
  (if rules.replaceCommands then ending.filter fun old => !sameSenders e.command old else ending) ++
    [e]

/-- Adds a command along its components. Nothing follows a flag group in a valid command. -/
def insert (rules : Rules) (e : Entry) :
    List Component → String → Node → Except RegistrationError Node
  | [], _, n => .ok { n with ending := settle rules e n.ending }
  | .literal l :: rest, name, n =>
    match n.literalSlot rules.ignoreCase name l with
    | .error e => .error e
    | .ok none =>
      (insert rules e rest l.name empty).map fun child =>
        { n with literals := n.literals ++ [(l, child)] }
    | .ok (some slot) =>
      (insert rules e rest slot.edge.1.name slot.edge.2).map fun child =>
        { n with
          literals :=
            slot.before ++ (slot.edge.1.merge rules.ignoreCase l, child) :: slot.after }
  | .argument a :: rest, name, n =>
    match n.argumentSlot name a with
    | .error e => .error e
    | .ok none =>
      (insert rules e rest a.name empty).map fun child => { n with argument := some (a, child) }
    | .ok (some (old, child)) =>
      (insert rules e rest old.name child).map fun child =>
        { n with argument := some (old, child) }
  | .flags g :: _, name, n =>
    match n.flagsSlot name g with
    | .error e => .error e
    | .ok none => .ok { n with flags := some (g, settle rules e []) }
    | .ok (some (old, ending)) =>
      .ok { n with flags := some (old, settle rules e ending) }

end Node

end CommandLine
