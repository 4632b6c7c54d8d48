import CommandLine.Tree.Insert

/-! # Removing commands from nodes

    A command is removed where the path of its components ends. Edges below which no command is left
    are removed with it. -/

namespace CommandLine.Node

/-- The commands without the one with a number, if it is among them. -/
def withoutEntry (serial : Nat) (ending : List Entry) : Option (List Entry) :=
  if ending.any (·.serial == serial) then some (ending.filter (·.serial != serial)) else none

/-- An edge to a changed node, unless no command is left at or below it. -/
def keep {L : Type} (label : L) (child : Node) : Option (L × Node) :=
  if child.isBare then none else some (label, child)

/-- Removes the command with a number that ends where the components lead, if there is one. -/
def remove (ignoreCase : Bool) (serial : Nat) : List Component → String → Node → Option Node
  | [], _, n => (withoutEntry serial n.ending).map fun ending => { n with ending }
  | .literal l :: rest, name, n =>
    match n.literalSlot ignoreCase name l with
    | .ok (some slot) =>
      (remove ignoreCase serial rest slot.edge.1.name slot.edge.2).map fun child =>
        { n with literals := slot.before ++ (keep slot.edge.1 child).toList ++ slot.after }
    | _ => none
  | .argument a :: rest, name, n =>
    match n.argumentSlot name a with
    | .ok (some (old, child)) =>
      (remove ignoreCase serial rest old.name child).map fun child =>
        { n with argument := keep old child }
    | _ => none
  | [.flags g], name, n =>
    match n.flagsSlot name g with
    | .ok (some (old, ending)) =>
      (withoutEntry serial ending).map fun ending =>
        { n with flags := if ending.isEmpty then none else some (old, ending) }
    | _ => none
  | .flags _ :: _ :: _, _, _ => none

end CommandLine.Node
