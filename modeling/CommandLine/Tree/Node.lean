import CommandLine.Command

/-! # Nodes

    Commands are kept in a trie whose edges are components. Below a node there are any number of
    literals, at most one argument, and at most one flag group, after which nothing follows;
    commands end at nodes. `Node.entries` lists the commands at and below a node. -/

namespace CommandLine

/-- A place in the trie of commands: the commands that end here, and the components that may follow
    with what is below them. -/
structure Node where
  ending : List Entry
  literals : List (Literal × Node)
  argument : Option (Argument × Node)
  flags : Option (FlagGroup × List Entry)

namespace Node

/-- The node without commands. -/
def empty : Node :=
  ⟨[], [], none, none⟩

/-- Whether no command ends at or below a node that has no children. -/
def isBare (n : Node) : Bool :=
  n.ending.isEmpty && n.literals.isEmpty && n.argument.isNone && n.flags.isNone

mutual

/-- All commands at and below a node: those that end here first, then those below its literals, its
    argument and its flag group. -/
def entries : Node → List Entry
  | ⟨ending, literals, argument, flags⟩ =>
    ending ++ literalEntries literals ++ argumentEntries argument ++
      match flags with
      | none => []
      | some (_, ending) => ending

/-- All commands below some literals. -/
def literalEntries : List (Literal × Node) → List Entry
  | [] => []
  | (_, child) :: rest => child.entries ++ literalEntries rest

/-- All commands below an argument, if there is one. -/
def argumentEntries : Option (Argument × Node) → List Entry
  | none => []
  | some (_, child) => child.entries

end

/-- Whether a sender may run one of some commands. -/
def anyPermitted (ctx : Context) (entries : List Entry) : Bool :=
  entries.any fun e => e.command.isPermitted ctx

/-- Whether a sender may run a command at or below a node. -/
def permits (n : Node) (ctx : Context) : Bool :=
  anyPermitted ctx n.entries

/-- The first literal below a node that a token selects, with its node. -/
def findLiteral (n : Node) (ignoreCase : Bool) (token : String) : Option (Literal × Node) :=
  n.literals.find? fun (l, _) => l.answers ignoreCase token

/-- The components that may follow, each with the commands at and below it. -/
def branches (n : Node) : List (Component × List Entry) :=
  (n.literals.map fun (l, child) => (.literal l, child.entries)) ++
    (n.argument.map fun (a, child) => (.argument a, child.entries)).toList ++
    (n.flags.map fun (g, ending) => (.flags g, ending)).toList

theorem literalEntries_eq (literals : List (Literal × Node)) :
    literalEntries literals = literals.flatMap fun (_, child) => child.entries := by
  induction literals with
  | nil => rfl
  | cons edge rest ih => simp [literalEntries, ih]

/-- A node below a literal is smaller. -/
theorem sizeOf_lt_of_mem_literals {n child : Node} {l : Literal} (h : (l, child) ∈ n.literals) :
    sizeOf child < sizeOf n := by
  obtain ⟨ending, literals, argument, flags⟩ := n
  have := List.sizeOf_lt_of_mem h
  simp only [Node.mk.sizeOf_spec, Prod.mk.sizeOf_spec] at this ⊢
  omega

/-- The node below the argument is smaller. -/
theorem sizeOf_lt_of_argument {n child : Node} {a : Argument} (h : n.argument = some (a, child)) :
    sizeOf child < sizeOf n := by
  obtain ⟨ending, literals, argument, flags⟩ := n
  subst h
  simp only [Node.mk.sizeOf_spec, Option.some.sizeOf_spec, Prod.mk.sizeOf_spec]
  omega

end Node

end CommandLine
