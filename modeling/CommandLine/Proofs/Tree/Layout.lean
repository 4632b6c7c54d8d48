import CommandLine.Proofs.Tree.Creation
import CommandLine.Proofs.Tree.Forks

/-! # How tries are laid out

    In whatever order commands are added and removed, at each fork of a trie the literals come
    first, in the order in which they were created, then at most one argument, then at most one flag
    group; no two literals have a name in common, no two commands that end there are for the same
    senders, and below each child there is a command (`Trie.History.wellOrdered`). Each child was
    put into one list of children by its rank; what keeps the list in order is proved of the tree
    that the trie stores. -/

namespace CommandLine

namespace Fork

/-- A fork and all forks below it. -/
inductive Has : Fork → Fork → Prop where
  | here {f : Fork} : Has f f
  | deeper {f place : Fork} {child : Component × Fork} (edge : child ∈ f.children)
      (rest : Has child.2 place) : Has f place

/-- Literals come first, then at most one argument, then at most one flag group. -/
def LaidOut (f : Fork) : Prop :=
  ∃ literals arguments groups, arguments ≤ 1 ∧ groups ≤ 1 ∧
    f.children.map (·.1.kind) = List.replicate literals .literal ++
      List.replicate arguments .argument ++ List.replicate groups .flags

/-- What edits keep true of every fork. -/
structure Sound (ignoreCase : Bool) (f : Fork) : Prop where
  laidOut : f.LaidOut
  /-- Nothing follows a flag group. -/
  flagsLast : ∀ child ∈ f.children, child.1.isFlags = true → child.2.children = []
  apart : f.literals.Pairwise (Node.Apart ignoreCase)
  /-- No token selects two children. -/
  answered_once : ∀ token, (f.children.filter (·.1.answers ignoreCase token)).length ≤ 1
  ending : Node.OnePerSender f.ending
  below : ∀ child ∈ f.children, child.2.entries ≠ []

/-- The names of the literals below a fork. -/
def names (f : Fork) : List String :=
  f.literals.map (·.name)

/-- The first child with a property, or the fork without commands where there is none. -/
def childWith (p : Component → Bool) (f : Fork) : Fork :=
  ((f.children.find? fun child => p child.1).map (·.2)).getD .empty

/-- The fork after a turn; it is the fork without commands where there is no such child. -/
def enter (f : Fork) : Turn → Fork
  | .literal name => f.childWith fun c => c.kind == .literal && c.name == name
  | .argument => f.childWith fun c => c.kind == .argument

/-- The fork after some turns. -/
def follow (f : Fork) (path : List Turn) : Fork :=
  path.foldl enter f

end Fork

namespace Node

/-! ## What holds of the forks that store orderly nodes -/

theorem literals_fork (n : Node) : n.fork.literals = n.literals.map (·.1) := by
  have hliterals (literals : List (Literal × Node)) :
      (literalForks literals).filterMap (·.1.literal?) = literals.map (·.1) := by
    rw [literalForks_eq, List.filterMap_map, ← List.filterMap_eq_map]
    rfl
  have hargument : (argumentForks n.argument).filterMap (·.1.literal?) = [] := by
    cases n.argument <;> rfl
  have hflags : (flagsForks n.flags).filterMap (·.1.literal?) = [] := by
    cases n.flags <;> rfl
  rw [Fork.literals, children_fork, List.filterMap_append, List.filterMap_append, hliterals,
    hargument, hflags, List.append_nil, List.append_nil]

theorem laidOut_fork (n : Node) : n.fork.LaidOut := by
  refine ⟨n.literals.length, n.argument.toList.length, n.flags.toList.length, ?_, ?_, ?_⟩
  · cases n.argument <;> simp
  · cases n.flags <;> simp
  · have hliterals : (literalForks n.literals).map (·.1.kind) =
        List.replicate n.literals.length Component.Kind.literal := by
      rw [literalForks_eq, List.map_map, ← List.map_const']
      rfl
    have hargument : (argumentForks n.argument).map (·.1.kind) =
        List.replicate n.argument.toList.length Component.Kind.argument := by
      cases n.argument <;> rfl
    have hflags : (flagsForks n.flags).map (·.1.kind) =
        List.replicate n.flags.toList.length Component.Kind.flags := by
      cases n.flags <;> rfl
    rw [children_fork, List.map_append, List.map_append, hliterals, hargument, hflags]

/-- The children that a token selects are the literals that it selects. -/
theorem filter_answers_fork (n : Node) (ignoreCase : Bool) (token : String) :
    n.fork.children.filter (·.1.answers ignoreCase token) =
      literalForks (n.literals.filter (·.1.answers ignoreCase token)) := by
  have hliterals : (literalForks n.literals).filter (·.1.answers ignoreCase token) =
      literalForks (n.literals.filter (·.1.answers ignoreCase token)) := by
    rw [literalForks_eq, literalForks_eq, List.filter_map]
    rfl
  have hargument : (argumentForks n.argument).filter (·.1.answers ignoreCase token) = [] := by
    cases n.argument <;> rfl
  have hflags : (flagsForks n.flags).filter (·.1.answers ignoreCase token) = [] := by
    cases n.flags <;> rfl
  rw [children_fork, List.filter_append, List.filter_append, hliterals, hargument, hflags,
    List.append_nil, List.append_nil]

/-- The children of a fork are the edges of the node that it stores. -/
theorem mem_children_fork {n : Node} {child : Component × Fork} :
    child ∈ n.fork.children ↔
      (∃ edge ∈ n.literals, child = (.literal edge.1, edge.2.fork)) ∨
      (∃ edge, n.argument = some edge ∧ child = (.argument edge.1, edge.2.fork)) ∨
      ∃ g ending, n.flags = some (g, ending) ∧ child = (.flags g, ⟨ending, []⟩) := by
  have hliterals : child ∈ literalForks n.literals ↔
      ∃ edge ∈ n.literals, child = (.literal edge.1, edge.2.fork) := by
    rw [literalForks_eq, List.mem_map]
    exact exists_congr fun edge => and_congr_right fun _ => eq_comm
  have hargument : child ∈ argumentForks n.argument ↔
      ∃ edge, n.argument = some edge ∧ child = (.argument edge.1, edge.2.fork) := by
    cases n.argument <;> simp [argumentForks]
  have hflags : child ∈ flagsForks n.flags ↔
      ∃ g ending, n.flags = some (g, ending) ∧ child = (.flags g, ⟨ending, []⟩) := by
    rcases n.flags with - | ⟨g, ending⟩ <;> simp [flagsForks]
  rw [children_fork, List.mem_append, List.mem_append, hliterals, hargument, hflags, or_assoc]

/-- The fork that stores an orderly node is sound. -/
theorem Orderly.sound {ignoreCase : Bool} {n : Node} (h : n.Orderly ignoreCase) :
    n.fork.Sound ignoreCase where
  laidOut := n.laidOut_fork
  flagsLast child hchild hflags := by
    rcases mem_children_fork.mp hchild with ⟨edge, -, rfl⟩ | ⟨edge, -, rfl⟩ | ⟨g, ending, -, rfl⟩
    · cases hflags
    · cases hflags
    · rfl
  apart := by
    rw [literals_fork]
    exact h.apart
  answered_once token := by
    rw [filter_answers_fork, length_literalForks]
    exact h.answered_once token
  ending := by
    rw [ending_fork]
    exact h.ending
  below child hchild := by
    rcases mem_children_fork.mp hchild with
      ⟨edge, hedge, rfl⟩ | ⟨edge, hedge, rfl⟩ | ⟨g, ending, hedge, rfl⟩
    · rw [entries_fork]
      exact h.belowLiteral edge hedge
    · rw [entries_fork]
      exact h.belowArgument edge hedge
    · rw [Fork.entries, Fork.childEntries, List.append_nil]
      exact h.belowFlags g ending hedge

/-- Where commands end and nothing follows, all is well if they are for different senders. -/
theorem sound_of_ending {ending : List Entry} (h : OnePerSender ending) (ignoreCase : Bool) :
    Fork.Sound ignoreCase ⟨ending, []⟩ where
  laidOut := ⟨0, 0, 0, Nat.zero_le 1, Nat.zero_le 1, rfl⟩
  flagsLast _ hchild := by cases hchild
  apart := .nil
  answered_once _ := Nat.zero_le 1
  ending := h
  below _ hchild := by cases hchild

theorem Everywhere.sound {ignoreCase : Bool} {n : Node} (hn : n.Everywhere (Orderly ignoreCase)) :
    ∀ place, n.fork.Has place → place.Sound ignoreCase := by
  induction hn with
  | @intro n here _ _ ihLiterals ihArgument =>
      intro place hplace
      cases hplace with
      | here => exact here.sound
      | deeper hchild hrest =>
          rcases mem_children_fork.mp hchild with
            ⟨edge, hedge, rfl⟩ | ⟨edge, hedge, rfl⟩ | ⟨g, ending, hedge, rfl⟩
          · exact ihLiterals edge hedge place hrest
          · exact ihArgument edge hedge place hrest
          · -- there are no forks below a flag group
            cases hrest with
            | here => exact sound_of_ending (here.flagsEnding g ending hedge) ignoreCase
            | deeper hnone _ => cases hnone

/-! ## The order of creation -/

theorem names_fork (n : Node) : n.fork.names = n.names := by
  rw [Fork.names, literals_fork, names, List.map_map]
  rfl

theorem find_literal_fork (n : Node) (name : String) :
    n.fork.children.find? (fun child => child.1.kind == .literal && child.1.name == name) =
      (n.literals.find? (·.1.name == name)).map fun edge => (.literal edge.1, edge.2.fork) := by
  have hliterals : (literalForks n.literals).find?
        (fun child => child.1.kind == .literal && child.1.name == name) =
      (n.literals.find? (·.1.name == name)).map fun edge => (.literal edge.1, edge.2.fork) := by
    rw [literalForks_eq, List.find?_map]
    rfl
  have hargument : (argumentForks n.argument).find?
      (fun child => child.1.kind == .literal && child.1.name == name) = none := by
    cases n.argument <;> rfl
  have hflags : (flagsForks n.flags).find?
      (fun child => child.1.kind == .literal && child.1.name == name) = none := by
    cases n.flags <;> rfl
  rw [children_fork, List.find?_append, List.find?_append, hliterals, hargument, hflags,
    Option.or_none, Option.or_none]

theorem find_argument_fork (n : Node) :
    n.fork.children.find? (fun child => child.1.kind == .argument) =
      n.argument.map fun edge => (.argument edge.1, edge.2.fork) := by
  have hliterals :
      (literalForks n.literals).find? (fun child => child.1.kind == .argument) = none := by
    rw [List.find?_eq_none]
    intro child hchild
    rw [kind_of_mem_literalForks hchild]
    exact Bool.false_ne_true
  have hargument : (argumentForks n.argument).find? (fun child => child.1.kind == .argument) =
      n.argument.map fun edge => (.argument edge.1, edge.2.fork) := by
    cases n.argument <;> rfl
  have hflags : (flagsForks n.flags).find? (fun child => child.1.kind == .argument) = none := by
    cases n.flags <;> rfl
  rw [children_fork, List.find?_append, List.find?_append, hliterals, hargument, hflags,
    Option.none_or, Option.or_none]

theorem enter_fork (n : Node) (turn : Turn) : n.fork.enter turn = (n.enter turn).fork := by
  cases turn with
  | literal name =>
      rw [Fork.enter, Fork.childWith, find_literal_fork, enter]
      cases n.literals.find? (·.1.name == name) <;> rfl
  | argument =>
      rw [Fork.enter, Fork.childWith, find_argument_fork, enter]
      cases n.argument <;> rfl

theorem follow_fork (n : Node) (path : List Turn) :
    n.fork.follow path = (n.follow path).fork := by
  induction path generalizing n with
  | nil => rfl
  | cons turn path ih =>
      show (n.fork.enter turn).follow path = ((n.enter turn).follow path).fork
      rw [enter_fork, ih]

end Node

theorem Tree.rootNames_trie (t : Tree) : t.trie.rootNames = t.rootNames :=
  t.root.names_fork

namespace Trie

/-- In how many of some states, from the first on, the fork after some turns has a literal of a
    name. -/
def age (states : List Trie) (path : List Turn) (name : String) : Nat :=
  (states.takeWhile fun t => (t.root.follow path).names.contains name).length

theorem age_trie (states : List Tree) (path : List Turn) (name : String) :
    age (states.map Tree.trie) path name = Tree.age states path name := by
  have hnames (t : Tree) : (t.trie.root.follow path).names = (t.root.follow path).names := by
    show (t.root.fork.follow path).names = _
    rw [Node.follow_fork, Node.names_fork]
  rw [age, Tree.age, List.takeWhile_map, List.length_map]
  simp only [Function.comp_def, hnames]

/-- In every state of every history all forks are sound, and the literals of each stand in the order
    of their creation: those before others have been there longer. -/
theorem History.wellOrdered {t : Trie} {past : List Trie} (h : History t past) :
    (∀ place, t.root.Has place → place.Sound t.rules.ignoreCase) ∧
    ∀ path, (t.root.follow path).names.Pairwise fun older newer =>
      age (t :: past) path newer < age (t :: past) path older := by
  obtain ⟨tree, trees, hhistory, rfl, rfl⟩ := h.exists_tree
  constructor
  · exact (Tree.Reachable.orderly ⟨trees, hhistory⟩).sound
  · intro path
    show ((tree.root.fork.follow path).names).Pairwise _
    rw [Node.follow_fork, Node.names_fork]
    simp only [← List.map_cons, age_trie]
    exact hhistory.inCreationOrder path

end Trie

/-- After `take` is removed and added again it stands behind `grab`. -/
theorem Trie.History.wellOrdered_market :
    ∃ t past, History t past ∧ t.root.names = ["give", "grab", "take"] ∧
      t.root.Sound false ∧
      t.root.names.Pairwise fun older newer =>
        age (t :: past) [] newer < age (t :: past) [] older := by
  have hmade : History {} [] := .fresh rfl
  have hmarket := ((hmade.edit (.addWord "give")).edit (.addWord "take")).edit (.addWord "grab")
  have hagain := (hmarket.edit (.removeRoot "take")).edit (.addWord "take")
  refine ⟨_, _, hagain, ?_, ?_, hagain.wellOrdered.2 []⟩
  · decide +kernel
  · exact hagain.wellOrdered.1 _ .here

end CommandLine
