import CommandLine.Proofs.Tree.Orderly
import CommandLine.Trie

/-! # Trees and the tries that store them

    A node of a tree has its children apart by their kind; the fork of a trie that stores it has
    them in one list, where a child stands as its rank says at the time when it is put in.
    `Node.fork` is the fork that stores a node. Wherever an edit of a tree looks for a child, the
    trie finds it at its place in the list (`Node.slot_literal`, `Node.slot_argument` and
    `Node.slot_flags`), and both add, merge and remove the same (`Node.insert_fork`,
    `Node.remove_fork`). So the trie that stores a tree stays that through all edits
    (`Tree.Reachable.apply_trie`), and every trie that edits lead to stores a tree that the same
    edits lead to (`Trie.History.exists_tree`). -/

namespace CommandLine

/-! ## Lists of children -/

namespace Fork

variable {child : Component × Fork} {front back children : List (Component × Fork)}

/-- A fork is made of its parts. -/
theorem eq_mk (f : Fork) : f = ⟨f.ending, f.children⟩ := by
  cases f
  rfl

/-- A child is put where those before it do not outrank it and those behind it do. -/
theorem insertChild_split (hfront : ∀ other ∈ front, other.1.kind.rank ≤ child.1.kind.rank)
    (hback : ∀ other ∈ back, child.1.kind.rank < other.1.kind.rank) :
    insertChild child (front ++ back) = front ++ child :: back := by
  rw [insertChild]
  induction front with
  | nil =>
      cases back with
      | nil => rfl
      | cons other back =>
          have hrank : child.1.kind.rank < other.1.kind.rank := hback other List.mem_cons_self
          rw [List.nil_append, List.findIdx_cons, decide_eq_true hrank]
          rfl
  | cons other front ih =>
      have hrank : ¬ child.1.kind.rank < other.1.kind.rank :=
        Nat.not_lt.mpr (hfront other List.mem_cons_self)
      have hrest := ih fun x hx => hfront x (List.mem_cons_of_mem _ hx)
      rw [List.cons_append, List.findIdx_cons, decide_eq_false hrank, cond_false,
        List.insertIdx_succ_cons, hrest, List.cons_append]

theorem set_split (old new : Component × Fork) :
    (front ++ old :: back).set front.length new = front ++ new :: back := by
  rw [List.set_append_right _ _ (Nat.le_refl _), Nat.sub_self, List.set_cons_zero]

theorem eraseIdx_split (old : Component × Fork) :
    (front ++ old :: back).eraseIdx front.length = front ++ back := by
  rw [List.eraseIdx_append_of_length_le (Nat.le_refl _), Nat.sub_self, List.eraseIdx_cons_zero]

theorem find_zipIdx_eq_none {p : Component × Fork → Bool}
    (hchildren : ∀ other ∈ children, p other = false) :
    children.zipIdx.find? (fun slot => p slot.1) = none := by
  rw [List.find?_eq_none]
  intro slot hslot
  rw [hchildren slot.1 (List.fst_mem_of_mem_zipIdx hslot)]
  exact Bool.false_ne_true

/-- The first child with a property, with its place. -/
theorem find_zipIdx_split {p : Component × Fork → Bool} (hfront : ∀ other ∈ front, p other = false)
    (hchild : p child = true) :
    (front ++ child :: back).zipIdx.find? (fun slot => p slot.1) = some (child, front.length) := by
  rw [List.zipIdx_append, List.find?_append, find_zipIdx_eq_none hfront, Option.none_or,
    List.zipIdx_cons, List.find?_cons_of_pos (by exact hchild), Nat.zero_add]

end Fork

/-! ## The fork that stores a node -/

namespace Node

mutual

/-- The fork that stores a node. -/
def fork : Node → Fork
  | ⟨ending, literals, argument, flags⟩ =>
    ⟨ending, literalForks literals ++ argumentForks argument ++ flagsForks flags⟩

/-- The children that store literals. -/
def literalForks : List (Literal × Node) → List (Component × Fork)
  | [] => []
  | (l, child) :: rest => (.literal l, child.fork) :: literalForks rest

/-- The child that stores an argument. -/
def argumentForks : Option (Argument × Node) → List (Component × Fork)
  | none => []
  | some (a, child) => [(.argument a, child.fork)]

/-- The child that stores a flag group. -/
def flagsForks : Option (FlagGroup × List Entry) → List (Component × Fork)
  | none => []
  | some (g, ending) => [(.flags g, ⟨ending, []⟩)]

end

theorem ending_fork (n : Node) : n.fork.ending = n.ending := by
  cases n
  rfl

theorem children_fork (n : Node) :
    n.fork.children =
      literalForks n.literals ++ argumentForks n.argument ++ flagsForks n.flags := by
  cases n
  rfl

theorem fork_empty : empty.fork = .empty :=
  rfl

theorem literalForks_eq (literals : List (Literal × Node)) :
    literalForks literals = literals.map fun (l, child) => (.literal l, child.fork) := by
  induction literals with
  | nil => rfl
  | cons edge rest ih => rw [literalForks, ih, List.map_cons]

theorem literalForks_append (before after : List (Literal × Node)) :
    literalForks (before ++ after) = literalForks before ++ literalForks after := by
  rw [literalForks_eq, literalForks_eq, literalForks_eq, List.map_append]

theorem length_literalForks (literals : List (Literal × Node)) :
    (literalForks literals).length = literals.length := by
  rw [literalForks_eq, List.length_map]

theorem kind_of_mem_literalForks {literals : List (Literal × Node)} {child : Component × Fork}
    (h : child ∈ literalForks literals) : child.1.kind = .literal := by
  rw [literalForks_eq] at h
  obtain ⟨_, _, rfl⟩ := List.mem_map.mp h
  rfl

theorem kind_of_mem_argumentForks {argument : Option (Argument × Node)} {child : Component × Fork}
    (h : child ∈ argumentForks argument) : child.1.kind = .argument := by
  cases argument with
  | none => cases h
  | some edge =>
      rw [argumentForks, List.mem_singleton] at h
      rw [h]
      rfl

theorem kind_of_mem_flagsForks {flags : Option (FlagGroup × List Entry)}
    {child : Component × Fork} (h : child ∈ flagsForks flags) : child.1.kind = .flags := by
  cases flags with
  | none => cases h
  | some edge =>
      rw [flagsForks, List.mem_singleton] at h
      rw [h]
      rfl

/-- A node is bare exactly if its fork is. -/
theorem isBare_fork (n : Node) : n.fork.isBare = n.isBare := by
  obtain ⟨ending, literals, argument, flags⟩ := n
  rw [Fork.isBare, children_fork, ending_fork]
  rcases literals with - | ⟨edge, literals⟩ <;> rcases argument with - | edge <;>
    rcases flags with - | edge <;> simp [isBare, literalForks, argumentForks, flagsForks]

/-! ### The commands -/

theorem childEntries_append (front back : List (Component × Fork)) :
    Fork.childEntries (front ++ back) = Fork.childEntries front ++ Fork.childEntries back := by
  induction front with
  | nil => rfl
  | cons child front ih =>
      rw [List.cons_append, Fork.childEntries, ih, Fork.childEntries, List.append_assoc]

theorem childEntries_flagsForks (flags : Option (FlagGroup × List Entry)) :
    Fork.childEntries (flagsForks flags) = match flags with
      | none => []
      | some (_, ending) => ending := by
  cases flags with
  | none => rfl
  | some edge =>
      rw [flagsForks, Fork.childEntries, Fork.childEntries, Fork.entries, Fork.childEntries,
        List.append_nil, List.append_nil]

mutual

/-- A node and its fork have the same commands, in the same order. -/
theorem entries_fork : ∀ n : Node, n.fork.entries = n.entries
  | ⟨ending, literals, argument, flags⟩ => by
    cases flags <;>
      simp only [fork, Fork.entries, entries, childEntries_append, childEntries_flagsForks,
        childEntries_literalForks literals, childEntries_argumentForks argument, List.append_assoc]

theorem childEntries_literalForks :
    ∀ literals : List (Literal × Node), Fork.childEntries (literalForks literals) =
      literalEntries literals
  | [] => rfl
  | (l, child) :: rest => by
    rw [literalForks, Fork.childEntries, literalEntries, entries_fork child,
      childEntries_literalForks rest]

theorem childEntries_argumentForks :
    ∀ argument : Option (Argument × Node), Fork.childEntries (argumentForks argument) =
      argumentEntries argument
  | none => rfl
  | some (a, child) => by
    rw [argumentForks, Fork.childEntries, Fork.childEntries, List.append_nil, argumentEntries,
      entries_fork child]

end

/-! ### Where components go -/

section Slots

variable {ignoreCase : Bool} {name : String} {n : Node}

/-- A key of a literal that one of some literals has, too. -/
def clashAmong? (ignoreCase : Bool) (l : Literal) (literals : List (Literal × Node)) :
    Option String :=
  literals.findSome? fun edge => l.commonKey? ignoreCase edge.1

theorem compareLiteral_of_shares {l : Literal} {edge : Literal × Node}
    (h : shares ignoreCase l edge = true) (same : Option Fork.Slot) (index : Nat) :
    Fork.compareLiteral ignoreCase name l same ((.literal edge.1, edge.2.fork), index) =
      .ok (some ((.literal edge.1, edge.2.fork), index)) :=
  if_pos (shares_iff.mp h)

theorem compareLiteral_of_not_shares {l : Literal} {edge : Literal × Node}
    (h : shares ignoreCase l edge = false) (same : Option Fork.Slot) (index : Nat) :
    Fork.compareLiteral ignoreCase name l same ((.literal edge.1, edge.2.fork), index) =
      match l.commonKey? ignoreCase edge.1 with
      | some key => .error (.duplicateAlias name key)
      | none => .ok same := by
  refine if_neg fun hkey => ?_
  rw [shares_iff.mpr hkey] at h
  cases h

/-- The comparison with literals of which none is shared stops at the first that clashes. -/
theorem foldlM_compare_apart {l : Literal} {literals : List (Literal × Node)}
    (hapart : ∀ edge ∈ literals, shares ignoreCase l edge = false) (start : Nat)
    (same : Option Fork.Slot) :
    ((literalForks literals).zipIdx start).foldlM (Fork.compareLiteral ignoreCase name l) same =
      match clashAmong? ignoreCase l literals with
      | some key => .error (.duplicateAlias name key)
      | none => .ok same := by
  induction literals generalizing start with
  | nil => rfl
  | cons edge rest ih =>
      have hrest := ih (fun x hx => hapart x (List.mem_cons_of_mem _ hx)) (start + 1)
      rw [literalForks, List.zipIdx_cons, List.foldlM_cons,
        compareLiteral_of_not_shares (hapart edge List.mem_cons_self), clashAmong?,
        List.findSome?_cons]
      cases l.commonKey? ignoreCase edge.1 with
      | some key => rfl
      | none => exact hrest

/-- The comparison with literals of which one is shared finds it, unless another clashes. -/
theorem foldlM_compare_split {l : Literal} {edge : Literal × Node}
    {before after : List (Literal × Node)}
    (hbefore : ∀ other ∈ before, shares ignoreCase l other = false)
    (hshared : shares ignoreCase l edge = true)
    (hafter : ∀ other ∈ after, shares ignoreCase l other = false) :
    (literalForks (before ++ edge :: after)).zipIdx.foldlM
        (Fork.compareLiteral ignoreCase name l) none =
      match clashAmong? ignoreCase l (before ++ after) with
      | some key => .error (.duplicateAlias name key)
      | none => .ok (some ((.literal edge.1, edge.2.fork), before.length)) := by
  -- behind the one that is shared nothing is shared, so that it stays the last
  have hrest : ((literalForks (edge :: after)).zipIdx before.length).foldlM
      (Fork.compareLiteral ignoreCase name l) none =
      match clashAmong? ignoreCase l after with
      | some key => .error (.duplicateAlias name key)
      | none => .ok (some ((.literal edge.1, edge.2.fork), before.length)) := by
    rw [literalForks, List.zipIdx_cons, List.foldlM_cons, compareLiteral_of_shares hshared]
    exact foldlM_compare_apart hafter _ _
  rw [literalForks_append, List.zipIdx_append, List.foldlM_append, foldlM_compare_apart hbefore,
    length_literalForks, Nat.zero_add, clashAmong?, clashAmong?, List.findSome?_append]
  cases before.findSome? fun edge => l.commonKey? ignoreCase edge.1 with
  | some key => rfl
  | none => exact hrest

/-- A literal is compared with literals only. -/
theorem foldlM_compare_others {l : Literal} {children : List (Component × Fork)}
    (hothers : ∀ child ∈ children, child.1.kind ≠ .literal) (start : Nat)
    (same : Option Fork.Slot) :
    (children.zipIdx start).foldlM (Fork.compareLiteral ignoreCase name l) same = .ok same := by
  induction children generalizing start with
  | nil => rfl
  | cons child rest ih =>
      have hrest := ih (fun x hx => hothers x (List.mem_cons_of_mem _ hx)) (start + 1)
      obtain ⟨component, fork⟩ := child
      cases component with
      | literal other => exact absurd rfl (hothers _ List.mem_cons_self)
      | argument a => exact hrest
      | flags g => exact hrest

theorem slot_literalForks (n : Node) (l : Literal) :
    Fork.slot ignoreCase name n.fork.children (.literal l) =
      (literalForks n.literals).zipIdx.foldlM (Fork.compareLiteral ignoreCase name l) none := by
  have hothers : ∀ child ∈ argumentForks n.argument ++ flagsForks n.flags,
      child.1.kind ≠ .literal := by
    intro child hchild
    rcases List.mem_append.mp hchild with hchild | hchild
    · rw [kind_of_mem_argumentForks hchild]
      exact Component.Kind.noConfusion
    · rw [kind_of_mem_flagsForks hchild]
      exact Component.Kind.noConfusion
  rw [Fork.slot, children_fork, List.append_assoc, List.zipIdx_append, List.foldlM_append]
  simp only [foldlM_compare_others hothers]
  exact bind_pure _

/-- Where a node has a literal, its fork has it at the same place, and where one is in the way, it
    is in the way there. -/
theorem slot_literal (hn : n.Orderly ignoreCase) (l : Literal) :
    Fork.slot ignoreCase name n.fork.children (.literal l) =
      match n.literalSlot ignoreCase name l with
      | .error err => .error err
      | .ok none => .ok none
      | .ok (some slot) =>
        .ok (some ((.literal slot.edge.1, slot.edge.2.fork), slot.before.length)) := by
  have hclash : n.clash? ignoreCase l = clashAmong? ignoreCase l
      (n.literals.filter fun edge => !shares ignoreCase l edge) := rfl
  rw [slot_literalForks]
  by_cases hshared : ∃ edge ∈ n.literals, shares ignoreCase l edge = true
  · obtain ⟨edge, hedge, hshared⟩ := hshared
    obtain ⟨before, after, hsplit⟩ := List.append_of_mem hedge
    have hother := hn.shared_once hsplit hshared
    obtain ⟨hbefore, hafter⟩ := List.forall_mem_append.mp hother
    have hfilter : n.literals.filter (fun edge => !shares ignoreCase l edge) = before ++ after := by
      rw [hsplit, List.filter_append, List.filter_cons_of_neg (by simp [hshared]),
        ← List.filter_append, List.filter_eq_self]
      exact fun other hmem => by simp [hother other hmem]
    rw [hfilter] at hclash
    rw [hsplit, foldlM_compare_split hbefore hshared hafter]
    cases hkey : clashAmong? ignoreCase l (before ++ after) with
    | some key => rw [literalSlot, hclash, hkey]
    | none => rw [literalSlot_of_split (hclash.trans hkey) hsplit hbefore hshared]
  · have hvacant : ∀ edge ∈ n.literals, shares ignoreCase l edge = false :=
      fun edge hedge => Bool.eq_false_iff.mpr fun hshares => hshared ⟨edge, hedge, hshares⟩
    have hfilter : n.literals.filter (fun edge => !shares ignoreCase l edge) = n.literals :=
      List.filter_eq_self.mpr fun edge hedge => by simp [hvacant edge hedge]
    rw [hfilter] at hclash
    rw [foldlM_compare_apart hvacant]
    cases hkey : clashAmong? ignoreCase l n.literals with
    | some key => rw [literalSlot, hclash, hkey]
    | none => rw [literalSlot_of_vacant (hclash.trans hkey) hvacant]

theorem slot_argument (n : Node) (a : Argument) :
    Fork.slot ignoreCase name n.fork.children (.argument a) =
      match n.argumentSlot name a with
      | .error err => .error err
      | .ok none => .ok none
      | .ok (some (old, child)) =>
        .ok (some ((.argument old, child.fork), (literalForks n.literals).length)) := by
  have hliterals : ∀ child ∈ literalForks n.literals,
      (child.1.kind == Component.Kind.argument) = false := by
    intro child hchild
    rw [kind_of_mem_literalForks hchild]
    rfl
  have hflags : ∀ child ∈ flagsForks n.flags,
      (child.1.kind == Component.Kind.argument) = false := by
    intro child hchild
    rw [kind_of_mem_flagsForks hchild]
    rfl
  rw [Fork.slot, argumentSlot, children_fork, Fork.ofKind]
  cases n.argument with
  | none =>
      rw [argumentForks, List.append_nil,
        Fork.find_zipIdx_eq_none (List.forall_mem_append.mpr ⟨hliterals, hflags⟩)]
  | some edge =>
      rw [argumentForks, List.append_assoc, List.singleton_append,
        Fork.find_zipIdx_split hliterals rfl]
      show (if edge.1.name = a.name then _ else _) = _
      by_cases hname : edge.1.name = a.name
      · rw [if_pos hname]
        simp only [if_pos hname]
      · rw [if_neg hname]
        simp only [if_neg hname]
        rfl

theorem slot_flags (n : Node) (g : FlagGroup) :
    Fork.slot ignoreCase name n.fork.children (.flags g) =
      match n.flagsSlot name g with
      | .error err => .error err
      | .ok none => .ok none
      | .ok (some (old, ending)) =>
        .ok (some ((.flags old, ⟨ending, []⟩),
          (literalForks n.literals ++ argumentForks n.argument).length)) := by
  have hbefore : ∀ child ∈ literalForks n.literals ++ argumentForks n.argument,
      (child.1.kind == Component.Kind.flags) = false := by
    intro child hchild
    rcases List.mem_append.mp hchild with hchild | hchild
    · rw [kind_of_mem_literalForks hchild]
      rfl
    · rw [kind_of_mem_argumentForks hchild]
      rfl
  rw [Fork.slot, flagsSlot, children_fork, Fork.ofKind]
  cases n.flags with
  | none => rw [flagsForks, List.append_nil, Fork.find_zipIdx_eq_none hbefore]
  | some edge =>
      rw [flagsForks, Fork.find_zipIdx_split hbefore rfl]
      by_cases hsigned : Flag.signature edge.1.flags = Flag.signature g.flags
      · simp only [Fork.signature?, hsigned, if_true]
      · simp only [Fork.signature?, Option.some.injEq, hsigned, if_false]

/-- Nothing is found where there are no children. -/
theorem slot_nil (c : Component) : Fork.slot ignoreCase name [] c = .ok none := by
  cases c <;> rfl

end Slots

/-! ### The fork of a changed node -/

section Changed

variable {n : Node}

/-- The fork of a node with other children. -/
theorem fork_eq_with {n' : Node} {children : List (Component × Fork)}
    (ending : n'.ending = n.ending) (hchildren : n'.fork.children = children) :
    n'.fork = { n.fork with children } := by
  have hending : n'.fork.ending = n.fork.ending := by rw [ending_fork, ending_fork, ending]
  calc n'.fork = ⟨n'.fork.ending, n'.fork.children⟩ := Fork.eq_mk _
    _ = ⟨n.fork.ending, children⟩ := congrArg₂ Fork.mk hending hchildren

theorem fork_setEnding (n : Node) (ending : List Entry) :
    fork { n with ending } = { n.fork with ending } := by
  cases n
  rfl

theorem fork_addLiteral (n : Node) (l : Literal) (child : Node) :
    fork { n with literals := n.literals ++ [(l, child)] } =
      { n.fork with children := Fork.insertChild (.literal l, child.fork) n.fork.children } := by
  have hplace : Fork.insertChild (.literal l, child.fork) n.fork.children =
      literalForks n.literals ++ (.literal l, child.fork) ::
        (argumentForks n.argument ++ flagsForks n.flags) := by
    rw [children_fork, List.append_assoc]
    refine Fork.insertChild_split (fun other hother => ?_) (fun other hother => ?_)
    · rw [kind_of_mem_literalForks hother]
      exact Nat.le_refl 0
    · rcases List.mem_append.mp hother with hother | hother
      · rw [kind_of_mem_argumentForks hother]
        exact Nat.zero_lt_one
      · rw [kind_of_mem_flagsForks hother]
        exact Nat.zero_lt_two
  refine fork_eq_with rfl ?_
  rw [hplace, children_fork, literalForks_append, List.append_assoc, List.append_assoc]
  rfl

theorem fork_addArgument (vacant : n.argument = none) (a : Argument) (child : Node) :
    fork { n with argument := some (a, child) } =
      { n.fork with children := Fork.insertChild (.argument a, child.fork) n.fork.children } := by
  refine fork_eq_with rfl ?_
  rw [children_fork, children_fork, vacant, argumentForks, argumentForks, List.append_nil,
    Fork.insertChild_split]
  · simp
  · intro other hother
    rw [kind_of_mem_literalForks hother]
    exact Nat.zero_le 1
  · intro other hother
    rw [kind_of_mem_flagsForks hother]
    exact Nat.one_lt_two

theorem fork_addFlags (vacant : n.flags = none) (g : FlagGroup) (ending : List Entry) :
    fork { n with flags := some (g, ending) } =
      { n.fork with children := Fork.insertChild (.flags g, ⟨ending, []⟩) n.fork.children } := by
  refine fork_eq_with rfl ?_
  rw [children_fork, children_fork, vacant, flagsForks, flagsForks, Fork.insertChild_split]
  · intro other hother
    rcases List.mem_append.mp hother with hother | hother
    · rw [kind_of_mem_literalForks hother]
      exact Nat.zero_le 2
    · rw [kind_of_mem_argumentForks hother]
      exact Nat.le_succ 1
  · intro other hother
    cases hother

/-- The children of a fork around a literal. -/
theorem children_fork_of_literal {before after : List (Literal × Node)} {edge : Literal × Node}
    (split : n.literals = before ++ edge :: after) :
    n.fork.children = literalForks before ++ (.literal edge.1, edge.2.fork) ::
      (literalForks after ++ argumentForks n.argument ++ flagsForks n.flags) := by
  rw [children_fork, split, literalForks_append, literalForks]
  simp

/-- The children of a fork around the argument. -/
theorem children_fork_of_argument {edge : Argument × Node} (taken : n.argument = some edge) :
    n.fork.children =
      literalForks n.literals ++ (.argument edge.1, edge.2.fork) :: flagsForks n.flags := by
  rw [children_fork, taken, argumentForks]
  simp

/-- The children of a fork around the flag group. -/
theorem children_fork_of_flags {g : FlagGroup} {ending : List Entry}
    (taken : n.flags = some (g, ending)) :
    n.fork.children =
      literalForks n.literals ++ argumentForks n.argument ++ [(.flags g, ⟨ending, []⟩)] := by
  rw [children_fork, taken, flagsForks]

theorem fork_setLiteral {before after : List (Literal × Node)} {edge : Literal × Node}
    (split : n.literals = before ++ edge :: after) (l : Literal) (child : Node) :
    fork { n with literals := before ++ (l, child) :: after } =
      { n.fork with children := n.fork.children.set before.length (.literal l, child.fork) } := by
  refine fork_eq_with rfl ?_
  rw [children_fork_of_literal split, ← length_literalForks, Fork.set_split,
    children_fork_of_literal rfl]

theorem fork_setArgument {edge : Argument × Node} (taken : n.argument = some edge) (a : Argument)
    (child : Node) :
    fork { n with argument := some (a, child) } =
      { n.fork with
        children :=
          n.fork.children.set (literalForks n.literals).length (.argument a, child.fork) } := by
  refine fork_eq_with rfl ?_
  rw [children_fork_of_argument taken, Fork.set_split, children_fork_of_argument rfl]

theorem fork_setFlags {g : FlagGroup} {ending : List Entry} (taken : n.flags = some (g, ending))
    (left : List Entry) :
    fork { n with flags := some (g, left) } =
      { n.fork with
        children := n.fork.children.set (literalForks n.literals ++ argumentForks n.argument).length
          (.flags g, ⟨left, []⟩) } := by
  refine fork_eq_with rfl ?_
  rw [children_fork_of_flags taken, Fork.set_split, children_fork_of_flags rfl]

theorem fork_eraseLiteral {before after : List (Literal × Node)} {edge : Literal × Node}
    (split : n.literals = before ++ edge :: after) :
    fork { n with literals := before ++ after } =
      { n.fork with children := n.fork.children.eraseIdx before.length } := by
  refine fork_eq_with rfl ?_
  rw [children_fork_of_literal split, ← length_literalForks, Fork.eraseIdx_split, children_fork,
    literalForks_append, List.append_assoc, List.append_assoc, List.append_assoc]

theorem fork_eraseArgument {edge : Argument × Node} (taken : n.argument = some edge) :
    fork { n with argument := none } =
      { n.fork with
        children := n.fork.children.eraseIdx (literalForks n.literals).length } := by
  refine fork_eq_with rfl ?_
  rw [children_fork_of_argument taken, Fork.eraseIdx_split, children_fork, argumentForks,
    List.append_nil]

theorem fork_eraseFlags {g : FlagGroup} {ending : List Entry}
    (taken : n.flags = some (g, ending)) :
    fork { n with flags := none } =
      { n.fork with
        children := n.fork.children.eraseIdx
          (literalForks n.literals ++ argumentForks n.argument).length } := by
  refine fork_eq_with rfl ?_
  rw [children_fork_of_flags taken, Fork.eraseIdx_split, children_fork, flagsForks]

end Changed

/-! ### Edits -/

theorem check_fork {rules : Rules} {c : Command} {components : List Component} {n : Node}
    (hn : n.Everywhere (Orderly rules.ignoreCase)) (hlast : Command.FlagsLast components)
    (name : String) :
    Fork.check rules c components name n.fork = check rules c components name n := by
  induction components generalizing name n with
  | nil => rw [Fork.check, check, ending_fork]
  | cons component rest ih =>
      cases component with
      | literal l =>
          rw [Fork.check, slot_literal hn.here, check]
          rcases hslot : n.literalSlot rules.ignoreCase name l with err | (- | slot)
          · rfl
          · rfl
          · obtain ⟨-, hsplit, -, -⟩ := literalSlot_eq_some hslot
            exact ih (hn.literal (hsplit ▸ List.mem_append_right _ List.mem_cons_self)) hlast _
      | argument a =>
          rw [Fork.check, slot_argument, check]
          rcases hslot : n.argumentSlot name a with err | (- | ⟨old, child⟩)
          · rfl
          · rfl
          · exact ih (hn.argument (argumentSlot_eq_some hslot).1) hlast _
      | flags g =>
          cases hlast
          rw [Fork.check, slot_flags, check]
          rcases n.flagsSlot name g with err | (- | ⟨old, ending⟩)
          · rfl
          · rfl
          · rfl

/-- Adding to a node and adding to its fork come to the same. -/
theorem insert_fork {rules : Rules} {e : Entry} {components : List Component} {n : Node}
    (hn : n.Everywhere (Orderly rules.ignoreCase)) (hlast : Command.FlagsLast components)
    (name : String) :
    Fork.insert rules e components name n.fork =
      (insert rules e components name n).map fork := by
  induction components generalizing name n with
  | nil =>
      rw [Fork.insert, insert, Except.map, fork_setEnding, ending_fork]
  | cons component rest ih =>
      have hnew := ih (everywhere_orderly_empty rules.ignoreCase)
      cases component with
      | literal l =>
          rw [Fork.insert, slot_literal hn.here, insert]
          rcases hslot : n.literalSlot rules.ignoreCase name l with err | (- | slot)
          · rfl
          · dsimp only
            rw [Component.name, ← fork_empty, hnew hlast]
            cases insert rules e rest l.name empty with
            | error err => rfl
            | ok child => exact congrArg Except.ok (fork_addLiteral n l child).symm
          · obtain ⟨-, hsplit, -, -⟩ := literalSlot_eq_some hslot
            have hedge : slot.edge ∈ n.literals := by simp [hsplit]
            dsimp only
            rw [Component.name, ih (hn.literal hedge) hlast]
            cases insert rules e rest slot.edge.1.name slot.edge.2 with
            | error err => rfl
            | ok child => exact congrArg Except.ok (fork_setLiteral hsplit _ child).symm
      | argument a =>
          rw [Fork.insert, slot_argument, insert]
          rcases hslot : n.argumentSlot name a with err | (- | ⟨old, child⟩)
          · rfl
          · dsimp only
            rw [Component.name, ← fork_empty, hnew hlast]
            cases insert rules e rest a.name empty with
            | error err => rfl
            | ok child =>
                exact congrArg Except.ok
                  (fork_addArgument (argumentSlot_eq_none hslot) a child).symm
          · have htaken := (argumentSlot_eq_some hslot).1
            dsimp only
            rw [Component.name, ih (hn.argument htaken) hlast]
            cases insert rules e rest old.name child with
            | error err => rfl
            | ok child => exact congrArg Except.ok (fork_setArgument htaken old child).symm
      | flags g =>
          cases hlast
          rw [Fork.insert, slot_flags, insert]
          rcases hslot : n.flagsSlot name g with err | (- | ⟨old, ending⟩)
          · rfl
          · exact congrArg Except.ok (fork_addFlags (flagsSlot_eq_none hslot) g _).symm
          · exact congrArg Except.ok (fork_setFlags (flagsSlot_eq_some hslot).1 _).symm

/-- Removing from a node and removing from its fork come to the same. -/
theorem remove_fork {ignoreCase : Bool} {components : List Component} {n : Node}
    (hn : n.Everywhere (Orderly ignoreCase)) (serial : Nat) (name : String) :
    Fork.remove ignoreCase serial components name n.fork =
      (remove ignoreCase serial components name n).map fork := by
  induction components generalizing name n with
  | nil =>
      rw [Fork.remove, remove, ending_fork]
      cases withoutEntry serial n.ending with
      | none => rfl
      | some ending => exact congrArg some (fork_setEnding n ending).symm
  | cons component rest ih =>
      cases component with
      | literal l =>
          rw [Fork.remove, slot_literal hn.here, remove]
          rcases hslot : n.literalSlot ignoreCase name l with err | (- | ⟨before, edge, after⟩)
          · rfl
          · rfl
          · obtain ⟨-, hsplit, -, -⟩ := literalSlot_eq_some hslot
            have hedge : edge ∈ n.literals := by simp [hsplit]
            dsimp only
            rw [Component.name, ih (hn.literal hedge)]
            cases remove ignoreCase serial rest edge.1.name edge.2 with
            | none => rfl
            | some child =>
                simp only [Option.map_some, isBare_fork]
                rcases keep_cases edge.1 child with ⟨hbare, hkeep⟩ | ⟨hbare, hkeep⟩
                · rw [hbare, if_pos rfl, hkeep, Option.toList_none, List.append_nil,
                    fork_eraseLiteral hsplit]
                · rw [hbare, if_neg Bool.false_ne_true, hkeep, Option.toList_some,
                    List.append_assoc, List.singleton_append, fork_setLiteral hsplit]
      | argument a =>
          rw [Fork.remove, slot_argument, remove]
          rcases hslot : n.argumentSlot name a with err | (- | ⟨old, child⟩)
          · rfl
          · rfl
          · have htaken := (argumentSlot_eq_some hslot).1
            dsimp only
            rw [Component.name, ih (hn.argument htaken)]
            cases remove ignoreCase serial rest old.name child with
            | none => rfl
            | some child =>
                simp only [Option.map_some, isBare_fork]
                rcases keep_cases old child with ⟨hbare, hkeep⟩ | ⟨hbare, hkeep⟩
                · rw [hbare, if_pos rfl, hkeep, fork_eraseArgument htaken]
                · rw [hbare, if_neg Bool.false_ne_true, hkeep, fork_setArgument htaken]
      | flags g =>
          rw [Fork.remove, slot_flags]
          rcases rest with - | ⟨next, rest⟩
          · rw [remove]
            rcases hslot : n.flagsSlot name g with err | (- | ⟨old, ending⟩)
            · rfl
            · rfl
            · have htaken := (flagsSlot_eq_some hslot).1
              dsimp only
              rw [Fork.remove]
              cases withoutEntry serial ending with
              | none => rfl
              | some left =>
                  simp only [Option.map_some, Fork.isBare, List.isEmpty_nil, Bool.and_true]
                  cases left with
                  | nil => exact congrArg some (fork_eraseFlags htaken).symm
                  | cons e left => exact congrArg some (fork_setFlags htaken _).symm
          · -- no component leads on from a flag group
            rw [remove]
            rcases n.flagsSlot name g with err | (- | ⟨old, ending⟩)
            · rfl
            · rfl
            · dsimp only
              rw [Fork.remove, slot_nil]
              rfl

/-- A child answers a name if it stores a literal that does. -/
theorem answers_literalForks {ignoreCase : Bool} {name : String} {literals : List (Literal × Node)}
    (h : ∀ edge ∈ literals, edge.1.answers ignoreCase name = false) :
    ∀ child ∈ literalForks literals, child.1.answers ignoreCase name = false := by
  intro child hchild
  rw [literalForks_eq] at hchild
  obtain ⟨edge, hedge, rfl⟩ := List.mem_map.mp hchild
  exact h edge hedge

theorem answers_fork_eq_none {n : Node} {ignoreCase : Bool} {name : String}
    (h : n.literals.find? (·.1.answers ignoreCase name) = none) :
    n.fork.children.zipIdx.find? (fun slot => slot.1.1.answers ignoreCase name) = none := by
  rw [List.find?_eq_none] at h
  refine Fork.find_zipIdx_eq_none (p := fun child => child.1.answers ignoreCase name) ?_
  rw [children_fork, List.forall_mem_append, List.forall_mem_append]
  refine ⟨⟨answers_literalForks fun edge hedge => Bool.eq_false_iff.mpr (h edge hedge), ?_⟩, ?_⟩
  · intro child hchild
    have hkind := kind_of_mem_argumentForks hchild
    obtain ⟨c, fork⟩ := child
    cases c <;> first | rfl | cases hkind
  · intro child hchild
    have hkind := kind_of_mem_flagsForks hchild
    obtain ⟨c, fork⟩ := child
    cases c <;> first | rfl | cases hkind

/-- The first literal that a name selects has its place in the fork. -/
theorem answers_fork_eq_some {n : Node} {ignoreCase : Bool} {name : String}
    {edge : Literal × Node} (h : n.literals.find? (·.1.answers ignoreCase name) = some edge) :
    ∃ index, n.fork.children.zipIdx.find? (fun slot => slot.1.1.answers ignoreCase name) =
        some ((.literal edge.1, edge.2.fork), index) ∧
      fork { n with literals := n.literals.eraseP (·.1.answers ignoreCase name) } =
        { n.fork with children := n.fork.children.eraseIdx index } := by
  obtain ⟨hedge, before, after, hsplit, hbefore⟩ := List.find?_eq_some_iff_append.mp h
  have hnone : ∀ other ∈ before, other.1.answers ignoreCase name = false :=
    fun other hother => by simpa using hbefore other hother
  have herase : n.literals.eraseP (·.1.answers ignoreCase name) = before ++ after := by
    rw [hsplit, List.eraseP_append_right _ fun other hother => by simp [hnone other hother],
      List.eraseP_cons_of_pos (by exact hedge)]
  refine ⟨before.length, ?_, by rw [herase, fork_eraseLiteral hsplit]⟩
  rw [children_fork_of_literal hsplit, ← length_literalForks]
  exact Fork.find_zipIdx_split (p := fun child => child.1.answers ignoreCase name)
    (answers_literalForks hnone) hedge

end Node

/-! ## The trie that stores a tree -/

namespace Tree

/-- The trie that stores a tree. -/
def trie (t : Tree) : Trie :=
  { t with root := t.root.fork }

variable {t : Tree}

theorem entries_trie (t : Tree) : t.trie.entries = t.entries :=
  t.root.entries_fork

theorem checkUnlocked_trie (t : Tree) : t.trie.checkUnlocked = t.checkUnlocked :=
  rfl

/-- The trie that stores a tree adds a command as the tree does, with the same answer. -/
theorem Reachable.insert_trie (ht : t.Reachable) (c : Command) :
    t.trie.insert c = (t.insert c).map fun (t', e) => (t'.trie, e) := by
  rw [Trie.insert, insert, checkUnlocked_trie]
  cases t.checkUnlocked with
  | error err => rfl
  | ok _ =>
      cases hvalid : c.validate with
      | error err => rfl
      | ok _ =>
          have hlast := Command.flagsLast_of_validate hvalid
          have hcheck : Fork.check t.trie.rules c c.components rootName t.trie.root =
              Node.check t.rules c c.components rootName t.root :=
            Node.check_fork ht.orderly hlast rootName
          have hinsert : Fork.insert t.trie.rules ⟨t.trie.nextSerial, c⟩ c.components rootName
              t.trie.root = (Node.insert t.rules ⟨t.nextSerial, c⟩ c.components rootName
                t.root).map Node.fork :=
            Node.insert_fork ht.orderly hlast rootName
          simp only [hcheck, hinsert]
          cases Node.check t.rules c c.components rootName t.root with
          | error err => rfl
          | ok _ =>
              cases Node.insert t.rules ⟨t.nextSerial, c⟩ c.components rootName t.root with
              | error err => rfl
              | ok root => rfl

/-- The trie that stores a tree removes a command as the tree does, with the same answer. -/
theorem Reachable.remove_trie (ht : t.Reachable) (e : Entry) :
    t.trie.remove e = (t.remove e).map trie := by
  have hremove : Fork.remove t.trie.rules.ignoreCase e.serial e.command.components rootName
      t.trie.root = (Node.remove t.rules.ignoreCase e.serial e.command.components rootName
        t.root).map Node.fork :=
    Node.remove_fork ht.orderly e.serial rootName
  rw [Trie.remove, remove, checkUnlocked_trie, hremove]
  cases t.checkUnlocked with
  | error err => rfl
  | ok _ =>
      cases Node.remove t.rules.ignoreCase e.serial e.command.components rootName t.root with
      | none => rfl
      | some root => rfl

/-- The trie that stores a tree removes a root as the tree does, and gives the same commands. -/
theorem removeRoot_trie (t : Tree) (name : String) :
    t.trie.removeRoot name =
      (t.removeRoot name).map fun (t', removed) => (t'.trie, removed) := by
  have hroot : t.trie.root = t.root.fork := rfl
  have hcase : t.trie.rules = t.rules := rfl
  simp only [Trie.removeRoot, removeRoot, checkUnlocked_trie, hroot, hcase]
  cases t.checkUnlocked with
  | error err => rfl
  | ok _ =>
      cases hfind : t.root.literals.find? (·.1.answers t.rules.ignoreCase name) with
      | none =>
          rw [Node.answers_fork_eq_none hfind]
          rfl
      | some edge =>
          obtain ⟨index, hfork, herase⟩ := Node.answers_fork_eq_some hfind
          rw [hfork]
          simp only [bind, Except.bind, pure, Except.pure, Except.map, trie, herase,
            Node.entries_fork]

end Tree

/-! ## Edits of tries -/

namespace Trie

/-- The trie after an edit. An edit that is refused changes nothing. -/
def apply (t : Trie) : Tree.Edit → Trie
  | .insert c =>
    match t.insert c with
    | .ok (t', _) => t'
    | .error _ => t
  | .remove e =>
    match t.remove e with
    | .ok t' => t'
    | .error _ => t
  | .removeRoot name =>
    match t.removeRoot name with
    | .ok (t', _) => t'
    | .error _ => t
  | .lock => t.lock
  | .replaceCommands b => { t with rules := { t.rules with replaceCommands := b } }
  | .ignoreLock b => { t with ignoreLock := b }

/-- A trie with the tries that it was before, the latest first. -/
inductive History : Trie → List Trie → Prop where
  | fresh {t : Trie} (bare : t.root = .empty) : History t []
  | edit {t : Trie} {past : List Trie} (before : History t past) (edit : Tree.Edit) :
      History (t.apply edit) (t :: past)

end Trie

/-- Editing the trie that stores a tree and storing the edited tree come to the same. -/
theorem Tree.Reachable.apply_trie {t : Tree} (ht : t.Reachable) (edit : Edit) :
    t.trie.apply edit = (t.apply edit).trie := by
  cases edit with
  | insert c =>
      rw [Trie.apply, ht.insert_trie, apply]
      rcases t.insert c with err | ⟨t', e⟩ <;> rfl
  | remove e =>
      rw [Trie.apply, ht.remove_trie, apply]
      rcases t.remove e with err | t' <;> rfl
  | removeRoot name =>
      rw [Trie.apply, removeRoot_trie, apply]
      rcases t.removeRoot name with err | ⟨t', removed⟩ <;> rfl
  | lock => rfl
  | replaceCommands b => rfl
  | ignoreLock b => rfl

/-- Every trie that edits lead to stores a tree that the same edits lead to. -/
theorem Trie.History.exists_tree {t : Trie} {past : List Trie} (h : History t past) :
    ∃ (tree : Tree) (trees : List Tree), Tree.History tree trees ∧ tree.trie = t ∧
      trees.map Tree.trie = past := by
  induction h with
  | @fresh t bare =>
      refine ⟨{ t with root := .empty }, [], .fresh rfl, ?_, rfl⟩
      obtain ⟨rules, ignoreLock, locked, root, nextSerial⟩ := t
      cases bare
      rfl
  | @edit t past before edit ih =>
      obtain ⟨tree, trees, hhistory, rfl, rfl⟩ := ih
      refine ⟨tree.apply edit, tree :: trees, hhistory.edit edit, ?_, rfl⟩
      exact (Tree.Reachable.apply_trie ⟨trees, hhistory⟩ edit).symm

end CommandLine
