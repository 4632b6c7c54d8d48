import CommandLine.Proofs.Focus.Replay
import CommandLine.Proofs.Tree.Restriction

/-! # What a sender sees of a tree

    `Node.visible` is what removing the commands that a sender may not run leaves of a node. A
    sender finds there what it finds at the node: the literals, the argument and the flag group
    below which it may run something, and nothing else. Only flags behind optional arguments may be
    others, since a look for them stops at the first flag group, also at one that cannot be seen
    (`Node.flagsBelow?_visible_of_permitted`). -/

namespace CommandLine

namespace Node

variable {ctx : Context} {n : Node}

/-! ## What is visible at a node -/

theorem anyPermitted_filter (ctx : Context) (entries : List Entry) :
    anyPermitted ctx (entries.filter fun e => e.command.isPermitted ctx) =
      anyPermitted ctx entries := by
  simp only [anyPermitted, List.any_filter, Bool.and_self]

/-- A sender may run something below a node exactly if there is something to see. -/
theorem permits_visible (n : Node) (ctx : Context) : (n.visible ctx).permits ctx = n.permits ctx := by
  rw [permits, visible, entries_restrict]
  exact anyPermitted_filter ctx n.entries

/-- Which commands are visible is for the sender and its permissions to say. -/
theorem visible_eq_of_sameSender {after : Context} (h : SameSender ctx after) (n : Node) :
    n.visible after = n.visible ctx :=
  restrict_congr fun e _ => h.isPermitted_eq e.command

theorem visible_literals (n : Node) (ctx : Context) :
    (n.visible ctx).literals = (n.literals.filter fun edge => edge.2.permits ctx).map
      fun edge => (edge.1, edge.2.visible ctx) := by
  rw [visible, restrict_literals, restrictLiterals_eq]
  rfl

theorem visible_argument (n : Node) (ctx : Context) :
    (n.visible ctx).argument = (n.argument.filter fun edge => edge.2.permits ctx).map
      fun edge => (edge.1, edge.2.visible ctx) := by
  rw [visible, restrict_argument]
  cases n.argument with
  | none => rfl
  | some edge =>
      rw [restrictArgument, Option.filter_some]
      cases h : edge.2.permits ctx with
      | true => exact if_pos h
      | false => exact if_neg (Bool.eq_false_iff.mp h)

theorem visible_flags (n : Node) (ctx : Context) :
    (n.visible ctx).flags = (n.flags.filter fun edge => anyPermitted ctx edge.2).map
      fun edge => (edge.1, edge.2.filter fun e => e.command.isPermitted ctx) := by
  rw [visible, restrict_flags]
  cases n.flags with
  | none => rfl
  | some edge =>
      rw [restrictFlags, Option.filter_some]
      cases h : anyPermitted ctx edge.2 with
      | true => exact if_pos h
      | false => exact if_neg (Bool.eq_false_iff.mp h)

/-- Where one element at most has a property, it makes no difference when it is looked for. -/
theorem find_filter_of_once {α : Type} {p q : α → Bool} {xs : List α}
    (h : (xs.filter q).length ≤ 1) : (xs.filter p).find? q = (xs.find? q).filter p := by
  have hcomm : (xs.filter p).filter q = (xs.filter q).filter p := by
    rw [List.filter_filter, List.filter_filter]
    simp only [Bool.and_comm]
  rw [← List.head?_filter, ← List.head?_filter, hcomm]
  rcases hfound : xs.filter q with - | ⟨x, - | ⟨y, rest⟩⟩
  · rfl
  · rw [List.filter_cons]
    cases hx : p x <;> simp [Option.filter, hx]
  · simp [hfound] at h

/-- A token selects the literal that it selects among all, if it can be seen. -/
theorem findLiteral_visible {ignoreCase : Bool} (hn : n.Orderly ignoreCase) (ctx : Context)
    (token : String) :
    (n.visible ctx).findLiteral ignoreCase token =
      ((n.findLiteral ignoreCase token).filter fun edge => edge.2.permits ctx).map
        fun edge => (edge.1, edge.2.visible ctx) := by
  rw [findLiteral, visible_literals, List.find?_map]
  have hfound := find_filter_of_once (p := fun edge => edge.2.permits ctx)
    (hn.answered_once token)
  exact congrArg _ hfound

/-! ## Flags behind a node -/

theorem flagsBelow?_eq (n : Node) :
    n.flagsBelow? = match n.flags, n.argument with
      | some flags, _ => some flags
      | none, none => none
      | none, some (a, child) => if a.isRequired then none else child.flagsBelow? := by
  obtain ⟨ending, literals, argument, flags⟩ := n
  cases flags <;> cases argument <;> rfl

/-- The commands of the flags that come behind a node are among those of the node. -/
theorem subset_of_flagsBelow? {n : Node} {g : FlagGroup} {ending : List Entry}
    (h : n.flagsBelow? = some (g, ending)) : ending ⊆ n.entries := by
  induction n using childInduction with
  | step n _ ihArgument =>
      intro e he
      rw [mem_entries_iff]
      rw [flagsBelow?_eq] at h
      split at h
      · next _ _ flags hflags =>
          cases h
          exact Or.inr (Or.inr (Or.inr ⟨g, ending, hflags, he⟩))
      · cases h
      · next a child _ hargument =>
          split at h
          · cases h
          · exact Or.inr (Or.inr (Or.inl ⟨_, hargument, ihArgument _ hargument h he⟩))

/-- No flags come into sight when commands are taken away. -/
theorem flagsBelow?_visible_of_none {n : Node} (h : n.flagsBelow? = none) :
    (n.visible ctx).flagsBelow? = none := by
  induction n using childInduction with
  | step n _ ihArgument =>
      rw [flagsBelow?_eq] at h
      split at h
      · cases h
      · next hflags hargument =>
          rw [flagsBelow?_eq, visible_flags, visible_argument, hflags, hargument]
          rfl
      · next a child hflags hargument =>
          rw [flagsBelow?_eq, visible_flags, visible_argument, hflags, hargument,
            Option.filter_some]
          cases hpermits : child.permits ctx with
          | false => rfl
          | true =>
              show (if a.isRequired then none else (child.visible ctx).flagsBelow?) = none
              split at h
              · next hrequired => exact if_pos hrequired
              · next hrequired =>
                  rw [if_neg hrequired]
                  exact ihArgument _ hargument h

/-- Flags that a sender may give stay where they are. -/
theorem flagsBelow?_visible_of_permitted {n : Node} {g : FlagGroup} {ending : List Entry}
    (h : n.flagsBelow? = some (g, ending)) (hpermitted : anyPermitted ctx ending = true) :
    (n.visible ctx).flagsBelow? =
      some (g, ending.filter fun e => e.command.isPermitted ctx) := by
  induction n using childInduction with
  | step n _ ihArgument =>
      rw [flagsBelow?_eq] at h
      split at h
      · next _ _ flags hflags =>
          cases h
          rw [flagsBelow?_eq, visible_flags, hflags, Option.filter_some, if_pos hpermitted]
          rfl
      · cases h
      · next a child hflags hargument =>
          split at h
          · cases h
          · next hrequired =>
              have hpermits : child.permits ctx = true :=
                anyPermitted_of_subset (subset_of_flagsBelow? h) hpermitted
              rw [flagsBelow?_eq, visible_flags, visible_argument, hflags, hargument,
                Option.filter_some, if_pos hpermits]
              show (if a.isRequired then none else (child.visible ctx).flagsBelow?) = _
              rw [if_neg hrequired]
              exact ihArgument _ hargument h

end Node

namespace Position

variable {ignoreCase : Bool} {p : Position} {a : Argument} {child : Node} {g : FlagGroup}
  {ending : List Entry}

/-- The same place with what the sender sees of it. -/
def trim (p : Position) : Position :=
  { p with node := p.node.visible p.context }

/-- The argument is left out for the sake of flags, but the sender sees none behind it. -/
def SkipsHidden (ignoreCase : Bool) (p : Position) : Prop :=
  ∃ a child, p.AtArgument ignoreCase a child ∧ p.skips a child = true ∧
    (child.visible p.context).flagsBelow? = none

/-- The sender may run a command below the argument. -/
structure SeesArgument (p : Position) (a : Argument) (child : Node) : Prop where
  edge : p.node.argument = some (a, child)
  permitted : child.permits p.context = true

/-- The sender may run a command with the flags. -/
structure SeesFlags (p : Position) (g : FlagGroup) (ending : List Entry) : Prop where
  edge : p.node.flags = some (g, ending)
  permitted : Node.anyPermitted p.context ending = true

/-- There is no argument, or the sender may run no command below it. -/
def PastArgument (p : Position) : Prop :=
  ∀ a child, p.node.argument = some (a, child) → child.permits p.context = false

/-- There are no flags, or the sender may run no command with them. -/
def PastFlags (p : Position) : Prop :=
  ∀ g ending, p.node.flags = some (g, ending) → Node.anyPermitted p.context ending = false

/-! ## What is to be seen at a place -/

theorem literal_cases (ignoreCase : Bool) (p : Position) :
    p.PastLiterals ignoreCase ∨ ∃ l child,
      p.node.findLiteral ignoreCase p.line.peekToken = some (l, child) ∧
        child.permits p.context = true := by
  by_cases h : ∃ l child, p.node.findLiteral ignoreCase p.line.peekToken = some (l, child) ∧
      child.permits p.context = true
  · exact .inr h
  · exact .inl fun l child hfound =>
      Bool.eq_false_iff.mpr fun hpermits => h ⟨l, child, hfound, hpermits⟩

theorem argument_cases (p : Position) : p.PastArgument ∨ ∃ a child, p.SeesArgument a child := by
  by_cases h : ∃ a child, p.SeesArgument a child
  · exact .inr h
  · exact .inl fun a child hedge =>
      Bool.eq_false_iff.mpr fun hpermits => h ⟨a, child, hedge, hpermits⟩

theorem flags_cases (p : Position) : p.PastFlags ∨ ∃ g ending, p.SeesFlags g ending := by
  by_cases h : ∃ g ending, p.SeesFlags g ending
  · exact .inr h
  · exact .inl fun g ending hedge =>
      Bool.eq_false_iff.mpr fun hpermitted => h ⟨g, ending, hedge, hpermitted⟩

/-! ## What is still to be seen through what is visible -/

theorem trim_ending : p.trim.node.ending =
    p.node.ending.filter fun e => e.command.isPermitted p.context :=
  Node.restrict_ending p.node

theorem trim_literal {l : Literal} (horderly : p.node.Orderly ignoreCase)
    (hfound : p.node.findLiteral ignoreCase p.line.peekToken = some (l, child))
    (hpermits : child.permits p.context = true) :
    p.trim.node.findLiteral ignoreCase p.line.peekToken = some (l, child.visible p.context) := by
  rw [trim, Node.findLiteral_visible horderly, hfound, Option.filter_some, if_pos hpermits]
  rfl

theorem PastLiterals.trim (horderly : p.node.Orderly ignoreCase)
    (h : p.PastLiterals ignoreCase) : p.trim.PastLiterals ignoreCase := by
  have hnone : p.trim.node.findLiteral ignoreCase p.line.peekToken = none := by
    rw [Position.trim, Node.findLiteral_visible horderly]
    cases hfound : p.node.findLiteral ignoreCase p.line.peekToken with
    | none => rfl
    | some edge =>
        rw [Option.filter_some, if_neg (Bool.eq_false_iff.mp (h _ _ hfound))]
        rfl
  intro l child hfound
  cases hnone.symm.trans hfound

theorem SeesArgument.trim (h : p.SeesArgument a child) :
    p.trim.SeesArgument a (child.visible p.context) where
  edge := by
    rw [Position.trim, Node.visible_argument, h.edge, Option.filter_some, if_pos h.permitted]
    rfl
  permitted := (child.permits_visible p.context).trans h.permitted

theorem SeesFlags.trim (h : p.SeesFlags g ending) :
    p.trim.SeesFlags g (ending.filter fun e => e.command.isPermitted p.context) where
  edge := by
    rw [Position.trim, Node.visible_flags, h.edge, Option.filter_some, if_pos h.permitted]
    rfl
  permitted := (Node.anyPermitted_filter p.context ending).trans h.permitted

theorem PastArgument.trim (h : p.PastArgument) : p.trim.PastArgument := by
  have hnone : p.trim.node.argument = none := by
    rw [Position.trim, Node.visible_argument]
    cases hedge : p.node.argument with
    | none => rfl
    | some edge =>
        rw [Option.filter_some, if_neg (Bool.eq_false_iff.mp (h _ _ hedge))]
        rfl
  intro a child hedge
  cases hnone.symm.trans hedge

theorem PastFlags.trim_eq_none (h : p.PastFlags) : p.trim.node.flags = none := by
  rw [trim, Node.visible_flags]
  cases hedge : p.node.flags with
  | none => rfl
  | some edge =>
      rw [Option.filter_some, if_neg (Bool.eq_false_iff.mp (h _ _ hedge))]
      rfl

theorem PastFlags.trim (h : p.PastFlags) : p.trim.PastFlags := by
  intro g ending hedge
  cases h.trim_eq_none.symm.trans hedge

theorem AtArgument.sees (h : p.AtArgument ignoreCase a child) : p.SeesArgument a child :=
  ⟨h.edge, h.permitted⟩

theorem AtArgument.trim (horderly : p.node.Orderly ignoreCase)
    (h : p.AtArgument ignoreCase a child) :
    p.trim.AtArgument ignoreCase a (child.visible p.context) :=
  ⟨h.past.trim horderly, h.sees.trim.edge, h.sees.trim.permitted⟩

/-- An argument is left out for flags that can be seen behind it. -/
theorem trim_skips (hat : p.AtArgument ignoreCase a child) (hskips : ¬p.SkipsHidden ignoreCase) :
    p.trim.skips a (child.visible p.context) = p.skips a child := by
  have hmay : p.trim.mayLeaveOut a = p.mayLeaveOut a := rfl
  cases hskip : p.skips a child with
  | true =>
      have hbelow : (child.visible p.context).flagsBelow? ≠ none :=
        fun hnone => hskips ⟨a, child, hat, hskip, hnone⟩
      rw [skips, hmay, (Bool.and_eq_true_iff.mp hskip).1, Bool.true_and]
      exact Option.isSome_iff_ne_none.mpr hbelow
  | false =>
      rw [skips, Bool.and_eq_false_iff] at hskip
      rw [skips, hmay, Bool.and_eq_false_iff]
      refine hskip.imp_right fun hbelow => ?_
      have hnone : child.flagsBelow? = none :=
        Option.not_isSome_iff_eq_none.mp (Bool.eq_false_iff.mp hbelow)
      rw [Node.flagsBelow?_visible_of_none hnone]
      rfl

end Position

end CommandLine
