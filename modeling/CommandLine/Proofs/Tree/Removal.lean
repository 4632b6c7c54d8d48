import CommandLine.Proofs.Tree.Insertion

/-! # What removing a command makes of a tree

    `Node.Removed` says once what a removal can do to a node: one entry less where the path of the
    command ends, and on the way there edges with a changed node below them, or without them when
    nothing is left below. `Tree.removeRoot` takes one edge from the root. -/

namespace CommandLine

namespace Node

/-- What removing the entry with a number along components makes of a node. -/
inductive Removed (ignoreCase : Bool) (serial : Nat) : List Component → Node → Node → Prop where
  | here {n : Node} {ending : List Entry} (found : withoutEntry serial n.ending = some ending) :
      Removed ignoreCase serial [] n { n with ending }
  | literal {l old : Literal} {rest : List Component} {n child child' : Node}
      {before after : List (Literal × Node)}
      (split : n.literals = before ++ (old, child) :: after)
      (shared : shares ignoreCase l (old, child) = true)
      (below : Removed ignoreCase serial rest child child') :
      Removed ignoreCase serial (.literal l :: rest) n
        { n with literals := before ++ (keep old child').toList ++ after }
  | argument {a old : Argument} {rest : List Component} {n child child' : Node}
      (taken : n.argument = some (old, child)) (named : old.name = a.name)
      (below : Removed ignoreCase serial rest child child') :
      Removed ignoreCase serial (.argument a :: rest) n { n with argument := keep old child' }
  | flags {g old : FlagGroup} {rest : List Component} {n : Node} {ending ending' : List Entry}
      (taken : n.flags = some (old, ending))
      (signed : Flag.signature old.flags = Flag.signature g.flags)
      (found : withoutEntry serial ending = some ending') :
      Removed ignoreCase serial (.flags g :: rest) n
        { n with flags := if ending'.isEmpty then none else some (old, ending') }

/-- What is left of some commands is a part of them, in their order. -/
theorem withoutEntry_sublist {serial : Nat} {ending ending' : List Entry}
    (h : withoutEntry serial ending = some ending') : ending'.Sublist ending := by
  rw [withoutEntry] at h
  split at h
  · cases h
    exact List.filter_sublist
  · cases h

/-- An edge is kept exactly when something is left below it. -/
theorem keep_cases {L : Type} (label : L) (child : Node) :
    (child.isBare = true ∧ keep label child = none) ∨
      (child.isBare = false ∧ keep label child = some (label, child)) := by
  rw [keep]
  cases h : child.isBare with
  | true => exact Or.inl ⟨rfl, rfl⟩
  | false => exact Or.inr ⟨rfl, rfl⟩

/-- A removal that succeeds makes of a node what `Removed` describes. -/
theorem removed_of_remove {ignoreCase : Bool} {serial : Nat} {components : List Component}
    {name : String} {n n' : Node} (h : remove ignoreCase serial components name n = some n') :
    Removed ignoreCase serial components n n' := by
  -- a removal looks for its edges in the way an insertion does
  induction components generalizing name n n' with
  | nil =>
      obtain ⟨ending, hfound, rfl⟩ := Option.map_eq_some_iff.mp h
      exact .here hfound
  | cons component rest ih =>
      cases component with
      | literal l =>
          simp only [remove] at h
          split at h
          · next slot hslot =>
              obtain ⟨-, hsplit, -, hshared⟩ := literalSlot_eq_some hslot
              obtain ⟨child', hchild, rfl⟩ := Option.map_eq_some_iff.mp h
              exact .literal hsplit hshared (ih hchild)
          · cases h
      | argument a =>
          simp only [remove] at h
          split at h
          · next old child hslot =>
              obtain ⟨htaken, hnamed⟩ := argumentSlot_eq_some hslot
              obtain ⟨child', hchild, rfl⟩ := Option.map_eq_some_iff.mp h
              exact .argument htaken hnamed (ih hchild)
          · cases h
      | flags g =>
          -- nothing is found behind a flag group
          rcases rest with - | ⟨next, rest⟩ <;> simp only [remove] at h
          · split at h
            · next old ending hslot =>
                obtain ⟨htaken, hsigned⟩ := flagsSlot_eq_some hslot
                obtain ⟨ending', hfound, rfl⟩ := Option.map_eq_some_iff.mp h
                exact .flags htaken hsigned hfound
            · cases h
          · cases h

end Node

/-- A successful removal changes the root only. -/
theorem Tree.remove_ok {t t' : Tree} {e : Entry} (h : t.remove e = .ok t') :
    Node.Removed t.rules.ignoreCase e.serial e.command.components t.root t'.root ∧
      t' = { t with root := t'.root } := by
  simp only [Tree.remove, bind, Except.bind] at h
  split at h
  · cases h
  · split at h
    · next root hroot =>
        cases h
        exact ⟨Node.removed_of_remove hroot, rfl⟩
    · cases h

/-- A successful removal at the root takes the first literal away that the name selects. -/
theorem Tree.removeRoot_ok {t t' : Tree} {name : String} {entries : List Entry}
    (h : t.removeRoot name = .ok (t', entries)) :
    t' = { t with
      root := { t.root with
        literals := t.root.literals.eraseP fun edge =>
          edge.1.answers t.rules.ignoreCase name } } := by
  simp only [Tree.removeRoot, bind, Except.bind] at h
  split at h
  · cases h
  · split at h
    · cases h
      rfl
    · cases h

end CommandLine
