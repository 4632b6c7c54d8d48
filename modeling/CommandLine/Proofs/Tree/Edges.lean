import CommandLine.Proofs.Tree.Orderly

/-! # Where the edges of a tree come from

    An insertion adds edges for components of the command only, and no other edit adds any. A shared
    literal takes over aliases and is otherwise the literal that was there first. So what holds of
    all components of the inserted commands, and does not depend on aliases, holds of all edges of
    the tree (`Tree.Built.carries`). -/

namespace CommandLine

variable {Q : Component → Prop}

/-- A property of the edges to a node's children. -/
structure Node.Carries (Q : Component → Prop) (n : Node) : Prop where
  literals : ∀ edge ∈ n.literals, Q (.literal edge.1)
  argument : ∀ a child, n.argument = some (a, child) → Q (.argument a)
  flags : ∀ g ending, n.flags = some (g, ending) → Q (.flags g)

theorem Node.Carries.mono {R : Component → Prop} {n : Node} (h : n.Carries Q)
    (hQR : ∀ c, Q c → R c) : n.Carries R where
  literals := fun edge hedge => hQR _ (h.literals edge hedge)
  argument := fun a child hedge => hQR _ (h.argument a child hedge)
  flags := fun g ending hedge => hQR _ (h.flags g ending hedge)

/-- A tree of commands all of whose components have a property. -/
inductive Tree.Built (Q : Component → Prop) : Tree → Prop where
  | fresh {t : Tree} (bare : t.root = .empty) : Built Q t
  | edit {t : Tree} (before : Built Q t) (edit : Edit)
      (made : ∀ c, edit = .insert c → ∀ component ∈ c.components, Q component) :
      Built Q (t.apply edit)

namespace Node

theorem everywhere_carries_empty : empty.Everywhere (Carries Q) :=
  .intro ⟨by simp [empty], by simp [empty], by simp [empty]⟩ (by simp [empty]) (by simp [empty])

theorem Inserted.carries {rules : Rules} {e : Entry} {components : List Component} {n n' : Node}
    (h : Inserted rules e components n n')
    (hmerge : ∀ old l, Q (.literal old) → Q (.literal l) →
      Q (.literal (old.merge rules.ignoreCase l)))
    (hnew : ∀ component ∈ components, Q component) (hn : n.Everywhere (Carries Q)) :
    n'.Everywhere (Carries Q) := by
  induction h with
  | here free =>
      obtain ⟨here, literals, argument⟩ := hn
      exact .intro ⟨here.literals, here.argument, here.flags⟩ literals argument
  | newLiteral apart vacant below ih =>
      obtain ⟨hl, hrest⟩ := List.forall_mem_cons.mp hnew
      have hchild := ih hrest everywhere_carries_empty
      obtain ⟨here, literals, argument⟩ := hn
      refine .intro ⟨?_, here.argument, here.flags⟩ ?_ argument
      · exact List.forall_mem_append.mpr ⟨here.literals, List.forall_mem_singleton.mpr hl⟩
      · exact List.forall_mem_append.mpr ⟨literals, List.forall_mem_singleton.mpr hchild⟩
  | @sharedLiteral l old rest n child child' before after apart split first shared below ih =>
      have hold : (old, child) ∈ n.literals := by simp [split]
      obtain ⟨hl, hrest⟩ := List.forall_mem_cons.mp hnew
      have hchild := ih hrest (hn.literal hold)
      obtain ⟨here, literals, argument⟩ := hn
      refine .intro ⟨?_, here.argument, here.flags⟩ ?_ argument
      · -- aliases of the new literal come in here, and nothing else of it does
        exact forall_mem_replace (fun edge hedge => here.literals edge (split ▸ hedge))
          (hmerge old l (here.literals _ hold) hl)
      · exact forall_mem_replace (fun edge hedge => literals edge (split ▸ hedge)) hchild
  | newArgument vacant below ih =>
      obtain ⟨ha, hrest⟩ := List.forall_mem_cons.mp hnew
      have hchild := ih hrest everywhere_carries_empty
      obtain ⟨here, literals, argument⟩ := hn
      refine .intro ⟨here.literals, ?_, here.flags⟩ literals ?_
      · rintro _ _ ⟨⟩
        exact ha
      · rintro edge ⟨⟩
        exact hchild
  | sharedArgument taken named below ih =>
      have hchild := ih (List.forall_mem_cons.mp hnew).2 (hn.argument taken)
      obtain ⟨here, literals, argument⟩ := hn
      refine .intro ⟨here.literals, ?_, here.flags⟩ literals ?_
      · rintro _ _ ⟨⟩
        exact here.argument _ _ taken
      · rintro edge ⟨⟩
        exact hchild
  | newFlags vacant =>
      obtain ⟨here, literals, argument⟩ := hn
      refine .intro ⟨here.literals, here.argument, ?_⟩ literals argument
      rintro _ _ ⟨⟩
      exact List.forall_mem_singleton.mp hnew
  | sharedFlags taken signed free =>
      obtain ⟨here, literals, argument⟩ := hn
      refine .intro ⟨here.literals, here.argument, ?_⟩ literals argument
      rintro _ _ ⟨⟩
      exact here.flags _ _ taken

/-- Some of the literals of a node. -/
theorem everywhere_carries_sublist {n : Node} (hn : n.Everywhere (Carries Q))
    {literals : List (Literal × Node)} (hsub : literals.Sublist n.literals) :
    Everywhere (Carries Q) { n with literals } := by
  obtain ⟨here, below, argument⟩ := hn
  refine .intro ⟨?_, here.argument, here.flags⟩ ?_ argument
  · exact fun edge hedge => here.literals edge (hsub.subset hedge)
  · exact fun edge hedge => below edge (hsub.subset hedge)

theorem Removed.carries {ignoreCase : Bool} {serial : Nat} {components : List Component}
    {n n' : Node} (h : Removed ignoreCase serial components n n')
    (hn : n.Everywhere (Carries Q)) : n'.Everywhere (Carries Q) := by
  induction h with
  | here found =>
      obtain ⟨here, literals, argument⟩ := hn
      exact .intro ⟨here.literals, here.argument, here.flags⟩ literals argument
  | @literal l old rest n child child' before after split shared below ih =>
      have hold : (old, child) ∈ n.literals := by simp [split]
      have hchild := ih (hn.literal hold)
      have hkept : Q (.literal old) := hn.here.literals _ hold
      rcases keep_cases old child' with ⟨-, hkeep⟩ | ⟨-, hkeep⟩
      · apply everywhere_carries_sublist hn
        rw [hkeep, split, Option.toList_none, List.append_nil]
        exact (List.Sublist.refl before).append (List.sublist_cons_self _ after)
      · obtain ⟨here, literals, argument⟩ := hn
        rw [hkeep, Option.toList_some, List.append_assoc, List.singleton_append]
        refine .intro ⟨?_, here.argument, here.flags⟩ ?_ argument
        · exact forall_mem_replace (fun edge hedge => here.literals edge (split ▸ hedge)) hkept
        · exact forall_mem_replace (fun edge hedge => literals edge (split ▸ hedge)) hchild
  | @argument a old rest n child child' taken named below ih =>
      have hchild := ih (hn.argument taken)
      obtain ⟨here, literals, argument⟩ := hn
      rcases keep_cases old child' with ⟨-, hkeep⟩ | ⟨-, hkeep⟩
      · rw [hkeep]
        refine .intro ⟨here.literals, ?_, here.flags⟩ literals ?_
        · rintro _ _ ⟨⟩
        · rintro _ ⟨⟩
      · rw [hkeep]
        refine .intro ⟨here.literals, ?_, here.flags⟩ literals ?_
        · rintro _ _ ⟨⟩
          exact here.argument _ _ taken
        · rintro edge ⟨⟩
          exact hchild
  | flags taken signed found =>
      obtain ⟨here, literals, argument⟩ := hn
      refine .intro ⟨here.literals, here.argument, ?_⟩ literals argument
      intro _ _ hflags
      split at hflags
      · cases hflags
      · cases hflags
        exact here.flags _ _ taken

end Node

namespace Tree

/-- A tree with one command is built of its components. -/
theorem Built.of_command {c : Command} (h : ∀ component ∈ c.components, Q component) :
    (apply {} (.insert c)).Built Q := by
  refine .edit (.fresh rfl) _ ?_
  rintro _ ⟨⟩
  exact h

/-- A tree that is built of some components is reachable. -/
theorem Built.reachable {t : Tree} (h : t.Built Q) : t.Reachable := by
  induction h with
  | fresh bare => exact ⟨[], .fresh bare⟩
  | edit before edit made ih =>
      obtain ⟨past, hpast⟩ := ih
      exact ⟨_, .edit hpast edit⟩

/-- The edges of a tree have the property of the components that it was built of, if two literals
    that have it make one that has it. -/
theorem Built.carries_of_merge {t : Tree} (h : t.Built Q)
    (hmerge : ∀ ignoreCase old l, Q (.literal old) → Q (.literal l) →
      Q (.literal (old.merge ignoreCase l))) :
    t.root.Everywhere (Node.Carries Q) := by
  induction h with
  | fresh bare =>
      rw [bare]
      exact Node.everywhere_carries_empty
  | @edit t before edit made ih =>
      cases edit with
      | insert c =>
          simp only [apply]
          split
          · next t' e h =>
              obtain ⟨-, -, hinserted, -⟩ := insert_ok h
              exact hinserted.carries (hmerge t.rules.ignoreCase) (made c rfl) ih
          · exact ih
      | remove e =>
          simp only [apply]
          split
          · next t' h => exact (remove_ok h).1.carries ih
          · exact ih
      | removeRoot name =>
          simp only [apply]
          split
          · next t' entries h =>
              rw [removeRoot_ok h]
              exact Node.everywhere_carries_sublist ih List.eraseP_sublist
          · exact ih
      | lock => exact ih
      | replaceCommands b => exact ih
      | ignoreLock b => exact ih

/-- The edges of a tree have the property of the components that it was built of, if it does not
    depend on aliases. -/
theorem Built.carries {t : Tree} (h : t.Built Q)
    (hmerge : ∀ ignoreCase old l, Q (.literal old) → Q (.literal (old.merge ignoreCase l))) :
    t.root.Everywhere (Node.Carries Q) :=
  h.carries_of_merge fun ignoreCase old l hold _ => hmerge ignoreCase old l hold

end Tree

end CommandLine
