import CommandLine.Proofs.Text.Lowercase
import CommandLine.Proofs.Tree.History
import Mathlib.Data.List.Nodup

/-! # Orderly trees

    A node is orderly when its literals are told apart by their keys, when the commands that end at
    one place are for different kinds of senders, and when every edge leads to a command. The rules
    of insertion only look at a part of this: a shared literal takes over aliases without being
    compared with itself, so that the keys of the siblings stay apart needs both the check of the
    new literal and what was true before.

    All nodes of a reachable tree are orderly (`Tree.Reachable.orderly`). -/

namespace CommandLine

namespace Node

/-- A property of a node and of all nodes below it. -/
inductive Everywhere (P : Node → Prop) : Node → Prop where
  | intro {n : Node} (here : P n) (literals : ∀ edge ∈ n.literals, Everywhere P edge.2)
      (argument : ∀ edge, n.argument = some edge → Everywhere P edge.2) : Everywhere P n

namespace Everywhere

variable {P Q : Node → Prop} {n : Node}

theorem here (h : n.Everywhere P) : P n := by
  cases h
  assumption

theorem literal (h : n.Everywhere P) {edge : Literal × Node} (hedge : edge ∈ n.literals) :
    edge.2.Everywhere P := by
  cases h with
  | intro _ literals _ => exact literals edge hedge

theorem argument (h : n.Everywhere P) {edge : Argument × Node} (hedge : n.argument = some edge) :
    edge.2.Everywhere P := by
  cases h with
  | intro _ _ argument => exact argument edge hedge

theorem mono (h : n.Everywhere P) (hPQ : ∀ m, P m → Q m) : n.Everywhere Q := by
  induction h with
  | intro here _ _ ihLiterals ihArgument =>
      exact .intro (hPQ _ here) ihLiterals ihArgument

theorem and (hP : n.Everywhere P) (hQ : n.Everywhere Q) : n.Everywhere fun m => P m ∧ Q m := by
  induction hP with
  | intro here _ _ ihLiterals ihArgument =>
      refine .intro ⟨here, hQ.here⟩ (fun edge hedge => ?_) (fun edge hedge => ?_)
      · exact ihLiterals edge hedge (hQ.literal hedge)
      · exact ihArgument edge hedge (hQ.argument hedge)

end Everywhere

/-- No key belongs to two literals. -/
def Apart (ignoreCase : Bool) (x y : Literal) : Prop :=
  List.Disjoint (x.keys ignoreCase) (y.keys ignoreCase)

/-- No two commands are for the same kind of senders; no kind counts as one. -/
def OnePerSender (ending : List Entry) : Prop :=
  (ending.map (·.command.senderTypeName)).Nodup

/-- What edits keep true of every node. -/
structure Orderly (ignoreCase : Bool) (n : Node) : Prop where
  apart : (n.literals.map (·.1)).Pairwise (Apart ignoreCase)
  ending : OnePerSender n.ending
  flagsEnding : ∀ g ending, n.flags = some (g, ending) → OnePerSender ending
  belowLiteral : ∀ edge ∈ n.literals, edge.2.entries ≠ []
  belowArgument : ∀ edge, n.argument = some edge → edge.2.entries ≠ []
  belowFlags : ∀ g ending, n.flags = some (g, ending) → ending ≠ []

/-! ## Keys of literals -/

theorem Apart.symm {ignoreCase : Bool} {x y : Literal} (h : Apart ignoreCase x y) :
    Apart ignoreCase y x :=
  List.disjoint_symm h

theorem key_name_mem_keys (ignoreCase : Bool) (l : Literal) :
    Literal.key ignoreCase l.name ∈ l.keys ignoreCase :=
  List.mem_map.mpr ⟨l.name, List.mem_cons_self, rfl⟩

/-- Whatever selects a literal has one of its keys. -/
theorem key_mem_keys_of_answers {ignoreCase : Bool} {token : String} {l : Literal}
    (h : l.answers ignoreCase token = true) :
    Literal.key ignoreCase token ∈ l.keys ignoreCase := by
  obtain ⟨name, hname, hsame⟩ := List.any_eq_true.mp h
  refine List.mem_map.mpr ⟨name, hname, ?_⟩
  cases ignoreCase with
  | false =>
      rw [eq_of_beq hsame]
  | true => exact Text.lowercase_eq_of_sameUpToCase hsame

/-- Literals that share have the same key. -/
theorem shares_iff {ignoreCase : Bool} {l : Literal} {edge : Literal × Node} :
    shares ignoreCase l edge = true ↔
      Literal.key ignoreCase edge.1.name = Literal.key ignoreCase l.name :=
  beq_iff_eq

/-- The check for clashes keeps the keys of a literal apart from those of all edges it does not
    share. -/
theorem apart_of_clash_eq_none {n : Node} {ignoreCase : Bool} {l : Literal}
    (h : n.clash? ignoreCase l = none) {edge : Literal × Node} (hedge : edge ∈ n.literals)
    (hshares : shares ignoreCase l edge = false) : Apart ignoreCase l edge.1 := by
  intro key hl hother
  rw [clash?, List.findSome?_eq_none_iff] at h
  have hnone := h edge (List.mem_filter.mpr ⟨hedge, by rw [hshares]; rfl⟩)
  have hcontains := List.find?_eq_none.mp hnone key hl
  exact hcontains (List.contains_iff_mem.mpr hother)

/-- A merged literal has no keys but those of the two. -/
theorem mem_keys_merge {ignoreCase : Bool} {l old : Literal} {key : String}
    (h : key ∈ (old.merge ignoreCase l).keys ignoreCase) :
    key ∈ old.keys ignoreCase ∨ key ∈ l.keys ignoreCase := by
  obtain ⟨name, hname, rfl⟩ := List.mem_map.mp h
  have hnames : name = old.name ∨ name ∈ old.aliases ∨ name ∈ l.aliases := by
    rcases List.mem_cons.mp hname with hname | hname
    · exact Or.inl hname
    · rcases List.mem_append.mp hname with hname | hname
      · exact Or.inr (Or.inl hname)
      · exact Or.inr (Or.inr (List.mem_filter.mp hname).1)
  rcases hnames with rfl | hname | hname
  · exact Or.inl (key_name_mem_keys ignoreCase old)
  · exact Or.inl (List.mem_map_of_mem (List.mem_cons_of_mem _ hname))
  · exact Or.inr (List.mem_map_of_mem (List.mem_cons_of_mem _ hname))

theorem Apart.merge {ignoreCase : Bool} {l old other : Literal} (hold : Apart ignoreCase old other)
    (hl : Apart ignoreCase l other) : Apart ignoreCase (old.merge ignoreCase l) other := by
  intro key hmerged hother
  rcases mem_keys_merge hmerged with hkey | hkey
  · exact hold hkey hother
  · exact hl hkey hother

/-- No literal of an orderly node has a key of another one. -/
theorem Orderly.apart_others {ignoreCase : Bool} {n : Node} (h : n.Orderly ignoreCase)
    {edge : Literal × Node} {before after : List (Literal × Node)}
    (split : n.literals = before ++ edge :: after) :
    ∀ other ∈ before ++ after, Apart ignoreCase edge.1 other.1 := by
  have hall := h.apart
  rw [split, List.map_append, List.map_cons, List.pairwise_middle Apart.symm, List.pairwise_cons,
    ← List.map_append] at hall
  exact fun other hother => hall.1 other.1 (List.mem_map_of_mem hother)

/-- A literal shares at most one edge of an orderly node. -/
theorem Orderly.shared_once {ignoreCase : Bool} {n : Node} (h : n.Orderly ignoreCase)
    {l : Literal} {edge : Literal × Node} {before after : List (Literal × Node)}
    (split : n.literals = before ++ edge :: after) (shared : shares ignoreCase l edge = true) :
    ∀ other ∈ before ++ after, shares ignoreCase l other = false := by
  intro other hother
  rw [Bool.eq_false_iff]
  intro hshares
  apply h.apart_others split other hother (key_name_mem_keys ignoreCase edge.1)
  rw [shares_iff.mp shared, ← shares_iff.mp hshares]
  exact key_name_mem_keys ignoreCase other.1

/-! ## Commands that end at one place -/

/-- Where a command may end, it is for other senders than those that it does not replace. -/
theorem onePerSender_settle {rules : Rules} {e : Entry} {ending : List Entry}
    (hfree : checkEnding rules e.command ending = .ok ()) (h : OnePerSender ending) :
    OnePerSender (settle rules e ending) := by
  rw [OnePerSender, settle, List.map_append]
  refine List.nodup_append.mpr ⟨?_, List.nodup_singleton _, ?_⟩
  · split
    · exact h.sublist (List.filter_sublist.map _)
    · exact h
  · intro name hname last hlast heq
    obtain rfl : last = e.command.senderTypeName := List.mem_singleton.mp hlast
    obtain ⟨old, hold, rfl⟩ := List.mem_map.mp hname
    -- a command for the same senders would have been replaced, or refused the new one
    by_cases hreplace : rules.replaceCommands = true
    · rw [if_pos hreplace] at hold
      have hother := (List.mem_filter.mp hold).2
      simp [sameSenders, heq] at hother
    · rw [if_neg hreplace] at hold
      rw [checkEnding] at hfree
      split at hfree
      · cases hfree
      · next hnone =>
          apply hnone
          rw [Bool.eq_false_iff.mpr hreplace, Bool.not_false, Bool.true_and]
          exact List.any_eq_true.mpr ⟨old, hold, beq_iff_eq.mpr heq⟩

theorem mem_settle (rules : Rules) (e : Entry) (ending : List Entry) :
    e ∈ settle rules e ending :=
  List.mem_append_right _ (List.mem_singleton_self e)

/-! ## The commands at and below a node -/

theorem mem_entries_iff {n : Node} {e : Entry} :
    e ∈ n.entries ↔ e ∈ n.ending ∨ (∃ edge ∈ n.literals, e ∈ edge.2.entries) ∨
      (∃ edge, n.argument = some edge ∧ e ∈ edge.2.entries) ∨
      ∃ g ending, n.flags = some (g, ending) ∧ e ∈ ending := by
  obtain ⟨ending, literals, argument, flags⟩ := n
  simp only [entries, literalEntries_eq, List.mem_append, List.mem_flatMap, or_assoc]
  refine or_congr Iff.rfl (or_congr Iff.rfl (or_congr ?_ ?_))
  · cases argument <;> simp [argumentEntries]
  · rcases flags with - | ⟨g, last⟩
    · simp
    · constructor
      · intro he
        exact ⟨g, last, rfl, he⟩
      · rintro ⟨_, _, ⟨⟩, he⟩
        exact he

/-- An added command is at or below the node. -/
theorem Inserted.mem_entries {rules : Rules} {e : Entry} {components : List Component}
    {n n' : Node} (h : Inserted rules e components n n') : e ∈ n'.entries := by
  rw [mem_entries_iff]
  induction h with
  | here _ => exact Or.inl (mem_settle rules e _)
  | newLiteral _ _ _ ih =>
      refine Or.inr (Or.inl ⟨_, List.mem_append_right _ (List.mem_singleton_self _), ?_⟩)
      exact mem_entries_iff.mpr ih
  | sharedLiteral _ _ _ _ _ ih =>
      refine Or.inr (Or.inl ⟨_, List.mem_append_right _ List.mem_cons_self, ?_⟩)
      exact mem_entries_iff.mpr ih
  | newArgument _ _ ih =>
      exact Or.inr (Or.inr (Or.inl ⟨_, rfl, mem_entries_iff.mpr ih⟩))
  | sharedArgument _ _ _ ih =>
      exact Or.inr (Or.inr (Or.inl ⟨_, rfl, mem_entries_iff.mpr ih⟩))
  | newFlags _ =>
      exact Or.inr (Or.inr (Or.inr ⟨_, _, rfl, mem_settle rules e _⟩))
  | sharedFlags _ _ _ =>
      exact Or.inr (Or.inr (Or.inr ⟨_, _, rfl, mem_settle rules e _⟩))

/-- An orderly node that is not bare has a command at or below it. -/
theorem Orderly.entries_ne_nil {ignoreCase : Bool} {n : Node} (h : n.Orderly ignoreCase)
    (hbare : n.isBare = false) : n.entries ≠ [] := by
  have exists_mem {l : List Entry} (hl : l ≠ []) : ∃ e, e ∈ l := List.exists_mem_of_ne_nil l hl
  have of_mem {e : Entry} (he : e ∈ n.entries) : n.entries ≠ [] := List.ne_nil_of_mem he
  simp only [isBare, Bool.and_eq_false_iff, List.isEmpty_eq_false_iff, Option.isNone_eq_false_iff,
    Option.isSome_iff_exists] at hbare
  rcases hbare with ((hending | hliterals) | ⟨edge, hargument⟩) | ⟨⟨g, ending⟩, hflags⟩
  · obtain ⟨e, he⟩ := exists_mem hending
    exact of_mem (mem_entries_iff.mpr (Or.inl he))
  · obtain ⟨edge, hedge⟩ := List.exists_mem_of_ne_nil _ hliterals
    obtain ⟨e, he⟩ := exists_mem (h.belowLiteral edge hedge)
    exact of_mem (mem_entries_iff.mpr (Or.inr (Or.inl ⟨edge, hedge, he⟩)))
  · obtain ⟨e, he⟩ := exists_mem (h.belowArgument edge hargument)
    exact of_mem (mem_entries_iff.mpr (Or.inr (Or.inr (Or.inl ⟨edge, hargument, he⟩))))
  · obtain ⟨e, he⟩ := exists_mem (h.belowFlags g ending hflags)
    exact of_mem (mem_entries_iff.mpr (Or.inr (Or.inr (Or.inr ⟨g, ending, hflags, he⟩))))

/-! ## Edits keep nodes orderly -/

theorem everywhere_orderly_empty (ignoreCase : Bool) : empty.Everywhere (Orderly ignoreCase) := by
  refine .intro ⟨.nil, .nil, ?_, ?_, ?_, ?_⟩ ?_ ?_ <;> simp [empty]

/-- What holds of all edges and of a new one holds when the new one takes the place of one. -/
theorem forall_mem_replace {α : Type} {Q : α → Prop} {before after : List α} {old new : α}
    (h : ∀ x ∈ before ++ old :: after, Q x) (hnew : Q new) :
    ∀ x ∈ before ++ new :: after, Q x := by
  simp only [List.forall_mem_append, List.forall_mem_cons] at h ⊢
  exact ⟨h.1, hnew, h.2.2⟩

theorem Inserted.orderly {rules : Rules} {e : Entry} {components : List Component} {n n' : Node}
    (h : Inserted rules e components n n') (hn : n.Everywhere (Orderly rules.ignoreCase)) :
    n'.Everywhere (Orderly rules.ignoreCase) := by
  induction h with
  | here free =>
      obtain ⟨here, literals, argument⟩ := hn
      exact .intro { here with ending := onePerSender_settle free here.ending } literals argument
  | @newLiteral l rest n child apart vacant below ih =>
      have hchild := ih (everywhere_orderly_empty rules.ignoreCase)
      obtain ⟨here, literals, argument⟩ := hn
      refine .intro { here with apart := ?_, belowLiteral := ?_ } ?_ argument
      · -- the literal shares no edge, so the check compares it with all of them
        show ((n.literals ++ [(l, child)]).map _).Pairwise _
        rw [List.map_append, List.pairwise_append]
        refine ⟨here.apart, List.pairwise_singleton _ _, ?_⟩
        intro other hother new hnew
        obtain ⟨edge, hedge, rfl⟩ := List.mem_map.mp hother
        obtain rfl : new = l := List.mem_singleton.mp hnew
        exact (apart_of_clash_eq_none apart hedge (vacant edge hedge)).symm
      · exact List.forall_mem_append.mpr ⟨here.belowLiteral,
          List.forall_mem_singleton.mpr (List.ne_nil_of_mem below.mem_entries)⟩
      · exact List.forall_mem_append.mpr ⟨literals, List.forall_mem_singleton.mpr hchild⟩
  | @sharedLiteral l old rest n child child' before after apart split first shared below ih =>
      have hchild := ih (hn.literal (show (old, child) ∈ n.literals by simp [split]))
      obtain ⟨here, literals, argument⟩ := hn
      refine .intro { here with apart := ?_, belowLiteral := ?_ } ?_ argument
      · -- the merged literal may stand first, since it is compared with all others either way
        have hall := here.apart
        rw [split, List.map_append, List.map_cons, List.pairwise_middle Apart.symm,
          List.pairwise_cons] at hall
        obtain ⟨hold, hrest⟩ := hall
        show ((before ++ (old.merge rules.ignoreCase l, child') :: after).map _).Pairwise _
        rw [List.map_append, List.map_cons, List.pairwise_middle Apart.symm, List.pairwise_cons]
        refine ⟨?_, hrest⟩
        intro other hother
        have hapart := hold other hother
        rw [← List.map_append] at hother
        obtain ⟨edge, hedge, rfl⟩ := List.mem_map.mp hother
        have hmem : edge ∈ n.literals := by
          rw [split]
          rcases List.mem_append.mp hedge with hedge | hedge
          · exact List.mem_append_left _ hedge
          · exact List.mem_append_right _ (List.mem_cons_of_mem _ hedge)
        -- the check skips edges that the literal shares, and there is no other than this one
        exact hapart.merge
          (apart_of_clash_eq_none apart hmem (here.shared_once split shared edge hedge))
      · exact forall_mem_replace (fun edge hedge => here.belowLiteral edge (split ▸ hedge))
          (List.ne_nil_of_mem below.mem_entries)
      · exact forall_mem_replace (fun edge hedge => literals edge (split ▸ hedge)) hchild
  | newArgument vacant below ih =>
      have hchild := ih (everywhere_orderly_empty rules.ignoreCase)
      obtain ⟨here, literals, argument⟩ := hn
      refine .intro { here with belowArgument := ?_ } literals ?_
      · rintro edge ⟨⟩
        exact List.ne_nil_of_mem below.mem_entries
      · rintro edge ⟨⟩
        exact hchild
  | sharedArgument taken named below ih =>
      have hchild := ih (hn.argument taken)
      obtain ⟨here, literals, argument⟩ := hn
      refine .intro { here with belowArgument := ?_ } literals ?_
      · rintro edge ⟨⟩
        exact List.ne_nil_of_mem below.mem_entries
      · rintro edge ⟨⟩
        exact hchild
  | newFlags vacant =>
      obtain ⟨here, literals, argument⟩ := hn
      refine .intro { here with flagsEnding := ?_, belowFlags := ?_ } literals argument
      · rintro _ _ ⟨⟩
        exact onePerSender_settle (checkEnding_nil rules e.command) List.nodup_nil
      · rintro _ _ ⟨⟩
        exact List.ne_nil_of_mem (mem_settle rules e _)
  | sharedFlags taken signed free =>
      obtain ⟨here, literals, argument⟩ := hn
      refine .intro { here with flagsEnding := ?_, belowFlags := ?_ } literals argument
      · rintro _ _ ⟨⟩
        exact onePerSender_settle free (here.flagsEnding _ _ taken)
      · rintro _ _ ⟨⟩
        exact List.ne_nil_of_mem (mem_settle rules e _)

/-- Some of the literals of an orderly node. -/
theorem everywhere_orderly_sublist {ignoreCase : Bool} {n : Node}
    (hn : n.Everywhere (Orderly ignoreCase)) {literals : List (Literal × Node)}
    (hsub : literals.Sublist n.literals) :
    Everywhere (Orderly ignoreCase) { n with literals } := by
  obtain ⟨here, below, argument⟩ := hn
  refine .intro { here with apart := ?_, belowLiteral := ?_ } ?_ argument
  · exact here.apart.sublist (hsub.map _)
  · exact fun edge hedge => here.belowLiteral edge (hsub.subset hedge)
  · exact fun edge hedge => below edge (hsub.subset hedge)

theorem Removed.orderly {ignoreCase : Bool} {serial : Nat} {components : List Component}
    {n n' : Node} (h : Removed ignoreCase serial components n n')
    (hn : n.Everywhere (Orderly ignoreCase)) : n'.Everywhere (Orderly ignoreCase) := by
  induction h with
  | here found =>
      obtain ⟨here, literals, argument⟩ := hn
      have hending := here.ending.sublist ((withoutEntry_sublist found).map _)
      exact .intro { here with ending := hending } literals argument
  | @literal l old rest n child child' before after split shared below ih =>
      have hchild := ih (hn.literal (show (old, child) ∈ n.literals by simp [split]))
      -- what is left below the edge is orderly, so it has a command unless it is bare
      rcases keep_cases old child' with ⟨-, hkeep⟩ | ⟨hbare, hkeep⟩
      · apply everywhere_orderly_sublist hn
        rw [hkeep, split, Option.toList_none, List.append_nil]
        exact (List.Sublist.refl before).append (List.sublist_cons_self _ after)
      · obtain ⟨here, literals, argument⟩ := hn
        rw [hkeep, Option.toList_some, List.append_assoc, List.singleton_append]
        refine .intro { here with apart := ?_, belowLiteral := ?_ } ?_ argument
        · have hall := here.apart
          rw [split, List.map_append, List.map_cons] at hall
          show ((before ++ (old, child') :: after).map _).Pairwise _
          rw [List.map_append, List.map_cons]
          exact hall
        · exact forall_mem_replace (fun edge hedge => here.belowLiteral edge (split ▸ hedge))
            (hchild.here.entries_ne_nil hbare)
        · exact forall_mem_replace (fun edge hedge => literals edge (split ▸ hedge)) hchild
  | @argument a old rest n child child' taken named below ih =>
      have hchild := ih (hn.argument taken)
      obtain ⟨here, literals, argument⟩ := hn
      rcases keep_cases old child' with ⟨-, hkeep⟩ | ⟨hbare, hkeep⟩
      · rw [hkeep]
        refine .intro { here with belowArgument := ?_ } literals ?_ <;> rintro edge ⟨⟩
      · rw [hkeep]
        refine .intro { here with belowArgument := ?_ } literals ?_
        · rintro edge ⟨⟩
          exact hchild.here.entries_ne_nil hbare
        · rintro edge ⟨⟩
          exact hchild
  | @flags g old rest n ending ending' taken signed found =>
      obtain ⟨here, literals, argument⟩ := hn
      refine .intro { here with flagsEnding := ?_, belowFlags := ?_ } literals argument
      · intro _ _ hflags
        split at hflags
        · cases hflags
        · cases hflags
          exact (here.flagsEnding _ _ taken).sublist ((withoutEntry_sublist found).map _)
      · intro _ _ hflags
        split at hflags
        · cases hflags
        · next hending =>
            cases hflags
            simpa using hending

end Node

namespace Tree

theorem Reshaped.orderly {rules : Rules} {n n' : Node} (h : Reshaped rules n n')
    (hn : n.Everywhere (Node.Orderly rules.ignoreCase)) :
    n'.Everywhere (Node.Orderly rules.ignoreCase) := by
  cases h with
  | unchanged => exact hn
  | inserted _ hinserted => exact hinserted.orderly hn
  | removed hremoved => exact hremoved.orderly hn
  | uprooted name => exact Node.everywhere_orderly_sublist hn List.eraseP_sublist

/-- All nodes of a reachable tree are orderly. -/
theorem Reachable.orderly {t : Tree} (ht : t.Reachable) :
    t.root.Everywhere (Node.Orderly t.rules.ignoreCase) := by
  refine ht.root (P := Node.Everywhere (Node.Orderly t.rules.ignoreCase))
    (Node.everywhere_orderly_empty _) ?_ rfl
  intro rules n n' hcase hreshaped hn
  rw [← hcase] at hn ⊢
  exact hreshaped.orderly hn

end Tree

end CommandLine
