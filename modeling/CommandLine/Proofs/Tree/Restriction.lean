import CommandLine.Proofs.Tree.Withdrawal

/-! # Nodes with some of their commands

    `Node.restrict` keeps some commands of a node, each at its place, with the edges that lead to
    them. A removal comes to the same: it leaves the restriction to the commands of other numbers
    (`Node.Removed.eq_restrict`). So commands that are removed from a tree one after the other leave
    the restriction to all others, in whatever order they are removed
    (`Tree.Reachable.removeEach`). -/

namespace CommandLine

namespace Node

mutual

/-- A node with some of its commands and the edges that lead to them. -/
def restrict (kept : Entry → Bool) : Node → Node
  | ⟨ending, literals, argument, flags⟩ =>
    ⟨ending.filter kept, restrictLiterals kept literals, restrictArgument kept argument,
      match flags with
      | none => none
      | some (g, ending) => if ending.any kept then some (g, ending.filter kept) else none⟩

/-- The literals that lead to some commands. -/
def restrictLiterals (kept : Entry → Bool) : List (Literal × Node) → List (Literal × Node)
  | [] => []
  | (l, child) :: rest =>
    if child.entries.any kept then (l, child.restrict kept) :: restrictLiterals kept rest
    else restrictLiterals kept rest

/-- The argument, if it leads to some commands. -/
def restrictArgument (kept : Entry → Bool) : Option (Argument × Node) → Option (Argument × Node)
  | none => none
  | some (a, child) => if child.entries.any kept then some (a, child.restrict kept) else none

end

/-- The flag group, if some commands end below it. -/
def restrictFlags (kept : Entry → Bool) :
    Option (FlagGroup × List Entry) → Option (FlagGroup × List Entry)
  | none => none
  | some (g, ending) => if ending.any kept then some (g, ending.filter kept) else none

/-- The commands below a flag group, if there is one. -/
def flagsEntries : Option (FlagGroup × List Entry) → List Entry
  | none => []
  | some (_, ending) => ending

theorem entries_eq (n : Node) :
    n.entries = n.ending ++ literalEntries n.literals ++ argumentEntries n.argument ++
      flagsEntries n.flags := by
  obtain ⟨ending, literals, argument, flags⟩ := n
  cases flags <;> rfl

theorem literalEntries_split (before after : List (Literal × Node)) (l : Literal) (child : Node) :
    literalEntries (before ++ (l, child) :: after) =
      literalEntries before ++ child.entries ++ literalEntries after := by
  simp only [literalEntries_eq, List.flatMap_append, List.flatMap_cons, List.append_assoc]

variable {kept other : Entry → Bool}

theorem restrict_eq (n : Node) :
    n.restrict kept = ⟨n.ending.filter kept, restrictLiterals kept n.literals,
      restrictArgument kept n.argument, restrictFlags kept n.flags⟩ := by
  obtain ⟨ending, literals, argument, flags⟩ := n
  cases flags <;> rfl

@[simp]
theorem restrict_ending (n : Node) : (n.restrict kept).ending = n.ending.filter kept := by
  rw [restrict_eq]

@[simp]
theorem restrict_literals (n : Node) :
    (n.restrict kept).literals = restrictLiterals kept n.literals := by
  rw [restrict_eq]

@[simp]
theorem restrict_argument (n : Node) :
    (n.restrict kept).argument = restrictArgument kept n.argument := by
  rw [restrict_eq]

@[simp]
theorem restrict_flags (n : Node) : (n.restrict kept).flags = restrictFlags kept n.flags := by
  rw [restrict_eq]

theorem restrictLiterals_eq (literals : List (Literal × Node)) :
    restrictLiterals kept literals =
      (literals.filter fun edge => edge.2.entries.any kept).map
        fun edge => (edge.1, edge.2.restrict kept) := by
  induction literals with
  | nil => rfl
  | cons edge rest ih =>
      rw [restrictLiterals, List.filter_cons]
      cases edge.2.entries.any kept <;> simp [ih]

theorem restrictLiterals_append (before after : List (Literal × Node)) :
    restrictLiterals kept (before ++ after) =
      restrictLiterals kept before ++ restrictLiterals kept after := by
  simp only [restrictLiterals_eq, List.filter_append, List.map_append]

/-- An edge to a restricted node, unless nothing is left below it. -/
theorem restrictLiterals_singleton (l : Literal) (child : Node) :
    restrictLiterals kept [(l, child)] =
      if child.entries.any kept then [(l, child.restrict kept)] else [] := by
  rw [restrictLiterals, restrictLiterals]

/-- The commands of a restricted node are those that are kept, in the same order. -/
theorem entries_restrict (n : Node) : (n.restrict kept).entries = n.entries.filter kept := by
  induction n using childInduction with
  | step n ihLiterals ihArgument =>
      have none_kept {l : List Entry} (h : l.any kept = false) : l.filter kept = [] := by
        simpa [List.filter_eq_nil_iff] using h
      have hliterals : ∀ literals ⊆ n.literals,
          literalEntries (restrictLiterals kept literals) =
            (literalEntries literals).filter kept := by
        intro literals hsub
        induction literals with
        | nil => rfl
        | cons edge rest ih =>
            have hrest := ih (List.subset_of_cons_subset hsub)
            rw [restrictLiterals, literalEntries, List.filter_append, ← hrest]
            cases h : edge.2.entries.any kept with
            | true =>
                rw [if_pos rfl, literalEntries, ihLiterals edge (hsub List.mem_cons_self)]
            | false => rw [if_neg Bool.false_ne_true, none_kept h, List.nil_append]
      have hargument : argumentEntries (restrictArgument kept n.argument) =
          (argumentEntries n.argument).filter kept := by
        cases hedge : n.argument with
        | none => rfl
        | some edge =>
            rw [restrictArgument, argumentEntries]
            cases h : edge.2.entries.any kept with
            | true => rw [if_pos rfl, argumentEntries, ihArgument edge hedge]
            | false => rw [if_neg Bool.false_ne_true, none_kept h, argumentEntries]
      have hflags : flagsEntries (restrictFlags kept n.flags) =
          (flagsEntries n.flags).filter kept := by
        cases n.flags with
        | none => rfl
        | some edge =>
            rw [restrictFlags, flagsEntries]
            cases h : edge.2.any kept with
            | true => rw [if_pos rfl, flagsEntries]
            | false => rw [if_neg Bool.false_ne_true, none_kept h, flagsEntries]
      rw [entries_eq, n.entries_eq, restrict_ending, restrict_literals, restrict_argument,
        restrict_flags, hliterals _ (List.Subset.refl _), hargument, hflags, List.filter_append,
        List.filter_append, List.filter_append]

/-- What is kept of other commands makes no difference. -/
theorem restrict_congr {n : Node} (h : ∀ e ∈ n.entries, kept e = other e) :
    n.restrict kept = n.restrict other := by
  induction n using childInduction with
  | step n ihLiterals ihArgument =>
      have any_congr {l : List Entry} (hsub : l ⊆ n.entries) : l.any kept = l.any other := by
        rw [Bool.eq_iff_iff, List.any_eq_true, List.any_eq_true]
        exact exists_congr fun e => and_congr_right fun he => by rw [h e (hsub he)]
      have hending : n.ending ⊆ n.entries := fun e he => mem_entries_iff.mpr (Or.inl he)
      have hbelow : ∀ edge ∈ n.literals, edge.2.entries ⊆ n.entries :=
        fun edge hedge e he => mem_entries_iff.mpr (Or.inr (Or.inl ⟨edge, hedge, he⟩))
      have hliterals : restrictLiterals kept n.literals = restrictLiterals other n.literals := by
        rw [restrictLiterals_eq, restrictLiterals_eq,
          List.filter_congr fun edge hedge => any_congr (hbelow edge hedge)]
        refine List.map_congr_left fun edge hedge => ?_
        have hedge := (List.mem_filter.mp hedge).1
        rw [ihLiterals edge hedge fun e he => h e (hbelow edge hedge he)]
      have hargument : restrictArgument kept n.argument = restrictArgument other n.argument := by
        cases hedge : n.argument with
        | none => rfl
        | some edge =>
            have hsub : edge.2.entries ⊆ n.entries := fun e he =>
              mem_entries_iff.mpr (Or.inr (Or.inr (Or.inl ⟨edge, hedge, he⟩)))
            rw [restrictArgument, restrictArgument, any_congr hsub,
              ihArgument edge hedge fun e he => h e (hsub he)]
      have hflags : restrictFlags kept n.flags = restrictFlags other n.flags := by
        cases hedge : n.flags with
        | none => rfl
        | some edge =>
            have hsub : edge.2 ⊆ n.entries := fun e he =>
              mem_entries_iff.mpr (Or.inr (Or.inr (Or.inr ⟨edge.1, edge.2, hedge, he⟩)))
            rw [restrictFlags, restrictFlags, any_congr hsub,
              List.filter_congr fun e he => h e (hsub he)]
      rw [restrict_eq, restrict_eq, hliterals, hargument, hflags,
        List.filter_congr fun e he => h e (hending he)]

/-- Keeping some and then some of these keeps those that are kept both times. -/
theorem restrict_restrict (n : Node) :
    (n.restrict kept).restrict other = n.restrict fun e => kept e && other e := by
  have any_filter (l : List Entry) :
      (l.filter kept).any other = l.any fun e => kept e && other e := by
    rw [List.any_filter]
  have filter_filter (l : List Entry) :
      (l.filter kept).filter other = l.filter fun e => kept e && other e := by
    rw [List.filter_filter]
    simp only [Bool.and_comm]
  have any_of_both {l : List Entry} (h : l.any kept = false) :
      (l.any fun e => kept e && other e) = false := by
    rw [← any_filter, List.filter_eq_nil_iff.mpr (by simpa using h), List.any_nil]
  induction n using childInduction with
  | step n ihLiterals ihArgument =>
      have hliterals : ∀ literals ⊆ n.literals,
          restrictLiterals other (restrictLiterals kept literals) =
            restrictLiterals (fun e => kept e && other e) literals := by
        intro literals hsub
        induction literals with
        | nil => rfl
        | cons edge rest ih =>
            have hrest := ih (List.subset_of_cons_subset hsub)
            rw [restrictLiterals, restrictLiterals, ← hrest]
            cases h : edge.2.entries.any kept with
            | true =>
                rw [if_pos rfl, restrictLiterals, entries_restrict, any_filter,
                  ihLiterals edge (hsub List.mem_cons_self)]
            | false => rw [if_neg Bool.false_ne_true, any_of_both h, if_neg Bool.false_ne_true]
      have hargument : restrictArgument other (restrictArgument kept n.argument) =
          restrictArgument (fun e => kept e && other e) n.argument := by
        cases hedge : n.argument with
        | none => rfl
        | some edge =>
            rw [restrictArgument, restrictArgument]
            cases h : edge.2.entries.any kept with
            | true =>
                rw [if_pos rfl, restrictArgument, entries_restrict, any_filter,
                  ihArgument edge hedge]
            | false =>
                rw [if_neg Bool.false_ne_true, any_of_both h, if_neg Bool.false_ne_true,
                  restrictArgument]
      have hflags : restrictFlags other (restrictFlags kept n.flags) =
          restrictFlags (fun e => kept e && other e) n.flags := by
        cases n.flags with
        | none => rfl
        | some edge =>
            rw [restrictFlags, restrictFlags]
            cases h : edge.2.any kept with
            | true => rw [if_pos rfl, restrictFlags, any_filter, filter_filter]
            | false =>
                rw [if_neg Bool.false_ne_true, any_of_both h, if_neg Bool.false_ne_true,
                  restrictFlags]
      rw [restrict_eq, restrict_ending, restrict_literals, restrict_argument, restrict_flags,
        hliterals _ (List.Subset.refl _), hargument, hflags, filter_filter, restrict_eq n]

/-! Where every edge leads to a command and all commands are kept, everything is. -/

theorem any_kept {entries : List Entry} (hne : entries ≠ [])
    (hkept : ∀ e ∈ entries, kept e = true) : entries.any kept = true := by
  obtain ⟨e, he⟩ := List.exists_mem_of_ne_nil _ hne
  exact List.any_eq_true.mpr ⟨e, he, hkept e he⟩

theorem restrictLiterals_eq_self {literals : List (Literal × Node)}
    (hfruitful : ∀ edge ∈ literals, edge.2.entries ≠ [])
    (hsame : ∀ edge ∈ literals, edge.2.restrict kept = edge.2)
    (hkept : ∀ edge ∈ literals, ∀ e ∈ edge.2.entries, kept e = true) :
    restrictLiterals kept literals = literals := by
  rw [restrictLiterals_eq, List.filter_eq_self.mpr, List.map_congr_left (g := id), List.map_id]
  · exact fun edge hedge => Prod.ext rfl (hsame edge hedge)
  · exact fun edge hedge => any_kept (hfruitful edge hedge) (hkept edge hedge)

theorem restrictArgument_eq_self {argument : Option (Argument × Node)}
    (hfruitful : ∀ edge, argument = some edge → edge.2.entries ≠ [])
    (hsame : ∀ edge, argument = some edge → edge.2.restrict kept = edge.2)
    (hkept : ∀ e ∈ argumentEntries argument, kept e = true) :
    restrictArgument kept argument = argument := by
  cases argument with
  | none => rfl
  | some edge =>
      rw [restrictArgument, hsame edge rfl, if_pos (any_kept (hfruitful edge rfl) hkept)]

theorem restrictFlags_eq_self {flags : Option (FlagGroup × List Entry)}
    (hfruitful : ∀ g ending, flags = some (g, ending) → ending ≠ [])
    (hkept : ∀ e ∈ flagsEntries flags, kept e = true) : restrictFlags kept flags = flags := by
  cases flags with
  | none => rfl
  | some edge =>
      have hall : edge.2.filter kept = edge.2 := List.filter_eq_self.mpr hkept
      rw [restrictFlags, if_pos (any_kept (hfruitful edge.1 edge.2 rfl) hkept), hall]

theorem restrict_eq_self {n : Node} (hn : n.Everywhere Fruitful)
    (hkept : ∀ e ∈ n.entries, kept e = true) : n.restrict kept = n := by
  induction hn with
  | @intro n here literals argument ihLiterals ihArgument =>
      simp only [entries_eq n, List.forall_mem_append] at hkept
      obtain ⟨⟨⟨hending, hbelow⟩, hargument⟩, hflags⟩ := hkept
      have hliterals : ∀ edge ∈ n.literals, ∀ e ∈ edge.2.entries, kept e = true := by
        intro edge hedge e he
        refine hbelow e ?_
        rw [literalEntries_eq]
        exact List.mem_flatMap.mpr ⟨edge, hedge, he⟩
      rw [restrict_eq, List.filter_eq_self.mpr hending,
        restrictLiterals_eq_self here.literals
          (fun edge hedge => ihLiterals edge hedge (hliterals edge hedge)) hliterals,
        restrictArgument_eq_self here.argument
          (fun edge hedge => ihArgument edge hedge (by rwa [hedge] at hargument)) hargument,
        restrictFlags_eq_self here.flags hflags, mk_parts]

/-- A restricted node is bare exactly if none of its commands is kept. -/
theorem isBare_restrict (n : Node) : (n.restrict kept).isBare = !n.entries.any kept := by
  cases hany : n.entries.any kept with
  | true =>
      obtain ⟨e, he, hkept⟩ := List.any_eq_true.mp hany
      rw [Bool.not_true, Bool.eq_false_iff]
      intro hbare
      have hleft : e ∈ (n.restrict kept).entries := by
        rw [entries_restrict]
        exact List.mem_filter.mpr ⟨he, hkept⟩
      rw [← map_entry_filings, filings_of_isBare hbare] at hleft
      cases hleft
  | false =>
      have hnone {l : List Entry} (hsub : l ⊆ n.entries) : l.any kept = false := by
        rw [List.any_eq_false] at hany ⊢
        exact fun e he => hany e (hsub he)
      have hending : n.ending.filter kept = [] := by
        simpa using hnone fun e he => mem_entries_iff.mpr (Or.inl he)
      have hliterals : restrictLiterals kept n.literals = [] := by
        rw [restrictLiterals_eq, List.map_eq_nil_iff, List.filter_eq_nil_iff]
        intro edge hedge
        rw [hnone fun e he => mem_entries_iff.mpr (Or.inr (Or.inl ⟨edge, hedge, he⟩))]
        exact Bool.false_ne_true
      have hargument : restrictArgument kept n.argument = none := by
        cases hedge : n.argument with
        | none => rfl
        | some edge =>
            rw [restrictArgument, hnone fun e he =>
              mem_entries_iff.mpr (Or.inr (Or.inr (Or.inl ⟨edge, hedge, he⟩)))]
            rfl
      have hflags : restrictFlags kept n.flags = none := by
        cases hedge : n.flags with
        | none => rfl
        | some edge =>
            rw [restrictFlags, hnone fun e he =>
              mem_entries_iff.mpr (Or.inr (Or.inr (Or.inr ⟨_, _, hedge, he⟩)))]
            rfl
      rw [restrict_eq, hending, hliterals, hargument, hflags]
      rfl

/-- An edge to a restricted node is kept if one of the commands below it is. -/
theorem keep_restrict {L : Type} (label : L) (child : Node) :
    keep label (child.restrict kept) =
      if child.entries.any kept then some (label, child.restrict kept) else none := by
  rw [keep, isBare_restrict]
  cases child.entries.any kept <;> rfl

/-! ## Removal -/

/-- How many of some commands have a number. -/
def tally (serial : Nat) (entries : List Entry) : Nat :=
  entries.countP (·.serial == serial)

theorem tally_append (serial : Nat) (front back : List Entry) :
    tally serial (front ++ back) = tally serial front + tally serial back :=
  List.countP_append

theorem others_of_tally {serial : Nat} {entries : List Entry} (h : tally serial entries = 0) :
    ∀ e ∈ entries, (e.serial != serial) = true := by
  intro e he
  rw [bne, Bool.not_eq_true']
  exact Bool.eq_false_iff.mpr (List.countP_eq_zero.mp h e he)

theorem tally_of_withoutEntry {serial : Nat} {ending left : List Entry}
    (h : withoutEntry serial ending = some left) :
    0 < tally serial ending ∧ left = ending.filter (·.serial != serial) := by
  rw [withoutEntry] at h
  split at h
  · next hany =>
      obtain ⟨e, he, hserial⟩ := List.any_eq_true.mp hany
      exact ⟨List.countP_pos_iff.mpr ⟨e, he, hserial⟩, (Option.some.inj h).symm⟩
  · cases h

variable {ignoreCase : Bool} {serial : Nat} {components : List Component} {n n' : Node}

/-- The number that is removed is that of a command of the node. -/
theorem Removed.tally_pos (h : Removed ignoreCase serial components n n') :
    0 < tally serial n.entries := by
  induction h with
  | here found =>
      rw [entries_eq, tally_append, tally_append, tally_append]
      have := (tally_of_withoutEntry found).1
      omega
  | @literal l old rest n child child' before after split _ _ ih =>
      rw [entries_eq, tally_append, tally_append, tally_append, split, literalEntries_split,
        tally_append, tally_append]
      omega
  | argument taken _ _ ih =>
      rw [entries_eq, tally_append, tally_append, tally_append, taken, argumentEntries]
      omega
  | flags taken _ found =>
      rw [entries_eq, tally_append, tally_append, tally_append, taken, flagsEntries]
      have := (tally_of_withoutEntry found).1
      omega

/-! Where a number does not occur, nothing is restricted by it. -/

theorem filter_of_tally {ending : List Entry} (h : tally serial ending = 0) :
    ending.filter (·.serial != serial) = ending :=
  List.filter_eq_self.mpr (others_of_tally h)

theorem restrictLiterals_of_tally {literals : List (Literal × Node)}
    (hfruitful : ∀ edge ∈ literals, edge.2.entries ≠ [])
    (hbelow : ∀ edge ∈ literals, edge.2.Everywhere Fruitful)
    (h : tally serial (literalEntries literals) = 0) :
    restrictLiterals (·.serial != serial) literals = literals := by
  have hothers : ∀ edge ∈ literals, ∀ e ∈ edge.2.entries, (e.serial != serial) = true := by
    intro edge hedge e he
    refine others_of_tally h e ?_
    rw [literalEntries_eq]
    exact List.mem_flatMap.mpr ⟨edge, hedge, he⟩
  exact restrictLiterals_eq_self hfruitful
    (fun edge hedge => restrict_eq_self (hbelow edge hedge) (hothers edge hedge)) hothers

theorem restrictArgument_of_tally {argument : Option (Argument × Node)}
    (hfruitful : ∀ edge, argument = some edge → edge.2.entries ≠ [])
    (hbelow : ∀ edge, argument = some edge → edge.2.Everywhere Fruitful)
    (h : tally serial (argumentEntries argument) = 0) :
    restrictArgument (·.serial != serial) argument = argument := by
  refine restrictArgument_eq_self hfruitful (fun edge hedge => ?_) (others_of_tally h)
  rw [hedge] at h
  exact restrict_eq_self (hbelow edge hedge) (others_of_tally h)

theorem restrictFlags_of_tally {flags : Option (FlagGroup × List Entry)}
    (hfruitful : ∀ g ending, flags = some (g, ending) → ending ≠ [])
    (h : tally serial (flagsEntries flags) = 0) :
    restrictFlags (·.serial != serial) flags = flags :=
  restrictFlags_eq_self hfruitful (others_of_tally h)

/-- A removal leaves the commands of other numbers with the edges that lead to them. -/
theorem Removed.eq_restrict (h : Removed ignoreCase serial components n n')
    (hn : n.Everywhere Fruitful) (honce : tally serial n.entries ≤ 1) :
    n' = n.restrict (·.serial != serial) := by
  -- the number occurs in the slot that the removal goes through, and so in no other
  induction h with
  | @here n _ found =>
      obtain ⟨hpos, rfl⟩ := tally_of_withoutEntry found
      rw [entries_eq, tally_append, tally_append, tally_append] at honce
      obtain ⟨here, literals, argument⟩ := hn
      rw [restrict_eq, restrictLiterals_of_tally here.literals literals (by omega),
        restrictArgument_of_tally here.argument argument (by omega),
        restrictFlags_of_tally here.flags (by omega)]
  | @literal l old rest n child child' before after split _ below ih =>
      have hpos := below.tally_pos
      rw [entries_eq, tally_append, tally_append, tally_append, split, literalEntries_split,
        tally_append, tally_append] at honce
      have hchild := ih (hn.literal (show (old, child) ∈ n.literals by simp [split])) (by omega)
      obtain ⟨here, literals, argument⟩ := hn
      have hbefore : before ⊆ n.literals := by simp [split]
      have hafter : after ⊆ n.literals := by
        rw [split]
        exact fun edge hedge => List.mem_append_right _ (List.mem_cons_of_mem _ hedge)
      rw [restrict_eq, split, ← List.singleton_append, restrictLiterals_append,
        restrictLiterals_append, restrictLiterals_singleton,
        restrictLiterals_of_tally (fun edge hedge => here.literals edge (hbefore hedge))
          (fun edge hedge => literals edge (hbefore hedge)) (by omega),
        restrictLiterals_of_tally (fun edge hedge => here.literals edge (hafter hedge))
          (fun edge hedge => literals edge (hafter hedge)) (by omega),
        restrictArgument_of_tally here.argument argument (by omega),
        restrictFlags_of_tally here.flags (by omega), filter_of_tally (by omega), hchild,
        keep_restrict, List.append_assoc]
      split <;> rfl
  | @argument a old rest n child child' taken _ below ih =>
      have hpos := below.tally_pos
      rw [entries_eq, tally_append, tally_append, tally_append, taken, argumentEntries] at honce
      have hchild := ih (hn.argument taken) (by omega)
      obtain ⟨here, literals, argument⟩ := hn
      rw [restrict_eq, taken, restrictArgument,
        restrictLiterals_of_tally here.literals literals (by omega),
        restrictFlags_of_tally here.flags (by omega), filter_of_tally (by omega), hchild,
        keep_restrict]
  | @flags g old rest n ending ending' taken _ found =>
      obtain ⟨hpos, rfl⟩ := tally_of_withoutEntry found
      rw [entries_eq, tally_append, tally_append, tally_append, taken, flagsEntries] at honce
      obtain ⟨here, literals, argument⟩ := hn
      have hending : n.ending.filter (·.serial != serial) = n.ending := filter_of_tally (by omega)
      rw [restrict_eq, taken, restrictFlags,
        restrictLiterals_of_tally here.literals literals (by omega),
        restrictArgument_of_tally here.argument argument (by omega), hending]
      have hempty : (ending.filter (·.serial != serial)).isEmpty =
          !ending.any (·.serial != serial) := by
        rw [Bool.eq_iff_iff]
        simp
      rw [hempty]
      cases ending.any (·.serial != serial) <;> rfl

/-- What is left of a node when the commands are taken away that a sender may not run. -/
def visible (n : Node) (ctx : Context) : Node :=
  n.restrict fun e => e.command.isPermitted ctx

end Node

namespace Tree

/-- Removes commands one after the other. -/
def removeEach (t : Tree) (entries : List Entry) : Except RegistrationError Tree :=
  entries.foldlM remove t

/-- The commands of a tree that a sender may not run. -/
def deniedTo (t : Tree) (ctx : Context) : List Entry :=
  t.entries.filter fun e => !e.command.isPermitted ctx

/-- Every edge of a reachable tree leads to a command. -/
theorem Reachable.fruitful {t : Tree} (ht : t.Reachable) : t.root.Everywhere Node.Fruitful :=
  ht.orderly.mono fun _ hn => ⟨hn.belowLiteral, hn.belowArgument, hn.belowFlags⟩

/-- A number belongs to at most one command of a reachable tree. -/
theorem Reachable.tally_le {t : Tree} (ht : t.Reachable) (serial : Nat) :
    Node.tally serial t.root.entries ≤ 1 := by
  obtain ⟨past, hpast⟩ := ht
  have hcount := List.nodup_iff_count_le_one.mp hpast.numbered.nodup serial
  rwa [List.count, List.countP_map] at hcount

/-- Removing commands leaves the restriction to the others. -/
theorem Reachable.removeEach {t : Tree} (ht : t.Reachable) (hunlocked : t.checkUnlocked = .ok ())
    {entries : List Entry} (hsub : entries ⊆ t.entries)
    (hnodup : (entries.map (·.serial)).Nodup) :
    t.removeEach entries = .ok { t with
      root := t.root.restrict fun x => entries.all fun e => x.serial != e.serial } := by
  induction entries generalizing t with
  | nil =>
      simp only [List.all_nil, Node.restrict_eq_self ht.fruitful fun _ _ => rfl]
      rfl
  | cons e rest ih =>
      obtain ⟨he, hrest⟩ := List.cons_subset.mp hsub
      obtain ⟨hfresh, hnodup⟩ := List.nodup_cons.mp hnodup
      obtain ⟨t', hremove⟩ := ht.exists_remove hunlocked he
      obtain ⟨hremoved, hshape⟩ := remove_ok hremove
      have hroot := hremoved.eq_restrict ht.fruitful (ht.tally_le e.serial)
      rw [hroot] at hshape
      have hunlocked' : t'.checkUnlocked = .ok () := by
        rw [hshape]
        exact hunlocked
      have hsub' : rest ⊆ t'.entries := by
        intro x hx
        rw [hshape, Tree.entries, Node.entries_restrict]
        refine List.mem_filter.mpr ⟨hrest hx, bne_iff_ne.mpr fun hsame => ?_⟩
        exact hfresh (List.mem_map.mpr ⟨x, hx, hsame⟩)
      have hreachable : t'.Reachable := by
        obtain ⟨past, hpast⟩ := ht
        exact ⟨_, hpast.of_remove hremove⟩
      have hall := ih hreachable hunlocked' hsub' hnodup
      rw [Tree.removeEach, List.foldlM_cons, hremove]
      rw [Tree.removeEach] at hall
      simp only [List.all_cons]
      rw [← Node.restrict_restrict]
      rw [hshape] at hall ⊢
      exact hall

/-- Removing the commands that a sender may not run, in any order, leaves what the sender sees. -/
theorem Reachable.remove_denied {t : Tree} (ht : t.Reachable)
    (hunlocked : t.checkUnlocked = .ok ()) {ctx : Context} {denied : List Entry}
    (hdenied : denied.Perm (t.deniedTo ctx)) :
    t.removeEach denied = .ok { t with root := t.root.visible ctx } := by
  obtain ⟨past, hpast⟩ := ht
  have hnumbered := hpast.numbered
  have ht : t.Reachable := ⟨past, hpast⟩
  have hsub : denied ⊆ t.entries :=
    fun e he => (List.mem_filter.mp (hdenied.subset he)).1
  have hnodup : (denied.map (·.serial)).Nodup :=
    (hdenied.map (·.serial)).nodup_iff.mpr
      (hnumbered.nodup.sublist (List.filter_sublist.map _))
  rw [ht.removeEach hunlocked hsub hnodup, Node.visible, Node.restrict_congr]
  intro e he
  rw [Bool.eq_iff_iff, List.all_eq_true]
  constructor
  · intro hall
    by_contra hlacks
    have hmem : e ∈ denied :=
      hdenied.symm.subset (List.mem_filter.mpr ⟨he, by simpa using hlacks⟩)
    exact bne_iff_ne.mp (hall e hmem) rfl
  · intro hpermitted x hx
    rw [bne_iff_ne]
    intro hsame
    -- a number stands for one command, and this one is not denied
    have hknown := hnumbered.known t List.mem_cons_self x (hsub hx) e he hsame
    have hlacks := (List.mem_filter.mp (hdenied.subset hx)).2
    rw [← hknown, hpermitted] at hlacks
    cases hlacks

end Tree

end CommandLine
