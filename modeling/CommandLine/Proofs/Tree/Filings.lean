import CommandLine.Proofs.Tree.Creation
import CommandLine.Proofs.Tree.Paths

/-! # Filings

    A filing is a command together with the place where it ends. A place is named by the kinds and
    names of the edges down to it, which edits do not change as long as the edges are there.
    `Node.filings` lists the filings of a node in the order in which `Node.entries` lists the
    commands.

    An insertion or a removal changes what is filed at one place and leaves all other filings, in
    their order, as they are (`Node.Inserted.changes`, `Node.Removed.changes`). -/

namespace CommandLine

/-- What tells an edge from its siblings. -/
structure Component.Label where
  kind : Component.Kind
  name : String
deriving DecidableEq

/-- The label of a component. -/
def Component.label (c : Component) : Component.Label :=
  ⟨c.kind, c.name⟩

/-- A place in a tree, by the labels on the way down to it. -/
abbrev Place := List Component.Label

/-- A command and the place where it ends. -/
structure Filing where
  place : Place
  entry : Entry

namespace Filing

/-- A filing as it is seen from above an edge. -/
def under (label : Component.Label) (f : Filing) : Filing :=
  { f with place := label :: f.place }

/-- The filings of the commands that end at a place. -/
def allAt (place : Place) (ending : List Entry) : List Filing :=
  ending.map (⟨place, ·⟩)

theorem map_under_allAt (label : Component.Label) (place : Place) (ending : List Entry) :
    (allAt place ending).map (under label) = allAt (label :: place) ending := by
  rw [allAt, allAt, List.map_map]
  rfl

theorem map_entry_allAt (place : Place) (ending : List Entry) :
    (allAt place ending).map (·.entry) = ending := by
  rw [allAt, List.map_map]
  exact List.map_id ending

theorem map_entry_under (label : Component.Label) (filings : List Filing) :
    (filings.map (under label)).map (·.entry) = filings.map (·.entry) := by
  rw [List.map_map]
  rfl

theorem mem_allAt {place : Place} {ending : List Entry} {f : Filing} :
    f ∈ allAt place ending ↔ f.place = place ∧ f.entry ∈ ending := by
  constructor
  · intro hf
    obtain ⟨e, he, rfl⟩ := List.mem_map.mp hf
    exact ⟨rfl, he⟩
  · rintro ⟨rfl, he⟩
    exact List.mem_map.mpr ⟨f.entry, he, rfl⟩

/-- Some filings become others by a change of what is filed at one place. -/
def ChangesAt (place : Place) (old new : List Entry) (before after : List Filing) : Prop :=
  ∃ front back, before = front ++ allAt place old ++ back ∧
    after = front ++ allAt place new ++ back ∧ ∀ f ∈ front ++ back, f.place ≠ place

/-- A change below an edge is a change above it, among filings that go along other edges. -/
theorem ChangesAt.under {place : Place} {old new : List Entry} {before after : List Filing}
    (h : ChangesAt place old new before after) (label : Component.Label) (front back : List Filing)
    (hother : ∀ f ∈ front ++ back, f.place.head? ≠ some label) :
    ChangesAt (label :: place) old new (front ++ before.map (under label) ++ back)
      (front ++ after.map (under label) ++ back) := by
  obtain ⟨inner, outer, rfl, rfl, hapart⟩ := h
  refine ⟨front ++ inner.map (Filing.under label), outer.map (Filing.under label) ++ back,
    ?_, ?_, ?_⟩
  · simp only [List.map_append, map_under_allAt, List.append_assoc]
  · simp only [List.map_append, map_under_allAt, List.append_assoc]
  · intro f hf hplace
    have hf : f ∈ front ++ back ∨ f ∈ (inner ++ outer).map (Filing.under label) := by
      simp only [List.map_append, List.mem_append] at hf ⊢
      tauto
    rcases hf with hf | hf
    · exact hother f hf (by rw [hplace, List.head?_cons])
    · obtain ⟨g, hg, rfl⟩ := List.mem_map.mp hf
      exact hapart g hg (List.cons.inj hplace).2

end Filing

open Filing

namespace Node

/-- What holds of every node of whose children it holds, holds of all nodes. -/
@[elab_as_elim]
theorem childInduction {P : Node → Prop}
    (step : ∀ n : Node, (∀ edge ∈ n.literals, P edge.2) →
      (∀ edge, n.argument = some edge → P edge.2) → P n) (n : Node) : P n :=
  step n (fun edge _ => childInduction step edge.2) (fun edge _ => childInduction step edge.2)
termination_by sizeOf n
decreasing_by
  · exact sizeOf_lt_of_mem_literals ‹_›
  · exact sizeOf_lt_of_argument ‹_›

/-! ## The filings of a node -/

mutual

/-- The filings of the commands at and below a node. -/
def filings : Node → List Filing
  | ⟨ending, literals, argument, flags⟩ =>
    allAt [] ending ++ literalFilings literals ++ argumentFilings argument ++
      match flags with
      | none => []
      | some (g, ending) => allAt [(Component.flags g).label] ending

/-- The filings below some literals. -/
def literalFilings : List (Literal × Node) → List Filing
  | [] => []
  | (l, child) :: rest =>
    child.filings.map (under (Component.literal l).label) ++ literalFilings rest

/-- The filings below an argument, if there is one. -/
def argumentFilings : Option (Argument × Node) → List Filing
  | none => []
  | some (a, child) => child.filings.map (under (Component.argument a).label)

end

/-- The filings below a flag group, if there is one. -/
def flagsFilings : Option (FlagGroup × List Entry) → List Filing
  | none => []
  | some (g, ending) => allAt [(Component.flags g).label] ending

theorem filings_eq (n : Node) :
    n.filings = allAt [] n.ending ++ literalFilings n.literals ++ argumentFilings n.argument ++
      flagsFilings n.flags := by
  obtain ⟨ending, literals, argument, flags⟩ := n
  cases flags <;> rfl

theorem literalFilings_eq (literals : List (Literal × Node)) :
    literalFilings literals =
      literals.flatMap fun (l, child) => child.filings.map (under (Component.literal l).label) := by
  induction literals with
  | nil => rfl
  | cons edge rest ih => rw [literalFilings, ih, List.flatMap_cons]

theorem literalFilings_append (before after : List (Literal × Node)) :
    literalFilings (before ++ after) = literalFilings before ++ literalFilings after := by
  rw [literalFilings_eq, literalFilings_eq, literalFilings_eq, List.flatMap_append]

theorem literalFilings_singleton (l : Literal) (child : Node) :
    literalFilings [(l, child)] = child.filings.map (under (Component.literal l).label) := by
  rw [literalFilings, literalFilings, List.append_nil]

/-- Nothing is filed at or below a bare node. -/
theorem filings_of_isBare {n : Node} (h : n.isBare = true) : n.filings = [] := by
  obtain ⟨ending, literals, argument, flags⟩ := n
  simp only [isBare, Bool.and_eq_true, List.isEmpty_iff, Option.isNone_iff_eq_none] at h
  obtain ⟨⟨⟨rfl, rfl⟩, rfl⟩, rfl⟩ := h
  rfl

/-- Whether an edge to a node is kept makes no difference to the filings below it. -/
theorem literalFilings_keep (l : Literal) (child : Node) :
    literalFilings (keep l child).toList =
      child.filings.map (under (Component.literal l).label) := by
  rcases keep_cases l child with ⟨hbare, hkeep⟩ | ⟨-, hkeep⟩
  · rw [hkeep, filings_of_isBare hbare]
    rfl
  · rw [hkeep, Option.toList_some, literalFilings_singleton]

theorem argumentFilings_keep (a : Argument) (child : Node) :
    argumentFilings (keep a child) = child.filings.map (under (Component.argument a).label) := by
  rcases keep_cases a child with ⟨hbare, hkeep⟩ | ⟨-, hkeep⟩
  · rw [hkeep, filings_of_isBare hbare]
    rfl
  · rw [hkeep, argumentFilings]

/-- The commands of the filings are all commands, in the same order. -/
theorem map_entry_filings (n : Node) : n.filings.map (·.entry) = n.entries := by
  induction n using childInduction with
  | step n ihLiterals ihArgument =>
      obtain ⟨ending, literals, argument, flags⟩ := n
      have hliterals : (literalFilings literals).map (·.entry) = literalEntries literals := by
        rw [literalFilings_eq, literalEntries_eq, List.map_flatMap]
        refine List.flatMap_congr fun edge hedge => ?_
        rw [map_entry_under, ihLiterals edge hedge]
      have hargument : (argumentFilings argument).map (·.entry) = argumentEntries argument := by
        cases argument with
        | none => rfl
        | some edge =>
            rw [argumentFilings, map_entry_under, ihArgument edge rfl, argumentEntries]
      rw [filings_eq, List.map_append, List.map_append, List.map_append, map_entry_allAt,
        hliterals, hargument]
      rcases flags with - | ⟨g, last⟩
      · rfl
      · rw [flagsFilings, map_entry_allAt]
        rfl

/-! ## Filings and paths -/

theorem mem_literalFilings {literals : List (Literal × Node)} {f : Filing} :
    f ∈ literalFilings literals ↔ ∃ l child, (l, child) ∈ literals ∧
      ∃ g ∈ child.filings, f = under (Component.literal l).label g := by
  rw [literalFilings_eq, List.mem_flatMap]
  constructor
  · rintro ⟨⟨l, child⟩, hedge, hf⟩
    obtain ⟨g, hg, rfl⟩ := List.mem_map.mp hf
    exact ⟨l, child, hedge, g, hg, rfl⟩
  · rintro ⟨l, child, hedge, g, hg, rfl⟩
    exact ⟨(l, child), hedge, List.mem_map_of_mem hg⟩

theorem mem_argumentFilings {argument : Option (Argument × Node)} {f : Filing} :
    f ∈ argumentFilings argument ↔ ∃ a child, argument = some (a, child) ∧
      ∃ g ∈ child.filings, f = under (Component.argument a).label g := by
  cases argument with
  | none => simp [argumentFilings]
  | some edge =>
      constructor
      · intro hf
        obtain ⟨g, hg, rfl⟩ := List.mem_map.mp hf
        exact ⟨edge.1, edge.2, rfl, g, hg, rfl⟩
      · rintro ⟨a, child, ⟨⟩, g, hg, rfl⟩
        exact List.mem_map_of_mem hg

theorem mem_flagsFilings {flags : Option (FlagGroup × List Entry)} {f : Filing} :
    f ∈ flagsFilings flags ↔ ∃ g ending, flags = some (g, ending) ∧
      f.place = [(Component.flags g).label] ∧ f.entry ∈ ending := by
  cases flags with
  | none => simp [flagsFilings]
  | some edge =>
      rw [flagsFilings, mem_allAt]
      constructor
      · rintro ⟨hplace, hentry⟩
        exact ⟨edge.1, edge.2, rfl, hplace, hentry⟩
      · rintro ⟨g, ending, ⟨⟩, hplace, hentry⟩
        exact ⟨hplace, hentry⟩

/-- A command is filed at a place exactly when edges of those labels lead to where it ends. -/
theorem mem_filings_iff {n : Node} {f : Filing} :
    f ∈ n.filings ↔ ∃ path ending, n.Leads path ending ∧ f.entry ∈ ending ∧
      f.place = path.map Component.label := by
  constructor
  · intro hf
    induction n using childInduction generalizing f with
    | step n ihLiterals ihArgument =>
        rw [filings_eq, List.mem_append, List.mem_append, List.mem_append, mem_allAt,
          mem_literalFilings, mem_argumentFilings, mem_flagsFilings] at hf
        rcases hf with ((⟨hplace, hentry⟩ | ⟨l, child, hedge, g, hg, rfl⟩) |
          ⟨a, child, hedge, g, hg, rfl⟩) | ⟨g, ending, hedge, hplace, hentry⟩
        · exact ⟨[], n.ending, .here, hentry, hplace⟩
        · obtain ⟨path, ending, hleads, hentry, hplace⟩ := ihLiterals _ hedge hg
          exact ⟨_, ending, .literal hedge hleads, hentry, congrArg _ hplace⟩
        · obtain ⟨path, ending, hleads, hentry, hplace⟩ := ihArgument _ hedge hg
          exact ⟨_, ending, .argument hedge hleads, hentry, congrArg _ hplace⟩
        · exact ⟨_, ending, .flags hedge, hentry, hplace⟩
  · rintro ⟨path, ending, hleads, hentry, hplace⟩
    induction hleads generalizing f with
    | here =>
        rw [filings_eq]
        simp only [List.mem_append, mem_allAt]
        exact Or.inl (Or.inl (Or.inl ⟨hplace, hentry⟩))
    | @literal _ _ _ path _ edge below ih =>
        have hbelow := ih (f := ⟨path.map Component.label, f.entry⟩) hentry rfl
        rw [filings_eq]
        simp only [List.mem_append, mem_literalFilings]
        refine Or.inl (Or.inl (Or.inr ⟨_, _, edge, _, hbelow, ?_⟩))
        exact congrArg (Filing.mk · f.entry) hplace
    | @argument _ _ _ path _ edge below ih =>
        have hbelow := ih (f := ⟨path.map Component.label, f.entry⟩) hentry rfl
        rw [filings_eq]
        simp only [List.mem_append, mem_argumentFilings]
        refine Or.inl (Or.inr ⟨_, _, edge, _, hbelow, ?_⟩)
        exact congrArg (Filing.mk · f.entry) hplace
    | flags edge =>
        rw [filings_eq]
        simp only [List.mem_append, mem_flagsFilings]
        exact Or.inr ⟨_, _, edge, hplace, hentry⟩

/-! ## Changes in one slot of a node -/

section Slots

variable {n : Node} {place : Place} {old new : List Entry} {below below' : List Filing}

theorem changes_ending (n : Node) (ending : List Entry) :
    ChangesAt [] n.ending ending n.filings ({ n with ending }).filings := by
  refine ⟨[], literalFilings n.literals ++ argumentFilings n.argument ++ flagsFilings n.flags,
    ?_, ?_, ?_⟩
  · simp only [filings_eq, List.nil_append, List.append_assoc]
  · simp only [filings_eq, List.nil_append, List.append_assoc]
  · -- whatever is filed below an edge has a label in its place
    intro f hf hplace
    simp only [List.nil_append, List.mem_append, mem_literalFilings, mem_argumentFilings,
      mem_flagsFilings] at hf
    rcases hf with (⟨_, _, _, _, _, rfl⟩ | ⟨_, _, _, _, _, rfl⟩) | ⟨_, _, _, hlabel, _⟩
    · cases hplace
    · cases hplace
    · rw [hlabel] at hplace
      cases hplace

theorem changes_literals {name : String} {before mid mid' after : List (Literal × Node)}
    (hsplit : n.literals = before ++ mid ++ after)
    (hmid : literalFilings mid = below.map (under ⟨.literal, name⟩))
    (hmid' : literalFilings mid' = below'.map (under ⟨.literal, name⟩))
    (hother : ∀ edge ∈ before ++ after, edge.1.name ≠ name)
    (h : ChangesAt place old new below below') :
    ChangesAt (⟨.literal, name⟩ :: place) old new n.filings
      ({ n with literals := before ++ mid' ++ after }).filings := by
  have hchange := h.under ⟨.literal, name⟩ (allAt [] n.ending ++ literalFilings before)
    (literalFilings after ++ argumentFilings n.argument ++ flagsFilings n.flags) ?_
  · simpa only [filings_eq, hsplit, literalFilings_append, hmid, hmid', List.append_assoc]
      using hchange
  · intro f hf hhead
    have hnot : f ∉ literalFilings (before ++ after) := by
      intro hf
      obtain ⟨l, child, hedge, g, _, rfl⟩ := mem_literalFilings.mp hf
      cases hhead
      exact hother _ hedge rfl
    rw [literalFilings_append, List.mem_append, not_or] at hnot
    simp only [List.mem_append, mem_allAt, mem_argumentFilings, mem_flagsFilings] at hf
    rcases hf with (⟨hplace, _⟩ | hf) | (hf | ⟨_, _, _, _, _, rfl⟩) | ⟨_, _, _, hlabel, _⟩
    · simp [hplace] at hhead
    · exact hnot.1 hf
    · exact hnot.2 hf
    · simp [under, Component.label, Component.kind] at hhead
    · simp [hlabel, Component.label, Component.kind] at hhead

theorem changes_argument {name : String} {argument' : Option (Argument × Node)}
    (hbefore : argumentFilings n.argument = below.map (under ⟨.argument, name⟩))
    (hafter : argumentFilings argument' = below'.map (under ⟨.argument, name⟩))
    (h : ChangesAt place old new below below') :
    ChangesAt (⟨.argument, name⟩ :: place) old new n.filings
      ({ n with argument := argument' }).filings := by
  have hchange := h.under ⟨.argument, name⟩ (allAt [] n.ending ++ literalFilings n.literals)
    (flagsFilings n.flags) ?_
  · simpa only [filings_eq, hbefore, hafter, List.append_assoc] using hchange
  · intro f hf hhead
    simp only [List.mem_append, mem_allAt, mem_literalFilings, mem_flagsFilings] at hf
    rcases hf with (⟨hplace, _⟩ | ⟨_, _, _, _, _, rfl⟩) | ⟨_, _, _, hlabel, _⟩
    · simp [hplace] at hhead
    · simp [under, Component.label, Component.kind] at hhead
    · simp [hlabel, Component.label, Component.kind] at hhead

theorem changes_flags {flags' : Option (FlagGroup × List Entry)} {label : Component.Label}
    (hlabel : label.kind = .flags) (hbefore : flagsFilings n.flags = allAt [label] old)
    (hafter : flagsFilings flags' = allAt [label] new) :
    ChangesAt [label] old new n.filings ({ n with flags := flags' }).filings := by
  refine ⟨allAt [] n.ending ++ literalFilings n.literals ++ argumentFilings n.argument, [],
    ?_, ?_, ?_⟩
  · rw [filings_eq, hbefore, List.append_nil]
  · rw [filings_eq, hafter, List.append_nil]
  · intro f hf hplace
    simp only [List.append_nil, List.mem_append, mem_allAt, mem_literalFilings,
      mem_argumentFilings] at hf
    rcases hf with (⟨hnil, _⟩ | ⟨_, _, _, _, _, rfl⟩) | ⟨_, _, _, _, _, rfl⟩
    · rw [hnil] at hplace
      cases hplace
    · rw [← (List.cons.inj hplace).1] at hlabel
      cases hlabel
    · rw [← (List.cons.inj hplace).1] at hlabel
      cases hlabel

end Slots

/-! ## Insertion and removal -/

/-- The siblings of a literal have other names. -/
theorem Orderly.siblings {ignoreCase : Bool} {n : Node} (h : n.Orderly ignoreCase)
    {before after : List (Literal × Node)} {old : Literal} {child : Node}
    (hsplit : n.literals = before ++ (old, child) :: after) :
    ∀ edge ∈ before ++ after, edge.1.name ≠ old.name := by
  intro edge hedge hname
  have hnodup := h.names_nodup
  rw [names, hsplit, List.map_append, List.map_cons, List.nodup_middle, List.nodup_cons,
    ← List.map_append] at hnodup
  exact hnodup.1 (List.mem_map.mpr ⟨edge, hedge, hname⟩)

/-- An insertion changes what is filed at one place, where the command may end. -/
theorem Inserted.changes {rules : Rules} {e : Entry} {components : List Component} {n n' : Node}
    (h : Inserted rules e components n n') (hn : n.Everywhere (Orderly rules.ignoreCase)) :
    ∃ place old, ChangesAt place old (settle rules e old) n.filings n'.filings ∧
      OnePerSender old ∧ checkEnding rules e.command old = .ok () := by
  induction h with
  | @here n free => exact ⟨[], n.ending, changes_ending n _, hn.here.ending, free⟩
  | @newLiteral l rest n child apart vacant below ih =>
      obtain ⟨place, old, hchange, hfree⟩ := ih (everywhere_orderly_empty rules.ignoreCase)
      have hother : ∀ edge ∈ n.literals ++ [], edge.1.name ≠ l.name := by
        intro edge hedge hname
        rw [List.append_nil] at hedge
        have hshares : shares rules.ignoreCase l edge = true := shares_iff.mpr (by rw [hname])
        rw [vacant edge hedge] at hshares
        cases hshares
      have hsplit : n.literals = n.literals ++ [] ++ [] := by simp
      have hliterals := changes_literals hsplit rfl (literalFilings_singleton l child) hother hchange
      rw [List.append_nil] at hliterals
      exact ⟨_, old, hliterals, hfree⟩
  | @sharedLiteral l old rest n child child' before after apart split first shared below ih =>
      obtain ⟨place, ending, hchange, hfree⟩ :=
        ih (hn.literal (show (old, child) ∈ n.literals by simp [split]))
      have hliterals := changes_literals (by rw [split]; simp) (literalFilings_singleton old child)
        (literalFilings_singleton (old.merge rules.ignoreCase l) child')
        (hn.here.siblings split) hchange
      rw [List.append_assoc, List.singleton_append] at hliterals
      exact ⟨_, ending, hliterals, hfree⟩
  | newArgument vacant below ih =>
      obtain ⟨place, old, hchange, hfree⟩ := ih (everywhere_orderly_empty rules.ignoreCase)
      exact ⟨_, old, changes_argument (by rw [vacant]; rfl) rfl hchange, hfree⟩
  | sharedArgument taken named below ih =>
      obtain ⟨place, old, hchange, hfree⟩ := ih (hn.argument taken)
      exact ⟨_, old, changes_argument (by rw [taken]; rfl) rfl hchange, hfree⟩
  | newFlags vacant =>
      exact ⟨_, [], changes_flags rfl (by rw [vacant]; rfl) rfl, List.nodup_nil,
        checkEnding_nil rules e.command⟩
  | sharedFlags taken signed free =>
      exact ⟨_, _, changes_flags rfl (by rw [taken]; rfl) rfl, hn.here.flagsEnding _ _ taken, free⟩

/-- A removal takes the command away from what is filed at one place. -/
theorem Removed.changes {ignoreCase : Bool} {serial : Nat} {components : List Component}
    {n n' : Node} (h : Removed ignoreCase serial components n n')
    (hn : n.Everywhere (Orderly ignoreCase)) :
    ∃ place old new, ChangesAt place old new n.filings n'.filings ∧
      withoutEntry serial old = some new := by
  induction h with
  | @here n ending found => exact ⟨[], n.ending, ending, changes_ending n _, found⟩
  | @literal l old rest n child child' before after split shared below ih =>
      obtain ⟨place, ending, ending', hchange, hfound⟩ :=
        ih (hn.literal (show (old, child) ∈ n.literals by simp [split]))
      exact ⟨_, ending, ending', changes_literals (by rw [split]; simp)
        (literalFilings_singleton old child) (literalFilings_keep old child')
        (hn.here.siblings split) hchange, hfound⟩
  | @argument a old rest n child child' taken named below ih =>
      obtain ⟨place, ending, ending', hchange, hfound⟩ := ih (hn.argument taken)
      exact ⟨_, ending, ending', changes_argument (by rw [taken]; rfl)
        (argumentFilings_keep old child') hchange, hfound⟩
  | @flags g old rest n ending ending' taken signed found =>
      refine ⟨_, ending, ending', changes_flags rfl (by rw [taken]; rfl) ?_, found⟩
      split
      · next hempty =>
          rw [List.isEmpty_iff.mp hempty]
          rfl
      · rfl

end Node

end CommandLine
