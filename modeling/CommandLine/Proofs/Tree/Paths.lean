import CommandLine.Proofs.Tree.Orderly
import Mathlib.Data.List.Forall2

/-! # Paths of a tree

    `Node.Leads` relates a node to the components on the edges down to a place where commands end.
    A command is filed under its own components, but the edges there may have been made for another
    command. What is true is that the edges admit the components one by one: literals correspond by
    their keys, arguments by their names, flag groups by their signatures, and a literal of the tree
    has all names of those that share it (`Tree.Reachable.filed`). No two edges of a path store
    values under one key. -/

namespace CommandLine

/-- Two components take the same edge: literals of one key, arguments of one name, flag groups of
    one signature. -/
def Component.Corresponds (ignoreCase : Bool) : Component → Component → Prop
  | .literal x, .literal y => Literal.key ignoreCase x.name = Literal.key ignoreCase y.name
  | .argument x, .argument y => x.name = y.name
  | .flags x, .flags y => Flag.signature x.flags = Flag.signature y.flags
  | _, _ => False

namespace Component

theorem Corresponds.refl {ignoreCase : Bool} (x : Component) : x.Corresponds ignoreCase x := by
  cases x <;> rfl

theorem Corresponds.trans {ignoreCase : Bool} {x y z : Component}
    (hxy : x.Corresponds ignoreCase y) (hyz : y.Corresponds ignoreCase z) :
    x.Corresponds ignoreCase z := by
  cases x <;> cases y <;> cases z <;>
    first | exact hxy.elim | exact hyz.elim | exact Eq.trans hxy hyz

/-- The keys of all names of a component that is a literal. -/
def nameKeys (ignoreCase : Bool) : Component → List String
  | .literal l => l.keys ignoreCase
  | _ => []

/-- An edge takes a component and has all its names. -/
def Admits (ignoreCase : Bool) (x y : Component) : Prop :=
  x.Corresponds ignoreCase y ∧ y.nameKeys ignoreCase ⊆ x.nameKeys ignoreCase

theorem Admits.refl {ignoreCase : Bool} (x : Component) : x.Admits ignoreCase x :=
  ⟨.refl x, List.Subset.refl _⟩

theorem Admits.trans {ignoreCase : Bool} {x y z : Component} (hxy : x.Admits ignoreCase y)
    (hyz : y.Admits ignoreCase z) : x.Admits ignoreCase z :=
  ⟨hxy.1.trans hyz.1, List.Subset.trans hyz.2 hxy.2⟩

theorem corresponds_of_admits {ignoreCase : Bool} {path path' : List Component}
    (h : List.Forall₂ (Admits ignoreCase) path path') :
    List.Forall₂ (Corresponds ignoreCase) path path' :=
  h.imp fun _ _ hxy => hxy.1

theorem admits_trans {ignoreCase : Bool} {x y z : List Component}
    (hxy : List.Forall₂ (Admits ignoreCase) x y) (hyz : List.Forall₂ (Admits ignoreCase) y z) :
    List.Forall₂ (Admits ignoreCase) x z := by
  induction hxy generalizing z with
  | nil => exact hyz
  | cons hhead _ ih =>
      cases hyz with
      | cons hhead' htail' => exact .cons (hhead.trans hhead') (ih htail')

/-- An edge admits a component and stores values under the same keys. -/
def Restates (ignoreCase : Bool) (x y : Component) : Prop :=
  x.Admits ignoreCase y ∧ x.storedKeys = y.storedKeys

theorem Restates.refl {ignoreCase : Bool} (x : Component) : x.Restates ignoreCase x :=
  ⟨.refl x, rfl⟩

theorem restates_refl {ignoreCase : Bool} (path : List Component) :
    List.Forall₂ (Restates ignoreCase) path path :=
  List.forall₂_same.mpr fun x _ => .refl x

theorem admits_of_restates {ignoreCase : Bool} {path path' : List Component}
    (h : List.Forall₂ (Restates ignoreCase) path path') :
    List.Forall₂ (Admits ignoreCase) path path' :=
  h.imp fun _ _ hxy => hxy.1

/-- The keys under which the components of a path store values. -/
def keysAlong (path : List Component) : List String :=
  path.flatMap (·.storedKeys)

theorem keysAlong_eq_of_restates {ignoreCase : Bool} {path path' : List Component}
    (h : List.Forall₂ (Restates ignoreCase) path path') : keysAlong path = keysAlong path' := by
  induction h with
  | nil => rfl
  | cons hhead _ ih =>
      unfold keysAlong at ih ⊢
      rw [List.flatMap_cons, List.flatMap_cons, hhead.2, ih]

end Component

namespace Command

theorem repeatedKey?_of_seen {seen rest : List String} {key : String} (h : key ∈ seen) :
    repeatedKey? seen (key :: rest) = some key := by
  rw [repeatedKey?, if_pos (List.contains_iff_mem.mpr h)]

theorem repeatedKey?_of_fresh {seen rest : List String} {key : String} (h : key ∉ seen) :
    repeatedKey? seen (key :: rest) = repeatedKey? (key :: seen) rest := by
  rw [repeatedKey?, if_neg (mt List.contains_iff_mem.mp h)]

/-- No key is found to be repeated if all are distinct and none has been seen before. -/
theorem repeatedKey?_eq_none_iff {seen keys : List String} :
    repeatedKey? seen keys = none ↔ keys.Nodup ∧ ∀ key ∈ keys, key ∉ seen := by
  -- for all keys seen so far at once, because the search adds each key to them
  induction keys generalizing seen with
  | nil => simp [repeatedKey?]
  | cons key rest ih =>
      rw [List.forall_mem_cons]
      by_cases hseen : key ∈ seen
      · rw [repeatedKey?_of_seen hseen]
        constructor
        · intro h
          cases h
        · rintro ⟨-, hnew, -⟩
          exact absurd hseen hnew
      · rw [repeatedKey?_of_fresh hseen, ih, List.nodup_cons]
        constructor
        · rintro ⟨hrest, hapart⟩
          refine ⟨⟨fun hkey => hapart key hkey List.mem_cons_self, hrest⟩, hseen, ?_⟩
          exact fun other hother hmem => hapart other hother (List.mem_cons_of_mem _ hmem)
        · rintro ⟨⟨hkey, hrest⟩, -, hapart⟩
          refine ⟨hrest, fun other hother hmem => ?_⟩
          rcases List.mem_cons.mp hmem with rfl | hmem
          · exact hkey hother
          · exact hapart other hother hmem

/-- A valid command stores no two values under one key. -/
theorem nodup_keysAlong_of_validate {c : Command} (h : c.validate = .ok ()) :
    (Component.keysAlong c.components).Nodup := by
  rw [validate] at h
  split at h
  · cases h
  · split at h
    · cases h
    · next hnone => exact (repeatedKey?_eq_none_iff.mp hnone).1

end Command

namespace Node

/-- The edges that lead down from a node to a place where commands end. -/
inductive Leads : Node → List Component → List Entry → Prop where
  | here {n : Node} : Leads n [] n.ending
  | literal {n child : Node} {l : Literal} {path : List Component} {ending : List Entry}
      (edge : (l, child) ∈ n.literals) (below : Leads child path ending) :
      Leads n (.literal l :: path) ending
  | argument {n child : Node} {a : Argument} {path : List Component} {ending : List Entry}
      (edge : n.argument = some (a, child)) (below : Leads child path ending) :
      Leads n (.argument a :: path) ending
  | flags {n : Node} {g : FlagGroup} {ending : List Entry} (edge : n.flags = some (g, ending)) :
      Leads n [.flags g] ending

/-- Commands that end below a node are among its commands. -/
theorem Leads.mem_entries {n : Node} {path : List Component} {ending : List Entry} {e : Entry}
    (h : n.Leads path ending) (he : e ∈ ending) : e ∈ n.entries := by
  induction h with
  | here => exact mem_entries_iff.mpr (Or.inl he)
  | literal edge _ ih => exact mem_entries_iff.mpr (Or.inr (Or.inl ⟨_, edge, ih he⟩))
  | argument edge _ ih =>
      exact mem_entries_iff.mpr (Or.inr (Or.inr (Or.inl ⟨_, edge, ih he⟩)))
  | flags edge => exact mem_entries_iff.mpr (Or.inr (Or.inr (Or.inr ⟨_, _, edge, he⟩)))

/-- Nothing is below the node without commands. -/
theorem leads_empty {path : List Component} {ending : List Entry} (h : empty.Leads path ending) :
    path = [] ∧ ending = [] := by
  cases h with
  | here => exact ⟨rfl, rfl⟩
  | literal edge _ => cases edge
  | argument edge _ => cases edge
  | flags edge => cases edge

/-! ## Paths of nodes that differ in one slot -/

section Slots

variable (n : Node) {n' : Node} {path : List Component} {ending : List Entry}

theorem Leads.of_ending (h : n'.Leads path ending) (hliterals : n'.literals = n.literals)
    (hargument : n'.argument = n.argument) (hflags : n'.flags = n.flags) :
    n.Leads path ending ∨ path = [] ∧ ending = n'.ending := by
  cases h with
  | here => exact Or.inr ⟨rfl, rfl⟩
  | literal edge below => exact Or.inl (.literal (hliterals ▸ edge) below)
  | argument edge below => exact Or.inl (.argument (hargument ▸ edge) below)
  | flags edge => exact Or.inl (.flags (hflags ▸ edge))

theorem Leads.of_literals (h : n'.Leads path ending) (hending : n'.ending = n.ending)
    (hargument : n'.argument = n.argument) (hflags : n'.flags = n.flags) :
    n.Leads path ending ∨ ∃ l child rest, path = .literal l :: rest ∧ (l, child) ∈ n'.literals ∧
      child.Leads rest ending := by
  cases h with
  | here =>
      rw [hending]
      exact Or.inl .here
  | literal edge below => exact Or.inr ⟨_, _, _, rfl, edge, below⟩
  | argument edge below => exact Or.inl (.argument (hargument ▸ edge) below)
  | flags edge => exact Or.inl (.flags (hflags ▸ edge))

theorem Leads.of_argument (h : n'.Leads path ending) (hending : n'.ending = n.ending)
    (hliterals : n'.literals = n.literals) (hflags : n'.flags = n.flags) :
    n.Leads path ending ∨ ∃ a child rest, path = .argument a :: rest ∧
      n'.argument = some (a, child) ∧ child.Leads rest ending := by
  cases h with
  | here =>
      rw [hending]
      exact Or.inl .here
  | literal edge below => exact Or.inl (.literal (hliterals ▸ edge) below)
  | argument edge below => exact Or.inr ⟨_, _, _, rfl, edge, below⟩
  | flags edge => exact Or.inl (.flags (hflags ▸ edge))

theorem Leads.of_flags (h : n'.Leads path ending) (hending : n'.ending = n.ending)
    (hliterals : n'.literals = n.literals) (hargument : n'.argument = n.argument) :
    n.Leads path ending ∨ ∃ g, path = [.flags g] ∧ n'.flags = some (g, ending) := by
  cases h with
  | here =>
      rw [hending]
      exact Or.inl .here
  | literal edge below => exact Or.inl (.literal (hliterals ▸ edge) below)
  | argument edge below => exact Or.inl (.argument (hargument ▸ edge) below)
  | flags edge => exact Or.inr ⟨_, rfl, edge⟩

end Slots

/-! ## Insertion and removal -/

/-- A merged literal keeps its keys. -/
theorem keys_subset_merge {ignoreCase : Bool} {l old : Literal} :
    old.keys ignoreCase ⊆ (old.merge ignoreCase l).keys ignoreCase := by
  intro key hkey
  obtain ⟨name, hname, rfl⟩ := List.mem_map.mp hkey
  refine List.mem_map_of_mem ?_
  rcases List.mem_cons.mp hname with rfl | hname
  · exact List.mem_cons_self
  · exact List.mem_cons_of_mem _ (List.mem_append_left _ hname)

/-- A merged literal has the keys of the literal that shares it. -/
theorem keys_subset_merge_of_shares {ignoreCase : Bool} {l old : Literal}
    (h : Literal.key ignoreCase old.name = Literal.key ignoreCase l.name) :
    l.keys ignoreCase ⊆ (old.merge ignoreCase l).keys ignoreCase := by
  intro key hkey
  obtain ⟨name, hname, rfl⟩ := List.mem_map.mp hkey
  -- a name whose key is known is not taken over, but then its key is there already
  by_cases hknown : Literal.key ignoreCase name ∈ old.keys ignoreCase
  · exact keys_subset_merge hknown
  · rcases List.mem_cons.mp hname with rfl | hname
    · rw [← h] at hknown
      exact absurd (key_name_mem_keys ignoreCase old) hknown
    · refine List.mem_map_of_mem (List.mem_cons_of_mem _ (List.mem_append_right _ ?_))
      exact List.mem_filter.mpr ⟨hname, by simpa using hknown⟩

/-- Where a path of a node comes from when an entry has been added along components: it was there
    before, up to names that a literal took over, or it restates the first of the components. -/
inductive Grown (rules : Rules) (e : Entry) (components : List Component) (n : Node)
    (path : List Component) (ending : List Entry) : Prop where
  | old {path₀ : List Component} {ending₀ : List Entry} (leads : n.Leads path₀ ending₀)
      (restates : List.Forall₂ (Component.Restates rules.ignoreCase) path path₀)
      (settled : ending = ending₀ ∨ (ending = settle rules e ending₀ ∧
        List.Forall₂ (Component.Admits rules.ignoreCase) path components))
  | new {first rest : List Component} (split : components = first ++ rest)
      (restates : List.Forall₂ (Component.Restates rules.ignoreCase) path first)
      (settled : ending = [] ∨ (ending = settle rules e [] ∧ rest = []))

theorem Grown.unchanged {rules : Rules} {e : Entry} {components : List Component} {n : Node}
    {path : List Component} {ending : List Entry} (h : n.Leads path ending) :
    Grown rules e components n path ending :=
  .old h (Component.restates_refl path) (Or.inl rfl)

/-- The paths below a node that was made for the entry. -/
theorem Grown.below_empty {rules : Rules} {e : Entry} {components path : List Component}
    {ending : List Entry} {c : Component} {n : Node}
    (h : Grown rules e components empty path ending) :
    Grown rules e (c :: components) n (c :: path) ending := by
  have hhead : c.Restates rules.ignoreCase c := .refl c
  cases h with
  | old leads restates settled =>
      obtain ⟨rfl, rfl⟩ := leads_empty leads
      cases restates
      refine .new (show c :: components = [c] ++ components from rfl) (.cons hhead .nil) ?_
      rcases settled with hsettled | ⟨hsettled, hpath⟩
      · exact Or.inl hsettled
      · cases hpath
        exact Or.inr ⟨hsettled, rfl⟩
  | new split restates settled =>
      exact .new (by rw [split, List.cons_append]) (.cons hhead restates) settled

/-- The paths below an edge that the components share. -/
theorem Grown.below_shared {rules : Rules} {e : Entry} {components path : List Component}
    {ending : List Entry} {c old new : Component} {n child : Node}
    (h : Grown rules e components child path ending) (hold : new.Restates rules.ignoreCase old)
    (hnew : new.Restates rules.ignoreCase c)
    (hedge : ∀ {path ending}, child.Leads path ending → n.Leads (old :: path) ending) :
    Grown rules e (c :: components) n (new :: path) ending := by
  cases h with
  | old leads restates settled =>
      refine .old (hedge leads) (.cons hold restates) ?_
      rcases settled with hsettled | ⟨hsettled, hpath⟩
      · exact Or.inl hsettled
      · exact Or.inr ⟨hsettled, .cons hnew.1 hpath⟩
  | new split restates settled =>
      exact .new (by rw [split, List.cons_append]) (.cons hnew restates) settled

theorem Inserted.leads {rules : Rules} {e : Entry} {components : List Component} {n n' : Node}
    (h : Inserted rules e components n n') {path : List Component} {ending : List Entry}
    (hleads : n'.Leads path ending) : Grown rules e components n path ending := by
  induction h generalizing path ending with
  | @here n _ =>
      rcases hleads.of_ending n rfl rfl rfl with hold | ⟨rfl, rfl⟩
      · exact .unchanged hold
      · exact .old .here .nil (Or.inr ⟨rfl, .nil⟩)
  | @newLiteral _ _ n _ _ _ _ ih =>
      rcases hleads.of_literals n rfl rfl rfl with hold | ⟨l, child, rest, rfl, edge, below⟩
      · exact .unchanged hold
      · rcases List.mem_append.mp edge with edge | edge
        · exact .unchanged (.literal edge below)
        · cases List.mem_singleton.mp edge
          exact (ih below).below_empty
  | @sharedLiteral l old _ n child child' before after _ split _ shared _ ih =>
      rcases hleads.of_literals n rfl rfl rfl with hold | ⟨l', below', rest, rfl, edge, below⟩
      · exact .unchanged hold
      · have hmem : ∀ edge ∈ before ++ after, edge ∈ n.literals := by
          intro edge hedge
          rw [split]
          rcases List.mem_append.mp hedge with hedge | hedge
          · exact List.mem_append_left _ hedge
          · exact List.mem_append_right _ (List.mem_cons_of_mem _ hedge)
        rcases List.mem_append.mp edge with edge | edge
        · exact .unchanged (.literal (hmem _ (List.mem_append_left _ edge)) below)
        · rcases List.mem_cons.mp edge with edge | edge
          · -- the shared literal keeps its name and only takes over aliases
            cases edge
            have hedge : (old, child) ∈ n.literals := by simp [split]
            have hkey := shares_iff.mp shared
            have hold : (Component.literal (old.merge rules.ignoreCase l)).Restates
                rules.ignoreCase (.literal old) := ⟨⟨rfl, keys_subset_merge⟩, rfl⟩
            have hnew : (Component.literal (old.merge rules.ignoreCase l)).Restates
                rules.ignoreCase (.literal l) := ⟨⟨hkey, keys_subset_merge_of_shares hkey⟩, rfl⟩
            exact (ih below).below_shared hold hnew (fun hchild => .literal hedge hchild)
          · exact .unchanged (.literal (hmem _ (List.mem_append_right _ edge)) below)
  | @newArgument _ _ n _ _ _ ih =>
      rcases hleads.of_argument n rfl rfl rfl with hold | ⟨a, child, rest, rfl, edge, below⟩
      · exact .unchanged hold
      · cases edge
        exact (ih below).below_empty
  | @sharedArgument _ _ _ n _ _ taken named _ ih =>
      rcases hleads.of_argument n rfl rfl rfl with hold | ⟨a, child, rest, rfl, edge, below⟩
      · exact .unchanged hold
      · -- the argument of the node stays, whatever else the new one has under its name
        cases edge
        exact (ih below).below_shared (.refl _)
          ⟨⟨named, List.nil_subset _⟩, by simp [Component.storedKeys, named]⟩
          (fun hchild => .argument taken hchild)
  | @newFlags _ n _ =>
      rcases hleads.of_flags n rfl rfl rfl with hold | ⟨g, rfl, edge⟩
      · exact .unchanged hold
      · cases edge
        exact .new (List.append_nil _).symm (.cons (.refl _) .nil) (Or.inr ⟨rfl, rfl⟩)
  | @sharedFlags _ _ n _ taken signed _ =>
      rcases hleads.of_flags n rfl rfl rfl with hold | ⟨g, rfl, edge⟩
      · exact .unchanged hold
      · cases edge
        exact .old (.flags taken) (.cons (.refl _) .nil)
          (Or.inr ⟨rfl, .cons ⟨signed, List.nil_subset _⟩ .nil⟩)

/-- With some of its literals a node leads nowhere else. -/
theorem leads_of_subset {n : Node} {literals : List (Literal × Node)}
    (hsub : literals ⊆ n.literals) {path : List Component} {ending : List Entry}
    (hleads : Leads { n with literals } path ending) : n.Leads path ending := by
  cases hleads with
  | here => exact .here
  | literal edge below => exact .literal (hsub edge) below
  | argument edge below => exact .argument edge below
  | flags edge => exact .flags edge

/-- Whatever a removal leaves was there before along the same edges. -/
theorem Removed.leads {ignoreCase : Bool} {serial : Nat} {components : List Component} {n n' : Node}
    (h : Removed ignoreCase serial components n n') {path : List Component} {ending : List Entry}
    (hleads : n'.Leads path ending) : ∃ ending₀, n.Leads path ending₀ ∧ ending ⊆ ending₀ := by
  have unchanged {n : Node} {path : List Component} {ending : List Entry}
      (hold : n.Leads path ending) : ∃ ending₀, n.Leads path ending₀ ∧ ending ⊆ ending₀ :=
    ⟨ending, hold, fun _ he => he⟩
  induction h generalizing path ending with
  | @here n _ found =>
      rcases hleads.of_ending n rfl rfl rfl with hold | ⟨rfl, rfl⟩
      · exact unchanged hold
      · exact ⟨_, .here, (withoutEntry_sublist found).subset⟩
  | @literal l old rest n child child' before after split _ _ ih =>
      rcases keep_cases old child' with ⟨-, hkeep⟩ | ⟨-, hkeep⟩
      · refine unchanged (leads_of_subset ?_ hleads)
        rw [hkeep, split, Option.toList_none, List.append_nil]
        exact ((List.Sublist.refl before).append (List.sublist_cons_self _ after)).subset
      · rw [hkeep, Option.toList_some, List.append_assoc, List.singleton_append] at hleads
        rcases hleads.of_literals n rfl rfl rfl with hold | ⟨l', below', rest, rfl, edge, below⟩
        · exact unchanged hold
        · rcases List.mem_append.mp edge with edge | edge
          · exact unchanged (.literal (by simp [split, edge]) below)
          · rcases List.mem_cons.mp edge with edge | edge
            · cases edge
              obtain ⟨ending₀, hbelow, hsub⟩ := ih below
              exact ⟨ending₀, .literal (by simp [split]) hbelow, hsub⟩
            · exact unchanged (.literal (by simp [split, edge]) below)
  | @argument a old rest n child child' taken _ _ ih =>
      rcases hleads.of_argument n rfl rfl rfl with hold | ⟨a', below', rest, rfl, edge, below⟩
      · exact unchanged hold
      · rcases keep_cases old child' with ⟨-, hkeep⟩ | ⟨-, hkeep⟩
        · rw [hkeep] at edge
          cases edge
        · rw [hkeep] at edge
          cases edge
          obtain ⟨ending₀, hbelow, hsub⟩ := ih below
          exact ⟨ending₀, .argument taken hbelow, hsub⟩
  | @flags _ _ _ n _ _ taken _ found =>
      rcases hleads.of_flags n rfl rfl rfl with hold | ⟨g, rfl, edge⟩
      · exact unchanged hold
      · split at edge
        · cases edge
        · cases edge
          exact ⟨_, .flags taken, (withoutEntry_sublist found).subset⟩

/-- Commands are filed under their components, and no path stores two values under one key. -/
structure Filed (ignoreCase : Bool) (n : Node) : Prop where
  admits : ∀ {path ending}, n.Leads path ending → ∀ e ∈ ending,
    List.Forall₂ (Component.Admits ignoreCase) path e.command.components
  keyed : ∀ {path ending}, n.Leads path ending → (Component.keysAlong path).Nodup

theorem Filed.corresponds {ignoreCase : Bool} {n : Node} (h : n.Filed ignoreCase)
    {path : List Component} {ending : List Entry} (hleads : n.Leads path ending) :
    ∀ e ∈ ending, List.Forall₂ (Component.Corresponds ignoreCase) path e.command.components :=
  fun e he => Component.corresponds_of_admits (h.admits hleads e he)

theorem filed_empty (ignoreCase : Bool) : empty.Filed ignoreCase := by
  constructor
  · intro path ending hleads
    obtain ⟨rfl, rfl⟩ := leads_empty hleads
    simp
  · intro path ending hleads
    obtain ⟨rfl, rfl⟩ := leads_empty hleads
    exact List.nodup_nil

theorem mem_settle_cases {rules : Rules} {e x : Entry} {ending : List Entry}
    (h : x ∈ settle rules e ending) : x ∈ ending ∨ x = e := by
  rcases List.mem_append.mp h with h | h
  · split at h
    · exact Or.inl (List.mem_filter.mp h).1
    · exact Or.inl h
  · exact Or.inr (List.mem_singleton.mp h)

theorem Inserted.filed {rules : Rules} {e : Entry} {n n' : Node}
    (hvalid : e.command.validate = .ok ()) (h : Inserted rules e e.command.components n n')
    (hn : n.Filed rules.ignoreCase) : n'.Filed rules.ignoreCase := by
  constructor
  · intro path ending hleads x hx
    cases h.leads hleads with
    | old leads restates settled =>
        have hrestates := Component.admits_of_restates restates
        rcases settled with rfl | ⟨rfl, hpath⟩
        · exact Component.admits_trans hrestates (hn.admits leads x hx)
        · rcases mem_settle_cases hx with hx | rfl
          · exact Component.admits_trans hrestates (hn.admits leads x hx)
          · exact hpath
    | new split restates settled =>
        rcases settled with rfl | ⟨rfl, rfl⟩
        · cases hx
        · rcases mem_settle_cases hx with hx | rfl
          · cases hx
          · rw [split, List.append_nil]
            exact Component.admits_of_restates restates
  · intro path ending hleads
    cases h.leads hleads with
    | old leads restates _ =>
        rw [Component.keysAlong_eq_of_restates restates]
        exact hn.keyed leads
    | @new first rest split restates _ =>
        -- a new path goes along the first components of the command
        have hnodup := Command.nodup_keysAlong_of_validate hvalid
        rw [split, Component.keysAlong, List.flatMap_append] at hnodup
        rw [Component.keysAlong_eq_of_restates restates]
        exact (List.nodup_append.mp hnodup).1

end Node

namespace Tree

theorem Reshaped.filed {rules : Rules} {n n' : Node} (h : Reshaped rules n n')
    (hn : n.Filed rules.ignoreCase) : n'.Filed rules.ignoreCase := by
  cases h with
  | unchanged => exact hn
  | inserted hvalid hinserted => exact hinserted.filed hvalid hn
  | removed hremoved =>
      constructor
      · intro path ending hleads e he
        obtain ⟨ending₀, hbefore, hsub⟩ := hremoved.leads hleads
        exact hn.admits hbefore e (hsub he)
      · intro path ending hleads
        obtain ⟨ending₀, hbefore, -⟩ := hremoved.leads hleads
        exact hn.keyed hbefore
  | uprooted name =>
      have hsub := (List.eraseP_sublist (l := n.literals)
        (p := fun edge => edge.1.answers rules.ignoreCase name)).subset
      exact ⟨fun hleads => hn.admits (Node.leads_of_subset hsub hleads),
        fun hleads => hn.keyed (Node.leads_of_subset hsub hleads)⟩

/-- In a reachable tree every command is filed under its components. -/
theorem Reachable.filed {t : Tree} (ht : t.Reachable) : t.root.Filed t.rules.ignoreCase := by
  refine ht.root (Node.filed_empty _) ?_ rfl
  intro rules n n' hcase hreshaped hn
  rw [← hcase] at hn ⊢
  exact hreshaped.filed hn

end Tree

end CommandLine
