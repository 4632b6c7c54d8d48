import CommandLine.Proofs.Tree.Filings

/-! # The order of components in a tree

    In a valid command nothing but flags follows an argument that reads all that is left, and
    nothing that must be given follows what may be left out. This is checked for one command at a
    time, but the commands of a tree share edges: an edge stays the argument of the command that was
    there first, and others take it for the name alone, whatever they read there and whether or not
    they need it.

    On the way to its place every command keeps the rules with its own components. So a rule is
    broken on two edges exactly where a command that takes them has other components there, and the
    tree keeps the rules exactly if no command strays in this way (`Tree.Reachable.inOrder_iff`). -/

namespace CommandLine

namespace Component

/-- A component may come right before another. -/
structure Precedes (x y : Component) : Prop where
  /-- Only flags follow what reads all that is left. -/
  greedy : x.isGreedy = true → y.isFlags = true
  /-- Nothing that must be given follows what may be left out. -/
  optional : x.isRequired = false → y.isRequired = false

/-- On the edges `x` and `y` a rule is broken that a command keeps with components of its own. -/
inductive Strays (x y own next : Component) : Prop where
  | greedy (reads : x.isGreedy = true) (goesOn : y.isFlags = false) (differs : own.isGreedy = false)
  | optional (mayLeaveOut : x.isRequired = false) (mustGive : y.isRequired = true)
      (differs : own.isRequired = true ∨ next.isRequired = false)

theorem isRequired_of_isFlags {x : Component} (h : x.isFlags = true) : x.isRequired = false := by
  cases x with
  | literal l => cases h
  | argument a => cases h
  | flags g => rfl

/-- A component takes the edge of a flag group only if it is one. -/
theorem Corresponds.isFlags_eq {ignoreCase : Bool} {x y : Component}
    (h : x.Corresponds ignoreCase y) : x.isFlags = y.isFlags := by
  cases x <;> cases y <;> first | rfl | exact h.elim

/-- Where a command keeps the rules with its own components, they are broken on the edges exactly
    if it strays. -/
theorem precedes_iff_not_strays {ignoreCase : Bool} {x y own next : Component}
    (hown : own.Precedes next) (hnext : y.Corresponds ignoreCase next) :
    x.Precedes y ↔ ¬Strays x y own next := by
  constructor
  · rintro hprecedes (⟨hreads, hgoesOn, -⟩ | ⟨hmay, hmust, -⟩)
    · rw [hprecedes.greedy hreads] at hgoesOn
      cases hgoesOn
    · rw [hprecedes.optional hmay] at hmust
      cases hmust
  · intro hstays
    constructor
    · intro hreads
      cases hgreedy : own.isGreedy with
      | true => rw [hnext.isFlags_eq, hown.greedy hgreedy]
      | false =>
          by_contra hflags
          exact hstays (.greedy hreads (Bool.eq_false_iff.mpr hflags) hgreedy)
    · intro hmay
      by_contra hrequired
      have hmust : y.isRequired = true := by simpa using hrequired
      refine hstays (.optional hmay hmust ?_)
      cases hneed : own.isRequired with
      | true => exact Or.inl rfl
      | false => exact Or.inr (hown.optional hneed)

end Component

namespace Command

/-- What comes right after a component that has passed the check of the order. -/
theorem precedes_of_next {usage : String} {p : Progress} {x y : Component} {back : List Component}
    (h : checkOrder usage (p.next x) (y :: back) = .ok ()) : x.Precedes y := by
  obtain ⟨hreached, hgreedy, hoptional, -⟩ := checkOrder_cons_iff.mp h
  cases hflags : x.isFlags with
  | true =>
      -- nothing at all comes after a flag group
      rw [Progress.next, if_pos hflags] at hreached
      cases hreached
  | false =>
      simp only [Progress.next, hflags, Bool.false_eq_true, if_false] at hgreedy hoptional
      constructor
      · intro hx
        exact hgreedy (by rw [hx, Bool.or_true])
      · intro hx
        cases hnext : y.isFlags with
        | true => exact Component.isRequired_of_isFlags hnext
        | false => exact hoptional (by rw [hx, Bool.not_false, Bool.or_true]) hnext

/-- Components that pass the check of their order may follow one another. -/
theorem precedes_of_checkOrder {usage : String} {p : Progress} {front back : List Component}
    {x y : Component} (h : checkOrder usage p (front ++ x :: y :: back) = .ok ()) :
    x.Precedes y := by
  obtain ⟨q, hq⟩ := checkOrder_append h
  exact precedes_of_next (checkOrder_cons_iff.mp hq).2.2.2

/-- In a valid command every component may come before the next. -/
theorem precedes_of_validate {c : Command} (h : c.validate = .ok ()) {i : Nat} {x y : Component}
    (hx : c.components[i]? = some x) (hy : c.components[i + 1]? = some y) : x.Precedes y := by
  obtain ⟨hi, rfl⟩ := List.getElem?_eq_some_iff.mp hx
  obtain ⟨hnext, rfl⟩ := List.getElem?_eq_some_iff.mp hy
  have hsplit : c.components =
      c.components.take i ++ c.components[i] :: c.components[i + 1] ::
        c.components.drop (i + 2) := by
    rw [← List.drop_eq_getElem_cons, ← List.drop_eq_getElem_cons, List.take_append_drop]
  have hchecked := checkOrder_of_validate h
  rw [hsplit] at hchecked
  exact precedes_of_checkOrder hchecked

end Command

namespace Node

/-- The argument of a node keeps the rules with what follows it: only a flag group follows one that
    reads all that is left, and neither a literal nor an argument that must be given follows one
    that may be left out. -/
structure InOrder (n : Node) : Prop where
  greedy : ∀ a child, n.argument = some (a, child) → a.parser.greedy = true →
    child.literals = [] ∧ child.argument = none
  optional : ∀ a child, n.argument = some (a, child) → a.isRequired = false →
    child.literals = [] ∧ ∀ b below, child.argument = some (b, below) → b.isRequired = false

/-- On the way to a command the edges `x` and `y` come after some others, one after the other. -/
def Joins (n : Node) (front : List Component) (x y : Component) (e : Entry) : Prop :=
  ∃ back ending, n.Leads (front ++ x :: y :: back) ending ∧ e ∈ ending

/-- Edges lead to the commands of a node. -/
theorem exists_leads {n : Node} (h : n.entries ≠ []) :
    ∃ path ending e, n.Leads path ending ∧ e ∈ ending := by
  obtain ⟨e, he⟩ := List.exists_mem_of_ne_nil _ h
  rw [← n.map_entry_filings] at he
  obtain ⟨f, hf, rfl⟩ := List.mem_map.mp he
  obtain ⟨path, ending, hleads, hending, -⟩ := mem_filings_iff.mp hf
  exact ⟨path, ending, _, hleads, hending⟩

/-- The rules hold at an orderly node if its edges may come before those that follow them. -/
theorem inOrder_of_precedes {ignoreCase : Bool} {n : Node}
    (hn : n.Everywhere (Orderly ignoreCase))
    (h : ∀ x y e, n.Joins [] x y e → x.Precedes y) : n.InOrder := by
  have literal {a : Argument} {child : Node} (hedge : n.argument = some (a, child))
      {edge : Literal × Node} (hbelow : edge ∈ child.literals) :
      (Component.argument a).Precedes (.literal edge.1) := by
    obtain ⟨path, ending, e, hleads, he⟩ :=
      exists_leads ((hn.argument hedge).here.belowLiteral edge hbelow)
    exact h _ _ e ⟨path, ending, .argument hedge (.literal hbelow hleads), he⟩
  have argument {a b : Argument} {child below : Node} (hedge : n.argument = some (a, child))
      (hbelow : child.argument = some (b, below)) :
      (Component.argument a).Precedes (.argument b) := by
    obtain ⟨path, ending, e, hleads, he⟩ :=
      exists_leads ((hn.argument hedge).here.belowArgument _ hbelow)
    exact h _ _ e ⟨path, ending, .argument hedge (.argument hbelow hleads), he⟩
  constructor
  · intro a child hedge hgreedy
    refine ⟨List.eq_nil_iff_forall_not_mem.mpr fun edge hbelow => ?_, ?_⟩
    · cases (literal hedge hbelow).greedy hgreedy
    · refine Option.eq_none_iff_forall_ne_some.mpr ?_
      rintro ⟨b, below⟩ hbelow
      cases (argument hedge hbelow).greedy hgreedy
  · intro a child hedge hoptional
    refine ⟨List.eq_nil_iff_forall_not_mem.mpr fun edge hbelow => ?_, ?_⟩
    · cases (literal hedge hbelow).optional hoptional
    · exact fun b below hbelow => (argument hedge hbelow).optional hoptional

/-- Where the rules hold at a node, its edges may come before those that follow them. -/
theorem InOrder.precedes {n : Node} (hn : n.InOrder) (x y : Component) {e : Entry}
    (h : n.Joins [] x y e) : x.Precedes y := by
  obtain ⟨back, ending, hleads, -⟩ := h
  cases hleads with
  | literal _ _ => exact ⟨fun hgreedy => (by cases hgreedy), fun hoptional => (by cases hoptional)⟩
  | @argument _ child a _ _ hedge hbelow =>
      cases hbelow with
      | literal hliteral _ =>
          constructor
          · intro hgreedy
            rw [(hn.greedy a child hedge hgreedy).1] at hliteral
            cases hliteral
          · intro hoptional
            rw [(hn.optional a child hedge hoptional).1] at hliteral
            cases hliteral
      | @argument _ below b _ _ hargument _ =>
          constructor
          · intro hgreedy
            rw [(hn.greedy a child hedge hgreedy).2] at hargument
            cases hargument
          · exact fun hoptional => (hn.optional a child hedge hoptional).2 b below hargument
      | flags _ => exact ⟨fun _ => rfl, fun _ => rfl⟩

/-- The rules hold at all nodes exactly if each edge on the way to a command may come before the
    next. -/
theorem everywhere_inOrder_iff {ignoreCase : Bool} {n : Node}
    (hn : n.Everywhere (Orderly ignoreCase)) :
    n.Everywhere InOrder ↔ ∀ front x y e, n.Joins front x y e → x.Precedes y := by
  constructor
  · intro hall front
    induction front generalizing n with
    | nil => exact fun x y e => hall.here.precedes x y
    | cons c front ih =>
        rintro x y e ⟨back, ending, hleads, he⟩
        rw [List.cons_append] at hleads
        generalize hpath : front ++ x :: y :: back = path at hleads
        cases hleads with
        | literal hedge hbelow =>
            exact ih (hn.literal hedge) (hall.literal hedge) x y e ⟨back, ending, hpath ▸ hbelow, he⟩
        | argument hedge hbelow =>
            exact ih (hn.argument hedge) (hall.argument hedge) x y e
              ⟨back, ending, hpath ▸ hbelow, he⟩
        | flags _ => simp at hpath
  · induction n using childInduction with
    | step n ihLiterals ihArgument =>
        intro h
        refine .intro (inOrder_of_precedes hn (h [])) ?_ ?_
        · intro edge hedge
          refine ihLiterals edge hedge (hn.literal hedge) ?_
          rintro front x y e ⟨back, ending, hleads, he⟩
          exact h (.literal edge.1 :: front) x y e ⟨back, ending, .literal hedge hleads, he⟩
        · intro edge hedge
          refine ihArgument edge hedge (hn.argument hedge) ?_
          rintro front x y e ⟨back, ending, hleads, he⟩
          exact h (.argument edge.1 :: front) x y e ⟨back, ending, .argument hedge hleads, he⟩

/-- Two edges on the way to a command break a rule that the command keeps with the components that
    it has there. -/
def Strays (n : Node) (e : Entry) : Prop :=
  ∃ front x y own next, n.Joins front x y e ∧
    e.command.components[front.length]? = some own ∧
    e.command.components[front.length + 1]? = some next ∧ Component.Strays x y own next

/-- A command has components of its own where edges follow one another on the way to it. -/
theorem Filed.joined {ignoreCase : Bool} {n : Node} (hn : n.Filed ignoreCase)
    {front : List Component} {x y : Component} {e : Entry} (h : n.Joins front x y e) :
    ∃ own next, e.command.components[front.length]? = some own ∧
      e.command.components[front.length + 1]? = some next ∧ y.Corresponds ignoreCase next := by
  obtain ⟨back, ending, hleads, he⟩ := h
  have hpath := hn.corresponds hleads e he
  rw [List.forall₂_iff_get] at hpath
  obtain ⟨hlength, hall⟩ := hpath
  simp only [List.length_append, List.length_cons] at hlength
  refine ⟨_, _, List.getElem?_eq_getElem (by omega), List.getElem?_eq_getElem (by omega), ?_⟩
  have hnext := hall (front.length + 1) (by simp) (by omega)
  simpa using hnext

/-- The commands at and below a node are valid. -/
def Checked (n : Node) : Prop :=
  ∀ {path ending}, n.Leads path ending → ∀ e ∈ ending, e.command.validate = .ok ()

end Node

namespace Tree

theorem Reshaped.checked {rules : Rules} {n n' : Node} (h : Reshaped rules n n')
    (hn : n.Checked) : n'.Checked := by
  intro path ending hleads x hx
  cases h with
  | unchanged => exact hn hleads x hx
  | inserted hvalid hinserted =>
      cases hinserted.leads hleads with
      | old leads _ settled =>
          rcases settled with rfl | ⟨rfl, -⟩
          · exact hn leads x hx
          · rcases Node.mem_settle_cases hx with hx | rfl
            · exact hn leads x hx
            · exact hvalid
      | new _ _ settled =>
          rcases settled with rfl | ⟨rfl, -⟩
          · cases hx
          · rcases Node.mem_settle_cases hx with hx | rfl
            · cases hx
            · exact hvalid
  | removed hremoved =>
      obtain ⟨ending₀, hbefore, hsub⟩ := hremoved.leads hleads
      exact hn hbefore x (hsub hx)
  | uprooted name => exact hn (Node.leads_of_subset List.eraseP_sublist.subset hleads) x hx

/-- All commands of a reachable tree are valid. -/
theorem Reachable.checked {t : Tree} (ht : t.Reachable) : t.root.Checked := by
  refine ht.root (P := Node.Checked) ?_ (fun _ hreshaped hn => hreshaped.checked hn) rfl
  intro path ending hleads e he
  rw [(Node.leads_empty hleads).2] at he
  cases he

/-- The rules that each command keeps on its own hold for a tree as a whole exactly if no command
    strays on the edges that it shares. -/
theorem Reachable.inOrder_iff {t : Tree} (ht : t.Reachable) :
    t.root.Everywhere Node.InOrder ↔ ∀ e ∈ t.entries, ¬t.root.Strays e := by
  rw [Node.everywhere_inOrder_iff ht.orderly]
  constructor
  · rintro hall e - ⟨front, x, y, own, next, hjoins, hown, hnext, hstrays⟩
    obtain ⟨own', next', hown', hnext', hcorresponds⟩ := ht.filed.joined hjoins
    cases hown.symm.trans hown'
    cases hnext.symm.trans hnext'
    obtain ⟨back, ending, hleads, he⟩ := hjoins
    have hprecedes := Command.precedes_of_validate (ht.checked hleads e he) hown hnext
    exact (Component.precedes_iff_not_strays hprecedes hcorresponds).mp
      (hall front x y e ⟨back, ending, hleads, he⟩) hstrays
  · intro hstays front x y e hjoins
    obtain ⟨own, next, hown, hnext, hcorresponds⟩ := ht.filed.joined hjoins
    obtain ⟨back, ending, hleads, he⟩ := hjoins
    have hprecedes := Command.precedes_of_validate (ht.checked hleads e he) hown hnext
    refine (Component.precedes_iff_not_strays hprecedes hcorresponds).mpr fun hstrays => ?_
    exact hstays e (hleads.mem_entries he)
      ⟨front, x, y, own, next, ⟨back, ending, hleads, he⟩, hown, hnext, hstrays⟩

end Tree

/-- `shout <words>`, where the words are all that is left. -/
def Command.shout : Command where
  components :=
    [.literal { name := "shout" }, .argument { name := "words", parser := .text .rest }]

/-- `shout <words> --twice`. -/
def Command.shoutTwice : Command :=
  Command.shout.withFlags [{ name := "twice" }]

/-- `shout <words> <times>`, where the words are one token. -/
def Command.shoutTimes : Command where
  components :=
    [.literal { name := "shout" }, .argument { name := "words", parser := .text .word },
     .argument { name := "times", parser := .integer 1 9 }]

/-- A tree in which two commands read their words in the same way. -/
def Tree.shouting : Tree :=
  (({} : Tree).apply (.insert .shout)).apply (.insert .shoutTwice)

/-- A tree in which two commands read their words in different ways. -/
def Tree.repeating : Tree :=
  (({} : Tree).apply (.insert .shout)).apply (.insert .shoutTimes)

/-- Where two commands read their words in the same way, none strays. -/
theorem Tree.inOrder_shouting :
    Tree.shouting.Reachable ∧ Tree.shouting.entries.length = 2 ∧
      ∀ e ∈ Tree.shouting.entries, ¬Tree.shouting.root.Strays e := by
  have hreachable : Tree.shouting.Reachable := ⟨_, .edit (.edit (.fresh rfl) _) _⟩
  refine ⟨hreachable, by decide +kernel, (Tree.Reachable.inOrder_iff hreachable).mp ?_⟩
  -- below the literal there are the words, and below the words the flags
  have bare {n : Node} (hargument : n.argument = none) : n.InOrder := by
    constructor <;> simp [hargument]
  refine .intro (bare rfl) (List.forall_mem_singleton.mpr (.intro ?_ ?_ ?_)) ?_
  · constructor
    · rintro a child ⟨⟩ -
      exact ⟨rfl, rfl⟩
    · rintro a child ⟨⟩ hoptional
      cases hoptional
  · exact fun edge hedge => absurd hedge List.not_mem_nil
  · rintro edge ⟨⟩
    exact .intro (bare rfl) (fun edge hedge => absurd hedge List.not_mem_nil) (fun edge hedge => by
      cases hedge)
  · rintro edge ⟨⟩

/-- Words that are one token for a command are all that is left for the tree, and still another
    argument comes after them. -/
theorem Tree.repeating_not_inOrder :
    Tree.repeating.Reachable ∧ ¬Tree.repeating.root.Everywhere Node.InOrder := by
  refine ⟨⟨_, .edit (.edit (.fresh rfl) _) _⟩, fun hall => ?_⟩
  obtain ⟨edge, hedge, a, child, hwords, hgreedy, hnext⟩ :
      ∃ edge ∈ Tree.repeating.root.literals, ∃ a child, edge.2.argument = some (a, child) ∧
        a.parser.greedy = true ∧ child.argument ≠ none :=
    ⟨_, List.mem_cons_self, _, _, rfl, rfl, fun hnone => by cases hnone⟩
  exact hnext ((hall.literal hedge).here.greedy a child hwords hgreedy).2

end CommandLine
