import CommandLine.Proofs.Parser.Frame
import CommandLine.Proofs.Route.Walk

/-! # Routing is safe

    A line that is routed to a command has been routed along edges below which the sender may run
    something, to the place under which the command is filed, and the command is the first there
    that the sender may run and that is for the sender (`Tree.route_safe`).

    The sender is looked up in the context at each edge. Only a parser of the surrounding program
    could put another sender or another checker there; `SameSender` is the frame of those that
    do not. -/

namespace CommandLine

/-- The sender may run a command and it is for the sender. -/
def Entry.serves (ctx : Context) (e : Entry) : Bool :=
  e.command.isPermitted ctx && e.command.accepts ctx.sender

/-- The command that is selected is the first that serves the sender. -/
theorem Step.select_eq_arrive {ctx : Context} {ending : List Entry} {r : Resolved}
    (h : Step.select ctx ending = .arrive r) :
    r.context = ctx ∧ ending.find? (Entry.serves ctx) = some r.entry := by
  simp only [select] at h
  split at h
  · cases h
  · split at h
    · next e hfound =>
        cases h
        rw [List.find?_filter] at hfound
        simp only [Bool.decide_and, Bool.decide_eq_true] at hfound
        exact ⟨rfl, hfound⟩
    · cases h

namespace Node

/-- Of more commands a sender may run no fewer. -/
theorem anyPermitted_of_subset {ctx : Context} {entries more : List Entry}
    (hsub : entries ⊆ more) (h : anyPermitted ctx entries = true) :
    anyPermitted ctx more = true := by
  obtain ⟨e, he, hpermitted⟩ := List.any_eq_true.mp h
  exact List.any_eq_true.mpr ⟨e, hsub he, hpermitted⟩

theorem permits_of_ending {n : Node} {ctx : Context} (h : anyPermitted ctx n.ending = true) :
    n.permits ctx = true :=
  anyPermitted_of_subset (fun _ he => mem_entries_iff.mpr (Or.inl he)) h

theorem permits_of_literal {n child : Node} {ctx : Context} {l : Literal}
    (hedge : (l, child) ∈ n.literals) (h : child.permits ctx = true) : n.permits ctx = true :=
  anyPermitted_of_subset (fun _ he => mem_entries_iff.mpr (Or.inr (Or.inl ⟨_, hedge, he⟩))) h

theorem permits_of_argument {n child : Node} {ctx : Context} {a : Argument}
    (hedge : n.argument = some (a, child)) (h : child.permits ctx = true) :
    n.permits ctx = true :=
  anyPermitted_of_subset
    (fun _ he => mem_entries_iff.mpr (Or.inr (Or.inr (Or.inl ⟨_, hedge, he⟩)))) h

theorem permits_of_flags {n : Node} {ctx : Context} {g : FlagGroup} {ending : List Entry}
    (hedge : n.flags = some (g, ending)) (h : anyPermitted ctx ending = true) :
    n.permits ctx = true :=
  anyPermitted_of_subset
    (fun _ he => mem_entries_iff.mpr (Or.inr (Or.inr (Or.inr ⟨_, _, hedge, he⟩)))) h

end Node

namespace Position

variable {ignoreCase : Bool} {p : Position} {moves : List Move} {ending : List Entry} {r : Resolved}

/-- A walk leads to the commands that it ends with. -/
theorem Walk.leads (h : p.Walk ignoreCase moves ending r) :
    p.node.Leads (moves.map (·.component)) ending := by
  induction h with
  | descend _ passes _ ih =>
      cases passes with
      | word found _ => exact .literal (List.mem_of_find?_eq_some found) ih
      | read edge _ _ => exact .argument edge ih
      | skipped edge _ _ _ => exact .argument edge ih
  | arrive _ _ => exact .here
  | enter _ enters _ =>
      cases enters with
      | read edge _ _ => exact .flags edge
      | none edge _ => exact .flags edge

/-- No edge is taken below which the sender may run nothing. -/
theorem Walk.permitted (h : p.Walk ignoreCase moves ending r) :
    ∀ m ∈ moves, Node.anyPermitted m.before m.entries = true := by
  induction h with
  | descend _ passes _ ih =>
      refine List.forall_mem_cons.mpr ⟨?_, ih⟩
      cases passes with
      | word _ permitted => exact permitted
      | read _ permitted _ => exact permitted
      | skipped _ permitted _ _ => exact permitted
  | arrive _ _ => simp
  | enter _ enters _ =>
      refine List.forall_mem_singleton.mpr ?_
      cases enters with
      | read _ permitted _ => exact permitted
      | none _ permitted => exact permitted

/-- A walk ends with the first command that serves the sender. -/
theorem Walk.selected (h : p.Walk ignoreCase moves ending r) :
    ending.find? (Entry.serves r.context) = some r.entry := by
  induction h with
  | descend _ _ _ ih => exact ih
  | arrive _ selects =>
      obtain ⟨hcontext, hfound⟩ := Step.select_eq_arrive selects
      rw [hcontext, hfound]
  | enter _ _ selects =>
      obtain ⟨hcontext, hfound⟩ := Step.select_eq_arrive selects
      rw [hcontext, hfound]

/-- At the start of a walk the sender may run a command. -/
theorem Walk.permits (h : p.Walk ignoreCase moves ending r) : p.node.permits p.context = true := by
  cases h with
  | descend _ passes _ =>
      cases passes with
      | word found permitted =>
          exact Node.permits_of_literal (List.mem_of_find?_eq_some found) permitted
      | read edge permitted _ => exact Node.permits_of_argument edge permitted
      | skipped edge permitted _ _ => exact Node.permits_of_argument edge permitted
  | arrive _ selects =>
      obtain ⟨-, hfound⟩ := Step.select_eq_arrive selects
      have hserves : Entry.serves p.context r.entry = true := List.find?_some hfound
      have hpermitted := (Bool.and_eq_true_iff.mp hserves).1
      exact Node.permits_of_ending
        (List.any_eq_true.mpr ⟨_, List.mem_of_find?_eq_some hfound, hpermitted⟩)
  | enter _ enters _ =>
      cases enters with
      | read edge permitted _ => exact Node.permits_of_flags edge permitted
      | none edge permitted => exact Node.permits_of_flags edge permitted

/-- The contexts of a walk follow one another. -/
theorem Walk.chained {K : Context → Context → Prop} (hK : Chains K)
    (h : p.Walk ignoreCase moves ending r) (hmoves : ∀ m ∈ moves, K m.before m.after) :
    (∀ m ∈ moves, K p.context m.before) ∧ K p.context r.context := by
  induction h with
  | @descend p q m moves ending r _ passes _ ih =>
      -- a move starts and ends where its two positions are
      obtain ⟨hm, hmoves⟩ := List.forall_mem_cons.mp hmoves
      have hbefore : m.before = p.context := by cases passes <;> rfl
      have hafter : m.after = q.context := by cases passes <;> rfl
      obtain ⟨hall, hlast⟩ := ih hmoves
      rw [hbefore, hafter] at hm
      refine ⟨List.forall_mem_cons.mpr ⟨?_, ?_⟩, hK.trans hm hlast⟩
      · rw [hbefore]
        exact hK.refl _
      · exact fun m hm' => hK.trans hm (hall m hm')
  | arrive _ selects =>
      refine ⟨by simp, ?_⟩
      rw [(Step.select_eq_arrive selects).1]
      exact hK.refl _
  | @enter p m r _ enters selects =>
      have hbefore : m.before = p.context := by cases enters <;> rfl
      have hm := List.forall_mem_singleton.mp hmoves
      rw [hbefore] at hm
      refine ⟨List.forall_mem_singleton.mpr ?_, ?_⟩
      · rw [hbefore]
        exact hK.refl _
      · rw [(Step.select_eq_arrive selects).1]
        exact hm

end Position

/-- The parsers of a component. -/
def Component.parsers : Component → List Parser
  | .literal _ => []
  | .argument a => [a.parser]
  | .flags g => g.flags.filterMap (·.value)

/-- A component that is made of what is allowed, also in what it stores itself. -/
structure Component.Within (allowed : Allowed) (c : Component) : Prop where
  parsers : ∀ p ∈ c.parsers, p.Within allowed
  keys : ∀ key ∈ c.storedKeys, allowed.key key

theorem Component.Within.literal {allowed : Allowed} (name : String) :
    (Component.literal { name }).Within allowed :=
  ⟨by simp [Component.parsers], by simp [Component.storedKeys]⟩

theorem Component.Within.argument {allowed : Allowed} {a : Argument}
    (h : (Component.argument a).Within allowed) :
    a.parser.Within allowed ∧ allowed.key a.name :=
  ⟨h.parsers _ (List.mem_singleton_self _), h.keys _ (List.mem_singleton_self _)⟩

theorem Component.Within.flags {allowed : Allowed} {g : FlagGroup}
    (h : (Component.flags g).Within allowed) : (Parser.flags g.flags).Within allowed := by
  constructor
  · exact fun flag hflag => h.keys _ (List.mem_map_of_mem hflag)
  · exact fun flag hflag p hp => h.parsers p (List.mem_filterMap.mpr ⟨flag, hflag, hp⟩)

namespace Argument

variable {K : Context → Context → Prop} {allowed : Allowed}

theorem keeps_read (hK : Chains K) (hallowed : allowed.Keeps K) {a : Argument}
    (ha : a.parser.Within allowed) : Reader.Keeps K a.read := by
  intro ctx line
  rw [Argument.read]
  split
  · exact hK.refl ctx
  · exact ha.keeps hK hallowed ctx line

theorem keeps_fill (hK : Chains K) (hallowed : allowed.Keeps K) {a : Argument}
    (ha : a.parser.Within allowed) (hkey : allowed.key a.name) {ctx filled : Context}
    (h : a.fill ctx = .ok filled) : K ctx filled := by
  rw [fill] at h
  split at h
  · cases h
    exact hK.refl ctx
  · cases h
    exact hallowed.store _ hkey ctx _
  · cases h
    exact hallowed.store _ hkey ctx _
  · next text _ =>
      have hread := ha.keeps hK hallowed ctx (.ofString text)
      simp only [Except.map] at h
      split at h
      · cases h
      · cases h
        exact hK.trans hread (hallowed.store _ hkey _ _)

end Argument

namespace Position

variable {K : Context → Context → Prop} {allowed : Allowed} {ignoreCase : Bool}

theorem Passes.keeps (hK : Chains K) (hallowed : allowed.Keeps K) {p q : Position} {m : Move}
    (h : p.Passes ignoreCase m q) (hwithin : m.component.Within allowed) : K m.before m.after := by
  cases h with
  | word _ _ => exact hK.refl _
  | read _ _ _ =>
      obtain ⟨hparser, hkey⟩ := hwithin.argument
      exact hK.trans (hK.trans (Argument.keeps_read hK hallowed hparser _ _)
        (hallowed.store _ hkey _ _)) (hallowed.consumed _ hkey _ _)
  | skipped _ _ _ fills =>
      obtain ⟨hparser, hkey⟩ := hwithin.argument
      exact Argument.keeps_fill hK hallowed hparser hkey fills

theorem Enters.keeps (hK : Chains K) (hallowed : allowed.Keeps K) {p : Position} {m : Move}
    (h : p.Enters m) (hwithin : m.component.Within allowed) : K m.before m.after := by
  cases h with
  | read _ _ _ => exact hwithin.flags.keeps hK hallowed _ _
  | none _ _ => exact hK.refl _

/-- The moves of a walk change contexts only in the ways of their components. -/
theorem Walk.keeps (hK : Chains K) (hallowed : allowed.Keeps K) {p : Position}
    {moves : List Move} {ending : List Entry} {r : Resolved}
    (h : p.Walk ignoreCase moves ending r) :
    ∀ m ∈ moves, m.component.Within allowed → K m.before m.after := by
  induction h with
  | descend _ passes _ ih => exact List.forall_mem_cons.mpr ⟨passes.keeps hK hallowed, ih⟩
  | arrive _ _ => simp
  | enter _ enters _ => exact List.forall_mem_singleton.mpr (enters.keeps hK hallowed)

end Position

/-- The sender and its permissions have not changed. -/
def SameSender (before after : Context) : Prop :=
  after.sender = before.sender ∧ after.checker = before.checker

theorem SameSender.chains : Chains SameSender :=
  ⟨fun _ => ⟨rfl, rfl⟩, fun hab hbc => ⟨hbc.1.trans hab.1, hbc.2.trans hab.2⟩⟩

/-- Whether a sender may run a command is for the sender and the checker to say. -/
theorem SameSender.isPermitted_eq {before after : Context} (h : SameSender before after)
    (c : Command) : c.isPermitted after = c.isPermitted before := by
  simp only [Command.isPermitted, Context.grants, h.1, h.2]

/-- Parsers of the surrounding program leave the sender and its permissions alone. -/
def Allowed.keepingSender : Allowed where
  host := fun h => h.read.Keeps SameSender

theorem Allowed.keepingSender_keeps : Allowed.keepingSender.Keeps SameSender :=
  ⟨fun _ hhost => hhost, fun _ _ _ _ => ⟨rfl, rfl⟩, fun _ _ _ _ => ⟨rfl, rfl⟩,
    fun _ _ _ => ⟨rfl, rfl⟩⟩

/-- A line is only routed to a command that the sender may run and that is for the sender, the first
    such at its place, along edges that correspond to its components and below which the sender may
    run something. Where no parser on the way replaces the sender, all this is said of the sender of
    the line. -/
theorem Tree.route_safe {t : Tree} {ctx : Context} {text : String} {r : Resolved}
    (ht : t.Reachable) (h : t.route ctx text = .ok r) :
    ∃ moves ending,
      (Position.start t ctx (.ofString text)).Walk t.rules.ignoreCase moves ending r ∧
      t.root.Leads (moves.map (·.component)) ending ∧
      List.Forall₂ (Component.Corresponds t.rules.ignoreCase) (moves.map (·.component))
        r.entry.command.components ∧
      r.entry ∈ t.entries ∧ r.entry.command.isPermitted r.context = true ∧
      r.entry.command.accepts r.context.sender = true ∧
      ending.find? (fun e => e.command.isPermitted r.context &&
        e.command.accepts r.context.sender) = some r.entry ∧
      t.root.permits ctx = true ∧
      (∀ m ∈ moves, Node.anyPermitted m.before m.entries = true) ∧
      ((∀ m ∈ moves, ∀ p ∈ m.component.parsers, p.Within .keepingSender) →
        SameSender ctx r.context ∧ ∀ m ∈ moves, Node.anyPermitted ctx m.entries = true) := by
  obtain ⟨moves, ending, hwalk⟩ := Position.run_walk h
  have hselected := hwalk.selected
  have hmem : r.entry ∈ ending := List.mem_of_find?_eq_some hselected
  have hserves : Entry.serves r.context r.entry = true := List.find?_some hselected
  obtain ⟨hpermitted, haccepts⟩ := Bool.and_eq_true_iff.mp hserves
  refine ⟨moves, ending, hwalk, hwalk.leads, ht.filed.corresponds hwalk.leads _ hmem,
    hwalk.leads.mem_entries hmem, hpermitted, haccepts, hselected, hwalk.permits,
    hwalk.permitted, ?_⟩
  intro hwithin
  -- the sender stays the same along the walk, so what it may do on the way it may do at the start
  obtain ⟨hbefore, hlast⟩ := hwalk.chained SameSender.chains fun m hm =>
    hwalk.keeps SameSender.chains Allowed.keepingSender_keeps m hm
      ⟨hwithin m hm, fun _ _ => trivial⟩
  refine ⟨hlast, ?_⟩
  intro m hm
  obtain ⟨e, he, hmay⟩ := List.any_eq_true.mp (hwalk.permitted m hm)
  rw [(hbefore m hm).isPermitted_eq] at hmay
  exact List.any_eq_true.mpr ⟨e, he, hmay⟩

/-- `give <who>`, for those who have the right to give. -/
def Command.give : Command where
  components := [.literal { name := "give" }, .argument { name := "who", parser := .text .word }]
  permission := .right "give"

/-- A sender with one right. -/
def Context.ofRight (right : String) : Context where
  sender := ⟨"alice", "player", 1, [right]⟩
  checker := some Checker.listed

/-- Whoever has the right to give is routed to the command. -/
theorem Tree.route_safe_give :
    ∃ (t : Tree) (r : Resolved), t.route (.ofRight "give") "give me" = .ok r ∧
      r.entry ∈ t.entries ∧ r.entry.command.isPermitted r.context = true := by
  have hreachable : (({} : Tree).apply (.insert .give)).Reachable := ⟨_, .edit (.fresh rfl) _⟩
  have hroutes : (({} : Tree).apply (.insert .give)).route (.ofRight "give") "give me" =
      .ok ⟨⟨0, .give⟩, ((Context.ofRight "give").store "who" (.plain (.text "me"))).recordConsumed
        "who" "me"⟩ :=
    (Position.run_of_descend rfl).trans ((Position.run_of_descend rfl).trans
      (Position.run_of_arrive rfl))
  obtain ⟨_, _, -, -, -, hmem, hpermitted, -⟩ := Tree.route_safe hreachable hroutes
  exact ⟨_, _, hroutes, hmem, hpermitted⟩

end CommandLine
