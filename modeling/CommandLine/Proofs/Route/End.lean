import CommandLine.Proofs.Focus.Replay
import CommandLine.Proofs.Route.Values

/-! # The end of a line

    A line may end at a node in the middle of a command. Then arguments that may be left out are
    left out one after the other, each with its default, until the pass comes to a node where
    commands end, or to a flag group (`Position.run_of_fills`).

    A pass should go on wherever no command that ends at the node is one for the sender. It looks
    whether any command ends there at all: a command that the sender may not run, or that is for
    other senders, stops the pass at its node, although commands for the sender may be ahead
    (`Tree.route_at_end`). -/

namespace CommandLine

namespace Node

/-- The argument of a node may be left out, and leads to a command that the sender may run. -/
structure LeavesOut (n : Node) (ctx : Context) (a : Argument) (child : Node) : Prop where
  edge : n.argument = some (a, child)
  optional : a.isRequired = false
  permitted : child.permits ctx = true

/-- No argument may be left out, and the sender may run a command below the flag group. -/
structure TakesFlags (n : Node) (ctx : Context) (g : FlagGroup) (ending : List Entry) : Prop where
  instead : ∀ a child, ¬n.LeavesOut ctx a child
  edge : n.flags = some (g, ending)
  permitted : anyPermitted ctx ending = true

end Node

namespace Step

/-- Why none of some commands is selected. -/
def refusal (ctx : Context) (ending : List Entry) : Failure :=
  if Node.anyPermitted ctx ending then
    .invalidSender
      ((ending.filter fun e => e.command.isPermitted ctx).filterMap fun e =>
        e.command.senderTypeName)
  else .noPermission (Node.lackedPermission ctx ending)

/-- The first command that serves the sender is selected. -/
theorem select_eq (ctx : Context) (ending : List Entry) :
    select ctx ending = match ending.find? (Entry.serves ctx) with
      | some e => .arrive ⟨e, ctx⟩
      | none => .fail (refusal ctx ending) := by
  have hserves : ending.find? (Entry.serves ctx) =
      (ending.filter fun e => e.command.isPermitted ctx).find? fun e =>
        e.command.accepts ctx.sender := by
    rw [List.find?_filter]
    simp only [Bool.decide_and, Bool.decide_eq_true]
    rfl
  have hany : Node.anyPermitted ctx ending =
      !(ending.filter fun e => e.command.isPermitted ctx).isEmpty := by
    rw [Bool.eq_iff_iff]
    simp [Node.anyPermitted]
  simp only [select, refusal, hserves, hany]
  cases hpermitted : ending.filter fun e => e.command.isPermitted ctx with
  | nil => rfl
  | cons e rest => rfl

end Step

namespace Position

variable {ignoreCase : Bool} {p q : Position} {a : Argument} {child : Node}

theorem run_of_fail {failure : Failure} (h : p.step ignoreCase = .fail failure) :
    p.run ignoreCase = .error failure := by
  rw [run]
  split <;> rename_i hstep <;> cases h.symm.trans hstep
  rfl

/-- Only a pass that has not begun is at the root. -/
theorem atRoot_of_routed (h : p.routed ignoreCase = some q) : q.atRoot = false := by
  obtain ⟨_, hpasses, -⟩ := step_descend_passes (descend_of_routed h)
  cases hpasses <;> rfl

/-! ## One step at the end of a line -/

theorem step_at_end (hend : p.line.isBlank = true) :
    p.step ignoreCase = p.skipBlank.stepAtEnd := by
  rw [step, hend, if_pos rfl]

theorem stepAtEnd_of_ending (hroot : p.atRoot = false) (hending : p.node.ending ≠ []) :
    p.stepAtEnd = .select p.context p.node.ending := by
  rw [stepAtEnd, hroot, List.isEmpty_eq_false_iff.mpr hending]
  rfl

theorem stepAtEnd_of_none (hroot : p.atRoot = false) (hending : p.node.ending = []) :
    p.stepAtEnd = match p.node.argument with
      | none => p.stepIntoFlags
      | some (a, child) =>
        if !a.isRequired && child.permits p.context then p.skipArgument a child
        else p.stepIntoFlags := by
  rw [stepAtEnd, hroot, hending]
  rfl

theorem stepAtEnd_taking_flags (hroot : p.atRoot = false) (hending : p.node.ending = [])
    {g : FlagGroup} {ending : List Entry} (h : p.node.TakesFlags p.context g ending) :
    p.stepAtEnd = .select p.context ending := by
  have hinto : p.stepIntoFlags = .select p.context ending := by
    rw [stepIntoFlags, h.edge]
    exact if_pos h.permitted
  rw [stepAtEnd_of_none hroot hending]
  split
  · exact hinto
  · next a child hargument =>
      split
      · next hboth =>
          rw [Bool.and_eq_true, Bool.not_eq_true'] at hboth
          exact absurd ⟨hargument, hboth.1, hboth.2⟩ (h.instead a child)
      · exact hinto

/-- A step at the end of a line leaves an argument out. -/
theorem stepAtEnd_leavesOut (h : p.stepAtEnd = .descend q) :
    p.atRoot = false ∧ p.node.ending = [] ∧ ∃ a child filled, p.node.LeavesOut p.context a child ∧
      a.fill p.context = .ok filled ∧
      q = { node := child, context := filled, line := p.line } := by
  rw [stepAtEnd] at h
  split at h
  · cases h
  · next hroot =>
      split at h
      · exact absurd h select_ne_descend
      · next hending =>
          refine ⟨by simpa using hroot, by simpa using hending, ?_⟩
          split at h
          · exact absurd h stepIntoFlags_ne_descend
          · next a child hedge =>
              split at h
              · next hskips =>
                  rw [Bool.and_eq_true, Bool.not_eq_true'] at hskips
                  rw [skipArgument] at h
                  split at h
                  · next filled hfill =>
                      cases h
                      exact ⟨a, child, filled, ⟨hedge, hskips.1, hskips.2⟩, hfill, rfl⟩
                  · cases h
              · exact absurd h stepIntoFlags_ne_descend

theorem atRoot_of_stepAtEnd {r : Resolved} (h : p.stepAtEnd = .arrive r) : p.atRoot = false := by
  by_contra hroot
  rw [stepAtEnd, if_pos (by simpa using hroot)] at h
  cases h

/-- A step at the end of a line that ends with a command has chosen it at the node, or, where no
    command ends and no argument is left out, below its flag group. -/
theorem stepAtEnd_arrive {r : Resolved} (h : p.stepAtEnd = .arrive r) :
    Step.select p.context p.node.ending = .arrive r ∨
      p.node.ending = [] ∧ ∃ g ending, p.node.TakesFlags p.context g ending ∧
        Step.select p.context ending = .arrive r := by
  have hroot := atRoot_of_stepAtEnd h
  by_cases hending : p.node.ending = []
  · refine Or.inr ⟨hending, ?_⟩
    have hinto (hflags : p.stepIntoFlags = .arrive r)
        (hinstead : ∀ a child, ¬p.node.LeavesOut p.context a child) :
        ∃ g ending, p.node.TakesFlags p.context g ending ∧
          Step.select p.context ending = .arrive r := by
      obtain ⟨m, henters, hselects, hleftOut⟩ := stepIntoFlags_enters hflags
      cases henters with
      | read _ _ _ => cases hleftOut
      | none edge permitted => exact ⟨_, _, ⟨hinstead, edge, permitted⟩, hselects⟩
    rw [stepAtEnd_of_none hroot hending] at h
    split at h
    · next hargument =>
        refine hinto h fun a child hleaves => ?_
        cases hargument.symm.trans hleaves.edge
    · next a child hargument =>
        split at h
        · rw [skipArgument] at h
          split at h <;> cases h
        · next hstays =>
            refine hinto h fun a' child' hleaves => hstays ?_
            cases hargument.symm.trans hleaves.edge
            rw [hleaves.optional, Bool.not_false, Bool.true_and]
            exact hleaves.permitted
  · rw [stepAtEnd_of_ending hroot hending] at h
    exact Or.inl h

/-- Where commands end, the pass ends too. -/
theorem step_where_ending (hend : p.line.isBlank = true) (hroot : p.atRoot = false)
    (hending : p.node.ending ≠ []) :
    p.step ignoreCase = .select p.context p.node.ending := by
  rw [step_at_end hend]
  exact stepAtEnd_of_ending (p := p.skipBlank) hroot hending

/-- Where no command ends, an argument is left out. -/
theorem step_leaving_out (hend : p.line.isBlank = true) (hroot : p.atRoot = false)
    (hending : p.node.ending = []) (h : p.node.LeavesOut p.context a child) :
    p.step ignoreCase = p.skipBlank.skipArgument a child := by
  rw [step_at_end hend, stepAtEnd_of_none (p := p.skipBlank) hroot hending]
  simp [skipBlank, h.edge, h.optional, h.permitted]

/-- Where no command ends and no argument may be left out, the flag group is taken. -/
theorem step_taking_flags (hend : p.line.isBlank = true) (hroot : p.atRoot = false)
    (hending : p.node.ending = []) {g : FlagGroup} {ending : List Entry}
    (h : p.node.TakesFlags p.context g ending) :
    p.step ignoreCase = .select p.context ending := by
  rw [step_at_end hend]
  exact stepAtEnd_taking_flags (p := p.skipBlank) hroot hending h

/-! ## All steps at the end of a line -/

/-- From a node where no command ends to another, along arguments that are left out with their
    defaults. -/
inductive Fills : Position → Position → Prop where
  | here {p : Position} : Fills p p
  | argument {p q : Position} {a : Argument} {child : Node} {filled : Context}
      (ending : p.node.ending = []) (leaves : p.node.LeavesOut p.context a child)
      (fills : a.fill p.context = .ok filled)
      (rest : Fills { node := child, context := filled, line := p.line.skipBlank } q) : Fills p q

/-- At the end of a line defaults are filled in until a command ends. -/
theorem run_of_fills (h : p.Fills q) (hend : p.line.isBlank = true) (hroot : p.atRoot = false) :
    p.run ignoreCase = q.run ignoreCase := by
  induction h with
  | here => rfl
  | @argument p q a child filled ending leaves fills _ ih =>
      have hblank : p.line.skipBlank.isBlank = true :=
        p.line.skipBlank_agrees.isBlank.trans hend
      have hskips : p.skipBlank.skipArgument a child =
          .descend { node := child, context := filled, line := p.line.skipBlank } := by
        simp only [skipArgument, skipBlank, fills]
      rw [run_of_descend ((step_leaving_out hend hroot ending leaves).trans hskips)]
      exact ih hblank rfl

/-- What a pass makes of the commands at the place where it ends. -/
theorem run_of_select {ending : List Entry}
    (h : p.step ignoreCase = .select p.context ending) :
    p.run ignoreCase = match ending.find? (Entry.serves p.context) with
      | some e => .ok ⟨e, p.context⟩
      | none => .error (Step.refusal p.context ending) := by
  rw [Step.select_eq] at h
  split at h
  · exact run_of_arrive h
  · exact run_of_fail h

end Position

/-- What comes of a line that ends at a node, where no command is one for the sender. If no command
    ends there, the pass goes on: it leaves out the argument, or else takes the flag group, and
    comes to all places to which defaults can be filled in. If one ends there, the pass fails at the
    node, whatever is ahead. -/
theorem Tree.route_at_end {t : Tree} {ctx : Context} {text : String} {n : Nat} {p : Position}
    (hreached : turns (Position.routed t.rules.ignoreCase) (n + 1)
      (Position.start t ctx (.ofString text)) = some p)
    (hend : p.line.isBlank = true) (hnone : p.node.ending.find? (Entry.serves p.context) = none) :
    (p.node.ending = [] →
      (∀ a child, p.node.LeavesOut p.context a child →
        t.route ctx text = match a.fill p.context with
          | .ok filled =>
            Position.run t.rules.ignoreCase
              { node := child, context := filled, line := p.line.skipBlank }
          | .error e => .error (.badArgument a.name e)) ∧
      (∀ g ending, p.node.TakesFlags p.context g ending →
        t.route ctx text = match ending.find? (Entry.serves p.context) with
          | some e => .ok ⟨e, p.context⟩
          | none => .error (Step.refusal p.context ending)) ∧
      ∀ q, p.Fills q → t.route ctx text = q.run t.rules.ignoreCase) ∧
    (p.node.ending ≠ [] → t.route ctx text = .error (Step.refusal p.context p.node.ending)) := by
  have hroute : t.route ctx text = p.run t.rules.ignoreCase := Position.run_eq_of_turns hreached
  have hroot : p.atRoot = false := by
    obtain ⟨_, -, hlast⟩ := turns_succ hreached
    exact Position.atRoot_of_routed hlast
  rw [hroute]
  refine ⟨fun hending => ⟨?_, ?_, ?_⟩, fun hending => ?_⟩
  · intro a child hleaves
    split
    · next filled hfill =>
        exact Position.run_of_fills (.argument hending hleaves hfill .here) hend hroot
    · next e hfill =>
        refine Position.run_of_fail ((Position.step_leaving_out hend hroot hending hleaves).trans ?_)
        simp only [Position.skipArgument, Position.skipBlank, hfill]
  · intro g ending htakes
    exact Position.run_of_select (Position.step_taking_flags hend hroot hending htakes)
  · exact fun q hfills => Position.run_of_fills hfills hend hroot
  · rw [Position.run_of_select (Position.step_where_ending hend hroot hending), hnone]

/-- `heal`, for the console. -/
def Command.healAll : Command where
  components := [.literal { name := "heal" }]
  senderType := some ⟨"console", fun sender => sender.kind == "console"⟩

/-- A tree in which an amount may follow the word, and no command ends before it. -/
def Tree.nursing : Tree :=
  ({} : Tree).apply (.insert (.heal 1 20 20))

/-- A tree in which the console has a command of its own before the amount. -/
def Tree.surgery : Tree :=
  (({} : Tree).apply (.insert .healAll)).apply (.insert (.heal 1 20 20))

/-- The place behind the word `heal` on a line that ends there. -/
def Position.healed (node : Node) : Position where
  node := node
  context := .ofRight "heal"
  line := ⟨"heal".toList, []⟩

/-- Without an amount, the default is filled in and the command is found. -/
theorem Tree.route_at_end_nursing :
    ∃ p, turns (Position.routed Tree.nursing.rules.ignoreCase) 1
        (Position.start Tree.nursing (.ofRight "heal") (.ofString "heal")) = some p ∧
      p.line.isBlank = true ∧ p.node.ending.find? (Entry.serves p.context) = none ∧
      Tree.nursing.route (.ofRight "heal") "heal" =
        .ok ⟨⟨0, .heal 1 20 20⟩,
          (Context.ofRight "heal").store "amount" (.plain (.integer 20))⟩ := by
  have hreached : turns (Position.routed Tree.nursing.rules.ignoreCase) 1
      (Position.start Tree.nursing (.ofRight "heal") (.ofString "heal")) =
        some (.healed { Node.empty with
          argument := some (_, { Node.empty with ending := [⟨0, .heal 1 20 20⟩] }) }) := rfl
  refine ⟨_, hreached, rfl, rfl, ?_⟩
  obtain ⟨hgoesOn, -⟩ := Tree.route_at_end hreached rfl rfl
  obtain ⟨hleavesOut, -, -⟩ := hgoesOn rfl
  rw [hleavesOut _ _ ⟨rfl, rfl, rfl⟩]
  exact Position.run_of_arrive rfl

/-- Where a command for the console ends before the amount, a player is refused at its node,
    although the default would lead to a command for the player. -/
theorem Tree.route_stops_at_console :
    ∃ p a child filled r, Tree.surgery.Reachable ∧
      turns (Position.routed Tree.surgery.rules.ignoreCase) 1
        (Position.start Tree.surgery (.ofRight "heal") (.ofString "heal")) = some p ∧
      p.line.isBlank = true ∧ p.node.ending.find? (Entry.serves p.context) = none ∧
      p.node.LeavesOut p.context a child ∧ a.fill p.context = .ok filled ∧
      Position.run Tree.surgery.rules.ignoreCase
        { node := child, context := filled, line := p.line.skipBlank } = .ok r ∧
      Tree.surgery.route (.ofRight "heal") "heal" = .error (.invalidSender ["console"]) := by
  refine ⟨.healed { Node.empty with
    ending := [⟨0, .healAll⟩]
    argument := some (_, { Node.empty with ending := [⟨1, .heal 1 20 20⟩] }) }, _, _, _, _,
    ⟨_, .edit (.edit (.fresh rfl) _) _⟩, rfl, rfl, rfl, ⟨rfl, rfl, rfl⟩, rfl,
    Position.run_of_arrive rfl, ?_⟩
  exact (Position.run_of_descend rfl).trans (Position.run_of_fail rfl)

end CommandLine
