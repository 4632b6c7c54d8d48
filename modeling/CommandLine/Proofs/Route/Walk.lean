import CommandLine.Proofs.Tree.Paths
import CommandLine.Route

/-! # The walk of a pass

    A pass that ends with a command has taken edges from the root to the place where the command
    ends. `Position.Walk` writes down this walk with one `Move` for each edge; its constructors are
    the ways of `Position.step`, so that what a step does is said once (`step_descend_passes`,
    `step_arrive_cases`) and `Position.step` is not opened again. -/

namespace CommandLine

/-- An edge that a pass took, with what was known before and after. -/
structure Move where
  component : Component
  /-- The commands at and below the edge. -/
  entries : List Entry
  /-- Nothing was read for the edge. -/
  leftOut : Bool
  before : Context
  line : Line
  after : Context

namespace Position

/-- How a step passes an edge to a node. -/
inductive Passes (ignoreCase : Bool) (p : Position) : Move → Position → Prop where
  | word {l : Literal} {child : Node}
      (found : p.node.findLiteral ignoreCase p.line.peekToken = some (l, child))
      (permitted : child.permits p.context = true) :
      Passes ignoreCase p ⟨.literal l, child.entries, false, p.context, p.line, p.context⟩
        { node := child, context := p.context, line := p.line.skipToken }
  | read {a : Argument} {child : Node} {value : Value}
      (edge : p.node.argument = some (a, child)) (permitted : child.permits p.context = true)
      (reads : (a.read p.context p.line).result = .ok value) :
      Passes ignoreCase p
        ⟨.argument a, child.entries, false, p.context, p.line,
          argumentRead a p.line value (a.read p.context p.line)⟩
        { node := child
          context := argumentRead a p.line value (a.read p.context p.line)
          line := (a.read p.context p.line).line }
  | skipped {a : Argument} {child : Node} {context : Context}
      (edge : p.node.argument = some (a, child)) (permitted : child.permits p.context = true)
      (optional : a.isRequired = false) (fills : a.fill p.context = .ok context) :
      Passes ignoreCase p ⟨.argument a, child.entries, true, p.context, p.line, context⟩
        { node := child, context, line := p.line }

/-- How a step enters a flag group, below which the commands end. -/
inductive Enters (p : Position) : Move → Prop where
  | read {g : FlagGroup} {ending : List Entry} {value : Value}
      (edge : p.node.flags = some (g, ending))
      (permitted : Node.anyPermitted p.context ending = true)
      (reads : ((Parser.flags g.flags).read p.context p.line).result = .ok value) :
      Enters p ⟨.flags g, ending, false, p.context, p.line,
        ((Parser.flags g.flags).read p.context p.line).context⟩
  | none {g : FlagGroup} {ending : List Entry} (edge : p.node.flags = some (g, ending))
      (permitted : Node.anyPermitted p.context ending = true) :
      Enters p ⟨.flags g, ending, true, p.context, p.line, p.context⟩

/-- The moves of a pass from a position to a command, and the commands at the place where it
    ends. -/
inductive Walk (ignoreCase : Bool) : Position → List Move → List Entry → Resolved → Prop where
  | descend {p q : Position} {m : Move} {moves : List Move} {ending : List Entry} {r : Resolved}
      (step : p.step ignoreCase = .descend q) (passes : p.skipBlank.Passes ignoreCase m q)
      (rest : Walk ignoreCase q moves ending r) : Walk ignoreCase p (m :: moves) ending r
  | arrive {p : Position} {r : Resolved} (step : p.step ignoreCase = .arrive r)
      (selects : Step.select p.context p.node.ending = .arrive r) :
      Walk ignoreCase p [] p.node.ending r
  | enter {p : Position} {m : Move} {r : Resolved} (step : p.step ignoreCase = .arrive r)
      (enters : p.skipBlank.Enters m) (selects : Step.select m.after m.entries = .arrive r) :
      Walk ignoreCase p [m] m.entries r

/-! ## What a step does -/

theorem skipArgument_passes {ignoreCase : Bool} {p q : Position} {a : Argument} {child : Node}
    (hedge : p.node.argument = some (a, child)) (hpermits : child.permits p.context = true)
    (hoptional : a.isRequired = false) (h : p.skipArgument a child = .descend q) :
    ∃ m, p.Passes ignoreCase m q ∧ m.leftOut = true := by
  rw [skipArgument] at h
  split at h
  · next context hfill =>
      cases h
      exact ⟨_, .skipped hedge hpermits hoptional hfill, rfl⟩
  · cases h

theorem readArgument_passes {ignoreCase : Bool} {p q : Position} {denied : Option String}
    {a : Argument} {child : Node} (hedge : p.node.argument = some (a, child))
    (hpermits : child.permits p.context = true)
    (h : p.readArgument denied a child = .descend q) : ∃ m, p.Passes ignoreCase m q := by
  simp only [readArgument] at h
  split at h
  · next value hreads =>
      cases h
      exact ⟨_, .read hedge hpermits hreads⟩
  · cases h

theorem stepAtArgument_passes {ignoreCase : Bool} {p q : Position} {denied : Option String}
    (h : p.stepAtArgument denied = .descend q) : ∃ m, p.Passes ignoreCase m q := by
  rw [stepAtArgument] at h
  split at h
  · exact absurd h stepAtFlags_ne_descend
  · next a child hedge =>
      split at h
      · exact absurd h stepAtFlags_ne_descend
      · next hpermits =>
          have hpermits : child.permits p.context = true := by simpa using hpermits
          -- whatever comes of the token, a step that descends passes this argument
          split at h
          · next hskips =>
              have hoptional : a.isRequired = false := by
                rw [Bool.and_eq_true] at hskips
                simpa using hskips.2
              split at h
              · obtain ⟨m, hpasses, -⟩ := skipArgument_passes hedge hpermits hoptional h
                exact ⟨m, hpasses⟩
              · split at h
                · exact readArgument_passes hedge hpermits h
                · exact absurd h stepAtFlags_ne_descend
          · exact readArgument_passes hedge hpermits h

/-- A step that leads on passes an edge, and reads nothing for it at the end of the line. -/
theorem step_descend_passes {ignoreCase : Bool} {p q : Position}
    (h : p.step ignoreCase = .descend q) :
    ∃ m, p.skipBlank.Passes ignoreCase m q ∧ (p.line.isBlank = true → m.leftOut = true) := by
  rw [step] at h
  split at h
  · rw [stepAtEnd] at h
    split at h
    · cases h
    · split at h
      · exact absurd h select_ne_descend
      · split at h
        · exact absurd h stepIntoFlags_ne_descend
        · next a child hedge =>
            split at h
            · next hskips =>
                rw [Bool.and_eq_true, Bool.not_eq_true'] at hskips
                obtain ⟨m, hpasses, hleftOut⟩ :=
                  skipArgument_passes hedge hskips.2 hskips.1 h
                exact ⟨m, hpasses, fun _ => hleftOut⟩
            · exact absurd h stepIntoFlags_ne_descend
  · next hblank =>
      suffices ∃ m, p.skipBlank.Passes ignoreCase m q by
        obtain ⟨m, hpasses⟩ := this
        exact ⟨m, hpasses, fun htrue => absurd htrue hblank⟩
      rw [stepAtToken] at h
      split at h
      · exact stepAtArgument_passes h
      · next l child hfound =>
          split at h
          · next hpermits =>
              cases h
              exact ⟨_, .word hfound hpermits⟩
          · exact stepAtArgument_passes h

theorem stepAtFlags_enters {p : Position} {denied : Option String} {r : Resolved}
    (h : p.stepAtFlags denied = .arrive r) :
    ∃ m, p.Enters m ∧ Step.select m.after m.entries = .arrive r ∧ m.leftOut = false := by
  rw [stepAtFlags] at h
  split at h
  · cases h
  · next g ending hedge =>
      split at h
      · next hpermits =>
          simp only [readFlags] at h
          split at h
          · next value hreads => exact ⟨_, .read hedge hpermits hreads, h, rfl⟩
          · cases h
      · cases h

theorem stepIntoFlags_enters {p : Position} {r : Resolved} (h : p.stepIntoFlags = .arrive r) :
    ∃ m, p.Enters m ∧ Step.select m.after m.entries = .arrive r ∧ m.leftOut = true := by
  rw [stepIntoFlags] at h
  split at h
  · cases h
  · next g ending hedge =>
      split at h
      · next hpermits => exact ⟨_, .none hedge hpermits, h, rfl⟩
      · cases h

theorem stepAtArgument_enters {p : Position} {denied : Option String} {r : Resolved}
    (h : p.stepAtArgument denied = .arrive r) :
    ∃ m, p.Enters m ∧ Step.select m.after m.entries = .arrive r ∧ m.leftOut = false := by
  have skip_ne {a : Argument} {child : Node} : p.skipArgument a child ≠ .arrive r := by
    rw [skipArgument]
    split <;> simp
  have read_ne {denied : Option String} {a : Argument} {child : Node} :
      p.readArgument denied a child ≠ .arrive r := by
    simp only [readArgument]
    split <;> simp
  rw [stepAtArgument] at h
  split at h
  · exact stepAtFlags_enters h
  · split at h
    · exact stepAtFlags_enters h
    · split at h
      · split at h
        · exact absurd h skip_ne
        · split at h
          · exact absurd h read_ne
          · exact stepAtFlags_enters h
      · exact absurd h read_ne

/-- A step that ends with a command has chosen it among those that end at the node, at the end of
    the line, or below its flag group, which is read if something is left. -/
theorem step_arrive_cases {ignoreCase : Bool} {p : Position} {r : Resolved}
    (h : p.step ignoreCase = .arrive r) :
    (p.line.isBlank = true ∧ Step.select p.context p.node.ending = .arrive r) ∨
      ∃ m, p.skipBlank.Enters m ∧ Step.select m.after m.entries = .arrive r ∧
        m.leftOut = p.line.isBlank := by
  rw [step] at h
  split at h
  · next hblank =>
      rw [hblank]
      rw [stepAtEnd] at h
      split at h
      · cases h
      · split at h
        · exact Or.inl ⟨rfl, h⟩
        · split at h
          · exact Or.inr (stepIntoFlags_enters h)
          · split at h
            · rw [skipArgument] at h
              split at h <;> cases h
            · exact Or.inr (stepIntoFlags_enters h)
  · next hblank =>
      rw [show p.line.isBlank = false by simpa using hblank]
      rw [stepAtToken] at h
      split at h
      · exact Or.inr (stepAtArgument_enters h)
      · split at h
        · cases h
        · exact Or.inr (stepAtArgument_enters h)

theorem run_of_descend {ignoreCase : Bool} {p q : Position}
    (h : p.step ignoreCase = .descend q) : p.run ignoreCase = q.run ignoreCase := by
  rw [run]
  split <;> rename_i hstep <;> cases h.symm.trans hstep
  rfl

theorem run_of_arrive {ignoreCase : Bool} {p : Position} {r : Resolved}
    (h : p.step ignoreCase = .arrive r) : p.run ignoreCase = .ok r := by
  rw [run]
  split <;> rename_i hstep <;> cases h.symm.trans hstep
  rfl

/-- A pass that ends with a command is a walk. -/
theorem run_walk {ignoreCase : Bool} {p : Position} {r : Resolved}
    (h : p.run ignoreCase = .ok r) : ∃ moves ending, p.Walk ignoreCase moves ending r := by
  fun_induction run ignoreCase p with
  | case1 p q hstep ih =>
      obtain ⟨moves, ending, hrest⟩ := ih h
      obtain ⟨m, hpasses, -⟩ := step_descend_passes hstep
      exact ⟨m :: moves, ending, .descend hstep hpasses hrest⟩
  | case2 p found hstep =>
      cases h
      rcases step_arrive_cases hstep with ⟨-, hselects⟩ | ⟨m, henters, hselects, -⟩
      · exact ⟨[], p.node.ending, .arrive hstep hselects⟩
      · exact ⟨[m], m.entries, .enter hstep henters hselects⟩
  | case3 p failure hstep => cases h

end Position

end CommandLine
