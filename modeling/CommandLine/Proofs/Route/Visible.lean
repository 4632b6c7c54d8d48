import CommandLine.Proofs.Route.End
import CommandLine.Proofs.Route.Sight

/-! # Commands that a sender may not run

    A command that the sender may not run should make no difference to the sender, as if it had been
    removed. `Node.visible` is what removing all such commands leaves of a node, and a pass through
    the tree is compared with the pass of the same line through what is visible. -/

namespace CommandLine

namespace Node

/-- A pass may go on from a node at the end of a line. -/
def LeadsOn (n : Node) (ctx : Context) : Prop :=
  (∃ a child, n.LeavesOut ctx a child) ∨ ∃ g ending, n.TakesFlags ctx g ending

end Node

/-! ## Steps through what is visible -/

namespace Position

/-- The router turns to the flags of the node, but the sender does not see them. -/
def TurnsToHidden (ignoreCase : Bool) (p : Position) : Prop :=
  ∃ a child g ending, p.AtArgument ignoreCase a child ∧ p.detours a child = true ∧
    p.node.flags = some (g, ending) ∧ Node.anyPermitted p.context ending = false

/-- Commands that the sender may not run make a difference to the next step: they stop the pass
    at the end of the line, or their flags turn it away from an argument. -/
inductive Exposed (ignoreCase : Bool) (p : Position) : Prop where
  | ending (last : p.line.isBlank = true) (below : p.atRoot = false) (ends : p.node.ending ≠ [])
      (denied : Node.anyPermitted p.context p.node.ending = false)
      (ahead : p.node.LeadsOn p.context)
  | skips (further : p.line.isBlank = false) (hidden : p.skipBlank.SkipsHidden ignoreCase)
  | turns (further : p.line.isBlank = false) (hidden : p.skipBlank.TurnsToHidden ignoreCase)

end Position

namespace Step

/-- Nothing that serves a sender is among commands that it may not run. -/
theorem find_serves_of_denied {ctx : Context} {ending : List Entry}
    (h : Node.anyPermitted ctx ending = false) : ending.find? (Entry.serves ctx) = none := by
  refine List.find?_eq_none.mpr fun e he hserves => ?_
  rw [Entry.serves, Bool.and_eq_true] at hserves
  exact List.any_eq_false.mp h e he hserves.1

/-- The second step is the first as the sender sees it. What is reported of a failure may differ. -/
inductive Shows : Step → Step → Prop where
  | descend (q : Position) : Shows (.descend q) (.descend q.trim)
  | arrive (r : Resolved) : Shows (.arrive r) (.arrive r)
  | fail (failure seen : Failure) : Shows (.fail failure) (.fail seen)

theorem Shows.descend_eq {q : Position} {s : Step} (h : Shows (.descend q) s) :
    s = .descend q.trim := by
  cases h
  rfl

theorem Shows.arrive_eq {r : Resolved} {s : Step} (h : Shows (.arrive r) s) : s = .arrive r := by
  cases h
  rfl

theorem Shows.fail_eq {failure : Failure} {s : Step} (h : Shows (.fail failure) s) :
    ∃ seen, s = .fail seen := by
  cases h
  exact ⟨_, rfl⟩

/-- Commands that the sender may not run are not selected. -/
theorem select_filter {ctx : Context} {ending : List Entry}
    (h : Node.anyPermitted ctx ending = true) :
    select ctx (ending.filter fun e => e.command.isPermitted ctx) = select ctx ending := by
  have hany : (ending.filter fun e => e.command.isPermitted ctx).isEmpty = false := by
    obtain ⟨e, he, hpermitted⟩ := List.any_eq_true.mp h
    exact List.isEmpty_eq_false_iff.mpr
      (List.ne_nil_of_mem (List.mem_filter.mpr ⟨he, hpermitted⟩))
  simp only [select, List.filter_filter, Bool.and_self, hany, Bool.false_eq_true, if_false]

theorem select_shows_self (ctx : Context) (ending : List Entry) :
    (select ctx ending).Shows (select ctx ending) := by
  rw [select_eq]
  split
  · exact .arrive _
  · exact .fail _ _

/-- Among the commands that the sender may run the same one is selected. -/
theorem select_shows {before after : Context} (hsame : SameSender before after)
    {ending : List Entry} (h : Node.anyPermitted before ending = true) :
    (select after ending).Shows
      (select after (ending.filter fun e => e.command.isPermitted before)) := by
  have hpermitted : (fun e : Entry => e.command.isPermitted before) =
      fun e => e.command.isPermitted after :=
    funext fun e => (hsame.isPermitted_eq e.command).symm
  rw [Node.anyPermitted, hpermitted] at h
  rw [hpermitted, select_filter h]
  exact select_shows_self after ending

end Step

namespace Position

variable {ignoreCase : Bool} {p q : Position} {a : Argument} {child : Node} {g : FlagGroup}
  {ending : List Entry}

theorem descend_shows {context : Context} (hsame : SameSender p.context context) (line : Line) :
    Step.Shows (.descend { node := child, context, line })
      (.descend { node := child.visible p.context, context, line }) := by
  rw [← Node.visible_eq_of_sameSender hsame]
  exact .descend { node := child, context, line }

theorem skipArgument_shows (ha : (Component.argument a).Within .keepingSender) :
    (p.skipArgument a child).Shows (p.trim.skipArgument a (child.visible p.context)) := by
  obtain ⟨hparser, hkey⟩ := ha.argument
  simp only [skipArgument, trim]
  split
  · next filled hfill =>
      exact descend_shows (Argument.keeps_fill SameSender.chains Allowed.keepingSender_keeps
        hparser hkey hfill) p.line
  · exact .fail _ _

theorem readArgument_shows (ha : (Component.argument a).Within .keepingSender)
    (denied seen : Option String) :
    (p.readArgument denied a child).Shows
      (p.trim.readArgument seen a (child.visible p.context)) := by
  obtain ⟨hparser, -⟩ := ha.argument
  simp only [readArgument, trim]
  split
  · next value _ =>
      have hread : SameSender p.context (argumentRead a p.line value (a.read p.context p.line)) :=
        Argument.keeps_read SameSender.chains Allowed.keepingSender_keeps hparser p.context p.line
      exact descend_shows hread _
  · exact .fail _ _

theorem readFlags_shows (hg : (Component.flags g).Within .keepingSender)
    (hpermitted : Node.anyPermitted p.context ending = true)
    (denied seen : Option String) :
    (p.readFlags denied g ending).Shows
      (p.trim.readFlags seen g (ending.filter fun e => e.command.isPermitted p.context)) := by
  simp only [readFlags, trim]
  split
  · exact Step.select_shows
      (hg.flags.keeps SameSender.chains Allowed.keepingSender_keeps p.context p.line) hpermitted
  · exact .fail _ _

/-- Where the sender sees no flags, no step takes any. -/
theorem stepAtFlags_past (h : p.PastFlags) (denied : Option String) :
    ∃ failure, p.stepAtFlags denied = .fail failure := by
  rw [stepAtFlags]
  split
  · exact ⟨_, rfl⟩
  · next g ending hedge => exact ⟨_, if_neg (Bool.eq_false_iff.mp (h g ending hedge))⟩

theorem SeesFlags.stepAtFlags (h : p.SeesFlags g ending) (denied : Option String) :
    p.stepAtFlags denied = p.readFlags denied g ending := by
  rw [Position.stepAtFlags, h.edge]
  exact if_pos h.permitted

theorem stepIntoFlags_past (h : p.PastFlags) : p.stepIntoFlags = .fail (p.noMatch none) := by
  rw [stepIntoFlags]
  split
  · rfl
  · next g ending hedge => exact if_neg (Bool.eq_false_iff.mp (h g ending hedge))

theorem SeesFlags.stepIntoFlags (h : p.SeesFlags g ending) :
    p.stepIntoFlags = .select p.context ending := by
  rw [Position.stepIntoFlags, h.edge]
  exact if_pos h.permitted

theorem stepAtFlags_shows (hn : p.node.Carries (Component.Within .keepingSender))
    (denied seen : Option String) :
    (p.stepAtFlags denied).Shows (p.trim.stepAtFlags seen) := by
  rcases p.flags_cases with hpast | ⟨g, ending, hsees⟩
  · obtain ⟨failure, hfails⟩ := stepAtFlags_past hpast denied
    obtain ⟨failure', hfails'⟩ := stepAtFlags_past hpast.trim seen
    rw [hfails, hfails']
    exact .fail _ _
  · rw [hsees.stepAtFlags, hsees.trim.stepAtFlags]
    exact readFlags_shows (hn.flags g ending hsees.edge) hsees.permitted denied seen

theorem stepIntoFlags_shows : p.stepIntoFlags.Shows p.trim.stepIntoFlags := by
  rcases p.flags_cases with hpast | ⟨g, ending, hsees⟩
  · rw [stepIntoFlags_past hpast, stepIntoFlags_past hpast.trim]
    exact .fail _ _
  · rw [hsees.stepIntoFlags, hsees.trim.stepIntoFlags]
    exact Step.select_shows (SameSender.chains.refl p.context) hsees.permitted

/-- The router turns to flags that can be seen beside an argument. -/
theorem trim_detours (hat : p.AtArgument ignoreCase a child) (hskip : p.skips a child = false)
    (hturns : ¬p.TurnsToHidden ignoreCase) :
    p.trim.detours a (child.visible p.context) = p.detours a child := by
  have hmay : p.trim.mayLeaveOut a = p.mayLeaveOut a := rfl
  cases hleave : p.mayLeaveOut a with
  | false =>
      rw [detours, detours, hmay, hleave]
      rfl
  | true =>
      rw [skips, hleave, Bool.true_and] at hskip
      have hnone : child.flagsBelow? = none :=
        Option.not_isSome_iff_eq_none.mp (Bool.eq_false_iff.mp hskip)
      rcases p.flags_cases with hpast | ⟨g, ending, hsees⟩
      · have hbare : p.node.flags = none := by
          by_contra hflags
          obtain ⟨⟨g, ending⟩, hedge⟩ := Option.ne_none_iff_exists'.mp hflags
          have hdetours : p.detours a child = true := by
            rw [detours, hleave, hnone, hedge]
            rfl
          exact hturns ⟨a, child, g, ending, hat, hdetours, hedge, hpast g ending hedge⟩
        rw [detours, detours, hpast.trim_eq_none, hbare, Option.isSome_none, Bool.and_false,
          Bool.and_false]
      · rw [detours, detours, hmay, hnone, Node.flagsBelow?_visible_of_none hnone, hsees.edge,
          hsees.trim.edge]
        rfl

/-- A step at a token shows itself to the sender, unless hidden flags turn it away from the
    argument. -/
theorem stepAtToken_shows (horderly : p.node.Orderly ignoreCase)
    (hn : p.node.Carries (Component.Within .keepingSender))
    (hskips : ¬p.SkipsHidden ignoreCase) (hturns : ¬p.TurnsToHidden ignoreCase) :
    (p.stepAtToken ignoreCase).Shows (p.trim.stepAtToken ignoreCase) := by
  rcases p.literal_cases ignoreCase with hpast | ⟨l, child, hfound, hpermits⟩
  · rcases p.argument_cases with hnoArgument | ⟨a, child, hsees⟩
    · obtain ⟨denied, hstep⟩ := stepAtToken_pastArgument hpast hnoArgument
      obtain ⟨seen, hseen⟩ := stepAtToken_pastArgument (hpast.trim horderly) hnoArgument.trim
      rw [hstep, hseen]
      exact stepAtFlags_shows hn denied seen
    · have hat : p.AtArgument ignoreCase a child := ⟨hpast, hsees.edge, hsees.permitted⟩
      have ha := hn.argument a child hsees.edge
      obtain ⟨denied, hstep⟩ := stepAtToken_atArgument hat
      obtain ⟨seen, hseen⟩ := stepAtToken_atArgument (hat.trim horderly)
      rw [hstep, hseen, trim_skips hat hskips]
      cases hskip : p.skips a child with
      | true => exact skipArgument_shows ha
      | false =>
          rw [trim_detours hat hskip hturns]
          cases p.detours a child with
          | true => exact stepAtFlags_shows hn denied seen
          | false => exact readArgument_shows ha denied seen
  · have hseen : (child.visible p.context).permits p.context = true :=
      (child.permits_visible p.context).trans hpermits
    rw [stepAtToken_word hfound hpermits,
      stepAtToken_word (p := p.trim) (trim_literal horderly hfound hpermits) hseen]
    exact .descend _

theorem stepAtEnd_past (hroot : p.atRoot = false) (hending : p.node.ending = [])
    (h : p.PastArgument) : p.stepAtEnd = p.stepIntoFlags := by
  rw [stepAtEnd_of_none hroot hending]
  split
  · rfl
  · next a child hedge =>
      rw [h a child hedge, Bool.and_false]
      exact if_neg Bool.false_ne_true

theorem SeesArgument.stepAtEnd (h : p.SeesArgument a child) (hroot : p.atRoot = false)
    (hending : p.node.ending = []) :
    p.stepAtEnd = if a.isRequired then p.stepIntoFlags else p.skipArgument a child := by
  rw [stepAtEnd_of_none hroot hending, h.edge]
  simp only [h.permitted, Bool.and_true]
  cases a.isRequired <;> rfl

/-- The step at the end of a line shows itself, where no command ends that the sender may not run. -/
theorem stepAtEnd_shows_of_none (hn : p.node.Carries (Component.Within .keepingSender))
    (hroot : p.atRoot = false) (hending : p.node.ending = []) :
    p.stepAtEnd.Shows p.trim.stepAtEnd := by
  have hseen : p.trim.node.ending = [] := by rw [trim_ending, hending, List.filter_nil]
  rcases p.argument_cases with hpast | ⟨a, child, hsees⟩
  · rw [stepAtEnd_past hroot hending hpast, stepAtEnd_past (p := p.trim) hroot hseen hpast.trim]
    exact stepIntoFlags_shows
  · rw [hsees.stepAtEnd hroot hending, hsees.trim.stepAtEnd hroot hseen]
    cases a.isRequired with
    | true => exact stepIntoFlags_shows
    | false => exact skipArgument_shows (hn.argument a child hsees.edge)

/-- From a place that does not lead on, no step leads on through what is visible. -/
theorem stepAtEnd_trim_fails (hroot : p.atRoot = false)
    (hdenied : Node.anyPermitted p.context p.node.ending = false)
    (hahead : ¬p.node.LeadsOn p.context) :
    ∃ failure, p.trim.stepAtEnd = .fail failure := by
  have hseen : p.trim.node.ending = [] := by
    rw [trim_ending]
    simpa [Node.anyPermitted] using hdenied
  have hinstead : ∀ a child, ¬p.node.LeavesOut p.context a child :=
    fun a child hleaves => hahead (Or.inl ⟨a, child, hleaves⟩)
  have hpast : p.PastFlags := by
    refine fun g ending hedge => Bool.eq_false_iff.mpr fun hpermitted => ?_
    exact hahead (Or.inr ⟨g, ending, hinstead, hedge, hpermitted⟩)
  refine ⟨p.trim.noMatch none, ?_⟩
  rw [← stepIntoFlags_past hpast.trim]
  rcases p.argument_cases with hnoArgument | ⟨a, child, hsees⟩
  · exact stepAtEnd_past hroot hseen hnoArgument.trim
  · have hrequired : a.isRequired = true := by
      by_contra hoptional
      exact hinstead a child ⟨hsees.edge, Bool.eq_false_iff.mpr hoptional, hsees.permitted⟩
    rw [hsees.trim.stepAtEnd hroot hseen, if_pos hrequired]

theorem stepAtEnd_shows (hn : p.node.Carries (Component.Within .keepingSender))
    (hahead : p.atRoot = false → p.node.ending ≠ [] →
      Node.anyPermitted p.context p.node.ending = false → ¬p.node.LeadsOn p.context) :
    p.stepAtEnd.Shows p.trim.stepAtEnd := by
  cases hroot : p.atRoot with
  | true =>
      rw [stepAtEnd, stepAtEnd, if_pos hroot, if_pos (show p.trim.atRoot = true from hroot)]
      exact .fail _ _
  | false =>
      by_cases hending : p.node.ending = []
      · exact stepAtEnd_shows_of_none hn hroot hending
      · rw [stepAtEnd_of_ending hroot hending]
        cases hpermitted : Node.anyPermitted p.context p.node.ending with
        | true =>
            have hleft : p.trim.node.ending ≠ [] := by
              obtain ⟨e, he, hmay⟩ := List.any_eq_true.mp hpermitted
              rw [trim_ending]
              exact List.ne_nil_of_mem (List.mem_filter.mpr ⟨he, hmay⟩)
            rw [stepAtEnd_of_ending (p := p.trim) hroot hleft, trim_ending]
            exact Step.select_shows (SameSender.chains.refl p.context) hpermitted
        | false =>
            obtain ⟨failure, hfails⟩ :=
              stepAtEnd_trim_fails hroot hpermitted (hahead hroot hending hpermitted)
            rw [hfails, Step.select_eq, Step.find_serves_of_denied hpermitted]
            exact .fail _ _

/-- Where the sender is not exposed to commands that it may not run, a step shows itself. -/
theorem step_shows (horderly : p.node.Orderly ignoreCase)
    (hn : p.node.Carries (Component.Within .keepingSender)) (hexposed : ¬p.Exposed ignoreCase) :
    (p.step ignoreCase).Shows (p.trim.step ignoreCase) := by
  rw [step, step]
  cases hblank : p.line.isBlank with
  | true =>
      rw [show p.trim.line.isBlank = true from hblank]
      exact stepAtEnd_shows (p := p.skipBlank) hn fun hroot hending hdenied hahead =>
        hexposed (.ending hblank hroot hending hdenied hahead)
  | false =>
      rw [show p.trim.line.isBlank = false from hblank]
      exact stepAtToken_shows (p := p.skipBlank) horderly hn
        (fun hhidden => hexposed (.skips hblank hhidden))
        (fun hhidden => hexposed (.turns hblank hhidden))

theorem everywhere_of_step {P : Node → Prop} (h : p.step ignoreCase = .descend q)
    (hp : p.node.Everywhere P) : q.node.Everywhere P := by
  rcases step_descend h with ⟨l, hedge⟩ | ⟨a, hedge⟩
  · exact hp.literal hedge
  · exact hp.argument hedge

/-- Where the sender is nowhere exposed to commands that it may not run, a pass finds a command
    exactly if the pass through what is visible finds it, with the same context. -/
theorem run_trim (horderly : p.node.Everywhere (Node.Orderly ignoreCase))
    (hn : p.node.Everywhere (Node.Carries (Component.Within .keepingSender)))
    (hexposed : ∀ n q, turns (routed ignoreCase) n p = some q → ¬q.Exposed ignoreCase)
    (r : Resolved) : p.run ignoreCase = .ok r ↔ p.trim.run ignoreCase = .ok r := by
  have hshows := step_shows horderly.here hn.here (hexposed 0 p rfl)
  fun_induction run ignoreCase p with
  | case1 p q hstep ih =>
      rw [hstep] at hshows
      rw [run_of_descend hshows.descend_eq]
      have horderly' := everywhere_of_step hstep horderly
      have hn' := everywhere_of_step hstep hn
      have hexposed' : ∀ n u, turns (routed ignoreCase) n q = some u → ¬u.Exposed ignoreCase :=
        fun n u hu => hexposed (n + 1) u (turns_head (InStep.routed_descend hstep) hu)
      exact ih horderly' hn' hexposed'
        (step_shows horderly'.here hn'.here (hexposed' 0 q rfl))
  | case2 p found hstep =>
      rw [hstep] at hshows
      rw [run_of_arrive hshows.arrive_eq]
  | case3 p failure hstep =>
      rw [hstep] at hshows
      obtain ⟨seen, hseen⟩ := hshows.fail_eq
      rw [run_of_fail hseen]
      exact iff_of_false (fun h => by cases h) (fun h => by cases h)

/-- A pass fails where it is exposed, unless it leaves an argument out. -/
theorem Exposed.fails (h : p.Exposed ignoreCase)
    (hskips : p.line.isBlank = false → ¬p.skipBlank.SkipsHidden ignoreCase) :
    ∃ failure, p.step ignoreCase = .fail failure := by
  cases h with
  | ending last below ends denied _ =>
      rw [step_where_ending last below ends, Step.select_eq, Step.find_serves_of_denied denied]
      exact ⟨_, rfl⟩
  | skips further hidden => exact absurd hidden (hskips further)
  | turns further hidden =>
      obtain ⟨a, child, g, ending, hat, hdetours, hedge, hdenied⟩ := hidden
      obtain ⟨denied, hstep⟩ := stepAtToken_atArgument hat
      have hskip : p.skipBlank.skips a child = false := by
        by_contra hskip
        rw [detours_of_skips (by simpa using hskip)] at hdetours
        cases hdetours
      rw [step_of_token further, hstep, hskip, hdetours, stepAtFlags, hedge]
      simp only [hdenied, Bool.false_eq_true, if_false, if_true]
      exact ⟨_, rfl⟩

end Position

/-- A pass that finds a command takes no step that fails. -/
theorem Tree.route_error_of_fail {t : Tree} {ctx : Context} {text : String} {n : Nat}
    {p : Position} (hreached : turns (Position.routed t.rules.ignoreCase) n
      (Position.start t ctx (.ofString text)) = some p) {failure : Failure}
    (hfails : p.step t.rules.ignoreCase = .fail failure) : t.route ctx text = .error failure :=
  (Position.run_eq_of_turns hreached).trans (Position.run_of_fail hfails)

/-- Removing the commands that a sender may not run, in any order, makes no difference to what the
    sender's line is routed to, with all that is read on the way, as long as the pass comes by no
    place where the sender is exposed to them. At these places the commands stop the pass, or
    their flags do; what the sender can still do is the same without them, unless an argument is
    left out for the sake of flags that the sender does not see. -/
theorem Tree.Built.route_visible {t : Tree} (ht : t.Built (Component.Within .keepingSender))
    (hunlocked : t.checkUnlocked = .ok ()) (ctx : Context) (text : String) {denied : List Entry}
    (hdenied : denied.Perm (t.deniedTo ctx)) :
    ∃ t', t.removeEach denied = .ok t' ∧
      ((∀ n p, turns (Position.routed t.rules.ignoreCase) n
          (Position.start t ctx (.ofString text)) = some p → ¬p.Exposed t.rules.ignoreCase) →
        ∀ r, t.route ctx text = .ok r ↔ t'.route ctx text = .ok r) ∧
      ((∀ n p, turns (Position.routed t.rules.ignoreCase) n
          (Position.start t ctx (.ofString text)) = some p → p.line.isBlank = false →
            ¬p.skipBlank.SkipsHidden t.rules.ignoreCase) →
        ∀ r, t.route ctx text = .ok r → t'.route ctx text = .ok r) := by
  have hcarries : t.root.Everywhere (Node.Carries (Component.Within .keepingSender)) :=
    ht.carries fun _ _ _ hold => ⟨hold.parsers, hold.keys⟩
  have horderly := ht.reachable.orderly
  have hsame : (∀ n p, turns (Position.routed t.rules.ignoreCase) n
      (Position.start t ctx (.ofString text)) = some p → ¬p.Exposed t.rules.ignoreCase) → _ :=
    fun hexposed => Position.run_trim (p := .start t ctx (.ofString text)) horderly hcarries
      hexposed
  refine ⟨_, ht.reachable.remove_denied hunlocked hdenied, hsame, ?_⟩
  intro hskips r hroute
  refine (hsame ?_ r).mp hroute
  intro n p hreached hexposed
  obtain ⟨failure, hfails⟩ := hexposed.fails (hskips n p hreached)
  rw [t.route_error_of_fail hreached hfails] at hroute
  cases hroute

/-- `say aloud`, for those who have the right to be loud. -/
def Command.sayAloud : Command where
  components := [.literal { name := "say" }, .literal { name := "aloud" }]
  permission := .right "loud"

/-- `say --silent`, for those who have the right to be loud. -/
def Command.saySilent : Command where
  components := [.literal { name := "say" }, .flags { flags := [{ name := "silent" }] }]
  permission := .right "loud"

/-- A tree with a word beside an argument, which not everybody may type. -/
def Tree.calling : Tree :=
  (({} : Tree).apply (.insert .sayText)).apply (.insert .sayAloud)

/-- A tree with flags beside an argument, which not everybody may give. -/
def Tree.hushing : Tree :=
  (({} : Tree).apply (.insert .sayText)).apply (.insert .saySilent)

theorem Tree.calling_built : Tree.calling.Built (Component.Within .keepingSender) := by
  refine .edit (.edit (.fresh rfl) _ ?_) _ ?_
  · rintro c ⟨⟩
    simp only [Command.sayText, List.forall_mem_cons]
    exact ⟨.literal "say", ⟨List.forall_mem_singleton.mpr (.text .word), fun _ _ => trivial⟩, by simp⟩
  · rintro c ⟨⟩
    simp only [Command.sayAloud, List.forall_mem_cons]
    exact ⟨.literal "say", .literal "aloud", by simp⟩

/-- The place where the pass of `say hi` starts. -/
def Position.calling : Position :=
  .start Tree.calling (.ofRight "") (.ofString "say hi")

/-- The place behind the word `say`. -/
def Position.called : Position where
  node := { Node.empty with
    literals := [({ name := "aloud" }, { Node.empty with ending := [⟨1, .sayAloud⟩] })]
    argument := some ({ name := "text", parser := .text .word, need := .optional none },
      { Node.empty with ending := [⟨0, .sayText⟩] }) }
  context := .ofRight ""
  line := ⟨"say".toList, " hi".toList⟩

/-- The pass of `say hi` comes by the word and the argument. -/
theorem Position.turns_calling {n : Nat} {p : Position}
    (h : turns (Position.routed false) n .calling = some p) :
    p = .calling ∨ p = .called ∨ (p.line.isBlank = true ∧
      Node.anyPermitted p.context p.node.ending = true ∧ p.routed false = none) := by
  have hcalled : Position.calling.routed false = some .called := rfl
  obtain ⟨last, hlast, hblank, hends, hstops⟩ :
      ∃ last, Position.called.routed false = some last ∧ last.line.isBlank = true ∧
        Node.anyPermitted last.context last.node.ending = true ∧ last.routed false = none :=
    ⟨_, rfl, rfl, rfl, rfl⟩
  refine turns_keep (I := fun p => p = .calling ∨ p = .called ∨ (p.line.isBlank = true ∧
    Node.anyPermitted p.context p.node.ending = true ∧ p.routed false = none)) (.inl rfl) ?_ h
  rintro v u (rfl | rfl | ⟨-, -, hend⟩) hu
  · cases hcalled.symm.trans hu
    exact .inr (.inl rfl)
  · cases hlast.symm.trans hu
    exact .inr (.inr ⟨hblank, hends, hstops⟩)
  · cases hend.symm.trans hu

theorem Position.calling_not_exposed {n : Nat} {p : Position}
    (h : turns (Position.routed false) n .calling = some p) : ¬p.Exposed false := by
  rintro (⟨hlast, hbelow, -, hdenied, -⟩ | ⟨hfurther, a, child, hat, hskips, -⟩ |
    ⟨hfurther, a, child, g, ending, hat, hturns, hedge, -⟩)
  · rcases turns_calling h with rfl | rfl | ⟨-, hends, -⟩
    · cases hbelow
    · cases hlast
    · rw [hends] at hdenied
      cases hdenied
  · rcases turns_calling h with rfl | rfl | ⟨hend, -, -⟩
    · cases hat.edge
    · cases hskips
    · rw [hend] at hfurther
      cases hfurther
  · rcases turns_calling h with rfl | rfl | ⟨hend, -, -⟩
    · cases hat.edge
    · cases hedge
    · rw [hend] at hfurther
      cases hfurther

/-- Without the right to be loud, `say hi` is routed to `say [text]`, with `say aloud` in the tree
    and without it. -/
theorem Tree.route_visible_calling :
    Tree.calling.Built (Component.Within .keepingSender) ∧
      Tree.calling.checkUnlocked = .ok () ∧
      [⟨1, .sayAloud⟩].Perm (Tree.calling.deniedTo (.ofRight "")) ∧
      ∃ t' r, Tree.calling.removeEach [⟨1, .sayAloud⟩] = .ok t' ∧
        Tree.calling.route (.ofRight "") "say hi" = .ok r ∧
        t'.route (.ofRight "") "say hi" = .ok r := by
  have hdenied : [⟨1, .sayAloud⟩].Perm (Tree.calling.deniedTo (.ofRight "")) := .of_eq rfl
  obtain ⟨t', hremoved, hsame, -⟩ :=
    Tree.Built.route_visible Tree.calling_built rfl (.ofRight "") "say hi" hdenied
  have hroute : Tree.calling.route (.ofRight "") "say hi" = .ok ⟨⟨0, .sayText⟩,
      ((Context.ofRight "").store "text" (.plain (.text "hi"))).recordConsumed "text" "hi"⟩ :=
    (Position.run_of_descend rfl).trans ((Position.run_of_descend rfl).trans
      (Position.run_of_arrive rfl))
  refine ⟨Tree.calling_built, rfl, hdenied, t', _, hremoved, hroute, ?_⟩
  exact (hsame (fun n p hreached => Position.calling_not_exposed hreached) _).mp hroute

/-- A flag that a sender may not give stops a line that is routed when the command of the flag is
    removed. -/
theorem Tree.route_stops_at_denied_flags :
    ∃ t' r failure, Tree.hushing.Reachable ∧ Tree.hushing.checkUnlocked = .ok () ∧
      [⟨1, .saySilent⟩].Perm (Tree.hushing.deniedTo (.ofRight "")) ∧
      Tree.hushing.removeEach [⟨1, .saySilent⟩] = .ok t' ∧
      t'.route (.ofRight "") "say --silent" = .ok r ∧
      Tree.hushing.route (.ofRight "") "say --silent" = .error failure := by
  have hreachable : Tree.hushing.Reachable := ⟨_, .edit (.edit (.fresh rfl) _) _⟩
  have hdenied : [⟨1, .saySilent⟩].Perm (Tree.hushing.deniedTo (.ofRight "")) := .of_eq rfl
  refine ⟨_, ⟨⟨0, .sayText⟩, ((Context.ofRight "").store "text"
    (.plain (.text "--silent"))).recordConsumed "text" "--silent"⟩, .noPermission "loud",
    hreachable, rfl, hdenied, hreachable.remove_denied rfl hdenied, ?_, ?_⟩
  · exact (Position.run_of_descend rfl).trans ((Position.run_of_descend rfl).trans
      (Position.run_of_arrive rfl))
  · exact (Position.run_of_descend rfl).trans (Position.run_of_fail rfl)

end CommandLine
