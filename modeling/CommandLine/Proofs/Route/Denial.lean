import CommandLine.Proofs.Route.DeniedFlags
import CommandLine.Proofs.Route.Spelling
import CommandLine.Proofs.Route.Visible

/-! # What is denied to a sender

    A pass that comes by a branch below which the sender may run nothing does not enter it, and
    should say so if it then fails at that node. `Position.FailsAtToken` and `Position.FailsAtEnd`
    say how a step fails, with the branches that were withheld from the sender on the way.

    What a pass reports as lacking is the permission of a command or a flag that the sender lacks,
    and what it names as possible the sender may do (`Tree.Built.route_denies`).

    A literal that is withheld outranks whatever else fails at its node: the token stood for it
    (`Tree.Reachable.withheld_outranks`). There is one way out: an argument that is left out for
    flags behind it, with a default that cannot be filled in. That failure is reported as it is. -/

namespace CommandLine

/-- Parsers of the surrounding program leave the sender alone, and those of flags do not report that
    a flag is denied. -/
inductive Component.Sincere : Component → Prop where
  | literal (l : Literal) : Sincere (.literal l)
  | argument {a : Argument} (within : a.parser.Within .keepingSender) : Sincere (.argument a)
  | flags {g : FlagGroup} (within : (Parser.flags g.flags).Within .sincere) : Sincere (.flags g)

theorem Component.Sincere.within_argument {a : Argument} (h : (Component.argument a).Sincere) :
    (Component.argument a).Within .keepingSender := by
  cases h with
  | argument within => exact ⟨List.forall_mem_singleton.mpr within, fun _ _ => trivial⟩

theorem Component.Sincere.within_flags {g : FlagGroup} (h : (Component.flags g).Sincere) :
    (Parser.flags g.flags).Within .sincere := by
  cases h with
  | flags within => exact within

namespace Node

variable {ctx : Context} {n : Node} {ignoreCase : Bool}

/-- A branch is withheld from the sender, who lacks the permission of this text. -/
def Withholds (n : Node) (ctx : Context) (text : String) : Prop :=
  ∃ c entries, (c, entries) ∈ n.branches ∧ anyPermitted ctx entries = false ∧
    text = lackedPermission ctx entries

/-- A text is that of a permission that the sender lacks: of a command that ends at the node, of one
    below it, or of a flag in its group. -/
inductive Denies (ctx : Context) (n : Node) : String → Prop where
  | ending {e : Entry} (mem : e ∈ n.ending) (denied : ctx.grants e.command.permission = false) :
      Denies ctx n e.command.permission.toText
  | branch {c : Component} {entries : List Entry} {e : Entry} (edge : (c, entries) ∈ n.branches)
      (mem : e ∈ entries) (denied : ctx.grants e.command.permission = false) :
      Denies ctx n e.command.permission.toText
  | flag {g : FlagGroup} {ending : List Entry} {text : String}
      (edge : n.flags = some (g, ending)) (denied : (Parser.flags g.flags).Denies ctx text) :
      Denies ctx n text

theorem literal_mem_branches {l : Literal} {child : Node} (h : (l, child) ∈ n.literals) :
    (.literal l, child.entries) ∈ n.branches :=
  List.mem_append_left _ (List.mem_append_left _ (List.mem_map.mpr ⟨_, h, rfl⟩))

theorem argument_mem_branches {a : Argument} {child : Node} (h : n.argument = some (a, child)) :
    (.argument a, child.entries) ∈ n.branches :=
  List.mem_append_left _ (List.mem_append_right _ (by simp [h]))

theorem flags_mem_branches {g : FlagGroup} {ending : List Entry}
    (h : n.flags = some (g, ending)) : (.flags g, ending) ∈ n.branches :=
  List.mem_append_right _ (by simp [h])

/-- No branch is without commands. -/
theorem Orderly.branch_ne_nil (h : n.Orderly ignoreCase) {c : Component} {entries : List Entry}
    (hbranch : (c, entries) ∈ n.branches) : entries ≠ [] := by
  simp only [branches, List.mem_append, List.mem_map, Option.mem_toList, Option.map_eq_some_iff]
    at hbranch
  rcases hbranch with (⟨edge, hedge, heq⟩ | ⟨edge, hedge, heq⟩) | ⟨⟨g, ending⟩, hedge, heq⟩
  · cases heq
    exact h.belowLiteral edge hedge
  · cases heq
    exact h.belowArgument edge hedge
  · cases heq
    exact h.belowFlags g _ hedge

/-- Of commands all of which are denied, the first is the one whose permission is lacked. -/
theorem exists_lacked {entries : List Entry} (hne : entries ≠ [])
    (hdenied : anyPermitted ctx entries = false) :
    ∃ e, (entries.find? fun e => !e.command.isPermitted ctx) = some e ∧
      lackedPermission ctx entries = e.command.permission.toText := by
  cases entries with
  | nil => exact absurd rfl hne
  | cons e rest =>
      have hlacks : e.command.isPermitted ctx = false :=
        Bool.eq_false_iff.mpr (List.any_eq_false.mp hdenied e List.mem_cons_self)
      have hfind : ((e :: rest).find? fun e => !e.command.isPermitted ctx) = some e := by
        rw [List.find?_cons, hlacks]
        rfl
      refine ⟨e, hfind, ?_⟩
      rw [lackedPermission, hfind]
      rfl

theorem lacked_mem {entries : List Entry} (hne : entries ≠ [])
    (hdenied : anyPermitted ctx entries = false) :
    ∃ e ∈ entries, ctx.grants e.command.permission = false ∧
      lackedPermission ctx entries = e.command.permission.toText := by
  obtain ⟨e, hfind, htext⟩ := exists_lacked hne hdenied
  have hmem := List.mem_of_find?_eq_some hfind
  exact ⟨e, hmem, Bool.eq_false_iff.mpr (List.any_eq_false.mp hdenied e hmem), htext⟩

theorem Withholds.denies {text : String} (h : n.Withholds ctx text) (hn : n.Orderly ignoreCase) :
    n.Denies ctx text := by
  obtain ⟨c, entries, hbranch, hdenied, rfl⟩ := h
  obtain ⟨e, hmem, hlacks, htext⟩ := lacked_mem (hn.branch_ne_nil hbranch) hdenied
  rw [htext]
  exact .branch hbranch hmem hlacks

/-- What is named as possible the sender may do. -/
theorem mem_expected {usage : String} : usage ∈ n.expected ctx ↔
    ∃ c entries, (c, entries) ∈ n.branches ∧ anyPermitted ctx entries = true ∧ usage = c.usage := by
  simp only [expected, List.mem_map, List.mem_filter, Prod.exists]
  constructor
  · rintro ⟨c, entries, ⟨hbranch, hpermitted⟩, rfl⟩
    exact ⟨c, entries, hbranch, hpermitted, rfl⟩
  · rintro ⟨c, entries, hbranch, hpermitted, rfl⟩
    exact ⟨c, entries, ⟨hbranch, hpermitted⟩, rfl⟩

end Node

namespace Step

variable {ctx : Context} {ending : List Entry}

theorem select_eq_fail {failure : Failure} (h : select ctx ending = .fail failure) :
    failure = refusal ctx ending := by
  rw [select_eq] at h
  split at h
  · cases h
  · cases h
    rfl

theorem refusal_eq_noPermission {text : String} (h : .noPermission text = refusal ctx ending) :
    Node.anyPermitted ctx ending = false ∧ text = Node.lackedPermission ctx ending := by
  rw [refusal] at h
  split at h
  · cases h
  · next hdenied =>
      cases h
      exact ⟨by simpa using hdenied, rfl⟩

theorem refusal_ne_invalidSyntax {input : String} {expected : List String} :
    .invalidSyntax input expected ≠ refusal ctx ending := by
  rw [refusal]
  split <;> simp

end Step

namespace Position

variable {ignoreCase : Bool} {p q : Position} {denied : Option String} {failure : Failure}

/-! ## How a step fails -/

/-- How a step fails at a token that selects no literal, after a literal may have been withheld.
    What was withheld later counts only if none was. -/
inductive FailsAtToken (p : Position) (denied : Option String) : Failure → Prop where
  | argument {a : Argument} {child : Node} {cause : ArgumentError}
      (edge : p.node.argument = some (a, child))
      (reads : (a.read p.context p.line).result = .error cause) :
      FailsAtToken p denied (preferDenied denied (.badArgument a.name cause))
  | default {a : Argument} {child : Node} {cause : ArgumentError}
      (edge : p.node.argument = some (a, child)) (permitted : child.permits p.context = true)
      (skips : p.skips a child = true) (fills : a.fill p.context = .error cause) :
      FailsAtToken p denied (.badArgument a.name cause)
  | flags {g : FlagGroup} {ending : List Entry} {cause : ArgumentError} {later : Option String}
      (edge : p.node.flags = some (g, ending))
      (withheld : ∀ text, later = some text → p.node.Withholds p.context text)
      (reads : ((Parser.flags g.flags).read p.context p.line).result = .error cause) :
      FailsAtToken p denied (preferDenied (denied.or later) (p.flagsFailure cause))
  | refused {g : FlagGroup} {ending : List Entry} {value : Value} {failure : Failure}
      (edge : p.node.flags = some (g, ending))
      (permitted : Node.anyPermitted p.context ending = true)
      (reads : ((Parser.flags g.flags).read p.context p.line).result = .ok value)
      (selects : Step.select ((Parser.flags g.flags).read p.context p.line).context ending =
        .fail failure) : FailsAtToken p denied failure
  | noMatch {later : Option String}
      (withheld : ∀ text, later = some text → p.node.Withholds p.context text) :
      FailsAtToken p denied (p.noMatch (denied.or later))

/-- How a step fails at the end of the line. -/
inductive FailsAtEnd (p : Position) : Failure → Prop where
  | nothing : FailsAtEnd p (.noSuchCommand "")
  | refused {failure : Failure} (commands : p.node.ending ≠ [])
      (selects : Step.select p.context p.node.ending = .fail failure) : FailsAtEnd p failure
  | default {a : Argument} {child : Node} {cause : ArgumentError}
      (edge : p.node.argument = some (a, child)) (fills : a.fill p.context = .error cause) :
      FailsAtEnd p (.badArgument a.name cause)
  | flags {g : FlagGroup} {ending : List Entry} {failure : Failure}
      (edge : p.node.flags = some (g, ending))
      (permitted : Node.anyPermitted p.context ending = true)
      (selects : Step.select p.context ending = .fail failure) : FailsAtEnd p failure
  | noMatch : FailsAtEnd p (p.noMatch none)

theorem skipArgument_fails {a : Argument} {child : Node}
    (h : p.skipArgument a child = .fail failure) :
    ∃ cause, a.fill p.context = .error cause ∧ failure = .badArgument a.name cause := by
  rw [skipArgument] at h
  split at h
  · cases h
  · next cause hfill =>
      cases h
      exact ⟨cause, hfill, rfl⟩

theorem readArgument_fails {a : Argument} {child : Node}
    (hedge : p.node.argument = some (a, child))
    (h : p.readArgument denied a child = .fail failure) : p.FailsAtToken denied failure := by
  simp only [readArgument] at h
  split at h
  · cases h
  · next cause hreads =>
      cases h
      exact .argument hedge hreads

theorem stepAtFlags_fails {later : Option String}
    (hlater : ∀ text, later = some text → p.node.Withholds p.context text)
    (h : p.stepAtFlags (denied.or later) = .fail failure) : p.FailsAtToken denied failure := by
  rw [stepAtFlags] at h
  split at h
  · cases h
    exact .noMatch hlater
  · next g ending hedge =>
      split at h
      · next hpermitted =>
          simp only [readFlags] at h
          split at h
          · next value hreads => exact .refused hedge hpermitted hreads h
          · next cause hreads =>
              cases h
              exact .flags hedge hlater hreads
      · next hdenied =>
          cases h
          rw [Option.or_assoc]
          refine .noMatch fun text htext => ?_
          rcases Option.or_eq_some_iff.mp htext with htext | ⟨-, htext⟩
          · exact hlater text htext
          · cases htext
            exact ⟨_, _, Node.flags_mem_branches hedge, by simpa using hdenied, rfl⟩

theorem stepAtArgument_fails (h : p.stepAtArgument denied = .fail failure) :
    p.FailsAtToken denied failure := by
  have hflags (h : p.stepAtFlags denied = .fail failure) : p.FailsAtToken denied failure := by
    rw [← denied.or_none] at h
    refine stepAtFlags_fails ?_ h
    simp
  rw [stepAtArgument] at h
  split at h
  · exact hflags h
  · next a child hedge =>
      split at h
      · next hdenied =>
          have hdenied : child.permits p.context = false := by simpa using hdenied
          refine stepAtFlags_fails (fun text htext => ?_) h
          cases htext
          exact ⟨_, _, Node.argument_mem_branches hedge, hdenied, rfl⟩
      · next hpermitted =>
        have hpermitted : child.permits p.context = true := by simpa using hpermitted
        split at h
        · next hmay =>
            split at h
            · next hbelow =>
                obtain ⟨cause, hfill, rfl⟩ := skipArgument_fails h
                exact .default hedge hpermitted (Bool.and_eq_true_iff.mpr ⟨hmay, hbelow⟩) hfill
            · split at h
              · exact readArgument_fails hedge h
              · exact hflags h
        · exact readArgument_fails hedge h

/-- A literal that the token selects was withheld, and what is lacked below it comes first. -/
theorem stepAtToken_fails (h : p.stepAtToken ignoreCase = .fail failure) :
    ∃ denied, p.FailsAtToken denied failure ∧
      (∀ text, denied = some text → p.node.Withholds p.context text) ∧
      ∀ l child, p.node.findLiteral ignoreCase p.line.peekToken = some (l, child) →
        denied = some (Node.lackedPermission p.context child.entries) := by
  rw [stepAtToken] at h
  split at h
  · next hnone => exact ⟨none, stepAtArgument_fails h, by simp, by simp [hnone]⟩
  · next l child hfound =>
      split at h
      · cases h
      · next hdenied =>
          have hdenied : child.permits p.context = false := by simpa using hdenied
          refine ⟨_, stepAtArgument_fails h, fun text htext => ?_, fun l' child' hfound' => ?_⟩
          · cases htext
            exact ⟨_, _, Node.literal_mem_branches (List.mem_of_find?_eq_some hfound), hdenied,
              rfl⟩
          · cases hfound.symm.trans hfound'
            rfl

theorem stepIntoFlags_fails (h : p.stepIntoFlags = .fail failure) : p.FailsAtEnd failure := by
  rw [stepIntoFlags] at h
  split at h
  · cases h
    exact .noMatch
  · next g ending hedge =>
      split at h
      · next hpermitted => exact .flags hedge hpermitted h
      · cases h
        exact .noMatch

theorem stepAtEnd_fails (h : p.stepAtEnd = .fail failure) : p.FailsAtEnd failure := by
  rw [stepAtEnd] at h
  split at h
  · cases h
    exact .nothing
  · split at h
    · next hending => exact .refused (by simpa using hending) h
    · split at h
      · exact stepIntoFlags_fails h
      · next a child hedge =>
          split at h
          · obtain ⟨cause, hfill, rfl⟩ := skipArgument_fails h
            exact .default hedge hfill
          · exact stepIntoFlags_fails h

/-! ## What a failure says -/

theorem preferDenied_eq_noPermission {text : String}
    (h : preferDenied denied failure = .noPermission text) :
    denied = some text ∨ denied = none ∧ failure = .noPermission text := by
  cases denied with
  | none => exact .inr ⟨rfl, h⟩
  | some lacked =>
      cases h
      exact .inl rfl

theorem noMatch_eq_noPermission {text : String} (h : p.noMatch denied = .noPermission text) :
    denied = some text := by
  rcases preferDenied_eq_noPermission h with hdenied | ⟨-, hfailure⟩
  · exact hdenied
  · split at hfailure <;> cases hfailure

theorem noMatch_eq_invalidSyntax {input : String} {expected : List String}
    (h : p.noMatch denied = .invalidSyntax input expected) :
    expected = p.node.expected p.context := by
  cases denied with
  | some lacked => cases h
  | none =>
      change (if p.atRoot then _ else _) = _ at h
      split at h <;> cases h
      rfl

theorem flagsFailure_eq_noPermission {cause : ArgumentError} {text : String}
    (h : p.flagsFailure cause = .noPermission text) :
    cause.reason = .noFlagPermission ∧ text = (cause.fact? "permission").getD "" := by
  rw [flagsFailure] at h
  split at h
  · cases h
  · next hreason =>
      cases h
      exact ⟨hreason, rfl⟩
  · cases h

theorem flagsFailure_eq_invalidSyntax {cause : ArgumentError} {input : String}
    {expected : List String} (h : p.flagsFailure cause = .invalidSyntax input expected) :
    expected = p.node.expected p.context := by
  rw [flagsFailure] at h
  split at h <;> cases h
  rfl

/-- A step at a token that fails for want of a permission says which one the sender lacks. -/
theorem FailsAtToken.denies {text : String} (h : p.FailsAtToken denied (.noPermission text))
    (hdenied : ∀ text, denied = some text → p.node.Withholds p.context text)
    (horderly : p.node.Orderly ignoreCase) (hsincere : p.node.Carries Component.Sincere) :
    p.node.Denies p.context text := by
  have hwithheld {later : Option String}
      (hlater : ∀ text, later = some text → p.node.Withholds p.context text)
      (hsome : denied.or later = some text) : p.node.Denies p.context text := by
    rcases Option.or_eq_some_iff.mp hsome with hsome | ⟨-, hsome⟩
    · exact (hdenied text hsome).denies horderly
    · exact (hlater text hsome).denies horderly
  generalize heq : Failure.noPermission text = failure at h
  cases h with
  | argument edge reads =>
      rcases preferDenied_eq_noPermission heq.symm with hsome | ⟨-, hfailure⟩
      · exact (hdenied text hsome).denies horderly
      · cases hfailure
  | default edge permitted skips fills => cases heq
  | flags edge withheld reads =>
      rcases preferDenied_eq_noPermission heq.symm with hsome | ⟨-, hfailure⟩
      · exact hwithheld withheld hsome
      · obtain ⟨hreason, rfl⟩ := flagsFailure_eq_noPermission hfailure
        obtain ⟨text, hfact, hflag⟩ := (hsincere.flags _ _ edge).within_flags.honest p.context
          p.context p.line _ (SameSender.chains.refl _) reads hreason
        rw [hfact]
        exact .flag edge hflag
  | refused edge permitted reads selects =>
      -- the flags have left the sender alone, who may still run a command below them
      have hsame := (hsincere.flags _ _ edge).within_flags.keeps SameSender.chains
        Allowed.sincere_keeps p.context p.line
      obtain ⟨hnone, -⟩ := Step.refusal_eq_noPermission (heq.trans (Step.select_eq_fail selects))
      rw [hsame.anyPermitted_eq, permitted] at hnone
      cases hnone
  | noMatch withheld => exact hwithheld withheld (noMatch_eq_noPermission heq.symm)

theorem FailsAtEnd.denies {text : String} (h : p.FailsAtEnd (.noPermission text)) :
    p.node.Denies p.context text := by
  generalize heq : Failure.noPermission text = failure at h
  cases h with
  | nothing => cases heq
  | refused commands selects =>
      obtain ⟨hnone, rfl⟩ := Step.refusal_eq_noPermission (heq.trans (Step.select_eq_fail selects))
      obtain ⟨e, hmem, hlacks, htext⟩ := Node.lacked_mem commands hnone
      rw [htext]
      exact .ending hmem hlacks
  | default edge fills => cases heq
  | flags edge permitted selects =>
      obtain ⟨hnone, -⟩ := Step.refusal_eq_noPermission (heq.trans (Step.select_eq_fail selects))
      cases permitted.symm.trans hnone
  | noMatch => cases noMatch_eq_noPermission heq.symm

theorem step_denies {text : String} (h : p.step ignoreCase = .fail (.noPermission text))
    (horderly : p.node.Orderly ignoreCase) (hsincere : p.node.Carries Component.Sincere) :
    p.node.Denies p.context text := by
  rw [step] at h
  split at h
  · exact (stepAtEnd_fails h).denies (p := p.skipBlank)
  · obtain ⟨denied, hfails, hdenied, -⟩ := stepAtToken_fails h
    exact hfails.denies (p := p.skipBlank) hdenied horderly hsincere

theorem step_expects {input : String} {expected : List String}
    (h : p.step ignoreCase = .fail (.invalidSyntax input expected)) :
    expected = p.node.expected p.context := by
  generalize heq : Failure.invalidSyntax input expected = failure at h
  rw [step] at h
  split at h
  · cases stepAtEnd_fails h with
    | nothing => cases heq
    | refused commands selects =>
        exact absurd (heq.trans (Step.select_eq_fail selects)) Step.refusal_ne_invalidSyntax
    | default edge fills => cases heq
    | flags edge permitted selects =>
        exact absurd (heq.trans (Step.select_eq_fail selects)) Step.refusal_ne_invalidSyntax
    | noMatch => exact noMatch_eq_invalidSyntax (p := p.skipBlank) heq.symm
  · obtain ⟨denied, hfails, -⟩ := stepAtToken_fails h
    cases hfails with
    | argument edge reads => cases denied <;> cases heq
    | default edge permitted skips fills => cases heq
    | @flags g ending cause later edge withheld reads =>
        cases hdenied : denied.or later with
        | none =>
            rw [hdenied] at heq
            exact flagsFailure_eq_invalidSyntax (p := p.skipBlank) heq.symm
        | some text =>
            rw [hdenied] at heq
            cases heq
    | refused edge permitted reads selects =>
        exact absurd (heq.trans (Step.select_eq_fail selects)) Step.refusal_ne_invalidSyntax
    | noMatch withheld => exact noMatch_eq_invalidSyntax (p := p.skipBlank) heq.symm

/-! ## All steps of a pass -/

/-- A pass that fails has come to a step that fails. -/
theorem run_fails (h : p.run ignoreCase = .error failure) :
    ∃ n q, turns (routed ignoreCase) n p = some q ∧ q.step ignoreCase = .fail failure := by
  fun_induction run ignoreCase p with
  | case1 p next hstep ih =>
      obtain ⟨n, q, hreached, hfails⟩ := ih h
      have hnext : p.routed ignoreCase = some next := by rw [routed, hstep]
      exact ⟨n + 1, q, turns_head hnext hreached, hfails⟩
  | case2 p found hstep => cases h
  | case3 p failure' hstep =>
      cases h
      exact ⟨0, p, rfl, hstep⟩

/-- A move leaves the sender alone. -/
theorem Passes.sameSender {m : Move} (h : p.Passes ignoreCase m q)
    (hsincere : m.component.Sincere) : SameSender p.context q.context := by
  have hkeeps (hwithin : m.component.Within .keepingSender) : SameSender m.before m.after :=
    h.keeps SameSender.chains Allowed.keepingSender_keeps hwithin
  cases h with
  | word found permitted => exact SameSender.chains.refl _
  | read edge permitted reads => exact hkeeps hsincere.within_argument
  | skipped edge permitted optional fills => exact hkeeps hsincere.within_argument

/-- A pass leaves the sender alone. -/
theorem sameSender_of_turns (hsincere : p.node.Everywhere (Node.Carries Component.Sincere))
    {n : Nat} (h : turns (routed ignoreCase) n p = some q) :
    SameSender p.context q.context ∧ q.node.Everywhere (Node.Carries Component.Sincere) := by
  refine turns_keep (I := fun q => SameSender p.context q.context ∧
    q.node.Everywhere (Node.Carries Component.Sincere)) ⟨SameSender.chains.refl _, hsincere⟩ ?_ h
  rintro q next ⟨hsame, hsincere⟩ hnext
  obtain ⟨m, hpasses, -⟩ := step_descend_passes (descend_of_routed hnext)
  obtain ⟨hm, hbelow⟩ := Passes.everywhere (p := q.skipBlank) hpasses hsincere
  exact ⟨SameSender.chains.trans hsame (hpasses.sameSender hm), hbelow⟩

theorem everywhere_of_turns {P : Node → Prop} (hp : p.node.Everywhere P) {n : Nat}
    (h : turns (routed ignoreCase) n p = some q) : q.node.Everywhere P :=
  turns_keep (I := fun q => q.node.Everywhere P) hp
    (fun hv hnext => everywhere_of_step (descend_of_routed hnext) hv) h

end Position

/-- A sender that lacks the same permissions is denied the same. -/
theorem Node.Denies.of_sameSender {before after : Context} (h : SameSender before after) {n : Node}
    {text : String} (hdenies : n.Denies after text) : n.Denies before text := by
  cases hdenies with
  | ending mem denied => exact .ending mem ((h.grants_eq _).symm.trans denied)
  | branch edge mem denied => exact .branch edge mem ((h.grants_eq _).symm.trans denied)
  | flag edge denied => exact .flag edge (denied.of_sameSender h)

/-! ## Permissions that are reported as lacking -/

/-- If a line is refused for want of a permission, the sender lacks it, and it is the permission of
    a command at or below the node where the pass fails, or of a flag in the group there. If it is
    refused for its syntax, the components that are named as possible lead to commands that the
    sender may run. -/
theorem Tree.Built.route_denies {t : Tree} (ht : t.Built Component.Sincere) {ctx : Context}
    {text : String} {failure : Failure} (h : t.route ctx text = .error failure) :
    ∃ n p, turns (Position.routed t.rules.ignoreCase) n
        (Position.start t ctx (.ofString text)) = some p ∧
      p.step t.rules.ignoreCase = .fail failure ∧
      (∀ permission, failure = .noPermission permission → p.node.Denies ctx permission) ∧
      ∀ input expected, failure = .invalidSyntax input expected →
        ∀ usage ∈ expected, ∃ c entries, (c, entries) ∈ p.node.branches ∧
          Node.anyPermitted ctx entries = true ∧ usage = c.usage := by
  obtain ⟨n, p, hreached, hfails⟩ := Position.run_fails h
  have hcarries : t.root.Everywhere (Node.Carries Component.Sincere) :=
    ht.carries fun _ _ _ _ => .literal _
  obtain ⟨hsame, hsincere⟩ := Position.sameSender_of_turns hcarries hreached
  have horderly := Position.everywhere_of_turns ht.reachable.orderly hreached
  refine ⟨n, p, hreached, hfails, ?_, ?_⟩
  · rintro permission rfl
    exact (Position.step_denies hfails horderly.here hsincere.here).of_sameSender hsame
  · rintro input expected rfl usage husage
    rw [Position.step_expects hfails] at husage
    obtain ⟨c, entries, hbranch, hpermitted, rfl⟩ := Node.mem_expected.mp husage
    exact ⟨c, entries, hbranch, (hsame.anyPermitted_eq entries).symm.trans hpermitted, rfl⟩

/-- `say [--as]`, where the value of the flag is a group with a flag of its own. -/
def Command.sayAs : Command where
  components :=
    [.literal { name := "say" },
     .flags { flags :=
      [{ name := "as"
         value := some (.flags [{ name := "loud", permission := .right "loud" }]) }] }]

/-- The flag inside of the value is denied, and its permission is the one that is reported. -/
theorem Tree.route_denies_loud :
    ∃ t : Tree, t.route (.ofRight "say") "say --as --loud" = .error (.noPermission "loud") ∧
      ∃ n p, turns (Position.routed t.rules.ignoreCase) n
          (Position.start t (.ofRight "say") (.ofString "say --as --loud")) = some p ∧
        p.node.Denies (.ofRight "say") "loud" := by
  have hbuilt : (({} : Tree).apply (.insert .sayAs)).Built Component.Sincere := by
    refine .of_command ?_
    simp only [Command.sayAs, List.forall_mem_cons, List.not_mem_nil, false_imp_iff, implies_true,
      and_true]
    refine ⟨.literal _, .flags (.flags (fun _ _ => trivial) ?_)⟩
    rintro flag hflag p hp
    obtain rfl := List.mem_singleton.mp hflag
    cases hp
    refine .flags (fun _ _ => trivial) fun flag hflag p hp => ?_
    obtain rfl := List.mem_singleton.mp hflag
    cases hp
  have hroute : (({} : Tree).apply (.insert .sayAs)).route (.ofRight "say") "say --as --loud" =
      .error (.noPermission "loud") :=
    (Position.run_of_descend rfl).trans (Position.run_of_fail rfl)
  obtain ⟨n, p, hreached, -, hdenies, -⟩ := Tree.Built.route_denies hbuilt hroute
  exact ⟨_, hroute, n, p, hreached, hdenies _ rfl⟩

/-! ## Literals that are withheld -/

/-- Where the next token selects a literal below which the sender may run nothing and the step
    fails, the line is refused with the first permission that the sender lacks below the literal,
    whether the argument or the flags of the node could not be read either or there are none. The
    exception is an argument that is left out for flags behind it: if its default cannot be filled
    in, that is what is reported. Flags that were read have taken the rest of the line, and a
    failure to choose one of the commands behind them is not one of the node. -/
theorem Tree.Reachable.withheld_outranks {t : Tree} (ht : t.Reachable) {ctx : Context}
    {text : String} {n : Nat} {p : Position}
    (hreached : turns (Position.routed t.rules.ignoreCase) n
      (Position.start t ctx (.ofString text)) = some p)
    (hleft : p.line.isBlank = false) {l : Literal} {child : Node}
    (hfound : p.node.findLiteral t.rules.ignoreCase p.skipBlank.line.peekToken = some (l, child))
    (hdenied : child.permits p.context = false) {failure : Failure}
    (hfails : p.step t.rules.ignoreCase = .fail failure) :
    t.route ctx text = .error failure ∧
    ∃ e, (child.entries.find? fun e => !e.command.isPermitted p.context) = some e ∧
      ((∀ a below, p.skipBlank.AtArgument t.rules.ignoreCase a below →
          p.skipBlank.skips a below = true → ∃ filled, a.fill p.context = .ok filled) →
        failure = .noPermission e.command.permission.toText ∨
        ∃ g ending value, p.node.flags = some (g, ending) ∧
          ((Parser.flags g.flags).read p.context p.skipBlank.line).result = .ok value ∧
          Step.select ((Parser.flags g.flags).read p.context p.skipBlank.line).context ending =
            .fail failure) ∧
      ∀ a below cause, p.skipBlank.AtArgument t.rules.ignoreCase a below →
        p.skipBlank.skips a below = true → a.fill p.context = .error cause →
        failure = .badArgument a.name cause := by
  have horderly := (Position.everywhere_of_turns ht.orderly hreached).here
  have hedge : (l, child) ∈ p.node.literals := List.mem_of_find?_eq_some hfound
  obtain ⟨e, hfind, htext⟩ := Node.exists_lacked (horderly.belowLiteral _ hedge) hdenied
  refine ⟨t.route_error_of_fail hreached hfails, e, hfind, ?_, ?_⟩
  · intro hfills
    have hpast : p.skipBlank.PastLiterals t.rules.ignoreCase := by
      intro l' child' hfound'
      cases hfound.symm.trans hfound'
      exact hdenied
    rw [Position.step_of_token hleft] at hfails
    obtain ⟨denied, hfails, -, hfirst⟩ := Position.stepAtToken_fails hfails
    obtain rfl := hfirst l child hfound
    rw [← htext]
    cases hfails with
    | argument edge reads => exact .inl rfl
    | default edge permitted skips fills =>
        obtain ⟨filled, hfill⟩ := hfills _ _ ⟨hpast, edge, permitted⟩ skips
        cases fills.symm.trans hfill
    | flags edge withheld reads => exact .inl rfl
    | refused edge permitted reads selects => exact .inr ⟨_, _, _, edge, reads, selects⟩
    | noMatch withheld => exact .inl rfl
  · intro a below cause hat hskips hfill
    obtain ⟨denied, hstep⟩ := Position.stepAtToken_atArgument hat
    rw [Position.step_of_token hleft, hstep, if_pos hskips] at hfails
    obtain ⟨cause', hfill', rfl⟩ := Position.skipArgument_fails hfails
    cases hfill.symm.trans hfill'
    rfl

/-- `kit all`, for those who have the right to all. -/
def Command.kitAll : Command where
  components := [.literal { name := "kit" }, .literal { name := "all" }]
  permission := .right "kit.all"

/-- `kit <amount>`. -/
def Command.kit : Command where
  components :=
    [.literal { name := "kit" },
     .argument { name := "amount", parser := .integer Number.minInt64 Number.maxInt64 }]

/-- A tree in which a word may be taken for an amount. -/
def Tree.kits : Tree :=
  (({} : Tree).apply (.insert .kitAll)).apply (.insert .kit)

/-- The place behind the word `kit`. -/
def Position.kit : Position where
  node := { Node.empty with
    literals := [({ name := "all" }, { Node.empty with ending := [⟨0, .kitAll⟩] })]
    argument := some
      ({ name := "amount", parser := .integer Number.minInt64 Number.maxInt64 },
        { Node.empty with ending := [⟨1, .kit⟩] }) }
  context := .ofRight "kit"
  line := ⟨"kit".toList, " all".toList⟩

/-- Without the right to all, that right is reported, and not that the word is no amount. -/
theorem Tree.withheld_outranks_kits :
    ∃ failure, Tree.kits.Reachable ∧
      turns (Position.routed Tree.kits.rules.ignoreCase) 1
        (Position.start Tree.kits (.ofRight "kit") (.ofString "kit all")) = some .kit ∧
      Position.kit.step Tree.kits.rules.ignoreCase = .fail failure ∧
      Tree.kits.route (.ofRight "kit") "kit all" = .error (.noPermission "kit.all") := by
  have hreachable : Tree.kits.Reachable := ⟨_, .edit (.edit (.fresh rfl) _) _⟩
  have hreached : turns (Position.routed Tree.kits.rules.ignoreCase) 1
      (Position.start Tree.kits (.ofRight "kit") (.ofString "kit all")) = some .kit := rfl
  have hfound : Position.kit.node.findLiteral Tree.kits.rules.ignoreCase
      Position.kit.skipBlank.line.peekToken =
        some ({ name := "all" }, { Node.empty with ending := [⟨0, .kitAll⟩] }) := rfl
  obtain ⟨failure, hfails⟩ : ∃ failure,
      Position.kit.step Tree.kits.rules.ignoreCase = .fail failure := ⟨_, rfl⟩
  obtain ⟨hroute, e, hfirst, houtranks, -⟩ :=
    Tree.Reachable.withheld_outranks hreachable hreached rfl hfound rfl hfails
  cases hfirst
  -- the amount may not be left out, and there are no flags
  have hskips : ∀ a below, Position.kit.skipBlank.AtArgument Tree.kits.rules.ignoreCase a below →
      Position.kit.skipBlank.skips a below = true →
        ∃ filled, a.fill Position.kit.context = .ok filled := by
    intro a below hat hskips
    cases hat.edge
    cases hskips
  rcases houtranks hskips with rfl | ⟨g, ending, value, hedge, -⟩
  · exact ⟨_, hreachable, hreached, hfails, hroute⟩
  · cases hedge

/-- `pay -all`, for those who have the right to pay in bulk. -/
def Command.payAll : Command where
  components := [.literal { name := "pay" }, .literal { name := "-all" }]
  permission := .right "bulk"

/-- `pay [amount] [--silent]`, with a default that is not a number. -/
def Command.pay : Command where
  components :=
    [.literal { name := "pay" },
     .argument
      { name := "amount"
        parser := .integer Number.minInt64 Number.maxInt64
        need := .optional (some (.parsed "none")) },
     .flags { flags := [{ name := "silent" }] }]

/-- A tree in which an amount is left out for a word that looks like a flag. -/
def Tree.paying : Tree :=
  (({} : Tree).apply (.insert .payAll)).apply (.insert .pay)

/-- The default of the amount is what is reported, and not the right that the sender lacks. -/
theorem Tree.default_outranks_withheld :
    ∃ p l child e, Tree.paying.Reachable ∧
      turns (Position.routed Tree.paying.rules.ignoreCase) 1
        (Position.start Tree.paying (.ofRight "pay") (.ofString "pay -all")) = some p ∧
      p.line.isBlank = false ∧
      p.node.findLiteral Tree.paying.rules.ignoreCase p.skipBlank.line.peekToken =
        some (l, child) ∧
      child.permits p.context = false ∧
      (child.entries.find? fun e => !e.command.isPermitted p.context) = some e ∧
      e.command.permission.toText = "bulk" ∧
      p.step Tree.paying.rules.ignoreCase =
        .fail (.badArgument "amount"
          { parser := "integer", input := "none", reason := .invalidFormat }) ∧
      Tree.paying.route (.ofRight "pay") "pay -all" =
        .error (.badArgument "amount"
          { parser := "integer", input := "none", reason := .invalidFormat }) := by
  have hroute : Position.run Tree.paying.rules.ignoreCase
      (.start Tree.paying (.ofRight "pay") (.ofString "pay -all")) = .error _ :=
    (Position.run_of_descend rfl).trans (Position.run_of_fail rfl)
  exact ⟨_, _, _, _, ⟨_, .edit (.edit (.fresh rfl) _) _⟩, rfl, rfl, rfl, rfl, rfl, rfl, rfl, hroute⟩

end CommandLine
