import CommandLine.Proofs.Route.FlagTokens
import CommandLine.Proofs.Route.Sight
import CommandLine.Proofs.Route.Simple
import Mathlib.Data.List.Chain

/-! # Ways that are open

    A command stands at the end of a path of a tree, and whether a line leads there depends on what
    else is on the way. `Node.Open` says when a way is open. Then there is a line along it
    (`Node.Open.yields`), and a line that is routed to a command has gone along a way that is open
    (`Position.opens_of_run`), unless something other than flags follows there what reads all that
    is left of a line. -/

namespace CommandLine

open Text

variable {ctx c : Context} {ignoreCase atRoot : Bool} {n child : Node} {a : Argument}
  {ending : List Entry} {e : Entry} {path : List Component}

/-- Only flags follow a component that may read all that is left of a line. -/
def Component.Flows (x y : Component) : Prop :=
  x.isGreedy = true → y.isFlags = true

namespace Node

/-- Flags can be given next with a token: the group is at the node, or behind arguments that are
    left out for it. No literal and no other argument is in the way. -/
inductive GivesFlags (ignoreCase : Bool) (ctx : Context) (token : String) :
    Node → List Component → List Entry → Prop where
  | here {n : Node} {g : FlagGroup} {ending : List Entry} (edge : n.flags = some (g, ending))
      (accepts : g.Accepts ctx token) (ignores : n.Ignores ignoreCase ctx token)
      (next : n.FlagsNext ctx) : GivesFlags ignoreCase ctx token n [.flags g] ending
  | leftOut {n child : Node} {a : Argument} {path : List Component} {ending : List Entry}
      (edge : n.argument = some (a, child)) (optional : a.isRequired = false)
      (fills : a.Fills ctx) (ignores : n.Ignores ignoreCase ctx token)
      (below : GivesFlags ignoreCase ctx token child path ending) :
      GivesFlags ignoreCase ctx token n (.argument a :: path) ending

/-- The way along a path is open. If it ends with a flag group, then either some flag of the group
    can be given there (`given`), or the line may end in front of the group: the node is not the
    root, no command ends at it, and it has no argument that is left out instead. In front of flags
    that are given nothing reads all that is left of a line. -/
inductive Open (ignoreCase : Bool) (ctx : Context) :
    (atRoot given : Bool) → Node → List Component → List Entry → Prop where
  | ends {n : Node} : Open ignoreCase ctx false false n [] n.ending
  | silent {n : Node} {g : FlagGroup} {ending : List Entry} (none : n.ending = [])
      (takes : n.TakesFlags ctx g ending) : Open ignoreCase ctx false false n [.flags g] ending
  | flags {atRoot : Bool} {n : Node} {token : String} {path : List Component} {ending : List Entry}
      (gives : n.GivesFlags ignoreCase ctx token path ending) :
      Open ignoreCase ctx atRoot true n path ending
  | literal {atRoot given : Bool} {n child : Node} {l : Literal} {path : List Component}
      {ending : List Entry} (edge : (l, child) ∈ n.literals)
      (below : Open ignoreCase ctx false given child path ending) :
      Open ignoreCase ctx atRoot given n (.literal l :: path) ending
  | argument {atRoot given : Bool} {n child : Node} {a : Argument} {path : List Component}
      {ending : List Entry} (edge : n.argument = some (a, child))
      (goesOn : a.parser.greedy = true → ∀ next ∈ path.head?, next.isFlags = true)
      (spares : a.parser = .text .rest → given = false)
      (below : Open ignoreCase ctx false given child path ending) :
      Open ignoreCase ctx atRoot given n (.argument a :: path) ending

variable {given : Bool} {token : String}

theorem GivesFlags.leads (h : n.GivesFlags ignoreCase ctx token path ending) :
    n.Leads path ending := by
  induction h with
  | here edge _ _ _ => exact .flags edge
  | leftOut edge _ _ _ _ ih => exact .argument edge ih

theorem Open.leads (h : n.Open ignoreCase ctx atRoot given path ending) : n.Leads path ending := by
  induction h with
  | ends => exact .here
  | silent _ takes => exact .flags takes.edge
  | flags gives => exact gives.leads
  | literal edge _ ih => exact .literal edge ih
  | argument edge _ _ _ ih => exact .argument edge ih

/-- Where the sender may run a command at the end of a path, it may run one below its start. -/
theorem Leads.permits (h : n.Leads path ending) (hpermitted : anyPermitted ctx ending = true) :
    n.permits ctx = true :=
  anyPermitted_of_subset (fun _ he => h.mem_entries he) hpermitted

/-- The flags that can be given are in sight. -/
theorem GivesFlags.flagsBelow (h : n.GivesFlags ignoreCase ctx token path ending) :
    n.flagsBelow?.isSome = true := by
  induction h with
  | here edge _ _ _ => rw [flagsBelow?_eq, edge]; rfl
  | @leftOut n child a _ _ edge optional _ _ _ ih =>
      rw [flagsBelow?_eq, edge]
      cases n.flags with
      | some flags => rfl
      | none => simpa [optional] using ih

/-- Words that give flags lead to the command behind them. -/
theorem GivesFlags.yields (h : n.GivesFlags ignoreCase ctx token path ending)
    (hn : n.Everywhere (Carries Component.Simple))
    (hfound : ending.find? (Entry.serves ctx) = some e) :
    ∃ words, Token.Begins words token ∧ looksLikeFlag token = true ∧
      ∀ atRoot, n.Yields ignoreCase ctx atRoot words fun r => r.entry = e := by
  induction h with
  | @here n g ending edge accepts ignores next =>
      obtain ⟨hflag, flags, hresolve, hadmitted⟩ := accepts
      -- a single flag may take a value, which is a zero then
      obtain ⟨words, hcompletes⟩ : ∃ words, Flag.Completes ctx flags words := by
        rcases Flag.single_or_valueless hresolve with ⟨flag, rfl⟩ | hnone
        · cases hvalue : flag.value with
          | none => exact ⟨[], .valueless (by simpa using hvalue)⟩
          | some p =>
              have hmem := Flag.mem_of_resolve hresolve flag (List.mem_singleton_self flag)
              have hp : p.Simple := hn.here.flags g ending edge flag hmem p hvalue
              exact ⟨[Token.zeros 0], .value hvalue (Token.stands_zeros 0 []).begins
                (hp.takes_zeros 0 (fun _ => Or.inl rfl) fun _ => rfl)⟩
        · exact ⟨[], .valueless hnone⟩
      have hstands := Token.stands_quote token (spaced words)
      refine ⟨Token.quote token :: words, hstands.begins, hflag, fun atRoot => ?_⟩
      exact .flagsGiven edge next hstands.begins ignores hflag
        (FlagGroup.takes_token hflag hresolve hadmitted hstands hcompletes) hfound
        (fun _ _ _ => rfl)
  | @leftOut n child a path ending edge optional fills ignores below ih =>
      obtain ⟨words, hbegins, hflag, hyields⟩ := ih (hn.argument edge) hfound
      refine ⟨words, hbegins, hflag, fun atRoot => ?_⟩
      have hpermitted := below.leads.permits (anyPermitted_of_find hfound)
      exact .argumentLeftOut edge hpermitted optional fills hbegins ignores hflag below.flagsBelow
        (hyields false)

/-- Along a way that is open some words lead to the first command at its end that serves the
    sender. -/
theorem Open.yields (h : n.Open ignoreCase ctx atRoot given path ending)
    (horderly : n.Everywhere (Orderly ignoreCase)) (hn : n.Everywhere (Carries Component.Simple))
    (hfound : ending.find? (Entry.serves ctx) = some e) :
    ∃ words, n.Yields ignoreCase ctx atRoot words (fun r => r.entry = e) ∧
      ((∀ next ∈ path.head?, next.isFlags = true) →
        Token.OnlyFlags words ∧ (given = false → words = [])) := by
  have hpermitted := anyPermitted_of_find hfound
  induction h with
  | ends => exact ⟨[], .commandEnds hfound (fun _ _ => rfl), fun _ => ⟨Or.inl rfl, fun _ => rfl⟩⟩
  | silent none takes =>
      exact ⟨[], .flagsLeftOut none takes hfound (fun _ _ => rfl),
        fun _ => ⟨Or.inl rfl, fun _ => rfl⟩⟩
  | flags gives =>
      obtain ⟨words, hbegins, hflag, hyields⟩ := gives.yields hn hfound
      exact ⟨words, hyields _, fun _ => ⟨Or.inr ⟨_, hbegins, hflag⟩, fun hnot => by cases hnot⟩⟩
  | @literal atRoot given n child l path ending edge below ih =>
      obtain ⟨words, hyields, -⟩ := ih (horderly.literal edge) (hn.literal edge) hfound hpermitted
      refine ⟨_, .literal horderly.here edge (below.leads.permits hpermitted) hyields, ?_⟩
      intro hflags
      cases hflags _ rfl
  | @argument atRoot given n child a path ending edge goesOn spares below ih =>
      obtain ⟨words, hyields, hwords⟩ :=
        ih (horderly.argument edge) (hn.argument edge) hfound hpermitted
      obtain ⟨k, hignores⟩ := n.exists_ignores ignoreCase ctx
      have ha : a.Simple := hn.here.argument a child edge
      -- the digits end where flags begin, or at the end of the line
      have htakes : Reader.Takes a.read ctx [Token.zeros k] words := by
        intro c line hc hline
        rw [ha.read_eq]
        refine ha.parser.takes_zeros k (fun hgreedy => (hwords (goesOn hgreedy)).1) ?_ c line hc
          hline
        intro hrest
        have hgreedy : a.parser.greedy = true := by rw [hrest]; rfl
        exact (hwords (goesOn hgreedy)).2 (spares hrest)
      refine ⟨_, .argument edge (below.leads.permits hpermitted)
        (Token.stands_zeros k words).begins hignores (Or.inr (Token.looksLikeFlag_zeros k)) htakes
        hyields, ?_⟩
      intro hflags
      cases hflags _ rfl

/-- A way without flags is open. -/
theorem Leads.opens (h : n.Leads path ending) (hflows : path.IsChain Component.Flows)
    (hnone : ∀ x ∈ path, x.isFlags = false) (hroot : atRoot = true → path ≠ []) :
    n.Open ignoreCase ctx atRoot false path ending := by
  induction h generalizing atRoot with
  | here =>
      cases atRoot with
      | true => exact absurd rfl (hroot rfl)
      | false => exact .ends
  | literal edge below ih =>
      obtain ⟨-, hflows⟩ := List.isChain_cons.mp hflows
      obtain ⟨-, hnone⟩ := List.forall_mem_cons.mp hnone
      exact .literal edge (ih hflows hnone (fun hfalse => by cases hfalse))
  | argument edge below ih =>
      obtain ⟨hnext, hflows⟩ := List.isChain_cons.mp hflows
      obtain ⟨-, hnone⟩ := List.forall_mem_cons.mp hnone
      exact .argument edge (fun hgreedy y hy => hnext y hy hgreedy) (fun _ => rfl)
        (ih hflows hnone (fun hfalse => by cases hfalse))
  | flags edge => cases hnone _ (List.mem_singleton_self _)

end Node

namespace Position

variable {p q : Position} {r : Resolved}

/-- How a step at a token leads on: along a literal, or along the argument, which is left out for
    flags behind it or read. -/
theorem step_descend_at_token (hleft : p.line.isBlank = false)
    (h : p.step ignoreCase = .descend q) :
    (∃ l child, p.node.findLiteral ignoreCase p.line.skipBlank.peekToken = some (l, child) ∧
      q = { node := child, context := p.context, line := p.line.skipBlank.skipToken }) ∨
    ∃ a child, p.skipBlank.AtArgument ignoreCase a child ∧
      ((∃ filled, a.isRequired = false ∧ a.fill p.context = .ok filled ∧
        q = { node := child, context := filled, line := p.line.skipBlank }) ∨
      ∃ value, (a.read p.context p.line.skipBlank).result = .ok value ∧
        q = { node := child
              context := argumentRead a p.line.skipBlank value (a.read p.context p.line.skipBlank)
              line := (a.read p.context p.line.skipBlank).line }) := by
  rw [step_of_token hleft] at h
  rcases literal_cases ignoreCase p.skipBlank with hpast | ⟨l, child, hfound, hpermitted⟩
  · rcases argument_cases p.skipBlank with hnone | ⟨a, child, hsees⟩
    · obtain ⟨denied, hstep⟩ := stepAtToken_pastArgument hpast hnone
      exact absurd (hstep.symm.trans h) stepAtFlags_ne_descend
    · have hat : p.skipBlank.AtArgument ignoreCase a child := ⟨hpast, hsees.edge, hsees.permitted⟩
      obtain ⟨denied, hstep⟩ := stepAtToken_atArgument hat
      refine Or.inr ⟨a, child, hat, ?_⟩
      rw [hstep] at h
      split at h
      · next hskips =>
          have hoptional : a.isRequired = false := by
            rw [skips, mayLeaveOut] at hskips
            simp only [Bool.and_eq_true, Bool.not_eq_true'] at hskips
            exact hskips.1.2
          rw [skipArgument] at h
          split at h
          · next filled hfill =>
              cases h
              exact Or.inl ⟨filled, hoptional, hfill, rfl⟩
          · cases h
      · split at h
        · exact absurd h stepAtFlags_ne_descend
        · simp only [readArgument] at h
          split at h
          · next value hreads =>
              cases h
              exact Or.inr ⟨value, hreads, rfl⟩
          · cases h
  · rw [stepAtToken_word hfound hpermitted] at h
    cases h
    exact Or.inl ⟨l, child, hfound, rfl⟩

/-- A step at a token that ends with a command has read the flags of the node. -/
theorem step_arrive_at_token (hleft : p.line.isBlank = false)
    (h : p.step ignoreCase = .arrive r) :
    p.skipBlank.PastLiterals ignoreCase ∧ p.node.FlagsNext p.context ∧
      ∃ g ending value, p.node.flags = some (g, ending) ∧
        ((Parser.flags g.flags).read p.context p.line.skipBlank).result = .ok value ∧
        Step.select ((Parser.flags g.flags).read p.context p.line.skipBlank).context ending =
          .arrive r := by
  rw [step_of_token hleft] at h
  have hflags {denied : Option String} (hflags : p.skipBlank.stepAtFlags denied = .arrive r) :
      ∃ g ending value, p.node.flags = some (g, ending) ∧
        ((Parser.flags g.flags).read p.context p.line.skipBlank).result = .ok value ∧
        Step.select ((Parser.flags g.flags).read p.context p.line.skipBlank).context ending =
          .arrive r := by
    obtain ⟨m, henters, hselects, hread⟩ := stepAtFlags_enters hflags
    cases henters with
    | read edge _ reads => exact ⟨_, _, _, edge, reads, hselects⟩
    | none _ _ => cases hread
  rcases literal_cases ignoreCase p.skipBlank with hpast | ⟨l, child, hfound, hpermitted⟩
  · refine ⟨hpast, ?_⟩
    rcases argument_cases p.skipBlank with hnone | ⟨a, child, hsees⟩
    · obtain ⟨denied, hstep⟩ := stepAtToken_pastArgument hpast hnone
      refine ⟨?_, hflags (hstep.symm.trans h)⟩
      intro a child hedge hpermitted
      cases (hnone a child hedge).symm.trans hpermitted
    · obtain ⟨denied, hstep⟩ := stepAtToken_atArgument ⟨hpast, hsees.edge, hsees.permitted⟩
      rw [hstep] at h
      split at h
      · rw [skipArgument] at h
        split at h <;> cases h
      · split at h
        · next hdetours =>
            refine ⟨?_, hflags h⟩
            intro a' child' hedge' _
            cases hsees.edge.symm.trans hedge'
            rw [detours, mayLeaveOut] at hdetours
            simp only [Bool.and_eq_true, Bool.not_eq_true'] at hdetours
            exact ⟨hdetours.1.1.2, Option.isNone_iff_eq_none.mp hdetours.1.2⟩
        · simp only [readArgument] at h
          split at h <;> cases h
  · rw [stepAtToken_word hfound hpermitted] at h
    cases h

/-- The way along a path is open from a position: flags can be given next with the token that comes
    next, or the way is open in another manner, and flags are given only if something is left of the
    line. -/
inductive Opens (ignoreCase : Bool) (ctx : Context) (p : Position) (path : List Component)
    (ending : List Entry) : Prop where
  | next (left : p.line.isBlank = false)
      (gives : p.node.GivesFlags ignoreCase ctx p.line.skipBlank.peekToken path ending)
  | later {given : Bool} (way : p.node.Open ignoreCase ctx p.atRoot given path ending)
      (left : given = true → p.line.isBlank = false ∧ ∃ first ∈ path.head?, first.isFlags = false)

/-- The way goes on behind the argument. -/
theorem Opens.argument {a : Argument} {given : Bool} (hedge : p.node.argument = some (a, child))
    (hway : child.Open ignoreCase ctx false given path ending)
    (hnext : ∀ next ∈ path.head?, Component.Flows (.argument a) next)
    (hspares : a.parser = .text .rest → given = false)
    (hleft : given = true → p.line.isBlank = false) :
    p.Opens ignoreCase ctx (.argument a :: path) ending :=
  .later (.argument hedge (fun hgreedy next hmem => hnext next hmem hgreedy) hspares hway)
    fun hgiven => ⟨hleft hgiven, _, rfl, rfl⟩

/-- Where no flags are given, nothing has to be left of the line. -/
theorem Opens.silently (way : p.node.Open ignoreCase ctx p.atRoot false path ending) :
    p.Opens ignoreCase ctx path ending :=
  .later way fun hgiven => by cases hgiven

theorem Opens.way (h : p.Opens ignoreCase ctx path ending) :
    ∃ given, p.node.Open ignoreCase ctx p.atRoot given path ending ∧
      (given = true → p.line.isBlank = false) := by
  cases h with
  | next left gives => exact ⟨true, .flags gives, fun _ => left⟩
  | later way left => exact ⟨_, way, fun hgiven => (left hgiven).1⟩

/-- A token that leads along no literal in one context leads along none in another. -/
theorem PastLiterals.ignores (h : p.skipBlank.PastLiterals ignoreCase)
    (hc : SameStanding ctx p.context) :
    p.node.Ignores ignoreCase ctx p.line.skipBlank.peekToken :=
  fun l child hfound => (hc.sender.permits_eq child).symm.trans (h l child hfound)

/-- Where a step ends with a command, the way to it is open. -/
theorem opens_of_arrive (h : p.step ignoreCase = .arrive r) (hc : SameStanding ctx p.context)
    (hn : p.node.Carries Component.Simple) :
    ∃ path ending, p.node.Leads path ending ∧
      ending.find? (Entry.serves ctx) = some r.entry ∧ p.Opens ignoreCase ctx path ending := by
  cases hblank : p.line.isBlank with
  | true =>
      rw [step_at_end hblank] at h
      have hroot : p.atRoot = false := atRoot_of_stepAtEnd (p := p.skipBlank) h
      rcases stepAtEnd_arrive (p := p.skipBlank) h with
        hselects | ⟨hending, g, ending, htakes, hselects⟩
      · have hfound := (Step.select_eq_arrive hselects).2
        rw [skipBlank, hc.sender.serves_eq] at hfound
        refine ⟨_, _, .here, hfound, .silently ?_⟩
        rw [hroot]
        exact .ends
      · have hfound := (Step.select_eq_arrive hselects).2
        rw [skipBlank, hc.sender.serves_eq] at hfound
        refine ⟨_, _, .flags htakes.edge, hfound, .silently ?_⟩
        rw [hroot]
        exact .silent hending (hc.symm.sender.takesFlags htakes)
  | false =>
      obtain ⟨hpast, hnext, g, ending, value, hedge, hreads, hselects⟩ :=
        step_arrive_at_token hblank h
      have hsimple := hn.flags g ending hedge
      obtain ⟨-, hfound⟩ := Step.select_eq_arrive hselects
      have hsender := SameSender.chains.trans hc.sender
        (hsimple.keepsSender p.context p.line.skipBlank)
      rw [hsender.serves_eq] at hfound
      have haccepts := FlagGroup.accepts_of_reads
        (fun flag hflag p hp => (hsimple flag hflag p hp).keeps)
        (p.line.skipBlank_agrees.isBlank.trans hblank) hreads
      refine ⟨_, _, .flags hedge, hfound, .next hblank (.here hedge ?_ (hpast.ignores hc) ?_)⟩
      · obtain ⟨hflag, flags, hresolve, hadmitted⟩ := haccepts
        exact ⟨hflag, flags, hresolve, hadmitted.of_sameStanding hc.symm⟩
      · intro a child hargument hpermitted
        exact hnext a child hargument ((hc.sender.permits_eq child).trans hpermitted)

/-- A step along a component, in front of which a way stays open. -/
structure GoesAlong (ignoreCase : Bool) (ctx : Context) (p q : Position) (x : Component) :
    Prop where
  standing : SameStanding ctx q.context
  carries : q.node.Everywhere (Node.Carries Component.Simple)
  leads : ∀ path ending, q.node.Leads path ending → p.node.Leads (x :: path) ending
  opens : ∀ path ending, (x :: path).IsChain Component.Flows →
    q.Opens ignoreCase ctx path ending → p.Opens ignoreCase ctx (x :: path) ending

/-- Along an argument, unless it is left out in front of a flag. -/
theorem goesAlong_argument {a : Argument} (hedge : p.node.argument = some (a, q.node))
    (hroot : q.atRoot = false) (hleft : p.line.isBlank = true → q.line.isBlank = true)
    (hrest : a.parser = .text .rest → q.line.isBlank = true)
    (hstanding : SameStanding ctx q.context)
    (hn : q.node.Everywhere (Node.Carries Component.Simple)) :
    GoesAlong ignoreCase ctx p q (.argument a) := by
  refine ⟨hstanding, hn, fun _ _ => .argument hedge, fun path ending hflows hopens => ?_⟩
  obtain ⟨given, hway, hgiven⟩ := hopens.way
  -- flags are given only if something is left of the line
  have hend : q.line.isBlank = true → given = false := fun hblank =>
    Bool.eq_false_iff.mpr fun htrue => by cases hblank.symm.trans (hgiven htrue)
  rw [hroot] at hway
  refine .argument hedge hway (List.isChain_cons.mp hflows).1 (fun h => hend (hrest h)) ?_
  intro htrue
  refine Bool.eq_false_iff.mpr fun hblank => ?_
  cases (hend (hleft hblank)).symm.trans htrue

/-- Along an argument that is left out in front of a flag. -/
theorem goesAlong_leftOut {a : Argument} (hblank : p.line.isBlank = false)
    (hat : p.skipBlank.AtArgument ignoreCase a q.node) (hoptional : a.isRequired = false)
    (hfills : a.Fills ctx) (hroot : q.atRoot = false) (hline : q.line = p.line.skipBlank)
    (hc : SameStanding ctx p.context) (hstanding : SameStanding ctx q.context)
    (hn : q.node.Everywhere (Node.Carries Component.Simple)) :
    GoesAlong ignoreCase ctx p q (.argument a) := by
  have hedge : p.node.argument = some (a, q.node) := hat.edge
  refine ⟨hstanding, hn, fun _ _ => .argument hedge, fun path ending hflows hopens => ?_⟩
  obtain ⟨hnext, -⟩ := List.isChain_cons.mp hflows
  cases hopens with
  | next _ hgives =>
      rw [hline, p.line.skipBlank_skipBlank] at hgives
      exact .next hblank (.leftOut hedge hoptional hfills (PastLiterals.ignores hat.past hc) hgives)
  | @later given hway hleft =>
      rw [hroot] at hway
      refine .argument hedge hway hnext (fun hrest => ?_) fun _ => hblank
      -- what reads all that is left has only flags behind it
      refine Bool.eq_false_iff.mpr fun hgiven => ?_
      obtain ⟨-, first, hfirst, hother⟩ := hleft hgiven
      have hgreedy : a.parser.greedy = true := by rw [hrest]; rfl
      cases hother.symm.trans (hnext first hfirst hgreedy)

/-- A way stays open in front of every step. -/
theorem goesAlong_of_descend (h : p.step ignoreCase = .descend q)
    (hc : SameStanding ctx p.context)
    (hn : p.node.Everywhere (Node.Carries Component.Simple)) :
    ∃ x, GoesAlong ignoreCase ctx p q x := by
  cases hblank : p.line.isBlank with
  | true =>
      rw [step_at_end hblank] at h
      obtain ⟨-, -, a, child, filled, hleaves, hfill, rfl⟩ :=
        stepAtEnd_leavesOut (p := p.skipBlank) h
      have hedge : p.node.argument = some (a, child) := hleaves.edge
      have ha : a.Simple := hn.here.argument a child hedge
      have hend : p.line.skipBlank.isBlank = true := p.line.skipBlank_agrees.isBlank.trans hblank
      exact ⟨_, goesAlong_argument hedge rfl (fun _ => hend) (fun _ => hend)
        (SameStanding.chains.trans hc (ha.standing_of_fill hfill)) (hn.argument hedge)⟩
  | false =>
      rcases step_descend_at_token hblank h with
        ⟨l, child, hliteral, rfl⟩ | ⟨a, child, hat, hways⟩
      · have hedge : (l, child) ∈ p.node.literals := List.mem_of_find?_eq_some hliteral
        refine ⟨.literal l, hc, hn.literal hedge, fun _ _ => .literal hedge, ?_⟩
        intro path ending _ hopens
        obtain ⟨given, hway, -⟩ := hopens.way
        exact .later (.literal hedge hway) fun _ => ⟨hblank, _, rfl, rfl⟩
      · have hedge : p.node.argument = some (a, child) := hat.edge
        have ha : a.Simple := hn.here.argument a child hedge
        refine ⟨.argument a, ?_⟩
        rcases hways with ⟨filled, hoptional, hfill, rfl⟩ | ⟨value, hreads, rfl⟩
        · exact goesAlong_leftOut hblank hat hoptional (ha.fills hfill) rfl rfl hc
            (SameStanding.chains.trans hc (ha.standing_of_fill hfill)) (hn.argument hedge)
        · refine goesAlong_argument hedge rfl (fun hend => ?_) (fun hrest => ?_)
            (SameStanding.chains.trans hc (ha.standing_of_read _ _ value)) (hn.argument hedge)
          · cases hend.symm.trans hblank
          · show (a.read p.context p.line.skipBlank).line.isBlank = true
            rw [ha.read_eq, hrest]
            exact Parser.isBlank_readRest _ _

/-- A line is routed along a way that is open, unless something other than flags follows there what
    reads all that is left of a line. -/
theorem opens_of_run (h : p.run ignoreCase = .ok r) (hc : SameStanding ctx p.context)
    (hn : p.node.Everywhere (Node.Carries Component.Simple)) :
    ∃ path ending, p.node.Leads path ending ∧
      ending.find? (Entry.serves ctx) = some r.entry ∧
      (path.IsChain Component.Flows → p.Opens ignoreCase ctx path ending) := by
  fun_induction run ignoreCase p with
  | case1 p q hstep ih =>
      obtain ⟨x, halong⟩ := goesAlong_of_descend hstep hc hn
      obtain ⟨path, ending, hleads, hfound, hopens⟩ := ih h halong.standing halong.carries
      refine ⟨x :: path, ending, halong.leads path ending hleads, hfound, fun hflows => ?_⟩
      exact halong.opens path ending hflows (hopens (List.isChain_cons.mp hflows).2)
  | case2 p found hstep =>
      cases h
      obtain ⟨path, ending, hleads, hfound, hopens⟩ := opens_of_arrive hstep hc hn.here
      exact ⟨path, ending, hleads, hfound, fun _ => hopens⟩
  | case3 p failure hstep => cases h

end Position

end CommandLine
