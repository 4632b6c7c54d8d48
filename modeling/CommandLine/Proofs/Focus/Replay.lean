import CommandLine.Proofs.Focus.Flags
import CommandLine.Proofs.Focus.Moves
import CommandLine.Proofs.Route.Safety
import CommandLine.Proofs.Tree.Edges

/-! # A completion replays the router

    The tokens before the one that is being typed are read a second time to complete a line. Where
    the completion stops, the router should stand at the same node with the same values and flags;
    `Tree.Replays` says so of all places that the completion passes and of the one where it stops.

    It is not always so. The completion leaves out arguments without filling in their defaults, lets
    an argument read what the router takes for flags, hands on what an attempt that failed has
    left behind, and passes flags in its own way. `Position.Faithful` and `Focus.Faithful` name
    these places, and `Tree.completion_replays_router` says that there are no others. -/

namespace CommandLine

/-! ## What contexts that are alike decide -/

namespace Context.Alike

variable {a b : Context}

theorem anyPermitted (h : a.Alike b) (entries : List Entry) :
    Node.anyPermitted a entries = Node.anyPermitted b entries := by
  simp only [Node.anyPermitted, Command.isPermitted, h.grants]

theorem permits (h : a.Alike b) (n : Node) : n.permits a = n.permits b :=
  h.anyPermitted n.entries

end Context.Alike

/-- A component for which only what parsers see makes a difference. -/
structure Component.Blind (c : Component) : Prop where
  within : c.Within .blind
  checks : ∀ check ∈ c.extras.checks, ∀ {a b : Context} {line line' : Line}, a.Alike b →
    line.Agrees line' → check a line = check b line'
  computed : ∀ f, c.default? = some (.computed f) → ∀ {a b : Context}, a.Alike b → f a = f b

theorem Component.Blind.merge {old : Literal} (h : (Component.literal old).Blind)
    (ignoreCase : Bool) (l : Literal) : (Component.literal (old.merge ignoreCase l)).Blind :=
  ⟨⟨h.within.parsers, h.within.keys⟩, h.checks, h.computed⟩

namespace Argument

variable {a : Argument}

theorem findSome_congr {checks : List Check} {ctx ctx' : Context} {line line' : Line}
    (h : ∀ check ∈ checks, check ctx line = check ctx' line') :
    checks.findSome? (fun check => check ctx line) =
      checks.findSome? (fun check => check ctx' line') := by
  induction checks with
  | nil => rfl
  | cons check checks ih =>
      obtain ⟨hcheck, hchecks⟩ := List.forall_mem_cons.mp h
      rw [List.findSome?_cons, List.findSome?_cons, hcheck, ih hchecks]

/-- An argument that is read alike on lines in a relation, and of which only what parsers see makes a
    difference. -/
structure Tied (L : Line → Line → Prop) (a : Argument) : Prop where
  parser : Reader.Tied L a.parser.read
  checks : ∀ check ∈ a.extras.checks, ∀ {ctx ctx' : Context} {line line' : Line}, ctx.Alike ctx' →
    L line line' → check ctx line = check ctx' line'
  computed : ∀ f, a.need.default? = some (.computed f) → ∀ {ctx ctx' : Context}, ctx.Alike ctx' →
    f ctx = f ctx'

section

variable {L : Line → Line → Prop} {ctx ctx' : Context}

theorem Tied.read (h : a.Tied L) {line line' : Line} (hctx : ctx.Alike ctx')
    (hline : L line line') : (a.read ctx line).Tied L (a.read ctx' line') := by
  have hchecks : a.extras.checks.findSome? (fun check => check ctx line) =
      a.extras.checks.findSome? (fun check => check ctx' line') :=
    findSome_congr fun check hcheck => h.checks check hcheck hctx hline
  unfold Argument.read
  rw [hchecks]
  split
  · exact ⟨rfl, hctx, hline⟩
  · exact h.parser.tied hctx hline

/-- A default is filled in alike, or fails to be with one error. -/
theorem Tied.fill (h : a.Tied L) (hL : ∀ line, L line line) (hctx : ctx.Alike ctx') :
    (∃ filled filled', a.fill ctx = .ok filled ∧ a.fill ctx' = .ok filled' ∧
      filled.Alike filled') ∨ ∃ e, a.fill ctx = .error e ∧ a.fill ctx' = .error e := by
  cases hdefault : a.need.default? with
  | none =>
      simp only [Argument.fill, hdefault]
      exact Or.inl ⟨_, _, rfl, rfl, hctx⟩
  | some default =>
      cases default with
      | constant value =>
          simp only [Argument.fill, hdefault]
          exact Or.inl ⟨_, _, rfl, rfl, hctx.store _ _⟩
      | computed f =>
          simp only [Argument.fill, hdefault, h.computed f hdefault hctx]
          exact Or.inl ⟨_, _, rfl, rfl, hctx.store _ _⟩
      | parsed text =>
          have hread := h.parser.tied hctx (hL (.ofString text))
          simp only [Argument.fill, hdefault, ← hread.result]
          cases (a.parser.read ctx (.ofString text)).result with
          | ok value => exact Or.inl ⟨_, _, rfl, rfl, hread.context.store _ _⟩
          | error e => exact Or.inr ⟨e, rfl, rfl⟩

end

theorem tied_of_blind (h : (Component.argument a).Blind) : a.Tied Line.Agrees where
  parser := Reader.steady_iff_tied.mp h.within.argument.1.steady
  checks := h.checks
  computed := h.computed

/-- An argument is read alike. -/
theorem similar_read (h : (Component.argument a).Blind) {ctx ctx' : Context} {line line' : Line}
    (hctx : ctx.Alike ctx') (hline : line.Agrees line') :
    (a.read ctx line).Similar (a.read ctx' line') :=
  Reading.similar_iff_tied.mpr ((tied_of_blind h).read hctx hline)

/-- A default is filled in alike. -/
theorem alike_fill (h : (Component.argument a).Blind) {ctx ctx' filled : Context}
    (hctx : ctx.Alike ctx') (hfill : a.fill ctx = .ok filled) :
    ∃ filled', a.fill ctx' = .ok filled' ∧ filled.Alike filled' := by
  rcases (tied_of_blind h).fill .refl hctx with ⟨_, filled', hown, hother, halike⟩ | ⟨e, herror, -⟩
  · cases hown.symm.trans hfill
    exact ⟨filled', hother, halike⟩
  · cases herror.symm.trans hfill

end Argument

/-! ## Positions in step -/

namespace Position

variable {ignoreCase : Bool} {p q : Position}

/-- The position after one step of the router. -/
def routed (ignoreCase : Bool) (p : Position) : Option Position :=
  match p.step ignoreCase with
  | .descend next => some next
  | _ => none

/-- The position after one edge of a completion. -/
def replayed (ignoreCase : Bool) (p : Position) : Option Position :=
  match p.advance ignoreCase with
  | .ok next => some next
  | .error _ => none

theorem descend_of_routed (h : p.routed ignoreCase = some q) : p.step ignoreCase = .descend q := by
  rw [routed] at h
  split at h
  · next hstep =>
      cases h
      exact hstep
  · cases h

/-- The steps of the router make up its pass. -/
theorem run_eq_of_turns {n : Nat} (h : turns (routed ignoreCase) n p = some q) :
    p.run ignoreCase = q.run ignoreCase := by
  refine turns_keep (I := fun q : Position => p.run ignoreCase = q.run ignoreCase) rfl ?_ h
  intro v u hv hnext
  rw [hv]
  exact run_of_descend (descend_of_routed hnext)

/-- The focus of a completion is found after some edges. -/
theorem exists_turns_focus (ignoreCase : Bool) (p : Position) :
    ∃ n q, turns (replayed ignoreCase) n p = some q ∧
      q.advance ignoreCase = .error (p.focus ignoreCase) := by
  fun_induction focus ignoreCase p with
  | case1 p next hadvance ih =>
      obtain ⟨n, q, hturns, hstop⟩ := ih
      exact ⟨n + 1, q, turns_head (by simp [replayed, hadvance]) hturns, hstop⟩
  | case2 p found hadvance => exact ⟨0, p, rfl, hadvance⟩

/-- What a completion has passed does not matter for the focus that it finds. -/
theorem focus_eq_of_turns {n : Nat} (h : turns (replayed ignoreCase) n p = some q) :
    p.focus ignoreCase = q.focus ignoreCase := by
  refine turns_keep (I := fun q : Position => p.focus ignoreCase = q.focus ignoreCase) rfl ?_ h
  intro v u hv hnext
  rw [replayed] at hnext
  cases hadvance : v.advance ignoreCase with
  | ok next =>
      rw [hadvance] at hnext
      cases hnext
      rw [hv, focus_of_passed hadvance]
  | error found =>
      rw [hadvance] at hnext
      cases hnext

/-- The router and a completion stand at the same place, with the same known. -/
structure InStep (p q : Position) : Prop where
  node : p.node = q.node
  context : p.context.Alike q.context
  line : p.line.Agrees q.line

namespace InStep

/-- The router reads white space before it looks at a token. -/
theorem skipBlank (h : p.InStep q) : p.skipBlank.InStep q :=
  ⟨h.node, h.context, p.line.skipBlank_agrees.trans h.line⟩

theorem pastLiterals (h : p.InStep q) (hq : q.PastLiterals ignoreCase) :
    p.PastLiterals ignoreCase := by
  intro l child hfound
  rw [h.node, h.line.peekToken] at hfound
  rw [h.context.permits]
  exact hq l child hfound

theorem atArgument (h : p.InStep q) {a : Argument} {child : Node}
    (hq : q.AtArgument ignoreCase a child) : p.AtArgument ignoreCase a child :=
  ⟨h.pastLiterals hq.past, h.node ▸ hq.edge, (h.context.permits child).trans hq.permitted⟩

theorem atFlags (h : p.InStep q) {g : FlagGroup} {ending : List Entry}
    (hq : q.AtFlags ignoreCase g ending) : p.AtFlags ignoreCase g ending := by
  refine ⟨h.pastLiterals hq.past, ?_, h.node ▸ hq.edge,
    (h.context.anyPermitted ending).trans hq.permitted⟩
  intro a child hedge
  rw [h.context.permits]
  exact hq.argument a child (h.node ▸ hedge)

theorem mayLeaveOut (h : p.InStep q) (a : Argument) : p.mayLeaveOut a = q.mayLeaveOut a := by
  simp only [Position.mayLeaveOut, h.line.peekToken]

theorem skips (h : p.InStep q) (a : Argument) (child : Node) :
    p.skips a child = q.skips a child := by
  simp only [Position.skips, h.mayLeaveOut]

theorem detours (h : p.InStep q) (a : Argument) (child : Node) :
    p.detours a child = q.detours a child := by
  simp only [Position.detours, h.mayLeaveOut, h.node]

end InStep

/-- The next edge is one that the router takes in the same way: it does not turn to flags where the
    completion lets the argument read, and it leaves an argument out without filling in a value
    that is not known already. -/
def Faithful (ignoreCase : Bool) (q : Position) : Prop :=
  ∀ a child, q.AtArgument ignoreCase a child → q.detours a child = false ∧
    (q.skips a child = true → ∃ filled, a.fill q.context = .ok filled ∧ filled.Alike q.context)

namespace InStep

variable {next : Position}

theorem routed_descend {r : Position} (h : p.step ignoreCase = .descend r) :
    p.routed ignoreCase = some r := by
  simp only [routed, h]

theorem step_token (h : p.InStep q) (hlast : q.line.isLastToken = false) :
    p.step ignoreCase = p.skipBlank.stepAtToken ignoreCase :=
  step_of_token (h.line.isBlank.trans (Line.isBlank_of_further (Bool.eq_false_iff.mp hlast)))

/-- A literal is taken in step. -/
theorem word (h : p.InStep q) (hlast : q.line.isLastToken = false) {l : Literal} {child : Node}
    (hfound : q.node.findLiteral ignoreCase q.line.peekToken = some (l, child))
    (hpermitted : child.permits q.context = true) :
    ∃ p', p.routed ignoreCase = some p' ∧
      p'.InStep { node := child, context := q.context, line := q.line.skipToken } := by
  have hsame := h.skipBlank
  rw [← hsame.node, ← hsame.line.peekToken] at hfound
  have hstep := stepAtToken_word hfound ((hsame.context.permits child).trans hpermitted)
  refine ⟨_, routed_descend ((h.step_token hlast).trans hstep), rfl, hsame.context, ?_⟩
  rw [hsame.line.skipToken]
  exact .refl _

/-- An argument is left out in step exactly if its default makes no difference. -/
theorem leftOut (h : p.InStep q) (hlast : q.line.isLastToken = false) {a : Argument}
    {child : Node} (ha : (Component.argument a).Blind) (hat : q.AtArgument ignoreCase a child)
    (hskips : q.skips a child = true) :
    (∃ p', p.routed ignoreCase = some p' ∧
      p'.InStep { node := child, context := q.context, line := q.line }) ↔
    ∃ filled, a.fill q.context = .ok filled ∧ filled.Alike q.context := by
  have hsame := h.skipBlank
  obtain ⟨denied, hstep⟩ := stepAtToken_atArgument (hsame.atArgument hat)
  rw [if_pos ((hsame.skips a child).trans hskips)] at hstep
  have hstep := (h.step_token hlast).trans hstep
  constructor
  · rintro ⟨p', hrouted, hnext⟩
    simp only [routed, hstep, skipArgument] at hrouted
    split at hrouted
    · next next hskip =>
        -- the router has filled in the default where the two are in step again
        cases hrouted
        split at hskip
        · next filled hfill =>
            cases hskip
            obtain ⟨filled', hfill', halike⟩ := Argument.alike_fill ha hsame.context hfill
            exact ⟨filled', hfill', halike.symm.trans hnext.context⟩
        · cases hskip
    · cases hrouted
  · rintro ⟨filled, hfill, halike⟩
    obtain ⟨filled', hfill', halike'⟩ := Argument.alike_fill ha hsame.context.symm hfill
    have hskip : p.skipBlank.skipArgument a child =
        .descend { node := child, context := filled', line := p.skipBlank.line } := by
      simp only [skipArgument, hfill']
    exact ⟨_, routed_descend (hstep.trans hskip), rfl, halike'.symm.trans halike, hsame.line⟩

/-- An argument is read in step exactly if the router does not turn to flags. -/
theorem read (h : p.InStep q) (hlast : q.line.isLastToken = false) {a : Argument}
    {child : Node} {value : Value} (ha : (Component.argument a).Blind)
    (hat : q.AtArgument ignoreCase a child) (hskips : q.skips a child = false)
    (hreads : (a.read q.context q.line).result = .ok value) :
    (∃ p', p.routed ignoreCase = some p' ∧
      p'.InStep
        { node := child
          context := (a.read q.context q.line).context.store a.name value
          line := (a.read q.context q.line).line }) ↔
    q.detours a child = false := by
  have hsame := h.skipBlank
  obtain ⟨denied, hstep⟩ := stepAtToken_atArgument (hsame.atArgument hat)
  rw [hsame.skips, hsame.detours, hskips] at hstep
  have hstep := (h.step_token hlast).trans hstep
  cases hdetours : q.detours a child with
  | true =>
      -- the router is at the flags and does not descend any more
      simp only [hdetours, Bool.false_eq_true, if_false, if_true] at hstep
      simp only [Bool.true_eq_false, iff_false, not_exists, not_and]
      intro p' hrouted
      exact absurd (hstep.symm.trans (descend_of_routed hrouted)) stepAtFlags_ne_descend
  | false =>
      simp only [hdetours, Bool.false_eq_true, if_false] at hstep
      have hread := Argument.similar_read ha hsame.context hsame.line
      have hdescends : p.skipBlank.readArgument denied a child =
          .descend
            { node := child
              context := argumentRead a p.skipBlank.line value
                (a.read p.skipBlank.context p.skipBlank.line)
              line := (a.read p.skipBlank.context p.skipBlank.line).line } := by
        simp only [readArgument, hread.result, hreads]
      simp only [iff_true]
      refine ⟨_, routed_descend (hstep.trans hdescends), rfl, ?_, hread.line⟩
      exact (hread.context.store _ value).recordConsumed _ _

/-- The next edge is taken in step exactly if it is faithful. -/
theorem faithful_iff (h : p.InStep q) (hblind : q.node.Carries Component.Blind)
    (hnext : q.replayed ignoreCase = some next) :
    (∃ p', p.routed ignoreCase = some p' ∧ p'.InStep next) ↔ q.Faithful ignoreCase := by
  have hadvance : q.advance ignoreCase = .ok next := by
    rw [replayed] at hnext
    split at hnext
    · next hadvance =>
        cases hnext
        exact hadvance
    · cases hnext
  have unique {a a' : Argument} {child child' : Node} (hat : q.AtArgument ignoreCase a child)
      (hat' : q.AtArgument ignoreCase a' child') : a = a' ∧ child = child' := by
    have := hat.edge.symm.trans hat'.edge
    simpa using this
  obtain ⟨hlast, hpassed⟩ := advance_passed hadvance
  cases hpassed with
  | @word l child found permitted =>
      -- a literal is before any argument, so there is nothing to ask for
      refine iff_of_true (h.word hlast found permitted) ?_
      intro a child' hat
      rw [hat.past l child found] at permitted
      cases permitted
  | @leftOut a child hat skips =>
      rw [h.leftOut hlast (hblind.argument a child hat.edge) hat skips]
      constructor
      · intro hfills a' child' hat'
        obtain ⟨rfl, rfl⟩ := unique hat hat'
        exact ⟨detours_of_skips skips, fun _ => hfills⟩
      · intro hfaithful
        exact (hfaithful a child hat).2 skips
  | @read a child value hat skips reads =>
      rw [h.read hlast (hblind.argument a child hat.edge) hat skips reads]
      constructor
      · intro hdetours a' child' hat'
        obtain ⟨rfl, rfl⟩ := unique hat hat'
        refine ⟨hdetours, fun hskips => ?_⟩
        rw [skips] at hskips
        cases hskips
      · intro hfaithful
        exact (hfaithful a child hat).1

end InStep

end Position

/-! ## The focus -/

namespace Focus

/-- The router stands where the focus was found, and the context that is handed on for suggestions
    holds what the router knows there. For flags, it reads the group, knows the same after each
    flag, and comes by the place that the completion finds. -/
def Answered (ignoreCase : Bool) (p : Position) : Focus → Prop
  | .node n ctx line => p.node = n ∧ p.context.Alike ctx ∧ p.line.Agrees line
  | .argument a ctx line =>
    (∃ child, p.AtArgument ignoreCase a child) ∧ p.line.Agrees line ∧
      p.context.values = ctx.values ∧ p.context.flags = ctx.flags
  | .flags g ctx line =>
    p.context.Alike ctx ∧ p.line.Agrees line ∧
      (∃ denied ending, p.step ignoreCase = p.skipBlank.readFlags denied g ending) ∧
      Follows Flag.Stage.InStep (Flag.Stage.give g.flags) (Flag.Stage.pass g.flags)
        (.start p.skipBlank.context p.skipBlank.line) (.start ctx line) ∧
      Flag.Stage.Meets g.flags p.skipBlank.context ctx p.skipBlank.line line
  | .nowhere => True

/-- The focus was found without a change that the router does not know of: the attempt to read the
    argument left nothing behind, and the flags are passed faithfully. -/
def Faithful (known : Context) : Focus → Prop
  | .argument _ ctx _ => known.values = ctx.values ∧ known.flags = ctx.flags
  | .flags g ctx line => ∀ n s, turns (Flag.Stage.pass g.flags) n (.start ctx line) = some s →
      ∀ s', s.pass g.flags = some s' → s.Faithful
  | _ => True

end Focus

namespace Position

variable {ignoreCase : Bool} {p q : Position}

/-- A focus that is found in step is answered exactly if it is faithful. -/
theorem InStep.answered_iff (h : p.InStep q) (hblind : q.node.Carries Component.Blind)
    {found : Focus} (hstop : q.advance ignoreCase = .error found) :
    found.Answered ignoreCase p ↔ found.Faithful q.context := by
  cases advance_stopped hstop with
  | node _ => exact iff_of_true ⟨h.node, h.context, h.line⟩ trivial
  | nowhere => exact iff_of_true trivial trivial
  | argument hat =>
      simp only [Focus.Answered, Focus.Faithful, h.context.values, h.context.flags]
      exact ⟨fun hanswered => hanswered.2.2, fun hfaithful => ⟨⟨_, h.atArgument hat⟩, h.line,
        hfaithful⟩⟩
  | @flags g ending hfurther hat =>
      have hsame := h.skipBlank
      have hgroup : ∀ flag ∈ g.flags, (flag.map Parser.read).Steady := by
        cases (hblind.flags g ending hat.edge).within.flags with
        | flags _ within =>
            exact fun flag hflag => Flag.forall_value_map fun p hp => (within flag hflag p hp).steady
      have hfollows := Flag.Stage.follows_iff hgroup hsame.context hsame.line
      obtain ⟨denied, hreads⟩ := stepAtToken_atFlags (hsame.atFlags hat)
      have hstep := (h.step_token hfurther).trans hreads
      refine Iff.trans ?_ hfollows
      constructor
      · rintro ⟨-, -, -, hsteps, -⟩
        exact hsteps
      · intro hsteps
        exact ⟨h.context, h.line, ⟨denied, ending, hstep⟩, hsteps,
          Flag.Stage.meets_of_follows hgroup hsteps⟩

theorem everywhere_replayed {P : Node → Prop} (h : p.node.Everywhere P)
    (hnext : p.replayed ignoreCase = some q) : q.node.Everywhere P := by
  rw [replayed] at hnext
  split at hnext
  · next next hadvance =>
      cases hnext
      cases (advance_passed hadvance).2 with
      | word found _ => exact h.literal (List.mem_of_find?_eq_some found)
      | leftOut hat _ => exact h.argument hat.edge
      | read hat _ _ => exact h.argument hat.edge
  · cases hnext

/-- Wherever a completion comes by, the router comes by after as many steps and knows the same, and
    it answers the focus where the completion stops. -/
def Replays (ignoreCase : Bool) (p q : Position) : Prop :=
  ∀ n q', turns (replayed ignoreCase) n q = some q' →
    ∃ p', turns (routed ignoreCase) n p = some p' ∧ p'.InStep q' ∧
      ∀ found, q'.advance ignoreCase = .error found → found.Answered ignoreCase p'

/-- All edges that a completion passes are faithful, and so is its focus. -/
def AllFaithful (ignoreCase : Bool) (q : Position) : Prop :=
  ∀ n q', turns (replayed ignoreCase) n q = some q' →
    (∀ next, q'.replayed ignoreCase = some next → q'.Faithful ignoreCase) ∧
      ∀ found, q'.advance ignoreCase = .error found → found.Faithful q'.context

/-- A completion replays the router exactly where it is faithful. -/
theorem InStep.replays_iff_allFaithful (h : p.InStep q)
    (hblind : q.node.Everywhere (Node.Carries Component.Blind)) :
    p.Replays ignoreCase q ↔ q.AllFaithful ignoreCase := by
  have hkept {n : Nat} {q' : Position} (hturns : turns (replayed ignoreCase) n q = some q') :
      q'.node.Everywhere (Node.Carries Component.Blind) :=
    turns_keep (I := fun q : Position => q.node.Everywhere (Node.Carries Component.Blind)) hblind
      everywhere_replayed hturns
  have hfollows : Follows InStep (routed ignoreCase) (replayed ignoreCase) p q ↔ _ :=
    follows_iff (I := fun q : Position => q.node.Everywhere (Node.Carries Component.Blind)) h hblind
      everywhere_replayed fun hstep hblind hnext => hstep.faithful_iff hblind.here hnext
  constructor
  · -- the moves and the stops are two halves of the same statement
    intro hreplays n q' hturns
    obtain ⟨p', -, hstep, hanswered⟩ := hreplays n q' hturns
    refine ⟨?_, fun found hstop => ?_⟩
    · refine hfollows.mp (fun n q' hturns => ?_) n q' hturns
      obtain ⟨p', hp', hstep, -⟩ := hreplays n q' hturns
      exact ⟨p', hp', hstep⟩
    · exact (hstep.answered_iff (hkept hturns).here hstop).mp (hanswered found hstop)
  · intro hfaithful n q' hturns
    obtain ⟨p', hp', hstep⟩ :=
      hfollows.mpr (fun n q' hturns => (hfaithful n q' hturns).1) n q' hturns
    refine ⟨p', hp', hstep, fun found hstop => ?_⟩
    exact (hstep.answered_iff (hkept hturns).here hstop).mpr ((hfaithful n q' hturns).2 found hstop)

end Position

/-- The part of a text that lies before a cursor, of which nothing has been read. -/
def Line.upTo (text : String) (cursor : Nat) : Line :=
  (Line.ofString text).between 0 ((Line.ofString text).floorCursor cursor)

namespace Tree

/-- The completion of a line replays the router on it. -/
def Replays (t : Tree) (ctx : Context) (line : Line) : Prop :=
  (Position.start t ctx line).Replays t.rules.ignoreCase
    (Position.start t { ctx with suggesting := true } line)

/-- The completion of a line does nothing that the router does not do. -/
def Faithful (t : Tree) (ctx : Context) (line : Line) : Prop :=
  (Position.start t { ctx with suggesting := true } line).AllFaithful t.rules.ignoreCase

/-- A completion replays the router exactly where it is faithful, and then the router comes to the
    place where the completion stops, with the same values and flags. -/
theorem completion_replays_router {t : Tree} (ht : t.Built Component.Blind) (ctx : Context)
    (text : String) (cursor : Nat) :
    (t.Replays ctx (.upTo text cursor) ↔ t.Faithful ctx (.upTo text cursor)) ∧
      (t.Faithful ctx (.upTo text cursor) →
        ∃ n p, turns (Position.routed t.rules.ignoreCase) n
            (Position.start t ctx (.upTo text cursor)) = some p ∧
          t.route ctx (Line.upTo text cursor).remaining = p.run t.rules.ignoreCase ∧
          (t.focus { ctx with suggesting := true } (.upTo text cursor)).Answered
            t.rules.ignoreCase p) := by
  have hstep : (Position.start t ctx (.upTo text cursor)).InStep
      (Position.start t { ctx with suggesting := true } (.upTo text cursor)) :=
    ⟨rfl, .suggesting ctx, .refl _⟩
  have hiff : t.Replays ctx (.upTo text cursor) ↔ t.Faithful ctx (.upTo text cursor) :=
    hstep.replays_iff_allFaithful (ht.carries fun ignoreCase _ l hold => hold.merge ignoreCase l)
  refine ⟨hiff, fun hfaithful => ?_⟩
  obtain ⟨n, q, hturns, hstop⟩ := Position.exists_turns_focus t.rules.ignoreCase
    (Position.start t { ctx with suggesting := true } (.upTo text cursor))
  obtain ⟨p, hp, -, hanswered⟩ := hiff.mpr hfaithful n q hturns
  refine ⟨n, p, hp, ?_, hanswered _ hstop⟩
  -- the text before the cursor, as a line of its own, is the line that is completed
  have hline : Line.ofString (Line.upTo text cursor).remaining = .upTo text cursor := by
    simp [Line.remaining, Line.ofString, Line.upTo, Line.between]
  rw [← Position.run_eq_of_turns hp, route, hline]

end Tree

/-- A literal that nothing is added to. -/
theorem Component.blind_literal (name : String) :
    (Component.literal { name }).Blind where
  within := ⟨by simp [Component.parsers], fun _ _ => trivial⟩
  checks := by simp [Component.extras]
  computed := by simp [Component.default?]

/-- An argument that nothing is added to. -/
theorem Component.blind_argument {name : String} {parser : Parser} {need : Need}
    (hparser : parser.Within .blind) (hneed : need.default? = none) :
    (Component.argument { name, parser, need }).Blind where
  within := ⟨List.forall_mem_singleton.mpr hparser, fun _ _ => trivial⟩
  checks := by simp [Component.extras]
  computed := by simp [Component.default?, hneed]

/-- A tree with one command. -/
def Tree.giving : Tree :=
  ({} : Tree).apply (.insert .give)

theorem Tree.giving_built : Tree.giving.Built Component.Blind := by
  refine .of_command ?_
  simp only [Command.give, List.forall_mem_cons]
  exact ⟨Component.blind_literal "give", Component.blind_argument (.text .word) rfl, by simp⟩

/-- The place where the completion of `give me` starts. -/
def Position.giving : Position :=
  .start Tree.giving { Context.ofRight "give" with suggesting := true } (.upTo "give me" 7)

/-- The completion of `give me` passes the literal and is at the last token. -/
theorem Position.turns_giving {n : Nat} {q : Position}
    (h : turns (Position.replayed Tree.giving.rules.ignoreCase) n .giving = some q) :
    q = .giving ∨ q.line.isLastToken = true := by
  refine turns_keep (I := fun q => q = .giving ∨ q.line.isLastToken = true) (.inl rfl) ?_ h
  rintro v u (rfl | hv) hu
  · have hnext : (Position.giving.replayed Tree.giving.rules.ignoreCase).map
        (·.line.isLastToken) = some true := by
      decide +kernel
    rw [hu] at hnext
    exact .inr (Option.some.inj hnext)
  · rw [replayed, advance_of_last _ hv] at hu
    cases hu

/-- Whoever completes what to give is where the router is. -/
theorem Tree.completion_replays_give :
    Tree.giving.Built Component.Blind ∧
      Tree.giving.Replays (.ofRight "give") (.upTo "give me" 7) := by
  refine ⟨Tree.giving_built, ?_⟩
  rw [(Tree.completion_replays_router Tree.giving_built (.ofRight "give") "give me" 7).1]
  intro n q hq
  rcases Position.turns_giving hq with rfl | hlast
  · have hword : Position.giving.node.argument = none := rfl
    have hpasses : (Position.giving.replayed Tree.giving.rules.ignoreCase).isSome = true := by
      decide +kernel
    constructor
    · intro next _ a child hat
      cases hword.symm.trans hat.edge
    · intro found hfound
      rw [Position.replayed, hfound] at hpasses
      cases hpasses
  · have hstop := Position.advance_of_last Tree.giving.rules.ignoreCase hlast
    constructor
    · intro next hnext
      rw [Position.replayed, hstop] at hnext
      cases hnext
    · intro found hfound
      cases hfound.symm.trans hstop
      trivial

/-- `say [text]`. -/
def Command.sayText : Command where
  components :=
    [.literal { name := "say" },
     .argument { name := "text", parser := .text .word, need := .optional none }]

/-- `say --silent --force`. -/
def Command.sayFlags : Command where
  components :=
    [.literal { name := "say" }, .flags { flags := [{ name := "silent" }, { name := "force" }] }]

/-- A tree in which a flag group stands beside an argument that may be left out. -/
def Tree.saying : Tree :=
  (({} : Tree).apply (.insert .sayText)).apply (.insert .sayFlags)

theorem Tree.saying_built : Tree.saying.Built Component.Blind := by
  refine .edit (.edit (.fresh rfl) _ ?_) _ ?_
  · rintro c ⟨⟩
    simp only [Command.sayText, List.forall_mem_cons]
    exact ⟨Component.blind_literal "say", Component.blind_argument (.text .word) rfl, by simp⟩
  · rintro c ⟨⟩
    simp only [Command.sayFlags, List.forall_mem_cons]
    refine ⟨Component.blind_literal "say", ⟨⟨?_, fun _ _ => trivial⟩, ?_, ?_⟩, by simp⟩
    · simp [Component.parsers]
    · simp [Component.extras]
    · simp [Component.default?]

/-- Beside an argument that may be left out, a completion lets it read a flag that the router reads
    as one, and is behind the argument when the next flag is to be completed. -/
theorem Tree.completion_takes_flag :
    Tree.saying.Built Component.Blind ∧
      ¬Tree.saying.Replays (.ofRight "say") (.upTo "say --silent " 13) := by
  refine ⟨Tree.saying_built, fun hreplays => ?_⟩
  have hcompletion : (turns (Position.replayed Tree.saying.rules.ignoreCase) 2
      (Position.start Tree.saying { Context.ofRight "say" with suggesting := true }
        (.upTo "say --silent " 13))).isSome = true := by
    decide +kernel
  have hrouter : (turns (Position.routed Tree.saying.rules.ignoreCase) 2
      (Position.start Tree.saying (.ofRight "say") (.upTo "say --silent " 13))).isSome =
        false := by
    decide +kernel
  obtain ⟨q, hq⟩ := Option.isSome_iff_exists.mp hcompletion
  obtain ⟨p, hp, -⟩ := hreplays 2 q hq
  rw [hp] at hrouter
  cases hrouter

end CommandLine
