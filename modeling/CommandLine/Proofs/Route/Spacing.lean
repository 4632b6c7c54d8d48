import CommandLine.Pattern.Check
import CommandLine.Proofs.Line.Tokenizing
import CommandLine.Proofs.Route.End
import CommandLine.Proofs.Route.Spelling

/-! # White space between tokens

    Two lines may be spaced in different ways and have the same tokens, as they are written. The
    router looks at a line through its tokens: whether one is left, what it stands for, and what
    comes after it. So it makes the same steps on both lines, as long as the parsers on its way do
    not look at more. The longer texts do, and functions of the surrounding program could; for all
    others `Parser.Within.tied` has it.

    In the end both lines lead to one command with the same values and flags, or fail in the same
    way (`Tree.route_spacing`). What was consumed for an argument may differ in the white space
    inside, and so may the input that a failure shows. -/

namespace CommandLine

open Text

/-! ## Lines with the same tokens -/

namespace Token

/-- What a token stands for is seen from how it is written. -/
theorem value_cut (text : List Char) : (cut text).value = (head (cut text).raw).value := by
  show (head (trimStart text)).value = (head (head (trimStart text)).raw).value
  cases htext : trimStart text with
  | nil => rfl
  | cons c rest => rw [head_raw (isBlank_of_trimStart htext)]

end Token

namespace Line

/-- The same tokens are left on two lines, as they are written. -/
def SameTokens (a b : Line) : Prop :=
  (Token.all a.rest).map (·.raw) = (Token.all b.rest).map (·.raw)

variable {a b : Line}

theorem SameTokens.refl (a : Line) : a.SameTokens a :=
  rfl

/-- Either no token is left, or the same one with the same behind it. -/
theorem SameTokens.cases (h : a.SameTokens b) :
    (trimStart a.rest = [] ∧ trimStart b.rest = []) ∨
      (trimStart a.rest ≠ [] ∧ trimStart b.rest ≠ [] ∧
        (Token.cut a.rest).raw = (Token.cut b.rest).raw ∧ a.skipToken.SameTokens b.skipToken) := by
  rw [SameTokens] at h
  by_cases ha : trimStart a.rest = [] <;> by_cases hb : trimStart b.rest = []
  · exact Or.inl ⟨ha, hb⟩
  · rw [Token.all_of_blank ha, Token.all_of_written hb] at h
    cases h
  · rw [Token.all_of_written ha, Token.all_of_blank hb] at h
    cases h
  · rw [Token.all_of_written ha, Token.all_of_written hb, List.map_cons, List.map_cons,
      List.cons.injEq] at h
    exact Or.inr ⟨ha, hb, h⟩

/-- Lines with the same tokens are read token by token alike. -/
theorem tokenwise_sameTokens : Line.Tokenwise SameTokens where
  isBlank := by
    intro a b h
    rcases h.cases with ⟨ha, hb⟩ | ⟨ha, hb, -, -⟩
    · rw [Line.isBlank, Line.isBlank, ha, hb]
    · rw [Line.isBlank, Line.isBlank, List.isEmpty_eq_false_iff.mpr ha,
        List.isEmpty_eq_false_iff.mpr hb]
  peekToken := by
    intro a b h
    have hraw : (Token.cut a.rest).raw = (Token.cut b.rest).raw := by
      rcases h.cases with ⟨ha, hb⟩ | ⟨-, -, hraw, -⟩
      · rw [Token.cut_raw_eq_nil_iff.mpr ha, Token.cut_raw_eq_nil_iff.mpr hb]
      · exact hraw
    rw [peekToken, peekToken, Token.value_cut, Token.value_cut b.rest, hraw]
  skipToken := by
    intro a b h
    rcases h.cases with ⟨ha, hb⟩ | ⟨-, -, -, hskip⟩
    · have hnothing {line : Line} (hline : trimStart line.rest = []) : line.skipToken.rest = [] := by
        show (Token.head (trimStart line.rest)).rest = []
        rw [hline]
        rfl
      rw [SameTokens, hnothing ha, hnothing hb]
    · exact hskip

/-- White space in front of the next token is none of it. -/
theorem Agrees.sameTokens (h : a.Agrees b) : a.SameTokens b := by
  have hrest : trimStart a.rest = trimStart b.rest := congrArg Line.rest h
  have hraw : (Token.cut a.rest).raw = (Token.cut b.rest).raw :=
    congrArg (fun text => (Token.head text).raw) hrest
  have hbehind : (Token.cut a.rest).rest = (Token.cut b.rest).rest :=
    congrArg (fun text => (Token.head text).rest) hrest
  rw [SameTokens]
  by_cases ha : trimStart a.rest = []
  · have hb : trimStart b.rest = [] := hrest ▸ ha
    rw [Token.all_of_blank ha, Token.all_of_blank hb]
  · have hb : trimStart b.rest ≠ [] := hrest ▸ ha
    rw [Token.all_of_written ha, Token.all_of_written hb, List.map_cons, List.map_cons, hraw,
      hbehind]

theorem SameTokens.trans {c : Line} (hab : a.SameTokens b) (hbc : b.SameTokens c) :
    a.SameTokens c :=
  Eq.trans hab hbc

theorem SameTokens.symm (h : a.SameTokens b) : b.SameTokens a :=
  Eq.symm h

theorem SameTokens.skipBlank (h : a.SameTokens b) : a.skipBlank.SameTokens b.skipBlank :=
  (a.skipBlank_agrees.sameTokens.trans h).trans b.skipBlank_agrees.sameTokens.symm

end Line

/-! ## What looks at tokens only -/

/-- Nothing from outside but functions that see the sender and the values stored so far. -/
def Allowed.ofValues : Allowed where
  host := fun _ => False
  refine := fun f => ∀ {a b : Context} value, a.sender = b.sender → a.values = b.values →
    f a value = f b value
  build := fun f => ∀ {a b : Context}, a.sender = b.sender → a.values = b.values → f a = f b

theorem Allowed.ofValues_tied {L : Line → Line → Prop} : Allowed.ofValues.Tied L :=
  ⟨fun _ hhost => hhost.elim, fun _ hrefine _ _ value h => hrefine value h.sender h.values,
    fun _ hbuild _ _ h => hbuild h.sender h.values⟩

/-- A parser that reads no longer texts and has nothing else from outside. -/
structure Parser.Tokenwise (p : Parser) : Prop where
  within : p.Within .ofValues
  words : ∀ mode, p.HasText mode → mode = .word

theorem Parser.Tokenwise.tied {p : Parser} (h : p.Tokenwise) {L : Line → Line → Prop}
    (hL : Line.Tokenwise L) : Reader.Tied L p.read := by
  refine h.within.tied hL Allowed.ofValues_tied fun mode hmode => ?_
  rw [h.words mode hmode]
  exact tied_readText_word hL

/-- A check that looks at nothing of a line but its next token, and at nothing of a context that
    parsers do not see. -/
def Check.SeesTokens (check : Check) : Prop :=
  ∀ {ctx ctx' : Context} {a b : Line}, ctx.Alike ctx' → a.isBlank = b.isBlank →
    a.peekToken = b.peekToken → check ctx a = check ctx' b

/-- A check by a pattern is one of them. -/
theorem Pattern.check_seesTokens (source : String) (pattern : Pattern) :
    (Pattern.check source pattern).SeesTokens := by
  intro ctx ctx' a b _ hblank htoken
  simp only [Pattern.check, hblank, htoken]

/-- A component that the spacing of a line is nothing to. -/
structure Component.Tokenwise (c : Component) : Prop where
  parsers : ∀ p ∈ c.parsers, p.Tokenwise
  checks : ∀ check ∈ c.extras.checks, check.SeesTokens
  computed : ∀ f, c.default? = some (.computed f) → ∀ {a b : Context}, a.sender = b.sender →
    a.values = b.values → f a = f b

theorem Component.Tokenwise.argument {a : Argument} (h : (Component.argument a).Tokenwise)
    {L : Line → Line → Prop} (hL : Line.Tokenwise L) : a.Tied L where
  parser := (h.parsers _ (List.mem_singleton_self _)).tied hL
  checks := fun check hcheck _ _ _ _ hctx hline =>
    h.checks check hcheck hctx (hL.isBlank hline) (hL.peekToken hline)
  computed := fun f hf _ _ hctx => h.computed f hf hctx.sender hctx.values

theorem Component.Tokenwise.flags {g : FlagGroup} (h : (Component.flags g).Tokenwise) :
    (Parser.flags g.flags).Tokenwise where
  within := .flags (fun _ _ => trivial) fun flag hflag p hp =>
    (h.parsers p (List.mem_filterMap.mpr ⟨flag, hflag, hp⟩)).within
  words := by
    rintro mode hmode
    cases hmode with
    | @flag _ flag p mem value below =>
        exact (h.parsers p (List.mem_filterMap.mpr ⟨flag, mem, value⟩)).words mode below

/-! ## Two passes side by side -/

/-- Failures that differ at most in the input that does not fit. -/
inductive Failure.SameKind : Failure → Failure → Prop where
  | same (f : Failure) : SameKind f f
  | unfit (input input' : String) (expected : List String) :
      SameKind (.invalidSyntax input expected) (.invalidSyntax input' expected)

/-- One command with the same values and flags, or failures of the same kind. -/
inductive SameOutcome : Except Failure Resolved → Except Failure Resolved → Prop where
  | ok {e : Entry} {ctx ctx' : Context} (context : ctx.Alike ctx') :
      SameOutcome (.ok ⟨e, ctx⟩) (.ok ⟨e, ctx'⟩)
  | error {f f' : Failure} (kind : f.SameKind f') : SameOutcome (.error f) (.error f')

/-- The same place in the tree, with the same known and the same tokens left. -/
structure Position.Abreast (p q : Position) : Prop where
  node : q.node = p.node
  context : p.context.Alike q.context
  line : p.line.SameTokens q.line
  atRoot : q.atRoot = p.atRoot

/-- Steps that lead to the same place, to the same command, or to failures of the same kind. -/
inductive Step.Abreast : Step → Step → Prop where
  | descend {p q : Position} (next : p.Abreast q) : Abreast (.descend p) (.descend q)
  | arrive {e : Entry} {ctx ctx' : Context} (context : ctx.Alike ctx') :
      Abreast (.arrive ⟨e, ctx⟩) (.arrive ⟨e, ctx'⟩)
  | fail {f f' : Failure} (kind : f.SameKind f') : Abreast (.fail f) (.fail f')

theorem Context.Alike.lackedPermission {ctx ctx' : Context} (h : ctx.Alike ctx')
    (entries : List Entry) :
    Node.lackedPermission ctx entries = Node.lackedPermission ctx' entries := by
  simp only [Node.lackedPermission, Command.isPermitted, h.grants]

theorem Context.Alike.expected {ctx ctx' : Context} (h : ctx.Alike ctx') (n : Node) :
    n.expected ctx = n.expected ctx' := by
  simp only [Node.expected, h.anyPermitted]

theorem Step.select_abreast {ctx ctx' : Context} (h : ctx.Alike ctx') (ending : List Entry) :
    Step.Abreast (select ctx ending) (select ctx' ending) := by
  have hpermitted (e : Entry) : e.command.isPermitted ctx = e.command.isPermitted ctx' :=
    h.grants e.command.permission
  have hserves : Entry.serves ctx = Entry.serves ctx' := by
    funext e
    rw [Entry.serves, Entry.serves, hpermitted, h.sender]
  have hrefusal : refusal ctx ending = refusal ctx' ending := by
    rw [refusal, refusal, h.anyPermitted, h.lackedPermission]
    simp only [hpermitted]
  rw [select_eq, select_eq, hserves, hrefusal]
  split
  · exact .arrive h
  · exact .fail (.same _)

namespace Position.Abreast

variable {p q : Position}

theorem skipBlank (h : p.Abreast q) : p.skipBlank.Abreast q.skipBlank :=
  ⟨h.node, h.context, h.line.skipBlank, h.atRoot⟩

theorem isBlank (h : p.Abreast q) : p.line.isBlank = q.line.isBlank :=
  Line.tokenwise_sameTokens.isBlank h.line

theorem peekToken (h : p.Abreast q) : p.line.peekToken = q.line.peekToken :=
  Line.tokenwise_sameTokens.peekToken h.line

theorem preferDenied (denied : Option String) {f f' : Failure} (h : f.SameKind f') :
    (Position.preferDenied denied f).SameKind (Position.preferDenied denied f') := by
  cases denied with
  | none => exact h
  | some permission => exact .same _

theorem noMatch (h : p.Abreast q) (denied : Option String) :
    (p.noMatch denied).SameKind (q.noMatch denied) := by
  refine preferDenied denied ?_
  rw [h.atRoot, h.peekToken, h.node, h.context.expected]
  split
  · exact .same _
  · exact .unfit _ _ _

theorem flagsFailure (h : p.Abreast q) (e : ArgumentError) :
    p.flagsFailure e = q.flagsFailure e := by
  simp only [Position.flagsFailure, h.node, h.context.expected]

theorem skipArgument (h : p.Abreast q) {a : Argument} (ha : a.Tied Line.SameTokens)
    (child : Node) : Step.Abreast (p.skipArgument a child) (q.skipArgument a child) := by
  rw [Position.skipArgument, Position.skipArgument]
  rcases ha.fill .refl h.context with ⟨filled, filled', hown, hother, halike⟩ | ⟨e, hown, hother⟩
  · rw [hown, hother]
    exact .descend ⟨rfl, halike, h.line, rfl⟩
  · rw [hown, hother]
    exact .fail (.same _)

theorem readArgument (h : p.Abreast q) {a : Argument} (ha : a.Tied Line.SameTokens)
    (denied : Option String) (child : Node) :
    Step.Abreast (p.readArgument denied a child) (q.readArgument denied a child) := by
  have hread := ha.read h.context h.line
  simp only [Position.readArgument, ← hread.result]
  split
  · next value _ =>
      -- the texts that are recorded may differ, which no context that is alike tells
      have hstored := hread.context.store a.name value
      exact .descend ⟨rfl, (hstored.recordConsumed _ _).trans
        ((Context.Alike.refl _).recordConsumed _ _).symm, hread.line, rfl⟩
  · exact .fail (.same _)

theorem readFlags (h : p.Abreast q) {g : FlagGroup} (hg : (Parser.flags g.flags).Tokenwise)
    (denied : Option String) (ending : List Entry) :
    Step.Abreast (p.readFlags denied g ending) (q.readFlags denied g ending) := by
  have hread := (hg.tied Line.tokenwise_sameTokens).tied h.context h.line
  simp only [Position.readFlags, ← hread.result]
  split
  · exact Step.select_abreast hread.context ending
  · rw [h.flagsFailure]
    exact .fail (.same _)

theorem stepAtFlags (h : p.Abreast q) (hn : p.node.Carries Component.Tokenwise)
    (denied : Option String) : Step.Abreast (p.stepAtFlags denied) (q.stepAtFlags denied) := by
  rw [Position.stepAtFlags, Position.stepAtFlags, h.node]
  split
  · exact .fail (h.noMatch denied)
  · next g ending hflags =>
      rw [h.context.anyPermitted, h.context.lackedPermission]
      split
      · exact h.readFlags (hn.flags g ending hflags).flags denied ending
      · exact .fail (h.noMatch _)

theorem stepAtArgument (h : p.Abreast q) (hn : p.node.Carries Component.Tokenwise)
    (denied : Option String) :
    Step.Abreast (p.stepAtArgument denied) (q.stepAtArgument denied) := by
  rw [Position.stepAtArgument, Position.stepAtArgument, h.node]
  split
  · exact h.stepAtFlags hn denied
  · next a child hargument =>
      have ha := (hn.argument a child hargument).argument Line.tokenwise_sameTokens
      rw [h.context.permits, h.context.lackedPermission, h.peekToken]
      split
      · exact h.stepAtFlags hn _
      · split
        · split
          · exact h.skipArgument ha child
          · split
            · exact h.readArgument ha denied child
            · exact h.stepAtFlags hn denied
        · exact h.readArgument ha denied child

theorem stepAtToken (h : p.Abreast q) (hn : p.node.Carries Component.Tokenwise)
    (ignoreCase : Bool) :
    Step.Abreast (p.stepAtToken ignoreCase) (q.stepAtToken ignoreCase) := by
  rw [Position.stepAtToken, Position.stepAtToken, h.node, h.peekToken]
  split
  · exact h.stepAtArgument hn none
  · next l child _ =>
      rw [h.context.permits, h.context.lackedPermission]
      split
      · exact .descend ⟨rfl, h.context, Line.tokenwise_sameTokens.skipToken h.line, rfl⟩
      · exact h.stepAtArgument hn _

theorem stepIntoFlags (h : p.Abreast q) : Step.Abreast p.stepIntoFlags q.stepIntoFlags := by
  rw [Position.stepIntoFlags, Position.stepIntoFlags, h.node]
  split
  · exact .fail (h.noMatch none)
  · next g ending _ =>
      rw [h.context.anyPermitted]
      split
      · exact Step.select_abreast h.context ending
      · exact .fail (h.noMatch none)

theorem stepAtEnd (h : p.Abreast q) (hn : p.node.Carries Component.Tokenwise) :
    Step.Abreast p.stepAtEnd q.stepAtEnd := by
  rw [Position.stepAtEnd, Position.stepAtEnd, h.node, h.atRoot]
  split
  · exact .fail (.same _)
  · split
    · exact Step.select_abreast h.context _
    · split
      · exact h.stepIntoFlags
      · next a child hargument =>
          rw [h.context.permits]
          split
          · exact h.skipArgument
              ((hn.argument a child hargument).argument Line.tokenwise_sameTokens) child
          · exact h.stepIntoFlags

/-- Two passes that are abreast make the same step. -/
theorem step (h : p.Abreast q) (hn : p.node.Carries Component.Tokenwise) (ignoreCase : Bool) :
    Step.Abreast (p.step ignoreCase) (q.step ignoreCase) := by
  rw [Position.step, Position.step, h.isBlank]
  split
  · exact h.skipBlank.stepAtEnd hn
  · exact h.skipBlank.stepAtToken hn ignoreCase

/-- Two passes that are abreast come to the same end. -/
theorem run {ignoreCase : Bool} (h : p.Abreast q)
    (hn : p.node.Everywhere (Node.Carries Component.Tokenwise)) :
    SameOutcome (p.run ignoreCase) (q.run ignoreCase) := by
  fun_induction Position.run ignoreCase p generalizing q with
  | case1 p next hstep ih =>
      have hsteps := h.step hn.here ignoreCase
      rw [hstep] at hsteps
      generalize hother : q.step ignoreCase = other at hsteps
      cases hsteps with
      | descend hnext =>
          rw [run_of_descend hother]
          obtain ⟨m, hpasses, -⟩ := step_descend_passes hstep
          exact ih hnext (hpasses.everywhere hn).2
  | case2 p found hstep =>
      have hsteps := h.step hn.here ignoreCase
      rw [hstep] at hsteps
      generalize hother : q.step ignoreCase = other at hsteps
      cases hsteps with
      | arrive hcontext =>
          rw [run_of_arrive hother]
          exact .ok hcontext
  | case3 p failure hstep =>
      have hsteps := h.step hn.here ignoreCase
      rw [hstep] at hsteps
      generalize hother : q.step ignoreCase = other at hsteps
      cases hsteps with
      | fail hkind =>
          rw [run_of_fail hother]
          exact .error hkind

end Position.Abreast

/-- In a tree of components that look at tokens only, white space between tokens does not matter:
    two lines with the same tokens, as they are written, lead to one command with the same values
    and the same flags, or fail in the same way. -/
theorem Tree.route_spacing {t : Tree} (ht : t.root.Everywhere (Node.Carries Component.Tokenwise))
    (ctx : Context) {text text' : String}
    (hsame : (Line.ofString text).SameTokens (.ofString text')) :
    SameOutcome (t.route ctx text) (t.route ctx text') := by
  have habreast : (Position.start t ctx (.ofString text)).Abreast
      (Position.start t ctx (.ofString text')) := ⟨rfl, .refl ctx, hsame, rfl⟩
  exact habreast.run ht

/-- `remind <whom> [hours] --note <note>`. A name has a letter or a digit, and where no time is
    given the name stands for it. -/
def Command.remind : Command where
  components :=
    [.literal { name := "remind" },
     .argument
      { name := "whom"
        parser := .text .word
        extras := { checks := [Pattern.check "\\b" (.wordEdge true)] } },
     .argument
      { name := "hours"
        parser := .integer 1 24
        need := .optional (some (.computed fun ctx => (ctx.value? "whom").getD (.plain .unit))) },
     .flags { flags := [{ name := "note", value := some (.text .word) }] }]

/-- A tree with one command. -/
def Tree.reminding : Tree :=
  ({} : Tree).apply (.insert .remind)

theorem Tree.reminding_tokenwise :
    Tree.reminding.root.Everywhere (Node.Carries Component.Tokenwise) := by
  have htext : (Parser.text .word).Tokenwise := ⟨.text .word, by rintro _ ⟨⟩; rfl⟩
  have hinteger : (Parser.integer 1 24).Tokenwise := ⟨.integer 1 24, by rintro _ ⟨⟩⟩
  have hbuilt : Tree.reminding.Built Component.Tokenwise := by
    refine .of_command (List.forall_mem_cons.mpr ⟨?_, List.forall_mem_cons.mpr ⟨?_,
      List.forall_mem_cons.mpr ⟨?_, List.forall_mem_singleton.mpr ?_⟩⟩⟩)
    · exact ⟨by simp [Component.parsers], by simp [Component.extras], by rintro _ ⟨⟩⟩
    · refine ⟨List.forall_mem_singleton.mpr htext, List.forall_mem_singleton.mpr ?_, by rintro _ ⟨⟩⟩
      exact Pattern.check_seesTokens _ _
    · refine ⟨List.forall_mem_singleton.mpr hinteger, by simp [Component.extras], ?_⟩
      rintro _ ⟨⟩ a b - hvalues
      simp only [Context.value?, hvalues]
    · exact ⟨List.forall_mem_singleton.mpr htext, by simp [Component.extras], by rintro _ ⟨⟩⟩
  exact hbuilt.carries fun _ _ _ hold => ⟨hold.parsers, hold.checks, hold.computed⟩

theorem Tree.route_reminding :
    Tree.reminding.route (.ofRight "remind") "remind \"bob\" 5 --note \"be on time\"" =
      .ok ⟨⟨0, .remind⟩, ((((((Context.ofRight "remind").store "whom" (.plain (.text "bob"))
        ).recordConsumed "whom" "\"bob\"").store "hours" (.plain (.integer 5))).recordConsumed
          "hours" "5").store "note" (.plain (.text "be on time"))).recordConsumed "note"
            "\"be on time\"" |>.markFlag "note"⟩ :=
  (Position.run_of_descend rfl).trans ((Position.run_of_descend rfl).trans
    ((Position.run_of_descend rfl).trans (Position.run_of_arrive rfl)))

/-- Nothing need stand between a quoted name and the time behind it. -/
theorem Tree.route_spacing_reminding :
    ∃ e ctx ctx',
      Tree.reminding.route (.ofRight "remind") "remind \"bob\" 5 --note \"be on time\"" =
        .ok ⟨e, ctx⟩ ∧
      Tree.reminding.route (.ofRight "remind") "  remind  \"bob\"5 --note  \"be on time\" " =
        .ok ⟨e, ctx'⟩ ∧ ctx.Alike ctx' := by
  have hsame : (Line.ofString "remind \"bob\" 5 --note \"be on time\"").SameTokens
      (.ofString "  remind  \"bob\"5 --note  \"be on time\" ") := by
    unfold Line.SameTokens
    cbv
  have houtcome := Tree.route_spacing Tree.reminding_tokenwise (.ofRight "remind") hsame
  rw [Tree.route_reminding] at houtcome
  generalize Tree.reminding.route (.ofRight "remind")
    "  remind  \"bob\"5 --note  \"be on time\" " = other at houtcome ⊢
  cases houtcome with
  | ok halike => exact ⟨_, _, _, Tree.route_reminding, rfl, halike⟩

end CommandLine
