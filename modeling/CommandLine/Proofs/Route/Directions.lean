import CommandLine.Proofs.Line.Words
import CommandLine.Proofs.Route.End
import CommandLine.Proofs.Tree.Creation

/-! # Directions to a command

    The words of a line that leads to a command are found from the command back to the root.
    `Node.Yields` says that every line of some words leads from a node to an outcome. There is one
    lemma for each way of a step, which puts the words that the step reads in front of those for the
    node below.

    The edges on the way store values in the context. So a line has to lead there from all contexts
    in which the sender may do the same and has given the same flags (`SameStanding`). -/

namespace CommandLine

open Text

/-- The sender, its permissions and the flags that were given have not changed. -/
structure SameStanding (before after : Context) : Prop where
  sender : SameSender before after
  flags : after.flags = before.flags

theorem SameStanding.chains : Chains SameStanding where
  refl ctx := ⟨SameSender.chains.refl ctx, rfl⟩
  trans hab hbc := ⟨SameSender.chains.trans hab.sender hbc.sender, hbc.flags.trans hab.flags⟩

variable {ctx c : Context} {ignoreCase atRoot : Bool} {n child : Node} {a : Argument}
  {g : FlagGroup} {ending : List Entry} {e : Entry} {token : String} {words more : List String}
  {Q : Resolved → Prop}

/-! ## What the sender decides -/

namespace SameSender

theorem grants_eq (h : SameSender ctx c) (permission : Permission) :
    c.grants permission = ctx.grants permission := by
  simp only [Context.grants, h.1, h.2]

theorem anyPermitted_eq (h : SameSender ctx c) (entries : List Entry) :
    Node.anyPermitted c entries = Node.anyPermitted ctx entries := by
  simp only [Node.anyPermitted, h.isPermitted_eq]

theorem permits_eq (h : SameSender ctx c) (n : Node) : n.permits c = n.permits ctx :=
  h.anyPermitted_eq n.entries

theorem serves_eq (h : SameSender ctx c) : Entry.serves c = Entry.serves ctx := by
  funext e
  simp only [Entry.serves, h.isPermitted_eq, h.1]

/-- The flags that are taken at the end of a line. -/
theorem takesFlags (h : SameSender ctx c) (htakes : n.TakesFlags ctx g ending) :
    n.TakesFlags c g ending := by
  refine ⟨?_, htakes.edge, (h.anyPermitted_eq ending).trans htakes.permitted⟩
  intro a child hleaves
  exact htakes.instead a child
    ⟨hleaves.edge, hleaves.optional, (h.permits_eq child).symm.trans hleaves.permitted⟩

end SameSender

/-- A command that is selected is one that the sender may run. -/
theorem Node.anyPermitted_of_find (h : ending.find? (Entry.serves ctx) = some e) :
    anyPermitted ctx ending = true := by
  have hserves : Entry.serves ctx e = true := List.find?_some h
  have hpermitted := (Bool.and_eq_true_iff.mp hserves).1
  exact List.any_eq_true.mpr ⟨e, List.mem_of_find?_eq_some h, hpermitted⟩

theorem Step.select_of_find (h : ending.find? (Entry.serves ctx) = some e) :
    select ctx ending = .arrive ⟨e, ctx⟩ := by
  rw [select_eq, h]

/-! ## What is taken off a line -/

/-- The first of some words is a token that stands for a text. -/
def Token.Begins (words : List String) (token : String) : Prop :=
  ∀ line : Line, line.Holds words → line.isBlank = false ∧ line.skipBlank.peekToken = token

theorem Token.Stands.begins {word : String}
    (h : Token.Stands word.toList token (spaced words)) : Token.Begins (word :: words) token :=
  fun _ hline => ⟨hline.isBlank_cons h, hline.peekToken h⟩

/-- A reader takes words off every line that goes on with others. -/
def Reader.Takes (reader : Reader) (ctx : Context) (words more : List String) : Prop :=
  ∀ (c : Context) (line : Line), SameStanding ctx c → line.Holds (words ++ more) →
    ∃ value, (reader c line).result = .ok value ∧ SameStanding ctx (reader c line).context ∧
      (reader c line).line.Holds more

/-- An argument can be left out: its default can be filled in. -/
def Argument.Fills (a : Argument) (ctx : Context) : Prop :=
  ∀ c : Context, SameStanding ctx c → ∃ filled, a.fill c = .ok filled ∧ SameStanding ctx filled

/-- A flag group takes all words of a line, with some effect on the context. -/
def FlagGroup.Takes (g : FlagGroup) (ctx : Context) (words : List String)
    (effect : Context → Prop) : Prop :=
  ∀ (c : Context) (line : Line), SameStanding ctx c → line.Holds words →
    ∃ value, ((Parser.flags g.flags).read c line).result = .ok value ∧
      SameSender ctx ((Parser.flags g.flags).read c line).context ∧
      effect ((Parser.flags g.flags).read c line).context

/-! ## The ways of a step, from the end of the line back to its start -/

/-- Every line of some words leads from a node to an outcome. -/
def Node.Yields (ignoreCase : Bool) (ctx : Context) (atRoot : Bool) (n : Node)
    (words : List String) (Q : Resolved → Prop) : Prop :=
  ∀ (c : Context) (line : Line), SameStanding ctx c → line.Holds words →
    ∃ r, Position.run ignoreCase { node := n, context := c, line, atRoot } = .ok r ∧ Q r

namespace Node.Yields

/-- At the end of the line a command that ends at the node is run. -/
theorem commandEnds (hfound : n.ending.find? (Entry.serves ctx) = some e)
    (hQ : ∀ c, SameStanding ctx c → Q ⟨e, c⟩) : n.Yields ignoreCase ctx false [] Q := by
  intro c line hc hline
  have hending : n.ending ≠ [] := by
    intro hnil
    rw [hnil] at hfound
    cases hfound
  have hstep : Position.step ignoreCase { node := n, context := c, line } = .select c n.ending :=
    Position.step_where_ending hline.isBlank_nil rfl hending
  rw [← hc.sender.serves_eq] at hfound
  exact ⟨_, Position.run_of_arrive (hstep.trans (Step.select_of_find hfound)), hQ c hc⟩

/-- At the end of the line the flags of the node are left out. -/
theorem flagsLeftOut (hnone : n.ending = []) (htakes : n.TakesFlags ctx g ending)
    (hfound : ending.find? (Entry.serves ctx) = some e)
    (hQ : ∀ c, SameStanding ctx c → Q ⟨e, c⟩) : n.Yields ignoreCase ctx false [] Q := by
  intro c line hc hline
  have hstep : Position.step ignoreCase { node := n, context := c, line } = .select c ending :=
    Position.step_taking_flags hline.isBlank_nil rfl hnone (hc.sender.takesFlags htakes)
  rw [← hc.sender.serves_eq] at hfound
  exact ⟨_, Position.run_of_arrive (hstep.trans (Step.select_of_find hfound)), hQ c hc⟩

end Node.Yields

/-- A token selects no literal of a node that leads to a command the sender may run. -/
def Node.Ignores (n : Node) (ignoreCase : Bool) (ctx : Context) (token : String) : Prop :=
  ∀ l child, n.findLiteral ignoreCase token = some (l, child) → child.permits ctx = false

/-- No argument of a node comes before its flags: the sender may run nothing below it, or it may be
    left out and there are no other flags behind it. -/
def Node.FlagsNext (n : Node) (ctx : Context) : Prop :=
  ∀ a child, n.argument = some (a, child) → child.permits ctx = true →
    a.isRequired = false ∧ child.flagsBelow? = none

/-- Where no argument comes before the flags, the router turns to them at a token that looks like
    one. -/
theorem Position.stepAtToken_flagsNext {p : Position} {ignoreCase : Bool}
    (hflags : p.node.flags = some (g, ending)) (hpast : p.PastLiterals ignoreCase)
    (hnext : p.node.FlagsNext p.context) (hflag : looksLikeFlag p.line.peekToken = true) :
    ∃ denied, p.stepAtToken ignoreCase = p.stepAtFlags denied := by
  by_cases hseen : ∃ a child, p.node.argument = some (a, child) ∧ child.permits p.context = true
  · obtain ⟨a, child, hedge, hpermitted⟩ := hseen
    obtain ⟨hoptional, hbelow⟩ := hnext a child hedge hpermitted
    obtain ⟨denied, hstep⟩ := stepAtToken_atArgument ⟨hpast, hedge, hpermitted⟩
    refine ⟨denied, ?_⟩
    rw [hstep, skips, detours, mayLeaveOut, hflag, hoptional, hbelow, hflags]
    rfl
  · refine stepAtToken_pastArgument hpast fun a child hedge => ?_
    exact Bool.eq_false_iff.mpr fun hpermitted => hseen ⟨a, child, hedge, hpermitted⟩

namespace Node.Yields

theorem pastLiterals (hc : SameStanding ctx c) (hignores : n.Ignores ignoreCase ctx token)
    {line : Line} (htoken : line.skipBlank.peekToken = token) :
    (Position.skipBlank { node := n, context := c, line, atRoot }).PastLiterals ignoreCase := by
  intro l child hfound
  rw [← htoken] at hignores
  exact (hc.sender.permits_eq child).trans (hignores l child hfound)

/-- The flags of the node are read. -/
theorem flagsGiven (hflags : n.flags = some (g, ending)) (hnext : n.FlagsNext ctx)
    (hbegins : Token.Begins words token) (hignores : n.Ignores ignoreCase ctx token)
    (hflag : looksLikeFlag token = true) {effect : Context → Prop}
    (htakes : g.Takes ctx words effect)
    (hfound : ending.find? (Entry.serves ctx) = some e)
    (hQ : ∀ c, SameSender ctx c → effect c → Q ⟨e, c⟩) :
    n.Yields ignoreCase ctx atRoot words Q := by
  intro c line hc hline
  obtain ⟨hleft, htoken⟩ := hbegins line hline
  obtain ⟨value, hreads, hsender, heffect⟩ := htakes c _ hc hline.skipBlank
  obtain ⟨denied, hstep⟩ := Position.stepAtToken_flagsNext
    (p := Position.skipBlank { node := n, context := c, line, atRoot }) hflags
    (pastLiterals hc hignores htoken)
    (fun a child hedge hpermitted =>
      hnext a child hedge ((hc.sender.permits_eq child).symm.trans hpermitted))
    (by rw [← htoken] at hflag; exact hflag)
  have hpermitted : Node.anyPermitted c ending = true :=
    (hc.sender.anyPermitted_eq ending).trans (Node.anyPermitted_of_find hfound)
  rw [← hsender.serves_eq] at hfound
  refine ⟨_, Position.run_of_arrive ?_, hQ _ hsender heffect⟩
  rw [Position.step_of_token hleft, hstep, Position.stepAtFlags]
  simp only [Position.skipBlank, hflags, hpermitted, if_true, Position.readFlags, hreads]
  exact Step.select_of_find hfound

/-- A literal is written in quotes. -/
theorem literal (hn : n.Orderly ignoreCase) {l : Literal} (hedge : (l, child) ∈ n.literals)
    (hpermitted : child.permits ctx = true) (hbelow : child.Yields ignoreCase ctx false words Q) :
    n.Yields ignoreCase ctx atRoot (Token.quote l.name :: words) Q := by
  intro c line hc hline
  have hstands := Token.stands_quote l.name (spaced words)
  have hanswers : l.answers ignoreCase l.name = true := by
    refine List.any_eq_true.mpr ⟨l.name, List.mem_cons_self, ?_⟩
    split <;> simp [Text.sameUpToCase]
  have hfound : n.findLiteral ignoreCase line.skipBlank.peekToken = some (l, child) := by
    rw [hline.peekToken hstands]
    exact hn.findLiteral_of_answers hedge hanswers
  have hstep := Position.stepAtToken_word
    (p := Position.skipBlank { node := n, context := c, line, atRoot }) hfound
    ((hc.sender.permits_eq child).trans hpermitted)
  rw [← Position.step_of_token (hline.isBlank_cons hstands)] at hstep
  obtain ⟨r, hrun, hr⟩ := hbelow c _ hc (hline.skipToken hstands)
  exact ⟨r, (Position.run_of_descend hstep).trans hrun, hr⟩

/-- The argument is read, unless its first token makes the router leave it out. -/
theorem argument (hedge : n.argument = some (a, child)) (hpermitted : child.permits ctx = true)
    (hbegins : Token.Begins (words ++ more) token) (hignores : n.Ignores ignoreCase ctx token)
    (hstays : a.isRequired = true ∨ looksLikeFlag token = false)
    (htakes : Reader.Takes a.read ctx words more)
    (hbelow : child.Yields ignoreCase ctx false more Q) :
    n.Yields ignoreCase ctx atRoot (words ++ more) Q := by
  intro c line hc hline
  obtain ⟨hleft, htoken⟩ := hbegins line hline
  obtain ⟨value, hreads, hafter, hmore⟩ := htakes c _ hc hline.skipBlank
  have hstanding : SameStanding ctx
      (Position.argumentRead a line.skipBlank value (a.read c line.skipBlank)) :=
    ⟨hafter.sender, hafter.flags⟩
  obtain ⟨r, hrun, hr⟩ := hbelow _ _ hstanding hmore
  have hmay : Position.mayLeaveOut
      (Position.skipBlank { node := n, context := c, line, atRoot }) a = false := by
    rw [Position.mayLeaveOut, Position.skipBlank, htoken]
    rcases hstays with hrequired | hother
    · rw [hrequired, Bool.not_true, Bool.and_false]
    · rw [hother, Bool.false_and]
  obtain ⟨denied, hstep⟩ := Position.stepAtToken_atArgument
    (p := Position.skipBlank { node := n, context := c, line, atRoot })
    ⟨pastLiterals hc hignores htoken, hedge, (hc.sender.permits_eq child).trans hpermitted⟩
  rw [← Position.step_of_token hleft, Position.skips, Position.detours, hmay] at hstep
  simp only [Bool.false_and, Bool.false_eq_true, if_false, Position.readArgument,
    Position.skipBlank, hreads] at hstep
  exact ⟨r, (Position.run_of_descend hstep).trans hrun, hr⟩

/-- The argument is left out in front of a flag. -/
theorem argumentLeftOut (hedge : n.argument = some (a, child))
    (hpermitted : child.permits ctx = true) (hoptional : a.isRequired = false)
    (hfills : a.Fills ctx)
    (hbegins : Token.Begins words token) (hignores : n.Ignores ignoreCase ctx token)
    (hflag : looksLikeFlag token = true) (hflags : child.flagsBelow?.isSome = true)
    (hbelow : child.Yields ignoreCase ctx false words Q) :
    n.Yields ignoreCase ctx atRoot words Q := by
  intro c line hc hline
  obtain ⟨hleft, htoken⟩ := hbegins line hline
  obtain ⟨filled, hfill, hstanding⟩ := hfills c hc
  obtain ⟨r, hrun, hr⟩ := hbelow _ _ hstanding hline.skipBlank
  obtain ⟨denied, hstep⟩ := Position.stepAtToken_atArgument
    (p := Position.skipBlank { node := n, context := c, line, atRoot })
    ⟨pastLiterals hc hignores htoken, hedge, (hc.sender.permits_eq child).trans hpermitted⟩
  have hskips : Position.skips
      (Position.skipBlank { node := n, context := c, line, atRoot }) a child = true := by
    rw [Position.skips, Position.mayLeaveOut, Position.skipBlank, htoken, hflag, hoptional, hflags]
    rfl
  rw [← Position.step_of_token hleft, if_pos hskips] at hstep
  simp only [Position.skipArgument, Position.skipBlank, hfill] at hstep
  exact ⟨r, (Position.run_of_descend hstep).trans hrun, hr⟩

/-- Words that lead from the root to an outcome make up a line that is routed to it. -/
theorem route {t : Tree} (h : t.root.Yields t.rules.ignoreCase ctx true words Q) :
    ∃ r, t.route ctx (joined " " words) = .ok r ∧ Q r :=
  h ctx _ (SameStanding.chains.refl ctx) (Line.holds_joined words)

end Node.Yields

end CommandLine
