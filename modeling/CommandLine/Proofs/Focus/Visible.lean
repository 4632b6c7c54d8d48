import CommandLine.Proofs.Focus.Rejection
import CommandLine.Proofs.Route.Visible

/-! # Suggestions without the commands that a sender may not run

    A completion should suggest what it would suggest if the commands that the sender may not run
    had been removed. On its way to the focus it takes the same edges in both trees, and at the
    focus it finds the same literals, the same argument and the same flags beside it. It looks past
    optional arguments for further flags, though, and stops at the first flag group, whoever may
    give its flags: where the sender may not, it leaves arguments out for nothing, and does not see
    the flags behind (`Tree.Built.complete_visible`). -/

namespace CommandLine

namespace Node

variable {ctx : Context} {n : Node}

/-! ## Suggestions at a node -/

/-- The sender sees flags behind a node, but a look for them finds others, which it does not see. -/
def HidesFlags (n : Node) (ctx : Context) : Prop :=
  ∃ g ending, n.flagsBelow? = some (g, ending) ∧ anyPermitted ctx ending = false ∧
    (n.visible ctx).flagsBelow? ≠ none

/-- The suggestions of a node for its literals. -/
def namesSeen (n : Node) (ctx : Context) : List Suggestion :=
  (n.literals.filter fun edge => edge.2.permits ctx).flatMap fun edge => edge.1.suggestions

/-- The suggestions of a node for its argument. -/
def suggestValues (n : Node) : Suggester := fun ctx line =>
  match n.argument with
  | none => pure []
  | some (a, child) => if child.permits ctx then a.suggest ctx line else pure []

/-- The suggestions of a node for flags. -/
def suggestFlags (n : Node) : Suggester := fun ctx line =>
  match n.flagsBelow? with
  | none => pure []
  | some (g, ending) => if anyPermitted ctx ending then g.suggest ctx line else pure []

theorem suggest_eq (n : Node) (ctx : Context) (line : Line) :
    n.suggest ctx line = do
      let values ← n.suggestValues ctx line
      let flags ← n.suggestFlags ctx line
      return n.namesSeen ctx ++ values ++ flags := by
  rw [suggest, suggestValues, suggestFlags]
  rcases n.argument with - | ⟨a, child⟩ <;> rcases n.flagsBelow? with - | ⟨g, ending⟩
  · rfl
  · dsimp only
    cases anyPermitted ctx ending <;> rfl
  · dsimp only
    cases child.permits ctx <;> rfl
  · dsimp only
    cases child.permits ctx <;> cases anyPermitted ctx ending <;> rfl

theorem namesSeen_visible (n : Node) (ctx : Context) :
    (n.visible ctx).namesSeen ctx = n.namesSeen ctx := by
  have hstays : ((fun edge : Literal × Node => edge.2.permits ctx) ∘
      fun edge : Literal × Node => (edge.1, edge.2.visible ctx)) = fun edge => edge.2.permits ctx :=
    funext fun edge => edge.2.permits_visible ctx
  rw [namesSeen, visible_literals, List.filter_map, hstays, List.filter_filter, List.flatMap_map]
  simp only [Bool.and_self]
  rfl

theorem suggestValues_visible (n : Node) (ctx : Context) (line : Line) :
    (n.visible ctx).suggestValues ctx line = n.suggestValues ctx line := by
  rw [suggestValues, suggestValues, visible_argument]
  rcases n.argument with - | ⟨a, child⟩
  · rfl
  · rw [Option.filter_some]
    cases hpermits : child.permits ctx with
    | true => simp only [if_true, Option.map_some, permits_visible, hpermits]
    | false => simp only [Bool.false_eq_true, if_false, Option.map_none, hpermits]

theorem suggestFlags_visible (hhides : ¬n.HidesFlags ctx) (line : Line) :
    (n.visible ctx).suggestFlags ctx line = n.suggestFlags ctx line := by
  rw [suggestFlags, suggestFlags]
  cases hbelow : n.flagsBelow? with
  | none => rw [flagsBelow?_visible_of_none hbelow]
  | some flags =>
      obtain ⟨g, ending⟩ := flags
      cases hpermitted : anyPermitted ctx ending with
      | true =>
          rw [flagsBelow?_visible_of_permitted hbelow hpermitted]
          simp only [anyPermitted_filter, hpermitted]
      | false =>
          have hnone : (n.visible ctx).flagsBelow? = none := by
            by_contra hseen
            exact hhides ⟨g, ending, hbelow, hpermitted, hseen⟩
          rw [hnone]
          simp only [hpermitted, Bool.false_eq_true, if_false]

/-- At a node that hides no flags, a sender gets the suggestions of what it sees. -/
theorem suggest_visible (hhides : ¬n.HidesFlags ctx) (line : Line) :
    (n.visible ctx).suggest ctx line = n.suggest ctx line := by
  rw [suggest_eq, suggest_eq, namesSeen_visible, suggestValues_visible,
    suggestFlags_visible hhides]

end Node

namespace Focus

/-- The same focus with what the sender sees of it. -/
def trim : Focus → Focus
  | .node n ctx line => .node (n.visible ctx) ctx line
  | found => found

/-- The focus is on a node that hides flags. -/
def Exposed : Focus → Prop
  | .node n ctx _ => n.HidesFlags ctx
  | _ => False

theorem suggest_trim {found : Focus} (h : ¬found.Exposed) : found.trim.suggest = found.suggest := by
  cases found with
  | node n ctx line => exact Node.suggest_visible h line
  | _ => rfl

end Focus

namespace Position

variable {ignoreCase : Bool} {p q : Position} {a : Argument} {child : Node}

/-- What becomes of an edge or a focus when only what the sender sees is left. -/
def trimAdvance : Except Focus Position → Except Focus Position
  | .ok q => .ok q.trim
  | .error found => .error found.trim

theorem focusOnFlags_past (h : p.PastFlags) : p.focusOnFlags = .nowhere := by
  rw [focusOnFlags]
  split
  · rfl
  · next g ending hedge => exact if_neg (Bool.eq_false_iff.mp (h g ending hedge))

theorem SeesFlags.focusOnFlags {g : FlagGroup} {ending : List Entry} (h : p.SeesFlags g ending) :
    p.focusOnFlags = .flags g p.context p.line := by
  rw [Position.focusOnFlags, h.edge]
  exact if_pos h.permitted

theorem focusOnFlags_trim : p.trim.focusOnFlags = p.focusOnFlags.trim := by
  rcases p.flags_cases with hpast | ⟨g, ending, hsees⟩
  · rw [focusOnFlags_past hpast, focusOnFlags_past hpast.trim]
    rfl
  · rw [hsees.focusOnFlags, hsees.trim.focusOnFlags]
    rfl

theorem advanceArgument_trim (ha : (Component.argument a).Within .keepingSender) :
    p.trim.advanceArgument a (child.visible p.context) =
      trimAdvance (p.advanceArgument a child) := by
  obtain ⟨hparser, -⟩ := ha.argument
  rw [trim, advanceArgument, advanceArgument]
  simp only
  split
  · next value _ =>
      split
      · rfl
      · -- the parser leaves the sender alone, who sees the same as before
        have hread : SameSender p.context ((a.read p.context p.line).context.store a.name value) :=
          Argument.keeps_read SameSender.chains Allowed.keepingSender_keeps hparser p.context p.line
        rw [← Node.visible_eq_of_sameSender hread]
        rfl
  · split <;> rfl

/-- Where the next token is for no argument, a completion looks for flags. -/
theorem advance_pastArgument (further : p.line.isLastToken = false)
    (past : p.PastLiterals ignoreCase) (h : p.PastArgument) :
    p.advance ignoreCase = .error p.focusOnFlags := by
  rw [advance_pastLiterals further past, advancePastLiterals]
  split
  · rfl
  · next a child hedge => rw [h a child hedge, Bool.not_false, if_pos rfl]

/-- An argument is left out for the sake of flags behind it. -/
theorem advance_leavingOut (further : p.line.isLastToken = false)
    (hat : p.AtArgument ignoreCase a child) (hskips : p.skips a child = true) :
    p.advance ignoreCase = .ok { node := child, context := p.context, line := p.line } := by
  rw [advance_pastLiterals further hat.past, advancePastLiterals, hat.edge]
  simp only [hat.permitted, Bool.not_true, Bool.false_eq_true, if_false]
  exact if_pos hskips

/-- Through what is visible a completion passes the same edge, or finds the same focus. -/
theorem advance_trim (horderly : p.node.Orderly ignoreCase)
    (hn : p.node.Carries (Component.Within .keepingSender)) (hskips : ¬p.SkipsHidden ignoreCase) :
    p.trim.advance ignoreCase = trimAdvance (p.advance ignoreCase) := by
  cases hlast : p.line.isLastToken with
  | true =>
      rw [advance_of_last ignoreCase hlast, advance_of_last (p := p.trim) ignoreCase hlast]
      rfl
  | false =>
      rcases p.literal_cases ignoreCase with hpast | ⟨l, child, hfound, hpermits⟩
      · rcases p.argument_cases with hnoArgument | ⟨a, child, hsees⟩
        · rw [advance_pastArgument hlast hpast hnoArgument,
            advance_pastArgument (p := p.trim) hlast (hpast.trim horderly) hnoArgument.trim]
          exact congrArg _ focusOnFlags_trim
        · have hat : p.AtArgument ignoreCase a child := ⟨hpast, hsees.edge, hsees.permitted⟩
          have hsame := trim_skips hat hskips
          cases hskip : p.skips a child with
          | true =>
              rw [advance_leavingOut hlast hat hskip,
                advance_leavingOut (p := p.trim) hlast (hat.trim horderly) (hsame.trans hskip)]
              rfl
          | false =>
              rw [advance_atArgument hlast hat hskip,
                advance_atArgument (p := p.trim) hlast (hat.trim horderly) (hsame.trans hskip)]
              exact advanceArgument_trim (hn.argument a child hsees.edge)
      · have hseen : (child.visible p.context).permits p.context = true :=
          (child.permits_visible p.context).trans hpermits
        rw [advance_word hlast hfound hpermits,
          advance_word (p := p.trim) hlast (trim_literal horderly hfound hpermits) hseen]
        rfl

/-- Where a completion leaves out no argument for flags that the sender does not see, it finds the
    same focus through what is visible. -/
theorem focus_trim (horderly : p.node.Everywhere (Node.Orderly ignoreCase))
    (hn : p.node.Everywhere (Node.Carries (Component.Within .keepingSender)))
    (hskips : ∀ n q, turns (replayed ignoreCase) n p = some q → ¬q.SkipsHidden ignoreCase) :
    p.trim.focus ignoreCase = (p.focus ignoreCase).trim := by
  have hadvance := advance_trim horderly.here hn.here (hskips 0 p rfl)
  fun_induction focus ignoreCase p with
  | case1 p q hpasses ih =>
      rw [hpasses] at hadvance
      have hreplayed : p.replayed ignoreCase = some q := by rw [replayed, hpasses]
      have horderly' := everywhere_replayed horderly hreplayed
      have hn' := everywhere_replayed hn hreplayed
      have hskips' : ∀ n u, turns (replayed ignoreCase) n q = some u →
          ¬u.SkipsHidden ignoreCase :=
        fun n u hu => hskips (n + 1) u (turns_head hreplayed hu)
      have hshown : turns (replayed ignoreCase) 1 p.trim = some q.trim := by
        rw [turns, turns, Option.bind_some, replayed, hadvance]
        rfl
      rw [← ih horderly' hn' hskips' (advance_trim horderly'.here hn'.here (hskips' 0 q rfl))]
      exact focus_eq_of_turns hshown
  | case2 p found hstop =>
      rw [hstop] at hadvance
      exact focus_of_advance hadvance

end Position

/-- What is suggested at the focus decides what a completion gives. -/
theorem Tree.complete_congr {t t' : Tree} {ctx : Context} {text : String} {cursor : Nat}
    (h : (t'.focus ctx (.upTo text cursor)).suggest = (t.focus ctx (.upTo text cursor)).suggest)
    (limits : Limits) : t'.complete limits ctx text cursor = t.complete limits ctx text cursor := by
  rw [Line.upTo] at h
  simp only [complete, h]

/-- Removing the commands that a sender may not run, in any order, makes no difference to what the
    sender is suggested, within any limits, as long as the completion leaves out no argument for
    flags that the sender does not see, and does not end where such flags hide others. -/
theorem Tree.Built.complete_visible {t : Tree} (ht : t.Built (Component.Within .keepingSender))
    (hunlocked : t.checkUnlocked = .ok ()) (ctx : Context) (text : String) (cursor : Nat)
    {denied : List Entry} (hdenied : denied.Perm (t.deniedTo ctx)) :
    ∃ t', t.removeEach denied = .ok t' ∧
      ((∀ n p, turns (Position.replayed t.rules.ignoreCase) n
          (Position.start t ctx (.upTo text cursor)) = some p →
            ¬p.SkipsHidden t.rules.ignoreCase) →
        ¬(t.focus ctx (.upTo text cursor)).Exposed →
        ∀ limits, t'.complete limits ctx text cursor = t.complete limits ctx text cursor) := by
  have hcarries : t.root.Everywhere (Node.Carries (Component.Within .keepingSender)) :=
    ht.carries fun _ _ _ hold => ⟨hold.parsers, hold.keys⟩
  refine ⟨_, ht.reachable.remove_denied hunlocked hdenied, fun hskips hexposed limits => ?_⟩
  have hfocus : Tree.focus { t with root := t.root.visible ctx } ctx (.upTo text cursor) =
      (t.focus ctx (.upTo text cursor)).trim :=
    Position.focus_trim (p := .start t ctx (.upTo text cursor)) ht.reachable.orderly hcarries hskips
  have hsuggest : (Tree.focus { t with root := t.root.visible ctx } ctx
      (.upTo text cursor)).suggest = (t.focus ctx (.upTo text cursor)).suggest := by
    rw [hfocus, Focus.suggest_trim hexposed]
  exact Tree.complete_congr hsuggest limits

/-- `say twice`. -/
def Command.sayTwice : Command where
  components := [.literal { name := "say" }, .literal { name := "twice" }]

/-- `say [text] --force`. -/
def Command.sayForce : Command where
  components :=
    [.literal { name := "say" },
     .argument { name := "text", parser := .text .word, need := .optional none },
     .flags { flags := [{ name := "force" }] }]

/-- A tree with two words, one of which not everybody may type. -/
def Tree.echoing : Tree :=
  Tree.calling.apply (.insert .sayTwice)

/-- A tree with flags before and behind an argument, the former not for everybody. -/
def Tree.forcing : Tree :=
  (({} : Tree).apply (.insert .sayForce)).apply (.insert .saySilent)

theorem Tree.echoing_built : Tree.echoing.Built (Component.Within .keepingSender) := by
  refine .edit Tree.calling_built _ ?_
  rintro c ⟨⟩
  simp only [Command.sayTwice, List.forall_mem_cons]
  exact ⟨.literal "say", .literal "twice", by simp⟩

/-- The place behind the word `say`, with the word `twice` beside the word `aloud`. -/
def Position.echoed : Position where
  node := { Node.empty with
    literals := [({ name := "aloud" }, { Node.empty with ending := [⟨1, .sayAloud⟩] }),
      ({ name := "twice" }, { Node.empty with ending := [⟨2, .sayTwice⟩] })]
    argument := some ({ name := "text", parser := .text .word, need := .optional none },
      { Node.empty with ending := [⟨0, .sayText⟩] }) }
  context := .ofRight ""
  line := ⟨"say".toList, " ".toList⟩

/-- The completion of `say ` comes by the word alone. -/
theorem Position.turns_echoing {n : Nat} {p : Position}
    (h : turns (replayed false) n (.start Tree.echoing (.ofRight "") (.upTo "say " 4)) = some p) :
    p = .start Tree.echoing (.ofRight "") (.upTo "say " 4) ∨ p = .echoed := by
  have hechoed : (Position.start Tree.echoing (.ofRight "") (.upTo "say " 4)).replayed false =
      some .echoed := rfl
  have hend : Position.echoed.replayed false = none := rfl
  refine turns_keep (I := fun p => p = .start Tree.echoing (.ofRight "") (.upTo "say " 4) ∨
    p = .echoed) (.inl rfl) ?_ h
  rintro v u (rfl | rfl) hu
  · cases hechoed.symm.trans hu
    exact .inr rfl
  · cases hend.symm.trans hu

/-- Without the right to be loud, `twice` is suggested behind `say`, with `say aloud` in the tree
    and without it. -/
theorem Tree.complete_visible_echoing :
    Tree.echoing.Built (Component.Within .keepingSender) ∧
      Tree.echoing.checkUnlocked = .ok () ∧
      [⟨1, .sayAloud⟩].Perm (Tree.echoing.deniedTo (.ofRight "")) ∧
      ∃ t', Tree.echoing.removeEach [⟨1, .sayAloud⟩] = .ok t' ∧
        (Tree.echoing.complete {} (.ofRight "") "say " 4 {}).1.list = [.ofText "twice"] ∧
        (t'.complete {} (.ofRight "") "say " 4 {}).1.list = [.ofText "twice"] := by
  have hdenied : [⟨1, .sayAloud⟩].Perm (Tree.echoing.deniedTo (.ofRight "")) := .of_eq rfl
  obtain ⟨t', hremoved, hsame⟩ :=
    Tree.Built.complete_visible Tree.echoing_built rfl (.ofRight "") "say " 4 hdenied
  have hlist : (Tree.echoing.complete {} (.ofRight "") "say " 4 {}).1.list =
      [.ofText "twice"] := by decide +kernel
  refine ⟨Tree.echoing_built, rfl, hdenied, t', hremoved, hlist, ?_⟩
  rw [hsame ?_ ?_ {}, hlist]
  · rintro n p hreached ⟨a, child, hat, hskips, -⟩
    rcases Position.turns_echoing hreached with rfl | rfl
    · cases hat.edge
    · cases hskips
  · rw [Tree.focus, Position.focus_eq_of_turns (n := 1) (q := .echoed) rfl,
      Position.focus_of_advance rfl]
    rintro ⟨g, ending, hbelow, -, -⟩
    cases hbelow

/-- Flags that a sender may not give hide others, which are suggested when the command of the former
    is removed. -/
theorem Tree.completion_hides_flags :
    ∃ t', Tree.forcing.Reachable ∧ Tree.forcing.checkUnlocked = .ok () ∧
      [⟨1, .saySilent⟩].Perm (Tree.forcing.deniedTo (.ofRight "")) ∧
      Tree.forcing.removeEach [⟨1, .saySilent⟩] = .ok t' ∧
      (t'.complete {} (.ofRight "") "say " 4 {}).1.list = [.ofText "--force"] ∧
      (Tree.forcing.complete {} (.ofRight "") "say " 4 {}).1.list = [] := by
  have hreachable : Tree.forcing.Reachable := ⟨_, .edit (.edit (.fresh rfl) _) _⟩
  have hdenied : [⟨1, .saySilent⟩].Perm (Tree.forcing.deniedTo (.ofRight "")) := .of_eq rfl
  exact ⟨_, hreachable, rfl, hdenied, hreachable.remove_denied rfl hdenied, by decide +kernel,
    by decide +kernel⟩

end CommandLine
