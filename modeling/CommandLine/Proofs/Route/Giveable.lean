import CommandLine.Proofs.Route.Open
import CommandLine.Proofs.Route.Spelling
import CommandLine.Proofs.Tree.Ordering
import Mathlib.Data.List.Chain

/-! # Flags that can be given

    In a tree with one command nothing is in front of its flags but the command's own words and
    arguments. Where these can be given or left out (`Component.Passable`), every flag of the group
    that the sender may give can be given by its name and by each alias that is its own, if they
    start with a letter (`Tree.marks_flag`).

    Negative numbers should not be taken for flags, so a group looks for flags only in tokens in
    which a letter comes after the hyphens. This refuses more than numbers: a flag with another name
    and no alias is never given, although it is suggested (`Tree.digits_never_mark`). -/

namespace CommandLine

open Text

variable {P : Type} {ctx : Context} {c : Command} {ignoreCase : Bool} {rules : Rules} {e : Entry}
  {g : FlagGroup} {front : List Component} {a : Argument}

/-! ## What comes before the flags -/

/-- An argument reads some words, and the router lets it, whatever token comes behind them; if it
    may read all that is left, then whatever looks like a flag. -/
structure Argument.Receives (a : Argument) (ctx : Context) (words : List String) : Prop where
  begins : ∃ first, (∀ more, Token.Begins (words ++ more) first) ∧
    (a.isRequired = true ∨ looksLikeFlag first = false)
  takes : ∀ more token, Token.Begins more token →
    (a.parser.greedy = true → looksLikeFlag token = true) → Reader.Takes a.read ctx words more

/-- A simple argument receives digits, unless it reads all that is left of a line. -/
theorem Argument.Simple.receives (ha : a.Simple) (hspares : a.parser ≠ .text .rest) :
    a.Receives ctx [Token.zeros 0] := by
  constructor
  · exact ⟨_, fun more => (Token.stands_zeros 0 more).begins, Or.inr (Token.looksLikeFlag_zeros 0)⟩
  · intro more token hbegins hflag c line hc hline
    rw [ha.read_eq]
    exact ha.parser.takes_zeros 0 (fun hgreedy => Or.inr ⟨token, hbegins, hflag hgreedy⟩)
      (fun hrest => absurd hrest hspares) c line hc hline

/-- An argument that can be left out. -/
def Component.Omissible (ctx : Context) (x : Component) : Prop :=
  ∃ a, x = .argument a ∧ a.isRequired = false ∧ a.Fills ctx

/-- Literals and arguments that a line can pass on the way to flags: the arguments are given some
    words, and from some place on all are left out. -/
inductive Component.Passable (ctx : Context) : List Component → Prop where
  | omitted {front : List Component} (optional : ∀ x ∈ front, x.Omissible ctx) :
      Passable ctx front
  | literal {l : Literal} {front : List Component} (below : Passable ctx front) :
      Passable ctx (.literal l :: front)
  | argument {a : Argument} {words : List String} {front : List Component}
      (receives : a.Receives ctx words) (below : Passable ctx front) :
      Passable ctx (.argument a :: front)

/-- No flag group comes before the flags. -/
theorem Component.Passable.not_flags (h : Passable ctx front) :
    ∀ x ∈ front.head?, x.isFlags = false := by
  cases h with
  | omitted optional =>
      intro x hx
      obtain ⟨a, rfl, -⟩ := optional x (List.mem_of_mem_head? hx)
      rfl
  | literal _ =>
      rintro x ⟨⟩
      rfl
  | argument _ _ =>
      rintro x ⟨⟩
      rfl

/-- In a valid command only flags follow what may read all that is left of a line. -/
theorem Command.flows_of_validate {c : Command} (h : c.validate = .ok ()) :
    c.components.IsChain Component.Flows := by
  rw [List.isChain_iff_getElem]
  intro i hi hgreedy
  exact (precedes_of_validate h (List.getElem?_eq_getElem (by omega))
    (List.getElem?_eq_getElem hi)).greedy hgreedy

namespace Node

/-- Where a command ends that serves the sender, it may go. -/
theorem permits_of_serves {n : Node} (he : e ∈ n.entries) (hserves : Entry.serves ctx e = true) :
    n.permits ctx = true :=
  List.any_eq_true.mpr ⟨e, he, (Bool.and_eq_true_iff.mp hserves).1⟩

/-- Some words lead from a node to a command, in front of words that its flag group takes. -/
def LeadsToFlags (ignoreCase : Bool) (ctx : Context) (e : Entry) (g : FlagGroup) (n : Node)
    (words : List String) : Prop :=
  ∀ (more : List String) (token : String) (effect : Context → Prop), Token.Begins more token →
    looksLikeFlag token = true → g.Takes ctx more effect → ∀ atRoot,
    n.Yields ignoreCase ctx atRoot (words ++ more) fun r => r.entry = e ∧ effect r.context

/-- Where a node has no literals, no token selects one. -/
theorem ignores_of_no_literals {n : Node} (hnone : n.literals = []) (token : String) :
    n.Ignores ignoreCase ctx token := by
  intro l child hfound
  rw [findLiteral, hnone] at hfound
  cases hfound

namespace LeadsToFlags

variable {n child : Node} {words taken : List String} {ending : List Entry}

/-- At the flags no words are needed. -/
theorem here (hliterals : n.literals = []) (hargument : n.argument = none)
    (hflags : n.flags = some (g, ending))
    (hfound : ending.find? (Entry.serves ctx) = some e) : n.LeadsToFlags ignoreCase ctx e g [] := by
  intro more token effect hbegins hlooks htakes atRoot
  refine .flagsGiven hflags ?_ hbegins (ignores_of_no_literals hliterals token) hlooks htakes hfound
    fun c _ heffect => ⟨rfl, heffect⟩
  intro a child hedge
  cases hargument.symm.trans hedge

theorem argumentLeftOut (hliterals : n.literals = []) (hedge : n.argument = some (a, child))
    (hpermitted : child.permits ctx = true) (hoptional : a.isRequired = false)
    (hfills : a.Fills ctx) (hflags : child.flagsBelow?.isSome = true)
    (h : child.LeadsToFlags ignoreCase ctx e g []) : n.LeadsToFlags ignoreCase ctx e g [] := by
  intro more token effect hbegins hlooks htakes atRoot
  exact .argumentLeftOut hedge hpermitted hoptional hfills hbegins
    (ignores_of_no_literals hliterals token) hlooks hflags
    (h more token effect hbegins hlooks htakes false)

theorem literal {l : Literal} (hn : n.Orderly ignoreCase) (hedge : (l, child) ∈ n.literals)
    (hpermitted : child.permits ctx = true) (h : child.LeadsToFlags ignoreCase ctx e g words) :
    n.LeadsToFlags ignoreCase ctx e g (Token.quote l.name :: words) := by
  intro more token effect hbegins hlooks htakes atRoot
  exact .literal hn hedge hpermitted (h more token effect hbegins hlooks htakes false)

/-- An argument receives its words in front of those that come behind it, the flags included. -/
theorem argument (hliterals : n.literals = []) (hedge : n.argument = some (a, child))
    (hpermitted : child.permits ctx = true) (hreceives : a.Receives ctx taken)
    (hbehind : ∀ more token, Token.Begins more token → looksLikeFlag token = true →
      ∃ first, Token.Begins (words ++ more) first ∧
        (a.parser.greedy = true → looksLikeFlag first = true))
    (h : child.LeadsToFlags ignoreCase ctx e g words) :
    n.LeadsToFlags ignoreCase ctx e g (taken ++ words) := by
  intro more token effect hbegins hlooks htakes atRoot
  obtain ⟨start, hstart, hstays⟩ := hreceives.begins
  obtain ⟨first, hfirst, hgreedy⟩ := hbehind more token hbegins hlooks
  rw [List.append_assoc]
  exact .argument hedge hpermitted (hstart _) (ignores_of_no_literals hliterals start) hstays
    (hreceives.takes _ first hfirst hgreedy) (h more token effect hbegins hlooks htakes false)

end LeadsToFlags

/-- Arguments that can be left out are passed without words. -/
theorem Inserted.leadsToFlags_omitted {n : Node}
    (h : Inserted rules e (front ++ [.flags g]) empty n)
    (hfront : ∀ x ∈ front, x.Omissible ctx) (hserves : Entry.serves ctx e = true) :
    n.LeadsToFlags ignoreCase ctx e g [] ∧ n.flagsBelow?.isSome = true := by
  induction front generalizing n with
  | nil =>
      rw [List.nil_append] at h
      cases h with
      | newFlags vacant =>
          have hsettle : settle rules e [] = [e] := by rw [settle]; split <;> rfl
          refine ⟨.here rfl rfl rfl ?_, rfl⟩
          rw [hsettle]
          exact List.find?_cons_of_pos hserves
      | sharedFlags taken _ _ => cases taken
  | cons x front ih =>
      obtain ⟨⟨a, rfl, hoptional, hfills⟩, hrest⟩ := List.forall_mem_cons.mp hfront
      rw [List.cons_append] at h
      cases h with
      | newArgument vacant below =>
          obtain ⟨hleads, hflags⟩ := ih below hrest
          refine ⟨.argumentLeftOut rfl rfl (permits_of_serves below.mem_entries hserves) hoptional
            hfills hflags hleads, ?_⟩
          rw [flagsBelow?_eq]
          simpa [empty, hoptional] using hflags
      | sharedArgument taken _ _ => cases taken

/-- What can be passed is passed with some words. -/
theorem Inserted.leadsToFlags {n : Node} (hfront : Component.Passable ctx front)
    (h : Inserted rules e (front ++ [.flags g]) empty n)
    (hflows : List.IsChain Component.Flows (front ++ [.flags g]))
    (hserves : Entry.serves ctx e = true) :
    ∃ words, n.LeadsToFlags rules.ignoreCase ctx e g words ∧
      ∀ more token, Token.Begins more token →
        ∃ first, Token.Begins (words ++ more) first ∧ (front = [] → first = token) := by
  have horderly : n.Orderly rules.ignoreCase := (h.orderly (everywhere_orderly_empty _)).here
  induction hfront generalizing n with
  | omitted optional =>
      obtain ⟨hleads, -⟩ := h.leadsToFlags_omitted optional hserves
      exact ⟨[], hleads, fun more token hbegins => ⟨token, hbegins, fun _ => rfl⟩⟩
  | @literal l front below ih =>
      rw [List.cons_append] at h hflows
      obtain ⟨-, hflows⟩ := List.isChain_cons.mp hflows
      cases h with
      | newLiteral apart vacant hbelow =>
          obtain ⟨words, hleads, -⟩ :=
            ih hbelow hflows (hbelow.orderly (everywhere_orderly_empty _)).here
          refine ⟨_, .literal horderly (List.mem_singleton_self _)
            (permits_of_serves hbelow.mem_entries hserves) hleads, fun more token _ => ?_⟩
          refine ⟨l.name, (Token.stands_quote l.name _).begins, fun hnone => ?_⟩
          cases hnone
      | sharedLiteral _ split _ _ _ => simp [empty] at split
  | @argument a taken front receives below ih =>
      rw [List.cons_append] at h hflows
      obtain ⟨hnext, hflows⟩ := List.isChain_cons.mp hflows
      cases h with
      | newArgument vacant hbelow =>
          obtain ⟨words, hleads, hfirst⟩ :=
            ih hbelow hflows (hbelow.orderly (everywhere_orderly_empty _)).here
          refine ⟨_, .argument rfl rfl (permits_of_serves hbelow.mem_entries hserves) receives ?_
            hleads, fun more token _ => ?_⟩
          · intro more token hbegins hlooks
            obtain ⟨first, hbehind, hsame⟩ := hfirst more token hbegins
            refine ⟨first, hbehind, fun hgreedy => ?_⟩
            -- only the flags are behind what may read all that is left
            cases front with
            | nil => rw [hsame rfl, hlooks]
            | cons x front => cases (below.not_flags x rfl).symm.trans (hnext x rfl hgreedy)
          · obtain ⟨start, hstart, -⟩ := receives.begins
            rw [List.append_assoc]
            exact ⟨start, hstart _, fun hnone => by cases hnone⟩
      | sharedArgument taken _ _ => cases taken

end Node

/-! ## Giving a flag -/

/-- Some words before and behind it make any word that stands for a token part of a line that leads
    to a command and marks a flag. The token itself stands for itself if it is plain, and in quotes
    it always does. -/
def Tree.Marks (t : Tree) (ctx : Context) (e : Entry) (token name : String) : Prop :=
  ∃ front value : List String, ∀ word : String, Token.Stands word.toList token (spaced value) →
    ∃ r, t.route ctx (joined " " (front ++ word :: value)) = .ok r ∧ r.entry = e ∧
      r.context.hasFlag name = true

namespace Tree

variable {t t' : Tree} {flag : Flag Parser} {token : String}

/-- In a tree with one command, a token of a flag that the sender may give marks the flag. -/
theorem marks_of_resolve (hbare : t.root = .empty) (hinsert : t.insert c = .ok (t', e))
    (hcomponents : c.components = front ++ [.flags g]) (hserves : Entry.serves ctx e = true)
    (hfront : Component.Passable ctx front) (hlooks : looksLikeFlag token = true)
    (hresolve : Flag.resolve g.flags token = some [flag]) (hadmitted : Flag.Admitted ctx [flag])
    (hvalue : ∃ value, Flag.Completes ctx [flag] value) : t'.Marks ctx e token flag.name := by
  obtain ⟨-, hvalid, hinserted, hshape⟩ := insert_ok hinsert
  have hflows := Command.flows_of_validate hvalid
  rw [hbare, hcomponents] at hinserted
  rw [hcomponents] at hflows
  obtain ⟨words, hleads, -⟩ := hinserted.leadsToFlags hfront hflows hserves
  obtain ⟨value, hcompletes⟩ := hvalue
  have hrules : t'.rules = t.rules := by rw [hshape]
  refine ⟨words, value, fun word hstands => ?_⟩
  obtain ⟨r, hroute, hentry, hmarked⟩ := Node.Yields.route (t := t') <| by
    rw [hrules]
    exact hleads _ token _ hstands.begins hlooks
      (FlagGroup.takes_token hlooks hresolve hadmitted hstands hcompletes) true
  exact ⟨r, hroute, hentry, hmarked flag (List.mem_singleton_self flag)⟩

/-- In a tree with one command, every flag that the sender may give, with a value that its parser
    accepts if it takes one, can be given by its name, and by each alias that no other flag has, if
    they start with a letter. -/
theorem marks_flag (hbare : t.root = .empty) (hinsert : t.insert c = .ok (t', e))
    (hcomponents : c.components = front ++ [.flags g]) (hserves : Entry.serves ctx e = true)
    (hfront : Component.Passable ctx front) (hflag : flag ∈ g.flags)
    (hgrants : ctx.grants flag.permission = true)
    (hnew : flag.repeatable = true ∨ ctx.hasFlag flag.name = false)
    (hvalue : ∃ value, Flag.Completes ctx [flag] value) :
    (startsWithLetter flag.name.toList = true → t'.Marks ctx e ("--" ++ flag.name) flag.name) ∧
      ∀ short ∈ flag.aliases, startsWithLetter short.toList = true →
        (∀ other ∈ g.flags, short ∈ other.aliases → other = flag) →
        t'.Marks ctx e ("-" ++ short) flag.name := by
  have hadmitted : Flag.Admitted ctx [flag] :=
    ⟨List.forall_mem_singleton.mpr ⟨hgrants, hnew⟩, List.pairwise_singleton _ _⟩
  constructor
  · intro hletter
    -- the names of the flags are keys, and a valid command has none of these twice
    have hnames : (g.flags.map (·.name)).Nodup := by
      obtain ⟨-, hvalid, -⟩ := insert_ok hinsert
      have hkeys := Command.nodup_keysAlong_of_validate hvalid
      rw [hcomponents, Component.keysAlong, List.flatMap_append, List.flatMap_singleton] at hkeys
      exact hkeys.of_append_right
    refine marks_of_resolve hbare hinsert hcomponents hserves hfront
      ((looksLikeFlag_name flag.name).trans hletter) ?_ hadmitted hvalue
    rw [Flag.resolve_name, Flag.withName_of_nodup hnames hflag]
    rfl
  · intro short hshort hletter hown
    exact marks_of_resolve hbare hinsert hcomponents hserves hfront (looksLikeFlag_alias hletter)
      (Flag.resolve_alias (ne_hyphen_of_letter hletter) (Flag.withAlias_of_own hflag hshort hown))
      hadmitted hvalue

end Tree

/-- A flag whose value is a number. -/
def Flag.level : Flag Parser where
  name := "level"
  aliases := ["l"]
  value := some (.integer 0 9)

/-- A flag group with that flag. -/
def FlagGroup.kicking : FlagGroup where
  flags := [{ name := "silent", aliases := ["s"] }, .level]

/-- `kick <player> [reason] --silent --level`. -/
def Command.kick : Command where
  components :=
    [.literal { name := "kick" },
     .argument { name := "player", parser := .text .word },
     .argument { name := "reason", parser := .text .word, need := .optional none },
     .flags .kicking]

/-- Behind a player, with or without a reason, the level can be given. -/
theorem Tree.marks_level :
    ∃ t' e front g, ({} : Tree).insert .kick = .ok (t', e) ∧
      Command.kick.components = front ++ [.flags g] ∧
      Entry.serves (.ofRight "kick") e = true ∧ Component.Passable (.ofRight "kick") front ∧
      Flag.level ∈ g.flags ∧ t'.Marks (.ofRight "kick") e "--level" "level" ∧
      t'.Marks (.ofRight "kick") e "-l" "level" := by
  have hplayer : ({ name := "player", parser := .text .word } : Argument).Simple :=
    ⟨.text .word, by simp⟩
  have hreason : (Component.argument
      { name := "reason", parser := .text .word, need := .optional none }).Omissible
        (.ofRight "kick") :=
    ⟨_, rfl, rfl, fun c hc => ⟨c, rfl, hc⟩⟩
  have hfront : Component.Passable (.ofRight "kick")
      [.literal { name := "kick" }, .argument { name := "player", parser := .text .word },
       .argument { name := "reason", parser := .text .word, need := .optional none }] :=
    .literal (.argument (hplayer.receives (by simp)) (.omitted (by simpa using hreason)))
  have hvalue : ∃ value, Flag.Completes (.ofRight "kick") [.level] value := by
    have hnumber : (Parser.integer 0 9).Simple := .integer (by decide) (by decide)
    exact ⟨[Token.zeros 0], .value rfl (Token.stands_zeros 0 []).begins
      (hnumber.takes_zeros 0 (fun _ => Or.inl rfl) fun _ => rfl)⟩
  have hlevel : Flag.level ∈ FlagGroup.kicking.flags := by simp [FlagGroup.kicking]
  have hinsert : ({} : Tree).insert .kick = .ok (_, ⟨0, .kick⟩) := rfl
  refine ⟨_, _, _, _, hinsert, rfl, rfl, hfront, hlevel, ?_⟩
  obtain ⟨hname, halias⟩ :=
    Tree.marks_flag rfl hinsert rfl rfl hfront hlevel rfl (Or.inr rfl) hvalue
  refine ⟨hname (by decide +kernel), halias "l" (by simp [Flag.level]) (by decide +kernel) ?_⟩
  simp [FlagGroup.kicking]

/-! ## Flags that are never given -/

/-- A component whose flags have neither a name that starts with a letter nor aliases. -/
def Component.Mute : Component → Prop
  | .flags g => ∀ flag ∈ g.flags, startsWithLetter flag.name.toList = false ∧ flag.aliases = []
  | _ => True

/-- A flag that is found by an alias has one. -/
theorem Flag.aliases_of_withAlias {group : List (Flag P)} {flag : Flag P} {short : String}
    (h : withAlias? group short = some flag) : flag ∈ group ∧ flag.aliases ≠ [] :=
  ⟨mem_of_withAlias h, List.ne_nil_of_mem (alias_of_withAlias h)⟩

/-- A token gives a flag by its name, which starts with a letter, or by an alias. -/
theorem FlagGroup.Accepts.giveable {token : String} (h : g.Accepts ctx token) :
    ∃ flag ∈ g.flags, startsWithLetter flag.name.toList = true ∨ flag.aliases ≠ [] := by
  obtain ⟨hlooks, flags, hresolve, -⟩ := h
  rw [Flag.resolve] at hresolve
  split at hresolve
  · next name htoken =>
      obtain ⟨flag, hfound, -⟩ := Option.map_eq_some_iff.mp hresolve
      refine ⟨flag, Flag.mem_of_withName hfound, Or.inl ?_⟩
      rw [Flag.name_of_withName hfound, String.toList_ofList]
      simpa [looksLikeFlag, htoken] using hlooks
  · next letters hother htoken =>
      split at hresolve
      · next flag hfound =>
          obtain ⟨hmem, haliases⟩ := Flag.aliases_of_withAlias hfound
          exact ⟨flag, hmem, Or.inr haliases⟩
      · cases letters with
        | nil => simp [looksLikeFlag, htoken, startsWithLetter] at hlooks
        | cons letter letters =>
            -- already the first letter gives a flag
            simp only [List.mapM_cons, Option.bind_eq_bind, Option.bind_eq_some_iff] at hresolve
            obtain ⟨flag, hfound, -⟩ := hresolve
            obtain ⟨hmem, haliases⟩ :=
              Flag.aliases_of_withAlias (Option.filter_eq_some_iff.mp hfound).1
            exact ⟨flag, hmem, Or.inr haliases⟩
  · cases hresolve

theorem Component.Mute.not_accepts {token : String} (h : (Component.flags g).Mute) :
    ¬g.Accepts ctx token := by
  intro haccepts
  obtain ⟨flag, hflag, hgiveable⟩ := haccepts.giveable
  obtain ⟨hname, haliases⟩ := h flag hflag
  rcases hgiveable with hletter | hsome
  · cases hname.symm.trans hletter
  · exact hsome haliases

/-- A group whose flags are never given can read nothing. -/
theorem FlagGroup.context_of_mute (hsimple : (Component.flags g).Simple)
    (hmute : (Component.flags g).Mute) {line : Line} {value : Value}
    (h : ((Parser.flags g.flags).read ctx line).result = .ok value) :
    ((Parser.flags g.flags).read ctx line).context = ctx := by
  cases hleft : line.isBlank with
  | true =>
      simp only [Parser.read, Flag.readGroup, Reading.map]
      cases line.rest.length <;> simp only [Flag.readTokens, hleft, if_true]
  | false =>
      refine absurd (FlagGroup.accepts_of_reads ?_ hleft h) hmute.not_accepts
      exact fun flag hflag p hp => (hsimple flag hflag p hp).keeps

namespace Position

/-- No move past a mute component marks a flag. -/
theorem Walk.standing {p : Position} {moves : List Move} {ending : List Entry} {r : Resolved}
    (h : p.Walk ignoreCase moves ending r) :
    ∀ m ∈ moves, m.component.Simple ∧ m.component.Mute → SameStanding m.before m.after := by
  induction h with
  | descend _ passes _ ih =>
      refine List.forall_mem_cons.mpr ⟨?_, ih⟩
      rintro ⟨hsimple, -⟩
      cases passes with
      | word _ _ => exact SameStanding.chains.refl _
      | read _ _ _ => exact Argument.Simple.standing_of_read hsimple _ _ _
      | skipped _ _ _ fills => exact Argument.Simple.standing_of_fill hsimple fills
  | arrive _ _ => simp
  | enter _ enters _ =>
      refine List.forall_mem_singleton.mpr ?_
      rintro ⟨hsimple, hmute⟩
      cases enters with
      | read _ _ reads =>
          show SameStanding _ _
          rw [FlagGroup.context_of_mute hsimple hmute reads]
          exact SameStanding.chains.refl _
      | none _ _ => exact SameStanding.chains.refl _

end Position

/-- No line marks a flag in a tree of commands with mute flags. -/
theorem Tree.Built.route_mute {t : Tree} {text : String} {r : Resolved}
    (ht : t.Built fun x => x.Simple ∧ x.Mute) (h : t.route ctx text = .ok r) :
    SameStanding ctx r.context := by
  obtain ⟨moves, ending, hwalk⟩ := Position.run_walk h
  have hcarried := hwalk.carried (ht.carries fun _ _ _ _ => ⟨trivial, trivial⟩)
  exact (hwalk.chained SameStanding.chains fun m hm => hwalk.standing m hm (hcarried m hm)).2

/-- `login --2fa`. -/
def Command.login : Command where
  components := [.literal { name := "login" }, .flags { flags := [{ name := "2fa" }] }]

/-- A flag whose name starts with a digit is never given, whoever may run the command, but it is
    suggested behind the command. -/
theorem Tree.digits_never_mark :
    ∃ t' e, ({} : Tree).insert .login = .ok (t', e) ∧
      (∀ ctx text r, ctx.hasFlag "2fa" = false → t'.route ctx text = .ok r →
        r.context.hasFlag "2fa" = false) ∧
      (t'.complete {} (.ofRight "login") "login " 6 {}).1.list = [.ofText "--2fa"] := by
  refine ⟨_, _, rfl, fun ctx text r hnew hroute => ?_, by decide +kernel⟩
  have hbuilt : (({} : Tree).apply (.insert .login)).Built fun x => x.Simple ∧ x.Mute := by
    refine .of_command ?_
    have hdigit : startsWithLetter ['2', 'f', 'a'] = false := by decide +kernel
    simp [Command.login, Component.Simple, Component.Mute, hdigit]
  rw [(hbuilt.route_mute hroute).hasFlag_eq]
  exact hnew

end CommandLine
