import CommandLine.Proofs.Line.Agree
import CommandLine.Proofs.Parser.Onward
import CommandLine.Proofs.Route.Values
import CommandLine.Proofs.Tree.Edges

/-! # Where the characters of a line go

    A routed line is spelled out by the moves of its walk: each takes a span of the line, or nothing,
    and there is only white space in front of the spans and after the last. So no input is skipped
    and none is read twice (`Position.run_spells`). What a routed context holds for an argument is
    recorded from the span that the argument took, or is its default (`Position.Walk.records`).

    This is about the library's own parsers. Others may do anything with a line, and flags inside of
    the parser of an argument record texts under names of their own. -/

namespace CommandLine

/-- A component whose parsers have no parts of the surrounding program and no flags inside. -/
def Component.Plain (c : Component) : Prop :=
  ∀ p ∈ c.parsers, p.Within .library

theorem Component.Plain.argument {a : Argument} (h : (Component.argument a).Plain) :
    a.parser.Within .library :=
  h a.parser (List.mem_singleton_self _)

/-- The parser of a flag group is the only one that may have flags. -/
theorem Component.Plain.flags {g : FlagGroup} (h : (Component.flags g).Plain) :
    (Parser.flags g.flags).Within .closed := by
  refine Component.Within.flags ⟨?_, fun _ _ => trivial⟩
  exact fun p hp => (h p hp).of_library (fun _ => trivial) (fun _ => trivial)

/-- The argument leaves a line at the same place or at a later one. -/
theorem Argument.onward_read {a : Argument} (ha : a.parser.Within .library) (ctx : Context)
    (line : Line) : line.Onward (a.read ctx line).line := by
  rw [read]
  split
  · exact .refl line
  · exact ha.moves Line.advances_onward (fun _ => False.elim) ctx line

/-- Flags that are read are read up to the end of the line. -/
theorem FlagGroup.reads_all {g : FlagGroup} (hg : (Parser.flags g.flags).Within .closed)
    {ctx : Context} {line : Line} {value : Value}
    (h : ((Parser.flags g.flags).read ctx line).result = .ok value) :
    line.Onward ((Parser.flags g.flags).read ctx line).line ∧
      ((Parser.flags g.flags).read ctx line).line.isBlank = true := by
  refine ⟨hg.moves Line.advances_onward (fun _ => False.elim) ctx line, ?_⟩
  have hmoves : ∀ flag ∈ Parser.readFlags g.flags, flag.Moves Line.Shrinks := by
    rw [Parser.readFlags_eq]
    refine List.forall_mem_map.mpr fun flag hflag => Flag.forall_value_map fun p hp => ?_
    cases hg with
    | flags _ within =>
        exact (within flag hflag p hp).moves Line.advances_shrinks (fun _ => False.elim)
  refine Flag.isBlank_readTokens hmoves (Nat.le_refl _) ?_
  simp only [Parser.read, Reading.map, Flag.readGroup, Except.map] at h
  split at h
  · cases h
  · assumption

/-- A part of a line: white space, and the characters behind it that were read for a purpose. -/
structure Stretch where
  blank : List Char
  span : List Char
  isBlank : ∀ c ∈ blank, Text.isBlank c = true

/-- The characters of a stretch. -/
def Stretch.text (s : Stretch) : List Char :=
  s.blank ++ s.span

/-- What a move takes of the line: a token that answers to its literal, what its argument or its
    flags read there, or nothing. Only at the end of the line no flags are read. -/
inductive Move.Takes (ignoreCase : Bool) (m : Move) : List Char → Prop where
  | word {l : Literal} {token : String} {span : List Char} (component : m.component = .literal l)
      (spells : Token.Spells span token) (answers : l.answers ignoreCase token = true) :
      Takes ignoreCase m span
  | argument {a : Argument} {span : List Char} (component : m.component = .argument a)
      (read : m.leftOut = false) (reads : m.line.Reads span (a.read m.before m.line).line) :
      Takes ignoreCase m span
  | skipped {a : Argument} (component : m.component = .argument a) (leftOut : m.leftOut = true) :
      Takes ignoreCase m []
  | flags {g : FlagGroup} {span : List Char} (component : m.component = .flags g)
      (read : m.leftOut = false) (left : m.line.isBlank = false)
      (reads : m.line.Reads span ((Parser.flags g.flags).read m.before m.line).line) :
      Takes ignoreCase m span
  | noFlags {g : FlagGroup} (component : m.component = .flags g) (leftOut : m.leftOut = true)
      (nothing : m.line.isBlank = true) : Takes ignoreCase m []

/-- The white space at a place of a line, and what is read behind it. -/
def Stretch.at (line : Line) (span : List Char) : Stretch where
  blank := line.rest.takeWhile Text.isBlank
  span := span
  isBlank := fun _ hc => List.mem_takeWhile_imp hc

theorem Stretch.rest_eq {line last : Line} {span : List Char}
    (h : line.skipBlank.Reads span last) : line.rest = (Stretch.at line span).text ++ last.rest := by
  rw [line.reads_skipBlank.rest, h.rest, text, Stretch.at, List.append_assoc]

/-- A text is what some moves take of it, in order, and white space at its end. -/
structure Spelling (ignoreCase : Bool) (text : List Char) (moves : List Move)
    (stretches : List Stretch) (tail : List Char) : Prop where
  concat : text = stretches.flatMap Stretch.text ++ tail
  blank : ∀ c ∈ tail, Text.isBlank c = true
  takes : List.Forall₂ (fun m s => m.Takes ignoreCase s.span) moves stretches

namespace Position

variable {ignoreCase : Bool} {p q : Position} {m : Move}

/-- A move passes an edge of its position's node. -/
theorem Passes.everywhere {Q : Component → Prop} (h : p.Passes ignoreCase m q)
    (hn : p.node.Everywhere (Node.Carries Q)) :
    Q m.component ∧ q.node.Everywhere (Node.Carries Q) := by
  cases h with
  | word found _ =>
      have hedge := List.mem_of_find?_eq_some found
      exact ⟨hn.here.literals _ hedge, hn.literal hedge⟩
  | read edge _ _ => exact ⟨hn.here.argument _ _ edge, hn.argument edge⟩
  | skipped edge _ _ _ => exact ⟨hn.here.argument _ _ edge, hn.argument edge⟩

theorem Enters.carried {Q : Component → Prop} (h : p.Enters m)
    (hn : p.node.Everywhere (Node.Carries Q)) : Q m.component := by
  cases h with
  | read edge _ _ => exact hn.here.flags _ _ edge
  | none edge _ => exact hn.here.flags _ _ edge

/-- A move along an edge takes what lies between its two positions. -/
theorem Passes.takes (h : p.skipBlank.Passes ignoreCase m q) (hplain : m.component.Plain)
    (hblank : p.line.isBlank = true → m.leftOut = true) :
    ∃ span, m.Takes ignoreCase span ∧ p.line.skipBlank.Reads span q.line := by
  cases h with
  | word found _ =>
      have hleft : p.line.isBlank = false := by
        by_contra hblank'
        cases hblank (by simpa using hblank')
      obtain ⟨span, hspells, hreads⟩ := Line.reads_token hleft
      have hanswers := List.find?_some found
      exact ⟨span, .word rfl hspells hanswers, hreads⟩
  | @read a _ _ _ _ _ =>
      obtain ⟨span, hreads⟩ := Argument.onward_read hplain.argument p.context p.line.skipBlank
      exact ⟨span, .argument rfl rfl hreads, hreads⟩
  | skipped _ _ _ _ => exact ⟨[], .skipped rfl rfl, .nothing _⟩

/-- A move into a flag group takes all that is left but white space. -/
theorem Enters.takes (h : p.skipBlank.Enters m) (hplain : m.component.Plain)
    (hblank : m.leftOut = p.line.isBlank) :
    ∃ span last, m.Takes ignoreCase span ∧ p.line.skipBlank.Reads span last ∧
      last.isBlank = true := by
  have hsame : p.line.skipBlank.isBlank = p.line.isBlank := p.line.skipBlank_agrees.isBlank
  cases h with
  | read _ _ reads =>
      obtain ⟨⟨span, hreads⟩, hend⟩ := FlagGroup.reads_all hplain.flags reads
      exact ⟨span, _, .flags rfl rfl (hsame.trans hblank.symm) hreads, hreads, hend⟩
  | none _ _ =>
      have hnothing := hsame.trans hblank.symm
      exact ⟨[], _, .noFlags rfl rfl hnothing, .nothing _, hnothing⟩

/-- A pass that ends with a command is a walk, and its moves spell the line. -/
theorem run_spells {r : Resolved} (hplain : p.node.Everywhere (Node.Carries Component.Plain))
    (h : p.run ignoreCase = .ok r) :
    ∃ moves ending stretches tail, p.Walk ignoreCase moves ending r ∧
      Spelling ignoreCase p.line.rest moves stretches tail := by
  fun_induction run ignoreCase p with
  | case1 p q hstep ih =>
      obtain ⟨m, hpasses, hblank⟩ := step_descend_passes hstep
      obtain ⟨hm, hq⟩ := hpasses.everywhere hplain
      obtain ⟨span, htakes, hreads⟩ := hpasses.takes hm hblank
      obtain ⟨moves, ending, stretches, tail, hrest, hspelling⟩ := ih hq h
      refine ⟨m :: moves, ending, .at p.line span :: stretches, tail,
        .descend hstep hpasses hrest, ?_, hspelling.blank, .cons htakes hspelling.takes⟩
      rw [Stretch.rest_eq hreads, hspelling.concat, List.flatMap_cons, List.append_assoc]
  | case2 p found hstep =>
      cases h
      rcases step_arrive_cases hstep with ⟨hblank, hselects⟩ | ⟨m, henters, hselects, hblank⟩
      · exact ⟨[], _, [], p.line.rest, .arrive hstep hselects, rfl,
          p.line.isBlank_iff.mp hblank, .nil⟩
      · obtain ⟨span, last, htakes, hreads, hend⟩ := henters.takes (henters.carried hplain) hblank
        refine ⟨[m], _, [.at p.line span], last.rest, .enter hstep henters hselects, ?_,
          last.isBlank_iff.mp hend, .cons htakes .nil⟩
        rw [Stretch.rest_eq hreads, List.flatMap_cons, List.flatMap_nil, List.append_nil]
  | case3 p failure hstep => cases h

end Position

/-! ## What is recorded -/

/-- What a context has under a key has not changed: the value, and the text it was read from. -/
structure SameRecord (key : String) (before after : Context) : Prop where
  value : SameValue key before after
  consumed : after.consumed? key = before.consumed? key

theorem SameRecord.chains (key : String) : Chains (SameRecord key) := by
  constructor
  · exact fun _ => ⟨rfl, rfl⟩
  · exact fun hab hbc => ⟨hbc.value.trans hab.value, hbc.consumed.trans hab.consumed⟩

theorem Context.consumed?_recordConsumed (ctx : Context) (name other text : String) :
    (ctx.recordConsumed name text).consumed? other =
      if other = name then some text else ctx.consumed? other :=
  Store.get?_put ctx.consumed name other text

/-- No parser of the surrounding program, and nothing under a key. -/
def Allowed.apart (key : String) : Allowed where
  host := fun _ => False
  key := fun name => name ≠ key

theorem Allowed.apart_keeps (key : String) : (Allowed.apart key).Keeps (SameRecord key) := by
  refine ⟨fun _ => False.elim, ?_, ?_, fun _ _ _ => ⟨rfl, rfl⟩⟩
  · intro name hname ctx value
    refine ⟨?_, rfl⟩
    rw [SameValue, Context.value?_store, if_neg (Ne.symm hname)]
  · intro name hname ctx text
    refine ⟨rfl, ?_⟩
    rw [Context.consumed?_recordConsumed, if_neg (Ne.symm hname)]

/-- An argument that is left out records no text. -/
theorem Argument.consumed_of_fill {a : Argument} (ha : a.parser.Within .library)
    {ctx filled : Context} (h : a.fill ctx = .ok filled) : filled.consumed = ctx.consumed := by
  rw [fill] at h
  split at h
  · cases h
    rfl
  · cases h
    rfl
  · cases h
    rfl
  · next text _ =>
      simp only [Except.map] at h
      split at h
      · cases h
      · cases h
        -- the parser of the argument has read the default, and left the context alone
        show (a.parser.read ctx (.ofString text)).context.consumed = ctx.consumed
        rw [ha.context_eq]

namespace Position

variable {ignoreCase : Bool} {p q : Position} {m : Move}

/-- A move along an argument records the text that the argument read, if it read any. -/
theorem Passes.consumed? (h : p.Passes ignoreCase m q) {a : Argument}
    (ha : m.component = .argument a) (hplain : a.parser.Within .library) :
    m.after.consumed? a.name = if m.leftOut then m.before.consumed? a.name
      else some ((a.read m.before m.line).line.readSince m.line) := by
  cases h with
  | word _ _ => cases ha
  | read _ _ _ =>
      cases ha
      rw [argumentRead, Context.consumed?_recordConsumed, if_pos rfl]
      rfl
  | skipped _ _ _ fills =>
      cases ha
      rw [Context.consumed?, Argument.consumed_of_fill hplain fills]
      rfl

variable {moves : List Move} {ending : List Entry} {r : Resolved}

/-- The edges of a walk have the property of all edges below its start. -/
theorem Walk.carried {Q : Component → Prop} (h : p.Walk ignoreCase moves ending r)
    (hn : p.node.Everywhere (Node.Carries Q)) : ∀ m ∈ moves, Q m.component := by
  induction h with
  | descend _ passes _ ih =>
      obtain ⟨hm, hq⟩ := passes.everywhere hn
      exact List.forall_mem_cons.mpr ⟨hm, ih hq⟩
  | arrive _ _ => simp
  | enter _ enters _ => exact List.forall_mem_singleton.mpr (enters.carried hn)

/-- Where no other move changes what is recorded for an argument, a walk leaves what the argument
    has recorded. -/
theorem Walk.consumed? (h : p.Walk ignoreCase moves ending r) {i : Nat} {a : Argument}
    (hm : moves[i]? = some m) (ha : m.component = .argument a)
    (hplain : a.parser.Within .library)
    (hothers : ∀ j m', moves[j]? = some m' → j ≠ i → SameRecord a.name m'.before m'.after) :
    r.context.consumed? a.name = if m.leftOut then p.context.consumed? a.name
      else some ((a.read m.before m.line).line.readSince m.line) := by
  obtain ⟨hupTo, hsince⟩ := h.chained_around (SameRecord.chains a.name) hm hothers
  obtain ⟨_, _, hpasses⟩ := h.passes (List.mem_of_getElem? hm) ha
  rw [hsince.consumed, hpasses.consumed? ha hplain, hupTo.consumed]

end Position

/-- Nothing was read into a context yet. -/
structure Context.Fresh (ctx : Context) : Prop where
  value : ∀ key, ctx.value? key = none
  consumed : ∀ key, ctx.consumed? key = none

/-- What a context holds for an argument that a move read from a span of the line, or left out. -/
structure Argument.Recorded (a : Argument) (m : Move) (span : List Char) (ctx : Context) :
    Prop where
  read : m.leftOut = false → ctx.consumed? a.name = some (String.ofList (Text.trim span)) ∧
    ctx.value? a.name = (a.read m.before m.line).value?
  leftOut : m.leftOut = true → ctx.consumed? a.name = none ∧
    ctx.value? a.name = a.defaultValue? m.before

/-- What a walk of a fresh context records for the arguments that it passes. -/
theorem Position.Walk.records {ignoreCase : Bool} {p : Position} {moves : List Move}
    {ending : List Entry} {r : Resolved} (h : p.Walk ignoreCase moves ending r)
    (hplain : ∀ m ∈ moves, m.component.Plain)
    (hkeyed : (Component.keysAlong (moves.map (·.component))).Nodup)
    (hfresh : p.context.Fresh) {m : Move} (hm : m ∈ moves) {span : List Char}
    (htakes : m.Takes ignoreCase span) :
    ∀ a, m.component = .argument a → a.Recorded m span r.context := by
  intro a ha
  obtain ⟨i, hi⟩ := List.mem_iff_getElem?.mp hm
  have ha' : a.parser.Within .library := Component.Plain.argument (ha ▸ hplain m hm)
  have hparsers : ∀ j m', moves[j]? = some m' → j ≠ i →
      ∀ parser ∈ m'.component.parsers, parser.Within (.apart a.name) := by
    intro j m' hm' _ parser hparser
    have hlibrary := hplain m' (List.mem_of_getElem? hm') parser hparser
    exact hlibrary.of_library (fun _ => trivial) (fun _ => trivial)
  have hothers := h.others_keep (SameRecord.chains a.name) (Allowed.apart_keeps a.name) hkeyed hi
    ha (fun _ hkey => hkey) hparsers
  have hvalue := h.value? hi ha fun j m' hm' hij => (hothers j m' hm' hij).value
  have htext := h.consumed? hi ha ha' hothers
  rw [hfresh.value, Option.or_none, Argument.given?] at hvalue
  rw [hfresh.consumed] at htext
  constructor
  · intro hread
    rw [hread] at hvalue htext
    refine ⟨?_, hvalue⟩
    cases htakes with
    | word component _ _ => cases component.symm.trans ha
    | argument component _ reads =>
        cases component.symm.trans ha
        rw [htext, reads.readSince]
        rfl
    | skipped _ leftOut => cases leftOut.symm.trans hread
    | flags component _ _ _ => cases component.symm.trans ha
    | noFlags component _ _ => cases component.symm.trans ha
  · intro hleftOut
    rw [hleftOut] at hvalue htext
    exact ⟨htext, hvalue⟩

/-- A routed line is what the components on its way took, in order, with white space between them
    and nothing else behind them: a token for each literal, a span for each argument that was read,
    and one for the flags if any were left. The text that is recorded for an argument is its span
    without the white space around it; for an argument that was left out there is none, and its
    value is its default. -/
theorem Tree.Built.route_spells {t : Tree} {ctx : Context} {text : String} {r : Resolved}
    (ht : t.Built Component.Plain) (hfresh : ctx.Fresh) (h : t.route ctx text = .ok r) :
    ∃ moves ending stretches tail,
      (Position.start t ctx (.ofString text)).Walk t.rules.ignoreCase moves ending r ∧
      List.Forall₂ (Component.Corresponds t.rules.ignoreCase) (moves.map (·.component))
        r.entry.command.components ∧
      text.toList = stretches.flatMap Stretch.text ++ tail ∧
      (∀ c ∈ tail, Text.isBlank c = true) ∧
      List.Forall₂ (fun m s => m.Takes t.rules.ignoreCase s.span ∧
        ∀ a, m.component = .argument a → a.Recorded m s.span r.context) moves stretches := by
  have hplain : t.root.Everywhere (Node.Carries Component.Plain) := by
    refine ht.carries fun _ _ _ _ => ?_
    exact fun p hp => absurd hp List.not_mem_nil
  obtain ⟨moves, ending, stretches, tail, hwalk, hspelling⟩ := Position.run_spells hplain h
  have hfiled := ht.reachable.filed
  have hpath := hfiled.corresponds hwalk.leads _ (List.mem_of_find?_eq_some hwalk.selected)
  have hrecords : ∀ m ∈ moves, ∀ span, m.Takes t.rules.ignoreCase span →
      ∀ a, m.component = .argument a → a.Recorded m span r.context := by
    intro m hm span htakes
    exact hwalk.records (hwalk.carried hplain) (hfiled.keyed hwalk.leads) hfresh hm htakes
  refine ⟨moves, ending, stretches, tail, hwalk, hpath, hspelling.concat, hspelling.blank, ?_⟩
  have hboth := (List.forall₂_and_left moves stretches).mpr ⟨hrecords, hspelling.takes⟩
  exact hboth.imp fun m s ⟨hrecorded, htakes⟩ => ⟨htakes, hrecorded s.span htakes⟩

/-- `send <to> [copies] --silent`, of which one copy is sent where no number is given. -/
def Command.send : Command where
  components :=
    [.literal { name := "send" },
     .argument { name := "to", parser := .text .word },
     .argument
      { name := "copies"
        parser := .integer 1 9
        need := .optional (some (.constant (.plain (.integer 1)))) },
     .flags { flags := [{ name := "silent" }] }]

/-- A tree with one command. -/
def Tree.sending : Tree :=
  ({} : Tree).apply (.insert .send)

theorem Tree.sending_built : Tree.sending.Built Component.Plain := by
  refine .of_command ?_
  simp only [Command.send, List.forall_mem_cons, Component.Plain, Component.parsers]
  exact ⟨by simp, ⟨.text .word, by simp⟩, ⟨.integer 1 9, by simp⟩, by simp, by simp⟩

theorem Tree.route_sending :
    Tree.sending.route (.ofRight "send") "send me  --silent" =
      .ok ⟨⟨0, .send⟩, (((((Context.ofRight "send").store "to" (.plain (.text "me"))).recordConsumed
        "to" "me").store "copies" (.plain (.integer 1))).store "silent"
          (.plain (.truth true))).markFlag "silent"⟩ :=
  (Position.run_of_descend rfl).trans ((Position.run_of_descend rfl).trans
    ((Position.run_of_descend rfl).trans (Position.run_of_arrive rfl)))

/-- A line with a word, an argument and flags, and one argument left out between them. -/
theorem Tree.route_spells_send :
    Tree.sending.Built Component.Plain ∧ (Context.ofRight "send").Fresh ∧
      ∃ (r : Resolved) (moves : List Move) (stretches : List Stretch) (tail : List Char),
        Tree.sending.route (.ofRight "send") "send me  --silent" = .ok r ∧
        "send me  --silent".toList = stretches.flatMap Stretch.text ++ tail ∧
        List.Forall₂ (fun m s => m.Takes false s.span) moves stretches ∧ moves.length = 4 := by
  have hfresh : (Context.ofRight "send").Fresh := ⟨fun _ => rfl, fun _ => rfl⟩
  obtain ⟨moves, _, stretches, tail, -, hpath, hconcat, -, htakes⟩ :=
    Tree.Built.route_spells Tree.sending_built hfresh Tree.route_sending
  refine ⟨Tree.sending_built, hfresh, _, moves, stretches, tail, Tree.route_sending, hconcat,
    htakes.imp fun _ _ hboth => hboth.1, ?_⟩
  simpa [Command.send] using hpath.length_eq

end CommandLine
