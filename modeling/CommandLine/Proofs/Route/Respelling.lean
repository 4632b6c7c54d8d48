import CommandLine.Proofs.Focus.Rejection
import CommandLine.Proofs.Line.Words
import CommandLine.Proofs.Route.End
import CommandLine.Proofs.Route.Sight
import CommandLine.Proofs.Route.Spelling

/-! # Lines that are spelled again

    A routed line can be put together again from the names of the command's literals and the texts
    that were recorded for its arguments, with single spaces between them (`Resolved.respelled`).
    The new line leads to the same command with the same context (`Tree.Built.route_respelled`),
    because the text that was recorded is the token as it was written, or all that was left of the
    line, without the white space around it.

    There is one token that loses something in this way: a quote that was left open at the end of a
    line takes the white space behind it into its value, and what is recorded has lost it
    (`Tree.respelling_cuts_open_quote`). -/

namespace CommandLine

open Text

theorem Token.Trimmed.skipBlank {line : Line} (h : (cut line.rest).Trimmed) :
    (cut line.skipBlank.rest).Trimmed := by
  have hskip : trimStart (trimStart line.rest) = trimStart line.rest :=
    congrArg Line.rest line.skipBlank_skipBlank
  have hraw : (cut line.skipBlank.rest).raw = (cut line.rest).raw :=
    congrArg (fun text => (head text).raw) hskip
  rw [Trimmed, hraw, h]

/-! ## What can be spelled again -/

/-- A check that looks at nothing of a line but its next token. -/
def Check.OfToken (check : Check) : Prop :=
  ∀ ctx (a b : Line), a.isBlank = b.isBlank → a.peekToken = b.peekToken → check ctx a = check ctx b

/-- An argument that reads one token or a text up to the end of the line. -/
structure Argument.Respellable (a : Argument) : Prop where
  parser : a.parser.OneToken ∨ a.parser = .text .rest
  checks : ∀ check ∈ a.extras.checks, check.OfToken

/-- A literal, or such an argument. -/
def Component.Respellable : Component → Prop
  | .literal _ => True
  | .argument a => a.Respellable
  | .flags _ => False

theorem Parser.OneToken.within {p : Parser} (h : p.OneToken) : p.Within .library := by
  induction h with
  | word => exact .text .word
  | integer min max => exact .integer min max
  | real min max => exact .real min max
  | truth liberal => exact .truth liberal
  | uuid => exact .uuid
  | enumeration variants => exact .enumeration variants
  | cached _ ih => exact .cached ih
  | map _ ih => exact .map ih
  | flatMap _ ih => exact .flatMap trivial ih

theorem Argument.Respellable.within {a : Argument} (h : a.Respellable) :
    a.parser.Within .library := by
  rcases h.parser with hone | hrest
  · exact hone.within
  · rw [hrest]
    exact .text .rest

theorem Component.Respellable.plain {c : Component} (h : c.Respellable) : c.Plain := by
  intro p hp
  cases c with
  | literal l => cases hp
  | argument a =>
      obtain rfl := List.mem_singleton.mp hp
      exact Argument.Respellable.within h
  | flags g => exact h.elim

/-- Checks that look at the next token find the same in front of the same token. -/
theorem Argument.Respellable.checks_eq {a : Argument} (h : a.Respellable) (ctx : Context)
    {line line' : Line} (hblank : line.isBlank = line'.isBlank)
    (htoken : line.peekToken = line'.peekToken) :
    (a.extras.checks.findSome? fun check => check ctx line) =
      a.extras.checks.findSome? fun check => check ctx line' :=
  findSome_congr fun check hcheck => h.checks check hcheck ctx line line' hblank htoken

/-- What a parser of one token makes of it does not depend on the rest of the line. -/
theorem Parser.OneToken.result_eq {p : Parser} (h : p.OneToken) (ctx : Context) {line line' : Line}
    (hblank : line.isBlank = line'.isBlank) (htoken : line.peekToken = line'.peekToken) :
    (p.read ctx line).result = (p.read ctx line').result := by
  have hofToken (name : String) (interpret : String → Except ArgumentError Value) :
      (Reader.ofToken name interpret ctx line).result =
        (Reader.ofToken name interpret ctx line').result := by
    simp only [Reader.ofToken, hblank, htoken]
    split <;> rfl
  induction h with
  | word =>
      simp only [Parser.read, readText, hblank, htoken]
      split <;> rfl
  | integer _ _ => exact hofToken _ _
  | real _ _ => exact hofToken _ _
  | truth _ => exact hofToken _ _
  | uuid => exact hofToken _ _
  | enumeration _ => exact hofToken _ _
  | cached _ ih => exact ih
  | @map f inner _ ih => exact congrArg (Except.map f) ih
  | @flatMap f inner one ih =>
      simp only [Parser.read, refine, Reading.andThen, ih, one.within.context_eq]
      split <;> rfl

/-- An argument that is read has passed its checks. -/
theorem Argument.read_of_ok {a : Argument} {ctx : Context} {line : Line} {value : Value}
    (h : (a.read ctx line).result = .ok value) :
    (a.extras.checks.findSome? fun check => check ctx line) = none ∧
      a.read ctx line = a.parser.read ctx line := by
  rw [Argument.read] at h ⊢
  split at h
  · cases h
  · next hpassed => exact ⟨hpassed, rfl⟩

/-- Two spans between the same places are the same. -/
theorem Line.Reads.span_eq {a b : Line} {span other : List Char} (h : a.Reads span b)
    (hother : a.Reads other b) : span = other :=
  List.append_cancel_left (h.before.symm.trans hother.before)

/-- What an argument reads off a line: a value, of which a text is recorded, with words left behind
    it. -/
structure Argument.Gives (a : Argument) (ctx : Context) (line : Line) (value : Value)
    (text : String) (words : List String) : Prop where
  result : (a.read ctx line).result = .ok value
  context : (a.read ctx line).context = ctx
  recorded : (a.read ctx line).line.readSince line = text
  left : (a.read ctx line).line.Holds words

namespace Argument.Respellable

variable {a : Argument} {ctx : Context} {line again : Line} {value : Value} {span : List Char}
  {words : List String}

/-- An argument of one token reads the same value where the token is spelled again. -/
theorem gives_token (ha : a.Respellable) (hone : a.parser.OneToken) {word : String}
    (hstands : Token.Stands word.toList line.peekToken (spaced words))
    (htrim : trim word.toList = word.toList) (hleft : line.isBlank = false)
    (hreads : (a.read ctx line).result = .ok value) (hagain : again.Holds (word :: words)) :
    a.Gives ctx again.skipBlank value word words := by
  have hblank : again.skipBlank.isBlank = false := hagain.skipBlank.isBlank_cons hstands
  have htoken : line.peekToken = again.skipBlank.peekToken := (hagain.peekToken hstands).symm
  obtain ⟨hpassed, hread⟩ := read_of_ok hreads
  rw [ha.checks_eq ctx (hleft.trans hblank.symm) htoken] at hpassed
  have hread' : a.read ctx again.skipBlank = a.parser.read ctx again.skipBlank := by
    rw [Argument.read, hpassed]
  obtain ⟨hline, hcontext⟩ := hone.read ctx hblank
  rw [hread, hone.result_eq ctx (hleft.trans hblank.symm) htoken, ← hread'] at hreads
  refine ⟨hreads, by rw [hread', hcontext], ?_, ?_⟩
  · rw [hread', hline, (hagain.reads hstands).readSince, htrim, String.ofList_toList]
  · rw [hread', hline]
    exact hagain.skipToken hstands

/-- An argument that reads all that is left reads the same text where the text is spelled again. -/
theorem gives_rest (ha : a.Respellable) (hrest : a.parser = .text .rest) {c : Char}
    {text : List Char} (hc : isBlank c = false) (hline : line.rest = c :: text)
    (hreads : (a.read ctx line).result = .ok value) (hblank : line.isBlank = again.isBlank)
    (htoken : line.peekToken = again.skipBlank.peekToken)
    (hagain : again.skipBlank.rest = trim line.rest) :
    a.Gives ctx again.skipBlank value (String.ofList (trim line.rest)) [] := by
  have htrim : trim (trim line.rest) = trim line.rest := by
    rw [hline, trim_cons hc, trim_cons hc, trimEnd_trimEnd]
  have hleft : line.isBlank = false := by
    rw [Line.isBlank, hline, trimStart, List.dropWhile_cons_of_neg (by simp [hc])]
    rfl
  have hblank' : line.isBlank = again.skipBlank.isBlank :=
    hblank.trans again.skipBlank_agrees.isBlank.symm
  obtain ⟨hpassed, hread⟩ := read_of_ok hreads
  rw [ha.checks_eq ctx hblank' htoken] at hpassed
  have hread' : a.read ctx again.skipBlank =
      ⟨.ok (.plain (.text again.skipBlank.readRest.1)), ctx, again.skipBlank.finish⟩ := by
    rw [Argument.read, hpassed, hrest]
    simp only [Parser.read, Parser.readText, ← hblank', hleft]
    rfl
  have hvalue : value = .plain (.text (String.ofList (trim line.rest))) := by
    rw [hread, hrest] at hreads
    simp only [Parser.read, Parser.readText, hleft] at hreads
    cases hreads
    rfl
  refine ⟨?_, by rw [hread'], ?_, by rw [hread']; rfl⟩
  · rw [hread', hvalue, Line.readRest, hagain, htrim]
  · rw [hread', (again.skipBlank.reads_finish).readSince, hagain, htrim]

/-- A respellable argument reads the same value off a line that goes on with the text that was
    recorded of it. -/
theorem gives (ha : a.Respellable) (hskipped : line.skipBlank = line) (hleft : line.isBlank = false)
    (htrimmed : (Token.cut line.rest).Trimmed) (hreads : (a.read ctx line).result = .ok value)
    (hspan : line.Reads span (a.read ctx line).line)
    (hwords : (a.read ctx line).line.isBlank = true → words = [])
    (hagain : again.Holds (String.ofList (trim span) :: words)) :
    again.isBlank = false ∧ again.skipBlank.peekToken = line.peekToken ∧
      a.Gives ctx again.skipBlank value (String.ofList (trim span)) words := by
  obtain ⟨c, text, hline⟩ : ∃ c text, line.rest = c :: text := by
    refine List.exists_cons_of_ne_nil fun hnil => ?_
    rw [Line.isBlank, hnil] at hleft
    cases hleft
  have hc : isBlank c = false := isBlank_of_trimStart ((congrArg Line.rest hskipped).trans hline)
  have hcut : Token.cut line.rest = { Token.head (c :: text) with blank := [] } := by
    rw [hline, Token.cut_cons hc]
  have htoken : line.peekToken = String.ofList (Token.head (c :: text)).value := by
    rw [Line.peekToken, hcut]
  rw [hcut] at htrimmed
  obtain ⟨-, hread⟩ := read_of_ok hreads
  rcases ha.parser with hone | hrest
  · -- the span is the token as it was written
    have hskip : (a.read ctx line).line = line.skipToken := by
      rw [hread]
      exact (hone.read ctx hleft).1
    have hraw := line.reads_skipToken
    rw [hcut, List.nil_append] at hraw
    rw [hskip] at hspan hwords
    rw [hspan.span_eq hraw] at hagain ⊢
    have htrim := Token.trim_raw_head hc htrimmed
    rw [htrim] at hagain ⊢
    have hstands : Token.Stands (String.ofList (Token.head (c :: text)).raw).toList line.peekToken
        (spaced words) := by
      rw [htoken, String.toList_ofList]
      refine Token.stands_head hc ?_
      by_cases hend : (Token.head (c :: text)).rest = []
      · right
        have hblank : line.skipToken.isBlank = true := by
          have hnothing : line.skipToken.rest = [] := by
            rw [Line.skipToken, hcut]
            exact hend
          rw [Line.isBlank, hnothing]
          rfl
        rw [hwords hblank]
        rfl
      · exact Or.inl ⟨hend, Token.apart_spaced words⟩
    refine ⟨hagain.isBlank_cons hstands, hagain.peekToken hstands, ?_⟩
    exact ha.gives_token hone hstands (by rw [String.toList_ofList, htrim]) hleft hreads hagain
  · -- the span is all that was left
    have hfinish : (a.read ctx line).line = line.finish := by
      rw [hread, hrest]
      simp only [Parser.read, Parser.readText, hleft]
      rfl
    rw [hfinish] at hspan hwords
    have hall : span = line.rest := hspan.span_eq line.reads_finish
    obtain rfl := hwords rfl
    rw [hall] at hagain ⊢
    have hrest' : again.skipBlank.rest = trim line.rest := by
      show trimStart again.rest = _
      rw [hagain, hline, trim_cons hc]
      simp only [spaced, List.flatMap_cons, List.flatMap_nil, String.toList_ofList, List.append_nil]
      rw [trimStart, List.dropWhile_cons_of_pos rfl, List.dropWhile_cons_of_neg (by simp [hc])]
    have hblank : again.isBlank = false := by
      rw [Line.isBlank_eq_skipBlank, hrest', hline, trim_cons hc]
      rfl
    have htoken' : again.skipBlank.peekToken = line.peekToken := by
      rw [htoken, Line.peekToken, hrest', hline, trim_cons hc, Token.cut_cons hc, ← trimEnd_cons hc,
        ← Token.value_head_trimEnd hc htrimmed]
    refine ⟨hblank, htoken', ?_⟩
    exact ha.gives_rest hrest hc hline hreads (hleft.trans hblank.symm) htoken'.symm hrest'

end Argument.Respellable

/-! ## The words of a walk -/

/-- What is written for a component when its line is spelled again. -/
def Component.respelling? (known : Context) : Component → Option String
  | .literal l => some l.name
  | .argument a => known.consumed? a.name
  | .flags _ => none

/-- The line that is made of the names of a command's literals and the texts that were recorded for
    its arguments. -/
def Resolved.respelled (r : Resolved) : String :=
  joined " " (r.entry.command.components.filterMap (Component.respelling? r.context))

/-- What a move took of the line is written for a component: a name that the literal of the edge
    answers to, the text that the argument read, or nothing. -/
inductive Move.Respells (ignoreCase : Bool) (known : Context) (m : Move) : Component → Prop where
  | word {l own : Literal} (component : m.component = .literal l) (read : m.leftOut = false)
      (answers : l.answers ignoreCase own.name = true) (plain : Token.Plain own.name.toList) :
      Respells ignoreCase known m (.literal own)
  | read {a own : Argument} {span : List Char} (component : m.component = .argument a)
      (read : m.leftOut = false) (reads : m.line.Reads span (a.read m.before m.line).line)
      (recorded : known.consumed? own.name = some (String.ofList (trim span))) :
      Respells ignoreCase known m (.argument own)
  | leftOut {own : Argument} (leftOut : m.leftOut = true)
      (recorded : known.consumed? own.name = none) : Respells ignoreCase known m (.argument own)

/-- Nothing is written where nothing was read. -/
theorem Move.respelling_leftOut {ignoreCase : Bool} {known : Context} {moves : List Move}
    {components : List Component}
    (h : List.Forall₂ (Move.Respells ignoreCase known) moves components)
    (hleftOut : ∀ m ∈ moves, m.leftOut = true) :
    components.filterMap (Component.respelling? known) = [] := by
  induction h with
  | nil => rfl
  | @cons m own moves components hhead _ ih =>
      obtain ⟨hm, hmoves⟩ := List.forall_mem_cons.mp hleftOut
      have hnone : own.respelling? known = none := by
        cases hhead with
        | word _ read _ _ => exact absurd hm (by simp [read])
        | read _ read _ _ => exact absurd hm (by simp [read])
        | leftOut _ recorded => exact recorded
      rw [List.filterMap_cons, hnone, ih hmoves]

namespace Position

variable {ignoreCase : Bool} {p q : Position} {m : Move} {own : Component} {known : Context}
  {line : Line} {words : List String}

/-- Where an edge is passed at the end of the line, it is passed at the end of any line. -/
theorem step_again_at_end (hend : p.line.isBlank = true) (h : p.step ignoreCase = .descend q)
    (hline : line.isBlank = true) :
    ∃ line', Position.step ignoreCase { p with line } = .descend { q with line := line' } ∧
      line'.isBlank = true := by
  rw [step_at_end hend] at h
  obtain ⟨hroot, hending, a, child, filled, hleaves, hfill, rfl⟩ := stepAtEnd_leavesOut h
  refine ⟨line.skipBlank, ?_, line.skipBlank_agrees.isBlank.trans hline⟩
  rw [step_leaving_out (p := { p with line }) hline hroot hending hleaves]
  have hfill' : a.fill p.context = .ok filled := hfill
  simp only [skipArgument, skipBlank, hfill']

/-- Where a literal is passed, a name that it answers to leads along it too. -/
theorem step_again_at_word (hn : p.node.Orderly ignoreCase) {l own : Literal} {child : Node}
    (hedge : (l, child) ∈ p.node.literals) (hpermitted : child.permits p.context = true)
    (hanswers : l.answers ignoreCase own.name = true) (hplain : Token.Plain own.name.toList)
    (hline : line.Holds (own.name :: words)) :
    ∃ line', Position.step ignoreCase { p with line } =
      .descend { node := child, context := p.context, line := line' } ∧ line'.Holds words := by
  have hstands := hplain.stands (Token.apart_spaced words)
  refine ⟨line.skipBlank.skipToken, ?_, hline.skipToken hstands⟩
  rw [step_of_token (p := { p with line }) (hline.isBlank_cons hstands)]
  refine stepAtToken_word (p := Position.skipBlank { p with line }) (l := l) ?_ hpermitted
  show p.node.findLiteral ignoreCase line.skipBlank.peekToken = _
  rw [hline.peekToken hstands]
  exact hn.findLiteral_of_answers hedge hanswers

/-- At a node without flags, and none behind its arguments, the next token is for the argument. -/
theorem stepAtToken_reads {a : Argument} {child : Node} (hat : p.AtArgument ignoreCase a child)
    (hflags : p.node.flags = none) (hbelow : child.flagsBelow? = none) :
    ∃ denied, p.stepAtToken ignoreCase = p.readArgument denied a child := by
  obtain ⟨denied, hstep⟩ := stepAtToken_atArgument hat
  refine ⟨denied, ?_⟩
  rw [hstep, skips, detours, hbelow, hflags]
  simp

/-- Where an argument is read, it is read again off a line that goes on with its recorded text. -/
theorem step_again_at_argument {a : Argument} {child : Node} {value : Value} {span : List Char}
    (hleft : p.line.isBlank = false) (hat : p.skipBlank.AtArgument ignoreCase a child)
    (hflags : p.node.flags = none) (hbelow : child.flagsBelow? = none) (ha : a.Respellable)
    (htrimmed : (Token.cut p.line.skipBlank.rest).Trimmed)
    (hreads : (a.read p.context p.line.skipBlank).result = .ok value)
    (hspan : p.line.skipBlank.Reads span (a.read p.context p.line.skipBlank).line)
    (hwords : (a.read p.context p.line.skipBlank).line.isBlank = true → words = [])
    (hline : line.Holds (String.ofList (Text.trim span) :: words)) :
    ∃ line', Position.step ignoreCase { p with line } =
      .descend
        { node := child
          context := argumentRead a p.line.skipBlank value (a.read p.context p.line.skipBlank)
          line := line' } ∧
      line'.Holds words := by
  obtain ⟨hblank, htoken, hgives⟩ := ha.gives p.line.skipBlank_skipBlank
    (p.line.skipBlank_agrees.isBlank.trans hleft) htrimmed hreads hspan hwords hline
  have hat' : (Position.skipBlank { p with line }).AtArgument ignoreCase a child := by
    refine ⟨?_, hat.edge, hat.permitted⟩
    intro l below hfound
    refine hat.past l below ?_
    show p.node.findLiteral ignoreCase p.line.skipBlank.peekToken = _
    rw [← htoken]
    exact hfound
  obtain ⟨denied, hstep⟩ := stepAtToken_reads hat' hflags hbelow
  have hcontext : (a.read p.context p.line.skipBlank).context = p.context := by
    rw [(Argument.read_of_ok hreads).2, ha.within.context_eq]
  have hresult : (a.read p.context line.skipBlank).result = .ok value := hgives.result
  refine ⟨(a.read p.context line.skipBlank).line, ?_, hgives.left⟩
  rw [step_of_token (p := { p with line }) hblank, hstep]
  simp only [readArgument, skipBlank, hresult]
  rw [argumentRead, argumentRead, hgives.context, hgives.recorded, hcontext, hspan.readSince]

end Position

/-- There are no flags in a tree of respellable components. -/
theorem Node.Everywhere.noFlags {n : Node} (h : n.Everywhere (Carries Component.Respellable)) :
    n.flags = none ∧ n.flagsBelow? = none := by
  induction h with
  | @intro n here _ _ _ ih =>
      have hflags : n.flags = none := by
        refine Option.eq_none_iff_forall_ne_some.mpr ?_
        rintro ⟨g, ending⟩ hedge
        exact here.flags g ending hedge
      refine ⟨hflags, ?_⟩
      rw [flagsBelow?_eq, hflags]
      split
      · next heq => cases heq
      · rfl
      · next a child _ hargument =>
          split
          · rfl
          · exact (ih _ hargument).2

namespace Position

variable {ignoreCase : Bool} {p q : Position}

/-- A step is taken again before a line that goes on with what is written for its move. -/
theorem step_again (horderly : p.node.Orderly ignoreCase)
    (hcarries : p.node.Everywhere (Node.Carries Component.Respellable))
    (htrimmed : (Token.cut p.line.rest).Trimmed) (h : p.step ignoreCase = .descend q) :
    ∃ m, p.skipBlank.Passes ignoreCase m q ∧ (p.line.isBlank = true → m.leftOut = true) ∧
      ∀ known own words (line : Line), m.Respells ignoreCase known own →
        (q.line.isBlank = true → words = []) →
        line.Holds ((own.respelling? known).toList ++ words) →
        ∃ line', Position.step ignoreCase { p with line } = .descend { q with line := line' } ∧
          line'.Holds words := by
  cases hend : p.line.isBlank with
  | true =>
      have hstep := h
      rw [step_at_end hend] at hstep
      obtain ⟨-, -, a, child, filled, hleaves, hfill, rfl⟩ := stepAtEnd_leavesOut hstep
      refine ⟨_, .skipped hleaves.edge hleaves.permitted hleaves.optional hfill, fun _ => rfl, ?_⟩
      intro known own words line hrespells hwords hline
      obtain rfl := hwords (p.line.skipBlank_agrees.isBlank.trans hend)
      cases hrespells with
      | word _ read _ _ => cases read
      | read _ read _ _ => cases read
      | leftOut _ recorded =>
          rw [Component.respelling?, recorded] at hline
          obtain ⟨line', hagain, hblank⟩ := step_again_at_end hend h hline.isBlank_nil
          exact ⟨line', hagain, Line.holds_nil hblank⟩
  | false =>
      have hstep := h
      rw [step_of_token hend] at hstep
      obtain ⟨hnoFlags, -⟩ := hcarries.noFlags
      rcases literal_cases ignoreCase p.skipBlank with hpast | ⟨l, child, hfound, hpermitted⟩
      · rcases argument_cases p.skipBlank with hnone | ⟨a, child, hedge, hpermitted⟩
        · obtain ⟨denied, hflags⟩ := stepAtToken_pastArgument hpast hnone
          rw [hflags] at hstep
          exact absurd hstep stepAtFlags_ne_descend
        · have hat : p.skipBlank.AtArgument ignoreCase a child := ⟨hpast, hedge, hpermitted⟩
          have hbelow := (hcarries.argument hedge).noFlags.2
          obtain ⟨denied, hreadArgument⟩ := stepAtToken_reads hat hnoFlags hbelow
          rw [hreadArgument] at hstep
          simp only [readArgument] at hstep
          split at hstep
          · next value hreads =>
              cases hstep
              refine ⟨_, .read hedge hpermitted hreads, by simp, ?_⟩
              intro known own words line hrespells hwords hline
              cases hrespells with
              | word component _ _ _ => cases component
              | leftOut leftOut _ => cases leftOut
              | read component _ reads recorded =>
                  cases component
                  rw [Component.respelling?, recorded] at hline
                  exact step_again_at_argument hend hat hnoFlags hbelow
                    (hcarries.here.argument a child hedge) htrimmed.skipBlank hreads reads
                    hwords hline
          · cases hstep
      · rw [stepAtToken_word hfound hpermitted] at hstep
        cases hstep
        refine ⟨_, .word hfound hpermitted, by simp, ?_⟩
        intro known own words line hrespells hwords hline
        cases hrespells with
        | read component _ _ _ => cases component
        | leftOut leftOut _ => cases leftOut
        | word component _ answers plain =>
            cases component
            exact step_again_at_word horderly (List.mem_of_find?_eq_some hfound) hpermitted answers
              plain hline

/-- A move that reads nothing stays where it is. -/
theorem Passes.line_of_leftOut {m : Move} (h : p.Passes ignoreCase m q)
    (hleftOut : m.leftOut = true) : q.line = p.line := by
  cases h with
  | word _ _ => cases hleftOut
  | read _ _ _ => cases hleftOut
  | skipped _ _ _ _ => rfl

/-- A pass is taken again before a line of the words that are written for its moves. -/
theorem run_again {r : Resolved} (horderly : p.node.Everywhere (Node.Orderly ignoreCase))
    (hcarries : p.node.Everywhere (Node.Carries Component.Respellable))
    (htrimmed : ∀ n q, turns (routed ignoreCase) n p = some q → (Token.cut q.line.rest).Trimmed)
    (h : p.run ignoreCase = .ok r) :
    ∃ moves ending, p.Walk ignoreCase moves ending r ∧
      (p.line.isBlank = true → ∀ m ∈ moves, m.leftOut = true) ∧
      ∀ components, List.Forall₂ (Move.Respells ignoreCase r.context) moves components →
        ∀ line : Line, line.Holds (components.filterMap (Component.respelling? r.context)) →
          Position.run ignoreCase { p with line } = .ok r := by
  fun_induction run ignoreCase p with
  | case1 p q hstep ih =>
      obtain ⟨m, hpasses, hblank, hagain⟩ :=
        step_again horderly.here hcarries (htrimmed 0 p rfl) hstep
      have hrouted : p.routed ignoreCase = some q := by rw [routed, hstep]
      have horderly' : q.node.Everywhere (Node.Orderly ignoreCase) := by
        rcases step_descend hstep with ⟨l, hedge⟩ | ⟨a, hedge⟩
        · exact horderly.literal hedge
        · exact horderly.argument hedge
      obtain ⟨moves, ending, hwalk, hleftOut, hrun⟩ := ih horderly' (hpasses.everywhere hcarries).2
        (fun n q' hq' => htrimmed (n + 1) q' (turns_head hrouted hq')) h
      refine ⟨m :: moves, ending, .descend hstep hpasses hwalk, ?_, ?_⟩
      · intro hend
        refine List.forall_mem_cons.mpr ⟨hblank hend, hleftOut ?_⟩
        rw [hpasses.line_of_leftOut (hblank hend)]
        exact p.line.skipBlank_agrees.isBlank.trans hend
      · intro components hrespells line hline
        obtain ⟨own, components, hown, hcomponents, rfl⟩ := List.forall₂_cons_left_iff.mp hrespells
        have hwords : q.line.isBlank = true →
            components.filterMap (Component.respelling? r.context) = [] :=
          fun hend => Move.respelling_leftOut hcomponents (hleftOut hend)
        have hsplit : (own :: components).filterMap (Component.respelling? r.context) =
            (own.respelling? r.context).toList ++
              components.filterMap (Component.respelling? r.context) := by
          rw [List.filterMap_cons]
          cases own.respelling? r.context <;> rfl
        rw [hsplit] at hline
        obtain ⟨line', hstep', hline'⟩ := hagain _ _ _ line hown hwords hline
        rw [run_of_descend hstep']
        exact hrun components hcomponents line' hline'
  | case2 p found hstep =>
      cases h
      rcases step_arrive_cases hstep with ⟨hend, hselects⟩ | ⟨m, henters, -, -⟩
      · refine ⟨[], p.node.ending, .arrive hstep hselects, by simp, ?_⟩
        intro components hnone line hline
        obtain rfl := List.forall₂_nil_left_iff.mp hnone
        obtain ⟨-, hfound⟩ := Step.select_eq_arrive hselects
        have hending : p.node.ending ≠ [] := List.ne_nil_of_mem (List.mem_of_find?_eq_some hfound)
        rw [step_at_end hend] at hstep
        have hroot : p.atRoot = false := atRoot_of_stepAtEnd (p := p.skipBlank) hstep
        refine run_of_arrive ?_
        rw [step_where_ending (p := { p with line }) hline.isBlank_nil hroot hending]
        exact hselects
      · -- there are no flags to enter
        obtain ⟨hnoFlags, -⟩ := hcarries.noFlags
        have hnone : p.skipBlank.node.flags = none := hnoFlags
        cases henters with
        | read edge _ _ => cases hnone.symm.trans edge
        | none edge _ => cases hnone.symm.trans edge
  | case3 p failure hstep => cases h

/-- A literal is never left out. -/
theorem Walk.leftOut_of_literal {moves : List Move} {ending : List Entry} {r : Resolved}
    (h : p.Walk ignoreCase moves ending r) {m : Move} {l : Literal} (hm : m ∈ moves)
    (hl : m.component = .literal l) : m.leftOut = false := by
  induction h with
  | descend _ passes _ ih =>
      rcases List.mem_cons.mp hm with rfl | hm
      · cases passes with
        | word _ _ => rfl
        | read _ _ _ => cases hl
        | skipped _ _ _ _ => cases hl
      · exact ih hm
  | arrive _ _ => cases hm
  | enter _ enters _ =>
      cases List.mem_singleton.mp hm
      cases enters <;> cases hl

end Position

/-- If both are literals, the one of the edge answers to the name of the command's own. -/
def Component.Heeds (ignoreCase : Bool) (edge own : Component) : Prop :=
  ∀ l o, edge = .literal l → own = .literal o → l.answers ignoreCase o.name = true

/-- What a move took is written for the component of the command that goes along its edge. -/
theorem Move.respells {ignoreCase : Bool} {known : Context} {m : Move} {own : Component}
    (hcorresponds : m.component.Corresponds ignoreCase own)
    (hheeds : m.component.Heeds ignoreCase own) (hrespellable : m.component.Respellable)
    (hplain : ∀ l, own = .literal l → Token.Plain l.name.toList)
    (hwritten : ∀ l, m.component = .literal l → m.leftOut = false)
    (hrecorded : ∀ a span, m.component = .argument a → m.Takes ignoreCase span →
      a.Recorded m span known) : m.Respells ignoreCase known own := by
  cases hcomponent : m.component with
  | literal l =>
      rw [hcomponent] at hcorresponds hheeds
      cases own with
      | literal o => exact .word hcomponent (hwritten l hcomponent) (hheeds l o rfl rfl) (hplain o rfl)
      | argument _ => exact hcorresponds.elim
      | flags _ => exact hcorresponds.elim
  | argument a =>
      rw [hcomponent] at hcorresponds hrespellable
      cases own with
      | literal _ => exact hcorresponds.elim
      | flags _ => exact hcorresponds.elim
      | argument o =>
          have hname : a.name = o.name := hcorresponds
          cases hleftOut : m.leftOut with
          | true =>
              have hnothing := hrecorded a [] hcomponent (.skipped hcomponent hleftOut)
              exact .leftOut hleftOut (hname ▸ (hnothing.leftOut hleftOut).1)
          | false =>
              obtain ⟨span, hreads⟩ :=
                Argument.onward_read (Argument.Respellable.within hrespellable) m.before m.line
              have hspan := hrecorded a span hcomponent (.argument hcomponent hleftOut hreads)
              exact .read hcomponent hleftOut hreads (hname ▸ (hspan.read hleftOut).1)
  | flags g =>
      rw [hcomponent] at hrespellable
      exact hrespellable.elim

namespace Tree

/-- The literals on the way to a command answer to its own names. -/
def Heeds (t : Tree) (e : Entry) : Prop :=
  ∀ path ending, t.root.Leads path ending → e ∈ ending →
    List.Forall₂ (Component.Heeds t.rules.ignoreCase) path e.command.components

/-- Where case counts, commands are filed along literals of their own names. -/
theorem Reachable.heeds {t : Tree} (ht : t.Reachable) (hcase : t.rules.ignoreCase = false)
    (e : Entry) : t.Heeds e := by
  intro path ending hleads he
  refine (ht.filed.corresponds hleads e he).imp ?_
  rintro _ _ hcorresponds l o rfl rfl
  rw [hcase] at hcorresponds ⊢
  have hname : l.name = o.name := hcorresponds
  exact List.any_eq_true.mpr ⟨l.name, List.mem_cons_self, beq_iff_eq.mpr hname⟩

/-- A line that is spelled again from what was recorded for it leads to the same command with the
    same context. The literals of the command must have plain names, to which those of the tree
    answer, and no token that the pass comes by may be a quote that was left open and ends in white
    space. -/
theorem Built.route_respelled {t : Tree} {ctx : Context} {text : String} {r : Resolved}
    (ht : t.Built Component.Respellable) (hfresh : ctx.Fresh) (h : t.route ctx text = .ok r)
    (hplain : ∀ l, .literal l ∈ r.entry.command.components → Token.Plain l.name.toList)
    (hheeds : t.rules.ignoreCase = true → t.Heeds r.entry)
    (htrimmed : ∀ n p, turns (Position.routed t.rules.ignoreCase) n
      (Position.start t ctx (.ofString text)) = some p → (Token.cut p.line.rest).Trimmed) :
    t.route ctx r.respelled = .ok r := by
  have hcarries : t.root.Everywhere (Node.Carries Component.Respellable) :=
    ht.carries fun _ _ _ _ => trivial
  obtain ⟨moves, ending, hwalk, -, hagain⟩ :=
    Position.run_again ht.reachable.orderly hcarries htrimmed h
  have hentry : r.entry ∈ ending := List.mem_of_find?_eq_some hwalk.selected
  have hpath := ht.reachable.filed.corresponds hwalk.leads _ hentry
  have hheeds : t.Heeds r.entry := by
    cases hcase : t.rules.ignoreCase with
    | true => exact hheeds hcase
    | false => exact ht.reachable.heeds hcase r.entry
  have hplain' : ∀ m ∈ moves, m.component.Plain :=
    fun m hm => (hwalk.carried hcarries m hm).plain
  have hkeyed := ht.reachable.filed.keyed hwalk.leads
  rw [List.forall₂_map_left_iff, List.forall₂_iff_zip] at hpath
  have hnamed := List.forall₂_map_left_iff.mp (hheeds _ _ hwalk.leads hentry)
  rw [List.forall₂_iff_zip] at hnamed
  refine hagain _ (List.forall₂_iff_zip.mpr ⟨hpath.1, fun {m own} hmem => ?_⟩) _
    (Line.holds_joined _)
  obtain ⟨hm, hown⟩ := List.of_mem_zip hmem
  refine Move.respells (hpath.2 hmem) (hnamed.2 hmem) (hwalk.carried hcarries m hm) ?_ ?_ ?_
  · rintro l rfl
    exact hplain l hown
  · exact fun l hl => hwalk.leftOut_of_literal hm hl
  · exact fun a span ha htakes => hwalk.records hplain' hkeyed hfresh hm htakes a ha

end Tree

/-! ## Lines that end in no white space -/

/-- On a line that ends in no white space, every token that a pass comes by is trimmed. -/
theorem Position.trimmed_of_turns {ignoreCase : Bool} {p q : Position} {n : Nat}
    (hcarries : p.node.Everywhere (Node.Carries Component.Respellable))
    (hend : trimEnd p.line.rest = p.line.rest) (h : turns (routed ignoreCase) n p = some q) :
    (Token.cut q.line.rest).Trimmed := by
  have honward : p.line.Onward q.line ∧
      q.node.Everywhere (Node.Carries Component.Respellable) := by
    refine turns_keep (I := fun q : Position => p.line.Onward q.line ∧
      q.node.Everywhere (Node.Carries Component.Respellable)) ⟨.refl _, hcarries⟩ ?_ h
    rintro v u ⟨hv, hcarried⟩ hnext
    obtain ⟨m, hpasses, hblank⟩ := step_descend_passes (descend_of_routed hnext)
    obtain ⟨hm, hu⟩ := hpasses.everywhere hcarried
    obtain ⟨span, -, hreads⟩ := hpasses.takes hm.plain hblank
    exact ⟨hv.trans (.trans ⟨_, v.line.reads_skipBlank⟩ ⟨span, hreads⟩), hu⟩
  obtain ⟨⟨span, hreads⟩, -⟩ := honward
  rw [hreads.rest] at hend
  exact Token.trimmed_cut (trimEnd_of_append hend)

/-- `tell <who> <message>`, of which the message goes on to the end of the line. -/
def Command.tell : Command where
  components :=
    [.literal { name := "tell" },
     .argument { name := "who", parser := .text .word },
     .argument { name := "message", parser := .text .rest }]

/-- A tree with one command. -/
def Tree.telling : Tree :=
  ({} : Tree).apply (.insert .tell)

theorem Tree.telling_built : Tree.telling.Built Component.Respellable := by
  refine .of_command ?_
  simp only [Command.tell, List.forall_mem_cons]
  exact ⟨trivial, ⟨.inl .word, by simp⟩, ⟨.inr rfl, by simp⟩, by simp⟩

/-- What `tell 'Ann B'hi  you` leads to. -/
def Resolved.told : Resolved where
  entry := ⟨0, .tell⟩
  context := ((((Context.ofRight "").store "who" (.plain (.text "Ann B"))).recordConsumed "who"
    "'Ann B'").store "message" (.plain (.text "hi  you"))).recordConsumed "message" "hi  you"

theorem Tree.route_telling :
    Tree.telling.route (.ofRight "") "tell 'Ann B'hi  you" = .ok .told :=
  (Position.run_of_descend rfl).trans ((Position.run_of_descend rfl).trans
    ((Position.run_of_descend rfl).trans (Position.run_of_arrive rfl)))

/-- The text behind a quoted name comes apart from it when the line is spelled again. -/
theorem Tree.route_respelled_tell :
    Tree.telling.route (.ofRight "") "tell 'Ann B'hi  you" = .ok .told ∧
      Resolved.told.respelled = "tell 'Ann B' hi  you" ∧
      Tree.telling.route (.ofRight "") Resolved.told.respelled = .ok .told := by
  refine ⟨Tree.route_telling, by decide +kernel, ?_⟩
  refine Tree.Built.route_respelled Tree.telling_built ⟨fun _ => rfl, fun _ => rfl⟩
    Tree.route_telling ?_ (fun hcase => by cases hcase) ?_
  · intro l hl
    obtain rfl : l = { name := "tell" } := by simpa [Resolved.told, Command.tell] using hl
    have hunbroken : "tell".toList.all (!isBlank ·) = true := by decide +kernel
    refine ⟨by decide, ?_, ?_⟩
    · simpa using hunbroken
    · rintro c ⟨⟩
      rfl
  · intro n p
    exact Position.trimmed_of_turns (Tree.telling_built.carries fun _ _ _ _ => trivial)
      (by decide +kernel)

/-- `call <name>`. -/
def Command.call : Command where
  components := [.literal { name := "call" }, .argument { name := "name", parser := .text .word }]

/-- A tree with one command. -/
def Tree.naming : Tree :=
  ({} : Tree).apply (.insert .call)

/-- The call of a name, of which a text was recorded. -/
def Resolved.called (name text : String) : Resolved where
  entry := ⟨0, .call⟩
  context := ((Context.ofRight "").store "name" (.plain (.text name))).recordConsumed "name" text

/-- A quote that is left open holds the white space behind it, which is not recorded: spelled again,
    the line leads to another value. -/
theorem Tree.respelling_cuts_open_quote :
    Tree.naming.Built Component.Respellable ∧
      Tree.naming.route (.ofRight "") "call \"Ann  " = .ok (.called "Ann  " "\"Ann") ∧
      Tree.naming.route (.ofRight "") (Resolved.called "Ann  " "\"Ann").respelled =
        .ok (.called "Ann" "\"Ann") ∧
      (Resolved.called "Ann  " "\"Ann").context.value? "name" = some (.plain (.text "Ann  ")) ∧
      (Resolved.called "Ann" "\"Ann").context.value? "name" = some (.plain (.text "Ann")) := by
  refine ⟨.of_command ?_, ?_, ?_, rfl, rfl⟩
  · simp only [Command.call, List.forall_mem_cons]
    exact ⟨trivial, ⟨.inl .word, by simp⟩, by simp⟩
  · exact (Position.run_of_descend rfl).trans ((Position.run_of_descend rfl).trans
      (Position.run_of_arrive rfl))
  · exact (Position.run_of_descend rfl).trans ((Position.run_of_descend rfl).trans
      (Position.run_of_arrive rfl))

end CommandLine
