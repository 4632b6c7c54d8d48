import CommandLine.Proofs.Focus.Choosing
import CommandLine.Proofs.Line.Front
import CommandLine.Proofs.Route.Values
import CommandLine.Proofs.Tree.Creation
import CommandLine.Proofs.Tree.Names
import CommandLine.Proofs.Tree.Ordering

/-! # Completion on trees of literals

    Where all commands consist of literals, a completion and the router do the same with every token
    in front of the one that is being typed: it selects a literal that leads to a command the sender
    may run, or else both give up. So a name is suggested exactly where the router, given the line
    with the name in place of the touched token, goes along the literal of that name
    (`Tree.Reachable.suggests_iff_routes`).

    It takes a name that is one token where it is put. Commands may have others: a literal of the
    name `t p` is never taken by the router, and an alias outlives the command that it came with, so
    it is suggested even in trees of commands without such names
    (`Tree.completion_offers_broken_name`). -/

namespace CommandLine

open Text

/-! ## Trees of literals -/

/-- A component that is a literal. -/
def Component.IsLiteral (c : Component) : Prop :=
  ∃ l, c = .literal l

/-- A literal all of whose names are plain words. -/
def Component.IsPlain (c : Component) : Prop :=
  ∃ l, c = .literal l ∧ ∀ name ∈ l.names, Token.Plain name.toList

/-- A node with literals only. -/
structure Node.OnlyLiterals (n : Node) : Prop where
  argument : n.argument = none
  flags : n.flags = none

/-- Where all paths from a node are paths of literals, there are only literals below it. -/
theorem Node.everywhere_onlyLiterals {ignoreCase : Bool} {n : Node}
    (horderly : n.Everywhere (Orderly ignoreCase))
    (h : ∀ path ending e, n.Leads path ending → e ∈ ending → ∀ c ∈ path, c.IsLiteral) :
    n.Everywhere OnlyLiterals := by
  induction n using childInduction with
  | step n ihLiterals ihArgument =>
      have hargument : n.argument = none := by
        refine Option.eq_none_iff_forall_ne_some.mpr ?_
        rintro ⟨a, child⟩ hedge
        obtain ⟨path, ending, e, hleads, he⟩ :=
          exists_leads (horderly.here.belowArgument _ hedge)
        obtain ⟨l, hl⟩ := h _ ending e (.argument hedge hleads) he _ List.mem_cons_self
        cases hl
      have hflags : n.flags = none := by
        refine Option.eq_none_iff_forall_ne_some.mpr ?_
        rintro ⟨g, ending⟩ hedge
        obtain ⟨e, he⟩ := List.exists_mem_of_ne_nil _ (horderly.here.belowFlags g ending hedge)
        obtain ⟨l, hl⟩ := h _ ending e (.flags hedge) he _ List.mem_cons_self
        cases hl
      refine .intro ⟨hargument, hflags⟩ (fun edge hedge => ?_) (by simp [hargument])
      refine ihLiterals edge hedge (horderly.literal hedge) ?_
      intro path ending e hleads he c hc
      exact h _ ending e (.literal hedge hleads) he c (List.mem_cons_of_mem _ hc)

/-- A reachable tree of commands that consist of literals has literals only. -/
theorem Tree.Reachable.onlyLiterals {t : Tree} (ht : t.Reachable)
    (h : ∀ e ∈ t.entries, ∀ c ∈ e.command.components, c.IsLiteral) :
    t.root.Everywhere Node.OnlyLiterals := by
  refine Node.everywhere_onlyLiterals ht.orderly ?_
  intro path ending e hleads he c hc
  -- the components of a path correspond to those of the commands that end there
  have hpath := ht.filed.corresponds hleads e he
  obtain ⟨i, hi⟩ := List.mem_iff_getElem?.mp hc
  obtain ⟨own, hown, hcorresponds⟩ := forall₂_getElem? hpath.flip hi
  obtain ⟨l, rfl⟩ := h e (hleads.mem_entries he) own (List.mem_of_getElem? hown)
  cases c with
  | literal own => exact ⟨own, rfl⟩
  | argument a => exact hcorresponds.elim
  | flags g => exact hcorresponds.elim

/-! ## What is suggested -/

/-- Without limits, those texts are chosen that continue what was typed. -/
theorem Limits.mem_values_choose {v typed : String} {list : List Suggestion} :
    v ∈ (Limits.choose {} typed list).map (·.value) ↔
      v ∈ list.map (·.value) ∧ (lowercase typed).toList <+: (lowercase v).toList := by
  rw [choose_unlimited, Suggestion.firsts, Suggestion.mem_values_firstsExcept]
  simp only [Suggestion.matching, List.mem_map, List.mem_filter, Suggestion.continues,
    List.isPrefixOf_iff_prefix, List.not_mem_nil, not_false_eq_true, and_true]
  constructor
  · rintro ⟨s, ⟨hs, hprefix⟩, rfl⟩
    exact ⟨⟨s, hs, rfl⟩, hprefix⟩
  · rintro ⟨⟨s, hs, rfl⟩, hprefix⟩
    exact ⟨s, ⟨hs, hprefix⟩, rfl⟩

/-- At a node with literals only, the names of those are suggested that lead to a command the sender
    may run. -/
theorem Node.OnlyLiterals.suggest_eq {n : Node} (hn : n.OnlyLiterals) (ctx : Context) (line : Line)
    (memory : Memory) :
    (n.suggest ctx line memory).1 =
      (n.literals.filter (·.2.permits ctx)).flatMap (·.1.suggestions) := by
  obtain ⟨ending, literals, argument, flags⟩ := n
  obtain ⟨rfl, rfl⟩ := hn
  have hsuggest : (Node.suggest ⟨ending, literals, none, none⟩ ctx line memory).1 =
      (literals.filter (·.2.permits ctx)).flatMap (·.1.suggestions) ++ [] ++ [] := rfl
  rw [hsuggest, List.append_nil, List.append_nil]

theorem Node.OnlyLiterals.mem_suggest {n : Node} (hn : n.OnlyLiterals) {ctx : Context} {line : Line}
    {memory : Memory} {v : String} :
    v ∈ (n.suggest ctx line memory).1.map (·.value) ↔
      ∃ l child, (l, child) ∈ n.literals ∧ child.permits ctx = true ∧ v ∈ l.names := by
  rw [hn.suggest_eq]
  simp only [List.mem_map, List.mem_flatMap, List.mem_filter, Literal.suggestions, Prod.exists]
  constructor
  · rintro ⟨s, ⟨l, child, ⟨hedge, hpermits⟩, name, hname, rfl⟩, rfl⟩
    exact ⟨l, child, hedge, hpermits, hname⟩
  · rintro ⟨l, child, hedge, hpermits, hname⟩
    exact ⟨_, ⟨l, child, ⟨hedge, hpermits⟩, v, hname, rfl⟩, rfl⟩

/-! ## Side by side -/

namespace Position

variable {ignoreCase : Bool} {p q : Position}

/-- On its way from a position the router goes along a literal where exactly `left` is left of the
    line. -/
inductive SelectsAt (ignoreCase : Bool) (left : List Char) (l : Literal) : Position → Prop where
  | here {p next : Position} {m : Move} (step : p.step ignoreCase = .descend next)
      (passes : p.skipBlank.Passes ignoreCase m next) (word : m.component = .literal l)
      (exact : p.skipBlank.line.rest = left) : SelectsAt ignoreCase left l p
  | later {p next : Position} (step : p.step ignoreCase = .descend next)
      (behind : SelectsAt ignoreCase left l next) : SelectsAt ignoreCase left l p

variable {left : List Char} {l : Literal}

/-- A literal that the router goes along is one of the tree. -/
theorem SelectsAt.carried {Q : Component → Prop} (h : p.SelectsAt ignoreCase left l)
    (hn : p.node.Everywhere (Node.Carries Q)) : Q (.literal l) := by
  induction h with
  | here _ passes word _ =>
      cases passes with
      | word found _ =>
          cases word
          exact hn.here.literals _ (List.mem_of_find?_eq_some found)
      | read _ _ _ => cases word
      | skipped _ _ _ _ => cases word
  | later step _ ih =>
      obtain ⟨m, hpasses, -⟩ := step_descend_passes step
      refine ih ?_
      cases hpasses with
      | word found _ => exact hn.literal (List.mem_of_find?_eq_some found)
      | read edge _ _ => exact hn.argument edge
      | skipped edge _ _ _ => exact hn.argument edge

/-- A step goes along the literal that the next token selects. -/
theorem step_word (hblank : p.line.isBlank = false) {child : Node}
    (hfound : p.node.findLiteral ignoreCase p.line.peekToken = some (l, child))
    (hpermits : child.permits p.context = true) :
    p.step ignoreCase =
        .descend { node := child, context := p.context, line := p.line.skipToken } ∧
      ∃ m, m.component = .literal l ∧ p.skipBlank.Passes ignoreCase m
        { node := child, context := p.context, line := p.line.skipToken } := by
  have hskip : p.skipBlank.line.skipToken = p.line.skipToken := p.line.skipBlank_agrees.skipToken
  have hfound : p.skipBlank.node.findLiteral ignoreCase p.skipBlank.line.peekToken =
      some (l, child) := by
    rw [← hfound]
    exact congrArg _ p.line.skipBlank_agrees.peekToken
  have hpasses := Passes.word hfound hpermits
  rw [hskip] at hpasses
  refine ⟨?_, _, rfl, hpasses⟩
  rw [step_of_token hblank, stepAtToken_word hfound hpermits, hskip]
  rfl

/-- At a node with literals only, a step leads on where the next token selects one that leads to a
    command the sender may run. -/
theorem step_descend_iff (hn : p.node.OnlyLiterals) {next : Position} :
    p.step ignoreCase = .descend next ↔
      p.line.isBlank = false ∧ ∃ l child,
        p.node.findLiteral ignoreCase p.line.peekToken = some (l, child) ∧
        child.permits p.context = true ∧
        next = { node := child, context := p.context, line := p.line.skipToken } := by
  have htoken : p.skipBlank.line.peekToken = p.line.peekToken := p.line.skipBlank_agrees.peekToken
  have hskip : p.skipBlank.line.skipToken = p.line.skipToken := p.line.skipBlank_agrees.skipToken
  constructor
  · intro hstep
    obtain ⟨m, hpasses, hleftOut⟩ := step_descend_passes hstep
    cases hpasses with
    | word found permitted =>
        rw [htoken] at found
        refine ⟨?_, _, _, found, permitted, by rw [hskip]; rfl⟩
        cases hblank : p.line.isBlank with
        | false => rfl
        | true => cases hleftOut hblank
    | read edge _ _ => cases hn.argument.symm.trans edge
    | skipped edge _ _ _ => cases hn.argument.symm.trans edge
  · rintro ⟨hblank, l, child, hfound, hpermits, rfl⟩
    exact (step_word hblank hfound hpermits).1

/-- Where nothing is left, the router goes along no literal any more. -/
theorem not_selectsAt_of_blank (hn : p.node.OnlyLiterals) (hblank : p.line.isBlank = true) :
    ¬p.SelectsAt ignoreCase left l := by
  intro h
  cases h with
  | here step _ _ _ =>
      obtain ⟨hsome, -⟩ := (step_descend_iff hn).mp step
      cases hblank.symm.trans hsome
  | later step _ =>
      obtain ⟨hsome, -⟩ := (step_descend_iff hn).mp step
      cases hblank.symm.trans hsome

/-- In front of a plain word and nothing else, the router goes along the literal that the word
    selects. -/
theorem selectsAt_iff_found (hn : p.node.Everywhere Node.OnlyLiterals) {blank : List Char}
    {v : String} (hblank : ∀ c ∈ blank, isBlank c = true) (hv : Token.Plain v.toList)
    (hleft : p.line.rest = blank ++ v.toList) :
    p.SelectsAt ignoreCase v.toList l ↔
      ∃ child, p.node.findLiteral ignoreCase v = some (l, child) ∧
        child.permits p.context = true := by
  have hstands : Token.Stands v.toList v [] := hv.stands (by rintro c ⟨⟩)
  have hexact : p.skipBlank.line.rest = v.toList := by
    show trimStart p.line.rest = _
    rw [hleft, trimStart, List.dropWhile_append_of_pos hblank]
    exact (List.append_nil v.toList) ▸ hstands.trimStart_eq
  have hcut : Token.cut p.skipBlank.line.rest = ⟨[], v.toList, v.toList, []⟩ := by
    rw [hexact, hv.cut_eq]
  have hsome : p.line.isBlank = false := by
    rw [Line.isBlank_eq_skipBlank]
    exact List.isEmpty_eq_false_iff.mpr (hexact ▸ hv.written)
  have htoken : p.line.peekToken = v := by
    rw [← p.line.skipBlank_agrees.peekToken, Line.peekToken]
    show String.ofList (Token.cut p.skipBlank.line.rest).value = v
    rw [hcut, String.ofList_toList]
  have hnothing : p.line.skipToken.isBlank = true := by
    rw [← p.line.skipBlank_agrees.skipToken]
    show (trimStart (Token.cut p.skipBlank.line.rest).rest).isEmpty = true
    rw [hcut]
    rfl
  constructor
  · intro h
    cases h with
    | here step passes word _ =>
        cases passes with
        | @word own child found permitted =>
            cases word
            have hfound : p.node.findLiteral ignoreCase p.line.skipBlank.peekToken = _ := found
            rw [p.line.skipBlank_agrees.peekToken, htoken] at hfound
            exact ⟨child, hfound, permitted⟩
        | read _ _ _ => cases word
        | skipped _ _ _ _ => cases word
    | later step behind =>
        -- nothing is left behind the word
        obtain ⟨-, own, child, hfound, -, rfl⟩ := (step_descend_iff hn.here).mp step
        have hchild := hn.literal (List.mem_of_find?_eq_some hfound)
        exact absurd behind (not_selectsAt_of_blank hchild.here hnothing)
  · rintro ⟨child, hfound, hpermits⟩
    have hfound : p.node.findLiteral ignoreCase p.line.peekToken = some (l, child) := by
      rw [htoken, hfound]
    obtain ⟨hstep, m, hword, hpasses⟩ := step_word hsome hfound hpermits
    exact .here hstep hpasses hword hexact

/-- Where more than `left` is left of the line, the router goes along the literal later. -/
theorem selectsAt_step_iff (hstep : p.step ignoreCase = .descend q)
    (hmore : p.skipBlank.line.rest ≠ left) :
    p.SelectsAt ignoreCase left l ↔ q.SelectsAt ignoreCase left l := by
  constructor
  · intro h
    cases h with
    | here _ _ _ exact => exact absurd exact hmore
    | later step behind =>
        cases hstep.symm.trans step
        exact behind
  · exact .later hstep

/-- At a node with literals only, a completion goes on as the router does, or finds nothing. -/
theorem advance_onlyLiterals (ignoreCase : Bool) (hn : p.node.OnlyLiterals) (hfurther : p.line.isLastToken = false) :
    (∃ l child, p.node.findLiteral ignoreCase p.line.peekToken = some (l, child) ∧
        child.permits p.context = true ∧
        p.advance ignoreCase =
          .ok { node := child, context := p.context, line := p.line.skipToken }) ∨
      p.PastLiterals ignoreCase ∧ p.advance ignoreCase = .error .nowhere := by
  by_cases hpast : p.PastLiterals ignoreCase
  · refine Or.inr ⟨hpast, ?_⟩
    rw [advance_pastLiterals hfurther hpast, advancePastLiterals, hn.argument]
    simp only [focusOnFlags, hn.flags]
  · simp only [PastLiterals, not_forall] at hpast
    obtain ⟨l, child, hfound, hpermits⟩ := hpast
    have hpermits : child.permits p.context = true := by simpa using hpermits
    exact Or.inl ⟨l, child, hfound, hpermits, advance_word hfurther hfound hpermits⟩

/-- Two positions at one node, of a completion and of the router, in contexts that are alike. -/
structure SameNode (p q : Position) : Prop where
  node : q.node = p.node
  context : p.context.Alike q.context

/-- A completion and the router go through a settled text side by side. Either both give up in it,
    or they come to one node, where the completion finds its focus. -/
theorem focus_behind_settled (ignoreCase : Bool) {P : Node → Prop} (honly : ∀ n, P n → n.OnlyLiterals)
    {piece front : List Char} (hsettled : Token.Settled piece front)
    (hlast : (Token.cut piece).rest = []) (hsame : p.SameNode q) (hn : p.node.Everywhere P)
    (hp : p.line.rest = front ++ piece) (hq : q.line.rest = front ++ left) :
    (p.focus ignoreCase = .nowhere ∧ ∀ l, ¬q.SelectsAt ignoreCase left l) ∨
      ∃ p' q' : Position, p.focus ignoreCase = .node p'.node p'.context p'.line ∧
        p'.SameNode q' ∧ p'.node.Everywhere P ∧
        (∃ blank, (∀ c ∈ blank, isBlank c = true) ∧ q'.line.rest = blank ++ left) ∧
        ∀ l, q.SelectsAt ignoreCase left l ↔ q'.SelectsAt ignoreCase left l := by
  induction hsettled generalizing p q with
  | @blank front hblank =>
      -- at most one token is left to complete
      have hend : p.line.isLastToken = true := by
        show (Token.cut p.line.rest).rest.isEmpty = true
        rw [hp]
        show (Token.head (trimStart (front ++ piece))).rest.isEmpty = true
        rw [trimStart, List.dropWhile_append_of_pos hblank]
        exact List.isEmpty_iff.mpr hlast
      refine Or.inr ⟨p, q, focus_of_advance (advance_of_last ignoreCase hend), hsame, hn,
        ⟨front, hblank, hq⟩, fun _ => Iff.rfl⟩
  | @token front rest token written cuts further behind ih =>
      have hcut : Token.cut p.line.rest = { token with rest := rest ++ piece } := by
        rw [hp, cuts]
      have hcutQ : Token.cut q.line.rest = { token with rest := rest ++ left } := by
        rw [hq, cuts]
      have htoken : p.line.peekToken = q.line.peekToken := by
        simp only [Line.peekToken, hcut, hcutQ]
      have hfurther : p.line.isLastToken = false := by
        show (Token.cut p.line.rest).rest.isEmpty = false
        rw [hcut]
        exact List.isEmpty_eq_false_iff.mpr further
      have hsome : q.line.isBlank = false := by
        refine List.isEmpty_eq_false_iff.mpr fun hnil => written ?_
        have hraw := Token.cut_raw_eq_nil_iff.mpr hnil
        rwa [hcutQ] at hraw
      have hpermits (child : Node) : child.permits p.context = child.permits q.context :=
        hsame.context.permits child
      rcases advance_onlyLiterals ignoreCase (honly _ hn.here) hfurther with
        ⟨l₁, child, hfound, hpermitted, hadvance⟩ | ⟨hpast, hnowhere⟩
      · -- both select the same literal, and the same text is left of the front
        have hfoundQ : q.node.findLiteral ignoreCase q.line.peekToken = some (l₁, child) := by
          rw [hsame.node, ← htoken, hfound]
        have hstep := (step_word hsome hfoundQ (hpermits child ▸ hpermitted)).1
        have hmore : q.skipBlank.line.rest ≠ left := by
          intro hleft
          have hlength : ((Token.cut q.line.rest).raw ++ (Token.cut q.line.rest).rest).length =
              left.length :=
            congrArg List.length ((Token.head_append (trimStart q.line.rest)).trans hleft)
          have hpos := List.length_pos_iff.mpr written
          simp only [hcutQ, List.length_append] at hlength
          omega
        have hrest : p.line.skipToken.rest = rest ++ piece := congrArg Token.rest hcut
        have hrestQ : q.line.skipToken.rest = rest ++ left := congrArg Token.rest hcutQ
        have hchild := hn.literal (List.mem_of_find?_eq_some hfound)
        rw [focus_of_passed hadvance]
        simp only [selectsAt_step_iff hstep hmore]
        exact ih (p := { node := child, context := p.context, line := p.line.skipToken })
          (q := { node := child, context := q.context, line := q.line.skipToken })
          ⟨rfl, hsame.context⟩ hchild hrest hrestQ
      · -- the completion finds no focus, and the router has no step
        refine Or.inl ⟨focus_of_advance hnowhere, fun l hgoes => ?_⟩
        have hstuck (next : Position) : q.step ignoreCase ≠ .descend next := by
          intro hstep
          have honlyQ : q.node.OnlyLiterals := hsame.node ▸ honly _ hn.here
          obtain ⟨-, l, child, hfound, hpermitted, -⟩ := (step_descend_iff honlyQ).mp hstep
          rw [hsame.node, ← htoken] at hfound
          have hdenied := hpast l child hfound
          rw [hpermits, hpermitted] at hdenied
          cases hdenied
        cases hgoes with
        | here step _ _ _ => exact hstuck _ step
        | later step _ => exact hstuck _ step

end Position

/-! ## The line in front of the touched token -/

/-- The completion of a line without limits, in a context for completions. -/
def Tree.completion (t : Tree) (ctx : Context) (text : String) (cursor : Nat) (memory : Memory) :
    Completion :=
  (t.complete {} { ctx with suggesting := true } text cursor memory).1

/-- Of the texts that are suggested at the focus, a completion has those that continue what was
    typed. -/
theorem Tree.mem_values_completion {t : Tree} {ctx : Context} {text : String} {cursor : Nat}
    {memory : Memory} {v : String} :
    v ∈ (t.completion ctx text cursor memory).list.map (·.value) ↔
      v ∈ ((t.focus { ctx with suggesting := true } (.upTo text cursor)).suggest memory).1.map
          (·.value) ∧
        (lowercase (Line.typed text cursor)).toList <+: (lowercase v).toList := by
  rw [completion, list_complete, Limits.mem_values_choose]

/-- Up to the cursor, a line is what stands in front of the completed token, and a piece of it. -/
theorem Tree.completion_front (t : Tree) (ctx : Context) (text : String) (cursor : Nat)
    (memory : Memory) :
    ∃ piece, (Line.upTo text cursor).rest = (t.completion ctx text cursor memory).front ++ piece ∧
      (Token.cut piece).rest = [] ∧
      Token.Settled piece (t.completion ctx text cursor memory).front := by
  obtain ⟨upTo, back, hparts⟩ : ∃ upTo back, splitAtByte cursor text.toList = (upTo, back) :=
    ⟨_, _, rfl⟩
  have htext : upTo ++ back = text.toList := by
    rw [← splitAtByte_append cursor text.toList, hparts]
  have hstop : (Line.ofString text).floorCursor cursor = byteLength upTo := by
    show byteLength (splitAtByte cursor text.toList).1 = _
    rw [hparts]
  obtain ⟨front, piece, rfl, hstart, hlast, hsettled, -⟩ :=
    Span.touched_front htext.symm (Nat.zero_add _).symm
  have hupTo : (Line.upTo text cursor).rest = front ++ piece := by
    show (splitAtByte _ (splitAtByte (byteLength []) ([] ++ text.toList)).2).1 = _
    rw [hstop, splitAtByte_byteLength, ← htext, Nat.sub_zero, splitAtByte_byteLength]
  have hfront : (t.completion ctx text cursor memory).front = front := by
    show (splitAtByte (Span.touched _ 0 text.toList).start text.toList).1 = front
    rw [hstop, hstart, Nat.zero_add, ← htext, List.append_assoc, splitAtByte_byteLength]
  exact ⟨piece, by rw [hfront, hupTo], hlast, hfront ▸ hsettled⟩

/-! ## Suggested names -/

/-- If the component has the name `v`, then `v` is a plain word. -/
def Component.NamesPlainly (v : String) (c : Component) : Prop :=
  ∀ l, c = .literal l → v ∈ l.names → Token.Plain v.toList

/-- A merged literal has the names of the two. -/
theorem Literal.forall_names_merge {P : String → Prop} {old l : Literal}
    (hold : ∀ name ∈ old.names, P name) (hl : ∀ name ∈ l.names, P name) (ignoreCase : Bool) :
    ∀ name ∈ (old.merge ignoreCase l).names, P name := by
  intro name hname
  rcases List.mem_cons.mp hname with rfl | hname
  · exact hold _ List.mem_cons_self
  · rcases List.mem_append.mp hname with hname | hname
    · exact hold _ (List.mem_cons_of_mem _ hname)
    · exact hl _ (List.mem_cons_of_mem _ (List.mem_filter.mp hname).1)

theorem Component.IsPlain.merge {old l : Literal} (hold : (Component.literal old).IsPlain)
    (hl : (Component.literal l).IsPlain) (ignoreCase : Bool) :
    (Component.literal (old.merge ignoreCase l)).IsPlain := by
  obtain ⟨_, ⟨⟩, hold⟩ := hold
  obtain ⟨_, ⟨⟩, hl⟩ := hl
  exact ⟨_, rfl, Literal.forall_names_merge hold hl ignoreCase⟩

theorem Component.IsPlain.namesPlainly {c : Component} (h : c.IsPlain) (v : String) :
    c.NamesPlainly v := by
  obtain ⟨_, rfl, hnames⟩ := h
  rintro _ ⟨⟩ hname
  exact hnames v hname

/-- A node with literals only, no two of a name. If one of them has the name `v`, then `v` is a plain
    word. -/
structure Node.OffersPlainly (ignoreCase : Bool) (v : String) (n : Node) : Prop where
  literals : n.OnlyLiterals
  orderly : n.Orderly ignoreCase
  plain : n.Carries (Component.NamesPlainly v)

/-- The literal of a name that is suggested is the one that the router goes along. -/
theorem Position.selectsAt_iff_mem {ignoreCase : Bool} {p : Position} {v : String}
    (hn : p.node.Everywhere (Node.OffersPlainly ignoreCase v)) {blank : List Char}
    (hblank : ∀ c ∈ blank, isBlank c = true) (hleft : p.line.rest = blank ++ v.toList)
    {l : Literal} (hname : v ∈ l.names) :
    p.SelectsAt ignoreCase v.toList l ↔
      ∃ child, (l, child) ∈ p.node.literals ∧ child.permits p.context = true := by
  have honly := hn.mono fun _ h => h.literals
  have hanswers : l.answers ignoreCase v = true :=
    List.any_eq_true.mpr ⟨v, hname, by split <;> simp [sameUpToCase]⟩
  constructor
  · intro hgoes
    have hv : Token.Plain v.toList :=
      hgoes.carried (hn.mono fun _ h => h.plain) l rfl hname
    obtain ⟨child, hfound, hpermits⟩ := (selectsAt_iff_found honly hblank hv hleft).mp hgoes
    exact ⟨child, List.mem_of_find?_eq_some hfound, hpermits⟩
  · rintro ⟨child, hedge, hpermits⟩
    have hv : Token.Plain v.toList := hn.here.plain.literals _ hedge l rfl hname
    have hfound := hn.here.orderly.findLiteral_of_answers hedge hanswers
    exact (selectsAt_iff_found honly hblank hv hleft).mpr ⟨child, hfound, hpermits⟩

namespace Tree

/-- Behind a text, the router goes along a literal for its name `v`. -/
def RoutesAlong (t : Tree) (ctx : Context) (front : List Char) (v : String) : Prop :=
  ∃ l, v ∈ l.names ∧ (Position.start t ctx (.ofString (String.ofList (front ++ v.toList)))).SelectsAt
    t.rules.ignoreCase v.toList l

/-- On trees of literals a name is suggested exactly if it continues what was typed and the router
    goes along a literal for it, where it stands in place of the touched token. The name has to be a
    plain word, which all are where only commands with such names were ever inserted. -/
theorem Reachable.suggests_iff_routes {t : Tree} (ht : t.Reachable)
    (hliterals : ∀ e ∈ t.entries, ∀ c ∈ e.command.components, c.IsLiteral) (ctx : Context)
    (text : String) (cursor : Nat) (memory : Memory) {v : String}
    (hv : Token.Plain v.toList ∨ t.Built Component.IsPlain) :
    v ∈ (t.completion ctx text cursor memory).list.map (·.value) ↔
      (lowercase (Line.typed text cursor)).toList <+: (lowercase v).toList ∧
        t.RoutesAlong ctx (t.completion ctx text cursor memory).front v := by
  have hplain : t.root.Everywhere (Node.Carries (Component.NamesPlainly v)) := by
    rcases hv with hv | hbuilt
    · exact ht.orderly.mono fun _ _ =>
        ⟨fun _ _ _ _ _ => hv, fun _ _ _ _ _ _ => hv, fun _ _ _ _ _ _ => hv⟩
    · have hcarries := hbuilt.carries_of_merge fun ignoreCase _ _ hold hl => hold.merge hl ignoreCase
      exact hcarries.mono fun _ h => h.mono fun _ hc => hc.namesPlainly v
  have hn : t.root.Everywhere (Node.OffersPlainly t.rules.ignoreCase v) :=
    (((ht.onlyLiterals hliterals).and ht.orderly).and hplain).mono fun _ h =>
      ⟨h.1.1, h.1.2, h.2⟩
  obtain ⟨piece, hupTo, hlast, hsettled⟩ := t.completion_front ctx text cursor memory
  rw [mem_values_completion, and_comm]
  refine and_congr_right fun _ => ?_
  rw [RoutesAlong]
  generalize hstart : Position.start t ctx _ = start
  have hsame : (Position.start t { ctx with suggesting := true } (.upTo text cursor)).SameNode
      start := hstart ▸ ⟨rfl, (Context.Alike.suggesting ctx).symm⟩
  have hrest : start.line.rest = (t.completion ctx text cursor memory).front ++ v.toList := by
    rw [← hstart]
    simp only [Position.start, Line.ofString, String.toList_ofList]
  rcases Position.focus_behind_settled t.rules.ignoreCase
      (fun _ h => h.literals) hsettled hlast hsame hn hupTo hrest with
    ⟨hnowhere, hnone⟩ | ⟨p, q, hfocus, hbeside, hnode, ⟨blank, hblank, hleft⟩, hgoes⟩
  · rw [show t.focus _ _ = _ from hnowhere]
    refine iff_of_false List.not_mem_nil ?_
    rintro ⟨l, -, hgoes⟩
    exact hnone l hgoes
  · have hq : q.node.Everywhere (Node.OffersPlainly t.rules.ignoreCase v) := hbeside.node ▸ hnode
    have hword (l : Literal) (hname : v ∈ l.names) :
        start.SelectsAt t.rules.ignoreCase v.toList l ↔
          ∃ child, (l, child) ∈ p.node.literals ∧ child.permits p.context = true := by
      rw [hgoes, Position.selectsAt_iff_mem hq hblank hleft hname, hbeside.node]
      simp only [hbeside.context.permits]
    rw [show t.focus _ _ = _ from hfocus, Focus.suggest, hnode.here.literals.mem_suggest]
    constructor
    · rintro ⟨l, child, hedge, hpermits, hname⟩
      exact ⟨l, hname, (hword l hname).mpr ⟨child, hedge, hpermits⟩⟩
    · rintro ⟨l, hname, halong⟩
      obtain ⟨child, hedge, hpermits⟩ := (hword l hname).mp halong
      exact ⟨l, child, hedge, hpermits, hname⟩

/-- Behind `teleport`, `home` is suggested for `H`, and the router goes along it. -/
theorem suggests_iff_routes_home :
    goingHome.Reachable ∧ (∀ e ∈ goingHome.entries, ∀ c ∈ e.command.components, c.IsLiteral) ∧
      Token.Plain "home".toList ∧
      "home" ∈ (goingHome.completion (.ofRight "") "TP H" 4 {}).list.map (·.value) ∧
      goingHome.RoutesAlong (.ofRight "") "TP ".toList "home" := by
  have hreachable : goingHome.Reachable := ⟨_, goingHome_history⟩
  have hliterals : ∀ e ∈ goingHome.entries, ∀ c ∈ e.command.components, c.IsLiteral := by
    have hentries : goingHome.entries = [⟨1, .teleportHome⟩] := rfl
    rw [hentries, List.forall_mem_singleton]
    simp only [Command.teleportHome, List.forall_mem_cons]
    exact ⟨⟨_, rfl⟩, ⟨_, rfl⟩, by simp⟩
  have hplain : Token.Plain "home".toList := by decide +kernel
  have hsuggested :
      "home" ∈ (goingHome.completion (.ofRight "") "TP H" 4 {}).list.map (·.value) := by
    decide +kernel
  have hfront : (goingHome.completion (.ofRight "") "TP H" 4 {}).front = "TP ".toList := by
    decide +kernel
  obtain ⟨-, halong⟩ :=
    (hreachable.suggests_iff_routes hliterals _ _ _ _ (Or.inl hplain)).mp hsuggested
  exact ⟨hreachable, hliterals, hplain, hsuggested, hfront ▸ halong⟩

end Tree

/-- `teleport`, for which `t p` may be typed, in quotes. -/
def Command.teleportSpaced : Command :=
  { components := [.literal { name := "teleport", aliases := ["t p"] }] }

namespace Tree

/-- `teleport home` is left, of both commands, and the literal that they shared has kept its
    alias. -/
def goingHomeSpaced : Tree :=
  ((apply {} (.insert .teleportSpaced)).apply (.insert .teleportHome)).apply
    (.remove ⟨0, .teleportSpaced⟩)

/-- A tree whose commands have plain names suggests one that is none, and behind the same text the
    router goes along no literal for it. -/
theorem completion_offers_broken_name :
    goingHomeSpaced.Reachable ∧
      (∀ e ∈ goingHomeSpaced.entries, ∀ c ∈ e.command.components, c.IsPlain) ∧
      "t p" ∈ (goingHomeSpaced.completion (.ofRight "") "" 0 {}).list.map (·.value) ∧
      ¬goingHomeSpaced.RoutesAlong (.ofRight "")
        (goingHomeSpaced.completion (.ofRight "") "" 0 {}).front "t p" := by
  have hreachable : goingHomeSpaced.Reachable :=
    ⟨_, (((History.fresh rfl).edit _).edit _).edit _⟩
  have hentries : goingHomeSpaced.entries = [⟨1, .teleportHome⟩] := rfl
  have hteleport : Token.Plain "teleport".toList := by decide +kernel
  have hhome : Token.Plain "home".toList := by decide +kernel
  have hplain : ∀ c ∈ Command.teleportHome.components, c.IsPlain := by
    simp only [Command.teleportHome, List.forall_mem_cons, Component.IsPlain]
    refine ⟨⟨_, rfl, ?_⟩, ⟨_, rfl, ?_⟩, by simp⟩
    · rw [Literal.names, List.forall_mem_singleton]
      exact hteleport
    · rw [Literal.names, List.forall_mem_singleton]
      exact hhome
  have hsuggested :
      "t p" ∈ (goingHomeSpaced.completion (.ofRight "") "" 0 {}).list.map (·.value) := by
    decide +kernel
  have hfront : (goingHomeSpaced.completion (.ofRight "") "" 0 {}).front = [] := by
    decide +kernel
  have hstuck (next : Position) : (Position.start goingHomeSpaced (.ofRight "")
      (.ofString "t p")).step goingHomeSpaced.rules.ignoreCase ≠ .descend next := by
    intro hstep
    -- the next token is `t`
    obtain ⟨-, l, child, hfound, -⟩ := (Position.step_descend_iff ⟨rfl, rfl⟩).mp hstep
    have hnone : goingHomeSpaced.root.literals.find? (·.1.answers false "t") = none := rfl
    cases hnone.symm.trans hfound
  refine ⟨hreachable, hentries ▸ List.forall_mem_singleton.mpr hplain, hsuggested, ?_⟩
  rintro ⟨l, -, halong⟩
  rw [hfront, List.nil_append, String.ofList_toList] at halong
  cases halong with
  | here step _ _ _ => exact hstuck _ step
  | later step _ => exact hstuck _ step

end Tree

end CommandLine
