import CommandLine.Dispatcher
import CommandLine.Proofs.Focus.Literals
import CommandLine.Proofs.Focus.Sharing
import CommandLine.Proofs.Text.Lowercase

/-! # Filled lines are settled

    When several suggestions share more than was typed, what they share is filled in. On trees of
    literals whose names are words of ASCII characters this is done at most once: the filled line is
    answered with the same suggestions, and nothing is filled in any more
    (`Dispatcher.respond_filled`).

    What is filled in is the start of a word, so it is the touched token of the new line, and the
    tokens in front of it are read as before. The suggestions are chosen again because all of them
    continue it, and whatever continues it continues what was typed: it has more bytes than what was
    typed, quotes included, and an ASCII text has no more bytes than its lowercase form has
    characters. If the list was cut short, it is cut at the same place. -/

namespace CommandLine

open Text

/-! ## Choosing again -/

namespace Suggestion

/-- A start of a word of ASCII characters is continued by the word. -/
theorem continues_of_prefix {start : List Char} {s : Suggestion}
    (hvalue : IsAscii s.value.toList) (hstart : start <+: s.value.toList) :
    s.continues (String.ofList start) = true := by
  have hascii : IsAscii start := fun c hc => hvalue c (hstart.subset hc)
  simp only [continues, lowercase, List.isPrefixOf_iff_prefix, String.toList_ofList]
  rw [lowerAfter_ascii [] hascii, lowerAfter_ascii [] hvalue]
  exact hstart.map _

/-- Of two texts that a suggestion continues, the one with fewer bytes is a start of the other up to
    case, if that is an ASCII text. -/
theorem lowercase_prefix_of_continues {typed longer : String} {s : Suggestion}
    (hlonger : IsAscii longer.toList) (htyped : s.continues typed = true)
    (hstart : s.continues longer = true)
    (hbytes : byteLength typed.toList < byteLength longer.toList) :
    (lowercase typed).toList <+: (lowercase longer).toList := by
  simp only [continues, List.isPrefixOf_iff_prefix] at htyped hstart
  refine List.prefix_of_prefix_length_le htyped hstart ?_
  have hlength : (lowercase longer).toList.length = byteLength longer.toList := by
    rw [lowercase, String.toList_ofList, lowerAfter_ascii [] hlonger, List.length_map,
      byteLength_ascii hlonger]
  rw [hlength, lowercase, String.toList_ofList]
  exact (length_lowerAfter_le [] typed.toList).trans hbytes.le

end Suggestion

/-- What is first in a list is first in what is left of the list, if it is left itself. -/
theorem take_filter_of_forall {α : Type} {p : α → Bool} {list : List α} {k : Nat}
    (h : ∀ x ∈ list.take k, p x = true) : (list.filter p).take k = list.take k := by
  induction list generalizing k with
  | nil => rfl
  | cons x list ih =>
      cases k with
      | zero => rfl
      | succ k =>
          rw [List.take_succ_cons] at h
          obtain ⟨hx, hlist⟩ := List.forall_mem_cons.mp h
          rw [List.filter_cons_of_pos hx, List.take_succ_cons, List.take_succ_cons, ih hlist]

namespace Limits

theorem cap_filter (limits : Limits) {p : Suggestion → Bool} {list : List Suggestion}
    (h : ∀ s ∈ limits.cap list, p s = true) : limits.cap (list.filter p) = limits.cap list := by
  rw [cap] at h
  rw [cap, cap]
  cases hmost : limits.most with
  | none =>
      rw [hmost] at h
      exact List.filter_eq_self.mpr h
  | some most =>
      rw [hmost] at h
      exact take_filter_of_forall h

/-- Several suggestions are not the one that is forced. -/
theorem choose_of_several {limits : Limits} {typed : String} {list : List Suggestion}
    (h : 1 < (limits.choose typed list).length) :
    limits.choose typed list = limits.cap (Suggestion.firsts (Suggestion.matching typed list)) := by
  rw [choose_eq] at h ⊢
  split at h
  · exact absurd h (lt_irrefl 1)
  · next hgiven => exact if_neg hgiven

/-- The same suggestions are chosen for a longer text, if all of them continue it and if whatever
    continues it continues the shorter one. -/
theorem choose_again {limits : Limits} {typed longer : String} {list : List Suggestion}
    (hseveral : 1 < (limits.choose typed list).length)
    (hlonger : ∀ s ∈ list, s.continues longer = true → s.continues typed = true)
    (hall : ∀ s ∈ limits.choose typed list, s.continues longer = true) :
    limits.choose longer list = limits.choose typed list := by
  have hchosen := choose_of_several hseveral
  rw [hchosen] at hseveral hall ⊢
  have hmatching : Suggestion.matching longer list =
      (Suggestion.matching typed list).filter (·.continues longer) := by
    rw [Suggestion.matching, Suggestion.matching, List.filter_filter]
    refine List.filter_congr fun s hs => ?_
    cases hcontinues : s.continues longer with
    | false => rfl
    | true => rw [hlonger s hs hcontinues, Bool.and_true]
  have hfirsts : Suggestion.firsts (Suggestion.matching longer list) =
      (Suggestion.firsts (Suggestion.matching typed list)).filter (·.continues longer) := by
    rw [hmatching]
    exact Suggestion.firstsExcept_filter
      (fun value => (Suggestion.ofText value).continues longer) [] (Suggestion.matching typed list)
  have hcap : limits.cap (Suggestion.firsts (Suggestion.matching longer list)) =
      limits.cap (Suggestion.firsts (Suggestion.matching typed list)) := by
    rw [hfirsts, limits.cap_filter hall]
  rw [choose_eq, hcap, if_neg]
  intro hempty
  rw [Bool.and_eq_true, List.isEmpty_iff] at hempty
  rw [hempty.1] at hseveral
  cases hseveral

/-- Several suggestions that are chosen are suggested, and continue what was typed. -/
theorem mem_choose_of_several {limits : Limits} {typed : String} {list : List Suggestion}
    (hseveral : 1 < (limits.choose typed list).length) {s : Suggestion}
    (hs : s ∈ limits.choose typed list) : s ∈ list ∧ s.continues typed = true := by
  rw [choose_of_several hseveral] at hs
  exact mem_of_mem_cap hs

/-- Of words, the same suggestions are chosen for what they share, if it is longer than what was
    typed. What they share is a word too. -/
theorem choose_shared {limits : Limits} {typed : String} {list : List Suggestion}
    (hwords : ∀ s ∈ list, Token.Plain s.value.toList ∧ IsAscii s.value.toList)
    (hseveral : 1 < (limits.choose typed list).length) {shared : List Char}
    (hshared : Completion.sharedBy (limits.choose typed list) = shared)
    (hbytes : byteLength typed.toList < byteLength shared) :
    Token.Plain shared ∧
      limits.choose (String.ofList shared) list = limits.choose typed list := by
  have hchosen (s : Suggestion) (hs : s ∈ limits.choose typed list) :=
    mem_choose_of_several hseveral hs
  have hstarts (s : Suggestion) (hs : s ∈ limits.choose typed list) : shared <+: s.value.toList :=
    hshared ▸ Completion.sharedBy_prefix hs
  have hcontinues (s : Suggestion) (hs : s ∈ limits.choose typed list) :
      s.continues (String.ofList shared) = true :=
    Suggestion.continues_of_prefix (hwords s (hchosen s hs).1).2 (hstarts s hs)
  -- what is shared is a word, because it is the start of one
  obtain ⟨one, hone⟩ : ∃ s, s ∈ limits.choose typed list :=
    List.exists_mem_of_length_pos (by omega)
  obtain ⟨hplain, hascii⟩ := hwords one (hchosen one hone).1
  have hsome : shared ≠ [] := by
    rintro rfl
    exact absurd hbytes (Nat.not_lt_zero _)
  refine ⟨hplain.of_prefix (hstarts one hone) hsome, ?_⟩
  refine choose_again hseveral (fun s _ hlonger => ?_) hcontinues
  have hlower : (lowercase typed).toList <+: (lowercase (String.ofList shared)).toList := by
    refine Suggestion.lowercase_prefix_of_continues ?_ (hchosen one hone).2 (hcontinues one hone) ?_
    · rw [String.toList_ofList]
      exact fun c hc => hascii c ((hstarts one hone).subset hc)
    · rwa [String.toList_ofList]
  rw [Suggestion.continues, List.isPrefixOf_iff_prefix] at hlonger ⊢
  exact hlower.trans hlonger

end Limits

/-! ## Two completions side by side -/

/-- A literal all of whose names are words of ASCII characters. -/
def Component.IsWord (c : Component) : Prop :=
  ∃ l, c = .literal l ∧ ∀ name ∈ l.names, Token.Plain name.toList ∧ IsAscii name.toList

theorem Component.IsWord.merge {old l : Literal} (hold : (Component.literal old).IsWord)
    (hl : (Component.literal l).IsWord) (ignoreCase : Bool) :
    (Component.literal (old.merge ignoreCase l)).IsWord := by
  obtain ⟨_, ⟨⟩, hold⟩ := hold
  obtain ⟨_, ⟨⟩, hl⟩ := hl
  exact ⟨_, rfl, Literal.forall_names_merge hold hl ignoreCase⟩

theorem Node.Carries.onlyLiterals {n : Node} (h : n.Carries Component.IsWord) :
    n.OnlyLiterals := by
  constructor
  · refine Option.eq_none_iff_forall_ne_some.mpr fun edge hedge => ?_
    obtain ⟨l, hl, -⟩ := h.argument edge.1 edge.2 hedge
    cases hl
  · refine Option.eq_none_iff_forall_ne_some.mpr fun edge hedge => ?_
    obtain ⟨l, hl, -⟩ := h.flags edge.1 edge.2 hedge
    cases hl

namespace Position

variable {p : Position} {ignoreCase : Bool}

/-- The literal that the next token selects, and what is below it, if the sender may go there. -/
def selected? (p : Position) (ignoreCase : Bool) : Option (Literal × Node) :=
  (p.node.findLiteral ignoreCase p.line.peekToken).filter (·.2.permits p.context)

theorem mem_of_selected {edge : Literal × Node} (h : p.selected? ignoreCase = some edge) :
    edge ∈ p.node.literals :=
  List.mem_of_find?_eq_some (Option.filter_eq_some_iff.mp h).1

/-- A completion passes a complete token along the literal that the token selects. -/
theorem focus_of_selected (hfurther : p.line.isLastToken = false) {edge : Literal × Node}
    (h : p.selected? ignoreCase = some edge) :
    p.focus ignoreCase =
      focus ignoreCase { node := edge.2, context := p.context, line := p.line.skipToken } := by
  obtain ⟨hfound, hpermits⟩ := Option.filter_eq_some_iff.mp h
  exact focus_of_passed (advance_word hfurther hfound hpermits)

/-- At a node with literals only, a complete token that selects none is not passed. -/
theorem focus_of_unselected (hn : p.node.OnlyLiterals) (hfurther : p.line.isLastToken = false)
    (h : p.selected? ignoreCase = none) : p.focus ignoreCase = .nowhere := by
  rcases advance_onlyLiterals ignoreCase hn hfurther with
    ⟨l, child, hfound, hpermits, -⟩ | ⟨-, hnowhere⟩
  · rw [selected?, hfound, Option.filter_some, if_pos hpermits] at h
    cases h
  · exact focus_of_advance hnowhere

/-- At a node with literals only, the last token is completed to their names. -/
theorem suggest_onlyLiterals (ignoreCase : Bool) (hn : p.node.OnlyLiterals)
    (hlast : p.line.isLastToken = true) (memory : Memory) :
    ((p.focus ignoreCase).suggest memory).1 =
      (p.node.literals.filter (·.2.permits p.context)).flatMap (·.1.suggestions) := by
  rw [focus_of_advance (advance_of_last ignoreCase hlast), Focus.suggest, hn.suggest_eq]

theorem words_of_carries {n : Node} (hn : n.Carries Component.IsWord) (ctx : Context) :
    ∀ s ∈ (n.literals.filter (·.2.permits ctx)).flatMap (·.1.suggestions),
      Token.Plain s.value.toList ∧ IsAscii s.value.toList := by
  intro s hs
  obtain ⟨edge, hedge, hs⟩ := List.mem_flatMap.mp hs
  obtain ⟨name, hname, rfl⟩ := List.mem_map.mp hs
  obtain ⟨l, hl, hnames⟩ := hn.literals edge (List.mem_filter.mp hedge).1
  cases hl
  exact hnames name hname

/-- Behind a settled text only words are suggested, and the same ones whatever stands in place of
    the touched token. -/
theorem suggest_behind_settled (ignoreCase : Bool) {piece front : List Char}
    (hsettled : Token.Settled piece front) (hlast : (Token.cut piece).rest = [])
    (hn : p.node.Everywhere (Node.Carries Component.IsWord)) (hp : p.line.rest = front ++ piece) :
    ∃ list, (∀ memory, ((p.focus ignoreCase).suggest memory).1 = list) ∧
      (∀ s ∈ list, Token.Plain s.value.toList ∧ IsAscii s.value.toList) ∧
      ∀ (q : Position) (word : List Char), q.node = p.node → q.context = p.context →
        Token.Plain word → q.line.rest = front ++ word →
        ∀ memory, ((q.focus ignoreCase).suggest memory).1 = list := by
  have honly : p.node.OnlyLiterals := hn.here.onlyLiterals
  induction hsettled generalizing p with
  | @blank front hblank =>
      have hend {line : Line} {text : List Char} (hline : line.rest = front ++ text)
          (htext : (Token.cut text).rest = []) : line.isLastToken = true := by
        show (Token.cut line.rest).rest.isEmpty = true
        rw [hline, Token.cut_behind_blank hblank, htext]
        rfl
      refine ⟨_, suggest_onlyLiterals ignoreCase honly (hend hp hlast),
        words_of_carries hn.here p.context, ?_⟩
      intro q word hnode hcontext hword hq memory
      have hlastWord : (Token.cut word).rest = [] := by rw [hword.cut_eq]
      rw [← hnode] at honly
      rw [suggest_onlyLiterals ignoreCase honly (hend hq hlastWord), hnode, hcontext]
  | @token front rest token written cuts further behind ih =>
      have hcut {line : Line} {text : List Char} (hline : line.rest = front ++ text) :
          Token.cut line.rest = { token with rest := rest ++ text } := by
        rw [hline, cuts]
      have hfurther {line : Line} {text : List Char} (hline : line.rest = front ++ text)
          (htext : rest ++ text ≠ []) : line.isLastToken = false := by
        show (Token.cut line.rest).rest.isEmpty = false
        rw [hcut hline]
        exact List.isEmpty_eq_false_iff.mpr htext
      -- with another word behind it, the token in front selects the same literal
      have hselects {q : Position} {word : List Char} (hnode : q.node = p.node)
          (hcontext : q.context = p.context) (hq : q.line.rest = front ++ word) :
          q.selected? ignoreCase = p.selected? ignoreCase := by
        simp only [selected?, hnode, hcontext, Line.peekToken, hcut hp, hcut hq]
      have hfurtherQ {q : Position} {word : List Char} (hword : Token.Plain word)
          (hq : q.line.rest = front ++ word) : q.line.isLastToken = false :=
        hfurther hq (List.append_ne_nil_of_right_ne_nil _ hword.written)
      cases hselected : p.selected? ignoreCase with
      | none =>
          rw [focus_of_unselected honly (hfurther hp further) hselected]
          refine ⟨[], fun _ => rfl, by simp, fun q word hnode hcontext hword hq memory => ?_⟩
          rw [focus_of_unselected (hnode ▸ honly) (hfurtherQ hword hq)
            ((hselects hnode hcontext hq).trans hselected)]
          rfl
      | some edge =>
          have hchild := hn.literal (mem_of_selected hselected)
          rw [focus_of_selected (hfurther hp further) hselected]
          obtain ⟨list, hlist, hwords, hsame⟩ :=
            ih (p := { node := edge.2, context := p.context, line := p.line.skipToken }) hchild
              (congrArg Token.rest (hcut hp)) hchild.here.onlyLiterals
          refine ⟨list, hlist, hwords, fun q word hnode hcontext hword hq => ?_⟩
          rw [focus_of_selected (hfurtherQ hword hq)
            ((hselects hnode hcontext hq).trans hselected), hcontext]
          exact hsame { node := edge.2, context := p.context, line := q.line.skipToken } word
            rfl rfl hword (congrArg Token.rest (hcut hq))

end Position

/-! ## Completions at the end of a text -/

namespace Tree

/-- The completion of a text at its end, where the touched token is the piece behind `front`. -/
theorem complete_at_end (t : Tree) (limits : Limits) (ctx : Context) {text : String}
    {front piece : List Char} (htext : text.toList = front ++ piece)
    (hstart : (Span.touched (byteLength text.toList) 0 text.toList).start = byteLength front)
    (memory : Memory) :
    ∃ c, (t.complete limits ctx text (byteLength text.toList) memory).1 = c ∧ c.front = front ∧
      c.typed = piece ∧ c.back = [] ∧
      c.list = limits.choose (String.ofList (Token.cut piece).value)
        ((t.focus ctx (.ofString text)).suggest memory).1 := by
  have hfloor : (Line.ofString text).floorCursor (byteLength text.toList) =
      byteLength text.toList := by
    show byteLength (splitAtByte (byteLength text.toList) text.toList).1 = _
    rw [splitAtByte_all]
  have hstop :
      (Span.touched (byteLength text.toList) 0 text.toList).stop = byteLength text.toList :=
    Span.touched_stop (Nat.zero_add _).symm
  have hbounds : (Line.ofString text).tokenBounds (byteLength text.toList) =
      ⟨byteLength front, byteLength text.toList⟩ := by
    show Span.touched ((Line.ofString text).floorCursor _) 0 text.toList = _
    rw [hfloor]
    exact congrArg₂ Span.mk hstart hstop
  have hparts : text.toList = front ++ (piece ++ []) := by
    rw [List.append_nil, htext]
  have hbytes : byteLength text.toList = byteLength front + byteLength piece := by
    rw [htext, byteLength_append]
  have hpiece := (Line.ofString text).between_eq hparts rfl hbytes
  have hall : (Line.ofString text).text = [] ++ (text.toList ++ []) :=
    (List.append_nil text.toList).symm
  have hwhole := Line.between_eq hall rfl (Nat.zero_add (byteLength text.toList)).symm
  obtain ⟨hfront, htyped, hback⟩ :=
    Completion.parts_eq (c := ⟨text, byteLength front, byteLength text.toList, _⟩) hparts rfl hbytes
  refine ⟨_, t.complete_eq limits ctx text _ memory hfloor hbounds, hfront, htyped, hback, ?_⟩
  rw [hpiece]
  exact congrArg (fun line => limits.choose _ ((t.focus ctx line).suggest memory).1) hwhole

end Tree

namespace Dispatcher

/-- Without preprocessors, a line is completed in the context that it starts with. -/
theorem respond_eq {d : Dispatcher} (hnone : d.preprocessors = []) (sender : Sender)
    (text : String) (memory : Memory) :
    (d.respond sender text memory).1 =
      (d.tree.complete d.limits (d.context sender true) text (byteLength text.toList)
        memory).1.respond := by
  have hcontext : d.preprocess (d.context sender true) text = .ok (d.context sender true) := by
    rw [preprocess, hnone]
    rfl
  show (d.complete sender text (byteLength text.toList) memory).1.respond = _
  rw [complete_of_passed hcontext]

/-- On a tree of literals whose names are words of ASCII characters, a line in which something was
    filled in is answered with the suggestions that it was filled in for. -/
theorem respond_filled {d : Dispatcher} (hnone : d.preprocessors = [])
    (hwords : d.tree.root.Everywhere (Node.Carries Component.IsWord)) {sender : Sender}
    {text line : String} {memory : Memory} {list : List Suggestion}
    (h : (d.respond sender text memory).1 = .filled line list) (later : Memory) :
    (d.respond sender line later).1 = .choices list := by
  obtain ⟨front, piece, htext, hstart, hlast, hsettled, -⟩ :=
    Span.touched_front (List.append_nil text.toList).symm
      (Nat.zero_add (byteLength text.toList)).symm
  rw [Nat.zero_add] at hstart
  obtain ⟨list, hsuggested, hsuggestedWords, hsame⟩ :=
    (Position.start d.tree (d.context sender true) (.ofString text)).suggest_behind_settled
      d.tree.rules.ignoreCase hsettled hlast hwords htext
  obtain ⟨c, hc, hfront, htyped, hback, hlist⟩ :=
    d.tree.complete_at_end d.limits (d.context sender true) htext hstart memory
  have hlist : c.list = d.limits.choose (String.ofList (Token.cut piece).value) list := by
    rw [hlist]
    exact congrArg _ (hsuggested memory)
  rw [respond_eq hnone, hc] at h
  obtain ⟨rfl, hseveral, hlonger, rfl⟩ := Completion.respond_eq_filled h
  rw [htyped] at hlonger
  rw [Completion.splice, hfront, hback, List.append_nil]
  generalize hshared : Completion.sharedBy c.list = shared at hlonger ⊢
  -- quotes count for what was typed, but are not looked for
  have hbytes : byteLength (String.ofList (Token.cut piece).value).toList < byteLength shared := by
    have hpiece := congrArg byteLength (Token.cut_append piece)
    rw [byteLength_append, byteLength_append] at hpiece
    have hvalue := Token.byteLength_value_le piece
    rw [String.toList_ofList]
    omega
  rw [hlist] at hseveral hshared
  obtain ⟨hword, hagain⟩ := Limits.choose_shared hsuggestedWords hseveral hshared hbytes
  rw [← hlist] at hshared hagain
  -- the word is the touched token of the new line, and the same is suggested for it
  have hnewText : (String.ofList (front ++ shared)).toList = front ++ shared := String.toList_ofList
  have hnewStart := Span.touched_start_settled hsettled hword 0
  rw [Nat.zero_add, Nat.zero_add, ← hnewText] at hnewStart
  obtain ⟨c', hc', -, htyped', -, hlist'⟩ :=
    d.tree.complete_at_end d.limits (d.context sender true) hnewText hnewStart later
  have hsuggested' : ((d.tree.focus (d.context sender true)
      (.ofString (String.ofList (front ++ shared)))).suggest later).1 = list :=
    hsame (.start d.tree (d.context sender true) (.ofString (String.ofList (front ++ shared))))
      shared rfl rfl hword hnewText later
  have hsameList : c'.list = c.list := by
    rw [hlist', hword.cut_eq, hsuggested', hagain]
  rw [respond_eq hnone, hc', Completion.respond_eq_choices, hsameList]
  rw [htyped', hsameList, hshared]

end Dispatcher

/-- `warp` to a place. -/
def Command.warpTo (place : String) : Command where
  components := [.literal { name := "warp" }, .literal { name := place }]

theorem Command.warpTo_words {place : String} (hplain : Token.Plain place.toList)
    (hascii : IsAscii place.toList) : ∀ c ∈ (warpTo place).components, c.IsWord := by
  have hwarp : Token.Plain "warp".toList ∧ IsAscii "warp".toList := by decide +kernel
  simp only [warpTo, List.forall_mem_cons]
  refine ⟨⟨_, rfl, ?_⟩, ⟨_, rfl, ?_⟩, by simp⟩
  · rw [Literal.names, List.forall_mem_singleton]
    exact hwarp
  · rw [Literal.names, List.forall_mem_singleton]
    exact ⟨hplain, hascii⟩

/-- Three places to warp to. -/
def Tree.warping : Tree :=
  ((apply {} (.insert (.warpTo "spawn"))).apply (.insert (.warpTo "spawner"))).apply
    (.insert (.warpTo "spa"))

theorem Tree.warping_words : warping.root.Everywhere (Node.Carries Component.IsWord) := by
  have hinsert {t : Tree} (ht : t.Built Component.IsWord) (place : String)
      (hplain : Token.Plain place.toList) (hascii : IsAscii place.toList) :
      (t.apply (.insert (.warpTo place))).Built Component.IsWord := by
    refine ht.edit _ ?_
    rintro _ ⟨⟩
    exact Command.warpTo_words hplain hascii
  have hspawn := hinsert (t := {}) (.fresh rfl) "spawn" (by decide +kernel) (by decide +kernel)
  have hspawner := hinsert hspawn "spawner" (by decide +kernel) (by decide +kernel)
  have hbuilt : warping.Built Component.IsWord :=
    hinsert hspawner "spa" (by decide +kernel) (by decide +kernel)
  exact hbuilt.carries_of_merge fun ignoreCase _ _ hold hl => hold.merge hl ignoreCase

/-- A dispatcher that suggests at most two of the places. -/
def Dispatcher.warping : Dispatcher where
  tree := .warping
  settings := { maxSuggestions := some 2 }

/-- For a quote and a letter behind `warp`, all that two places share is filled in. Then the same
    two are suggested, and not the third. -/
theorem Dispatcher.respond_filled_warp :
    warping.preprocessors = [] ∧
      warping.tree.root.Everywhere (Node.Carries Component.IsWord) ∧
      (warping.respond ⟨"ann", "player", 0, []⟩ "warp 'S" {}).1 =
        .filled "warp spawn" [.ofText "spawn", .ofText "spawner"] ∧
      (warping.respond ⟨"ann", "player", 0, []⟩ "warp spawn" {}).1 =
        .choices [.ofText "spawn", .ofText "spawner"] := by
  have hfilled : (warping.respond ⟨"ann", "player", 0, []⟩ "warp 'S" {}).1 =
      .filled "warp spawn" [.ofText "spawn", .ofText "spawner"] := by
    decide +kernel
  exact ⟨rfl, Tree.warping_words, hfilled, respond_filled rfl Tree.warping_words hfilled {}⟩

end CommandLine
