import CommandLine.Proofs.Flag.Given
import CommandLine.Proofs.Line.Front

/-! # Flags that are suggested

    To suggest flags, the tokens in front of the one that is being typed are passed, and what is
    suggested should be what can be read behind them. Whole tokens are read alike whatever follows
    them (`Line.InFront`), so that flags which are spelled in front of a piece of a token are passed
    as they are read (`Spelled.locateAfter`), up to the piece or to a place where the group is read
    no further (`Stuck.locateAfter_eq_nowhere`, `Stuck.locateAfter_eq_value`). Behind them a
    suggested token is read, or only its value is missing (`suggests_as_read`).

    The passing overlooks two things. It does not ask whether a flag may be given, and so goes on
    behind a flag that is denied to the sender or given a second time (`suggests_behind_duplicate`),
    nor whether a token looks like a flag (`Overlooked`). -/

namespace CommandLine

open Text

/-- A token of a settled text is cut off whatever follows the text. -/
theorem Token.Settled.cut_append {piece front : List Char} (h : Settled piece front)
    (hsome : trimStart front ≠ []) :
    (∀ more, cut (front ++ more) = { cut front with rest := (cut front).rest ++ more }) ∧
      (cut front).rest ++ piece ≠ [] ∧ Settled piece (cut front).rest := by
  cases h with
  | blank hblank => exact absurd (List.dropWhile_eq_nil_iff.mpr hblank) hsome
  | @token _ rest token written cuts further behind =>
      have hcut : cut front = { token with rest := rest } := by
        simpa only [List.append_nil] using cuts []
      rw [hcut]
      exact ⟨cuts, further, behind⟩

namespace Line

variable {line : Line} {piece : List Char}

/-- A line with more text behind it. -/
def followedBy (line : Line) (more : List Char) : Line :=
  ⟨line.before, line.rest ++ more⟩

/-- Whole tokens are left of a line, in front of a piece of at most one token. -/
structure Precedes (line : Line) (piece : List Char) : Prop where
  settled : Token.Settled piece line.rest
  piece : (Token.cut piece).rest = []

/-- Whole tokens, and at least one, are left of a line in front of a piece. -/
structure InFront (line : Line) (piece : List Char) : Prop where
  settled : Token.Settled piece line.rest
  left : line.isBlank = false

namespace InFront

theorem cut_append (h : line.InFront piece) (more : List Char) :
    Token.cut (line.followedBy more).rest =
      { Token.cut line.rest with rest := (Token.cut line.rest).rest ++ more } :=
  (h.settled.cut_append (List.isEmpty_eq_false_iff.mp h.left)).1 more

theorem peekToken (h : line.InFront piece) (more : List Char) :
    (line.followedBy more).peekToken = line.peekToken := by
  rw [Line.peekToken, h.cut_append]
  rfl

theorem skipToken (h : line.InFront piece) (more : List Char) :
    (line.followedBy more).skipToken = line.skipToken.followedBy more := by
  rw [Line.skipToken, h.cut_append]
  rfl

theorem tokenText (h : line.InFront piece) (more : List Char) :
    (line.followedBy more).tokenText = line.tokenText := by
  rw [Line.tokenText, h.cut_append]
  rfl

theorem isBlank (h : line.InFront piece) (more : List Char) :
    (line.followedBy more).isBlank = false := by
  refine List.isEmpty_eq_false_iff.mpr fun hnil => ?_
  have hraw := Token.cut_raw_eq_nil_iff.mpr hnil
  rw [h.cut_append] at hraw
  exact List.isEmpty_eq_false_iff.mp h.left (Token.cut_raw_eq_nil_iff.mp hraw)

/-- The piece, or something in front of it, is behind the next token. -/
theorem isLastToken (h : line.InFront piece) : (line.followedBy piece).isLastToken = false := by
  show (line.followedBy piece).skipToken.rest.isEmpty = false
  rw [h.skipToken]
  exact List.isEmpty_eq_false_iff.mpr
    (h.settled.cut_append (List.isEmpty_eq_false_iff.mp h.left)).2.1

theorem behind (h : line.InFront piece) : Token.Settled piece line.skipToken.rest :=
  (h.settled.cut_append (List.isEmpty_eq_false_iff.mp h.left)).2.2

theorem exists_fuel (h : line.InFront piece) {n : Nat}
    (hn : (line.followedBy piece).rest.length ≤ n) : ∃ fuel, n = fuel + 1 := by
  have hpos := Line.length_rest_skipToken_lt (h.isBlank piece)
  exact ⟨n - 1, by omega⟩

end InFront

theorem forall_isBlank (h : line.isBlank = true) : ∀ c ∈ line.rest, Text.isBlank c = true :=
  List.dropWhile_eq_nil_iff.mp (List.isEmpty_iff.mp h)

/-- Behind white space, a piece of one token is the last token. -/
theorem isLastToken_followedBy (h : line.isBlank = true) (hpiece : (Token.cut piece).rest = []) :
    (line.followedBy piece).isLastToken = true := by
  show (Token.cut (line.rest ++ piece)).rest.isEmpty = true
  rw [Token.cut_behind_blank (forall_isBlank h), hpiece]
  rfl

/-- Behind white space, a plain word is the next token, and nothing is left behind it. -/
theorem word_followedBy {word : String} (h : line.isBlank = true)
    (hword : Token.Plain word.toList) :
    (line.followedBy word.toList).peekToken = word ∧
      (line.followedBy word.toList).skipToken.isBlank = true := by
  have hcut : Token.cut (line.followedBy word.toList).rest =
      ⟨line.rest ++ [], word.toList, word.toList, []⟩ := by
    rw [followedBy, Token.cut_behind_blank (forall_isBlank h), hword.cut_eq]
  constructor
  · rw [peekToken, hcut, String.ofList_toList]
  · rw [skipToken, hcut]
    rfl

end Line

namespace Flag

variable {group : List (Flag Parser)} {ctx c : Context} {line after rest : Line}
variable {token given : List Given} {piece : List Char}

/-! ## Passing what is read -/

/-- Flags that a token of a settled text gives are given whatever follows the text. -/
theorem Gives.followedBy (h : Gives group line token after) (hline : line.InFront piece)
    (more : List Char) :
    Gives group (line.followedBy more) token (after.followedBy more) := by
  cases h with
  | @present flags names valueless =>
      rw [← hline.skipToken more]
      refine .present ?_ valueless
      rwa [hline.peekToken]
  | @value flag p interpret value names takes reads left accepted =>
      have hbehind : line.skipToken.InFront piece := ⟨hline.behind, left⟩
      rw [← hbehind.skipToken more, ← hbehind.tokenText more, ← hline.skipToken more]
      refine .value ?_ takes reads ?_ ?_
      · rwa [hline.peekToken]
      · rw [hline.skipToken, hbehind.isBlank]
      · rwa [hline.skipToken, hbehind.peekToken]

theorem Gives.settled (h : Gives group line token after) (hline : line.InFront piece) :
    Token.Settled piece after.rest := by
  cases h with
  | present => exact hline.behind
  | value _ _ _ left _ => exact Line.InFront.behind ⟨hline.behind, left⟩

theorem Spelled.followedBy (h : Spelled group line given rest)
    (hsettled : Token.Settled piece line.rest) (more : List Char) :
    Spelled group (line.followedBy more) given (rest.followedBy more) := by
  induction h with
  | done => exact .done
  | @next line after rest token given looks gives behind ih =>
      have hline : line.InFront piece := ⟨hsettled, isBlank_of_looksLikeFlag looks⟩
      refine .next ?_ (gives.followedBy hline more) (ih (gives.settled hline))
      rwa [hline.peekToken]

theorem Spelled.settled (h : Spelled group line given rest)
    (hsettled : Token.Settled piece line.rest) : Token.Settled piece rest.rest := by
  induction h with
  | done => exact hsettled
  | next looks gives behind ih =>
      exact ih (gives.settled ⟨hsettled, isBlank_of_looksLikeFlag looks⟩)

/-- Flags without values are passed one after the other, as they would be given. -/
theorem passEach_valueless {flags : List (Flag Parser)} (hnone : ∀ flag ∈ flags, flag.value = none)
    (hc : SameStanding ctx c) (line : Line) :
    ∃ c', passEach (flags.map (Flag.map Parser.ability)) c line = .ok (c', line) ∧
      SameStanding (givenAll flags ctx) c' := by
  induction flags generalizing ctx c with
  | nil => exact ⟨c, rfl, hc⟩
  | cons flag flags ih =>
      obtain ⟨hvalue, hnone⟩ := List.forall_mem_cons.mp hnone
      have hmarked : SameStanding (flag.given ctx) (ctx.markFlag flag.name) := ⟨⟨rfl, rfl⟩, rfl⟩
      have hgiven : SameStanding (flag.given ctx) (c.markFlag flag.name) :=
        SameStanding.chains.trans hmarked (hc.markFlag flag.name)
      have hpass : (flag.map Parser.ability).pass c line = .ok (c.markFlag flag.name, line) := by
        simp only [Flag.pass, value_map_none hvalue]
        rfl
      obtain ⟨c', hrest, hstanding⟩ := ih hnone hgiven
      refine ⟨c', ?_, hstanding⟩
      rw [List.map_cons, passEach, hpass]
      exact hrest

/-- A flag whose value is accepted in front of a piece is passed. -/
theorem pass_accepted {flag : Flag Parser} {p : Parser}
    {interpret : String → Except ArgumentError Value} {value : Value}
    (takes : flag.value = some p) (reads : p.interpret? = some interpret)
    (hline : line.InFront piece) (accepted : interpret line.peekToken = .ok value)
    (c : Context) :
    (flag.map Parser.ability).pass c (line.followedBy piece) =
      .ok ((c.store flag.name value).markFlag flag.name, line.skipToken.followedBy piece) := by
  have hread : p.ability.read c (line.followedBy piece) =
      ⟨.ok value, c, line.skipToken.followedBy piece⟩ := by
    show p.read c (line.followedBy piece) = _
    rw [Parser.read_token reads c (hline.isBlank piece), hline.peekToken, accepted,
      hline.skipToken]
  simp only [Flag.pass, value_map takes, hline.isLastToken, Bool.false_eq_true, if_false, hread]
  rfl

theorem locateAfter_of_last {group : List (Flag Ability)} (hlast : line.isLastToken = true)
    (fuel : Nat) (c : Context) : locateAfter group fuel c line = .name c line := by
  cases fuel <;> simp only [locateAfter, hlast, if_true]

/-- In front of a piece, the flags of a token are passed. -/
theorem locateAfter_of_names (hnames : (group.map (·.name)).Nodup) (hline : line.InFront piece)
    {flags : List (Flag Parser)} (names : Names group line.peekToken flags) (fuel : Nat)
    (c : Context) :
    locateAfter (Parser.suggestFlags group) (fuel + 1) c (line.followedBy piece) =
      match passEach (flags.map (Flag.map Parser.ability)) c (line.skipToken.followedBy piece) with
      | .error place => place
      | .ok (c', after) => locateAfter (Parser.suggestFlags group) fuel c' after := by
  have hresolve := (resolve_eq_some_iff hnames).mpr names
  cases hpass : passEach (flags.map (Flag.map Parser.ability)) c
      (line.skipToken.followedBy piece) <;>
    simp only [locateAfter, hline.isLastToken, Bool.false_eq_true, if_false, hline.peekToken,
      hline.skipToken, Parser.suggestFlags_eq, resolve_map, hresolve, Option.map_some, hpass]

/-- A token that gives flags in front of a piece is passed. -/
theorem Gives.locateAfter (hnames : (group.map (·.name)).Nodup) (h : Gives group line token after)
    (hline : line.InFront piece) (hc : SameStanding ctx c) (fuel : Nat) :
    ∃ c', SameStanding (Given.applyAll token ctx) c' ∧
      Flag.locateAfter (Parser.suggestFlags group) (fuel + 1) c (line.followedBy piece) =
        Flag.locateAfter (Parser.suggestFlags group) fuel c' (after.followedBy piece) := by
  cases h with
  | @present flags names valueless =>
      obtain ⟨c', hpass, hstanding⟩ :=
        passEach_valueless valueless hc (line.skipToken.followedBy piece)
      refine ⟨c', applyAll_present flags ctx ▸ hstanding, ?_⟩
      rw [locateAfter_of_names hnames hline names, hpass]
  | @value flag p interpret value names takes reads left accepted =>
      have hbehind : line.skipToken.InFront piece := ⟨hline.behind, left⟩
      refine ⟨(c.store flag.name value).markFlag flag.name, ?_, ?_⟩
      · have hgiven := Given.apply_standing ⟨flag, value, some line.skipToken.tokenText⟩ ctx
        have hstored : SameStanding (c.markFlag flag.name)
            ((c.store flag.name value).markFlag flag.name) := ⟨⟨rfl, rfl⟩, rfl⟩
        exact SameStanding.chains.trans hgiven.symm
          (SameStanding.chains.trans (hc.markFlag flag.name) hstored)
      · rw [locateAfter_of_names hnames hline names, List.map_singleton, passEach,
          pass_accepted takes reads hbehind accepted]
        rfl

/-- Flags that are spelled in front of a piece are passed. -/
theorem Spelled.locateAfter (hnames : (group.map (·.name)).Nodup)
    (h : Spelled group line given rest) (hsettled : Token.Settled piece line.rest)
    (hc : SameStanding ctx c) {fuel : Nat} (hfuel : (line.followedBy piece).rest.length ≤ fuel) :
    ∃ left c', (rest.followedBy piece).rest.length ≤ left ∧
      SameStanding (Given.applyAll given ctx) c' ∧
      Flag.locateAfter (Parser.suggestFlags group) fuel c (line.followedBy piece) =
        Flag.locateAfter (Parser.suggestFlags group) left c' (rest.followedBy piece) := by
  induction h generalizing ctx c fuel with
  | done => exact ⟨fuel, c, hfuel, hc, rfl⟩
  | @next line after rest token given looks gives behind ih =>
      have hline : line.InFront piece := ⟨hsettled, isBlank_of_looksLikeFlag looks⟩
      have hshorter : (after.followedBy piece).rest.length <
          (line.followedBy piece).rest.length := by
        have hlt := gives.length_lt looks
        simp only [Line.followedBy, List.length_append]
        omega
      obtain ⟨fuel, rfl⟩ : ∃ n, fuel = n + 1 := ⟨fuel - 1, by omega⟩
      obtain ⟨c', hstanding, hlocate⟩ := gives.locateAfter hnames hline hc fuel
      obtain ⟨left, c'', hleft, hstanding', hlocate'⟩ :=
        ih (gives.settled hline) hstanding
          (show (after.followedBy piece).rest.length ≤ fuel by omega)
      refine ⟨left, c'', hleft, ?_, hlocate.trans hlocate'⟩
      rwa [Given.applyAll_append]

/-! ## Where the group is read no further -/

/-- A refusal that the completion of flags does not notice: of a flag that may not be given now, or
    of a token that names flags but does not look like one. -/
def Overlooked (group : List (Flag Parser)) (e : ArgumentError) : Prop :=
  e.reason = .noFlagPermission ∨ e.reason = .duplicateFlag ∨
    e.reason = .unknownFlag ∧ (resolve group e.input).isSome = true

theorem reason_of_objection {flag : Flag Parser} {token : String} {e : ArgumentError}
    (h : flag.objection? ctx token = some e) :
    e.reason = .noFlagPermission ∨ e.reason = .duplicateFlag := by
  rw [objection?] at h
  split at h
  · cases h
    exact Or.inl rfl
  · split at h
    · cases h
      exact Or.inr rfl
    · cases h

/-- Where a group is read no further, the completion finds nothing, unless it overlooks why, or the
    value of a flag is missing. -/
theorem Stuck.locateAfter_eq_nowhere (hnames : (group.map (·.name)).Nodup) {r : Reading Unit}
    {e : ArgumentError} (h : Stuck group ctx line r) (hline : line.InFront piece)
    (herror : r.result = .error e) (hnoticed : ¬Overlooked group e)
    (hvalue : e.reason ≠ .missingFlagValue) (fuel : Nat) (c : Context) :
    locateAfter (Parser.suggestFlags group) (fuel + 1) c (line.followedBy piece) = .nowhere := by
  cases h with
  | unknown hnone =>
      cases herror
      have hresolve : resolve group line.peekToken = none := by
        rw [← Option.not_isSome_iff_eq_none]
        exact fun hsome => hnoticed (Or.inr (Or.inr ⟨rfl, hsome⟩))
      simp only [locateAfter, hline.isLastToken, Bool.false_eq_true, if_false, hline.peekToken,
        Parser.suggestFlags_eq, resolve_map, hresolve, Option.map_none]
  | refused objects =>
      cases herror
      exact absurd ((reason_of_objection objects).imp_right Or.inl) hnoticed
  | missing looks names takes may nothing =>
      cases herror
      exact absurd rfl hvalue
  | @rejected flag p interpret e' names takes reads more rejects =>
      have hbehind : line.skipToken.InFront piece := ⟨hline.behind, more⟩
      have hread : (p.ability.read c (line.skipToken.followedBy piece)).result = .error e' := by
        show (p.read c (line.skipToken.followedBy piece)).result = _
        rw [Parser.read_token reads c (hbehind.isBlank piece), hbehind.peekToken, rejects]
      rw [locateAfter_of_names hnames hline names]
      simp only [List.map_singleton, passEach, Flag.pass, value_map takes, hbehind.isLastToken,
        Bool.false_eq_true, if_false, hread]

/-- Where the value of a flag is missing, the completion finds what is typed to be the value. -/
theorem Stuck.locateAfter_eq_value (hnames : (group.map (·.name)).Nodup) {r : Reading Unit}
    {e : ArgumentError} (h : Stuck group ctx line r) (hline : line.InFront piece)
    (hpiece : (Token.cut piece).rest = []) (herror : r.result = .error e)
    (hvalue : e.reason = .missingFlagValue) (fuel : Nat) (c : Context) :
    looksLikeFlag line.peekToken = true ∧ ∃ flag p, Names group line.peekToken [flag] ∧
      flag.value = some p ∧
      flag.objection? ctx line.peekToken = none ∧ line.skipToken.isBlank = true ∧
      locateAfter (Parser.suggestFlags group) (fuel + 1) c (line.followedBy piece) =
        .value p.suggest c (line.skipToken.followedBy piece) := by
  cases h with
  | unknown hnone =>
      cases herror
      cases hvalue
  | refused objects =>
      cases herror
      rcases reason_of_objection objects with hreason | hreason <;> rw [hreason] at hvalue <;>
        cases hvalue
  | @rejected flag p interpret e' names takes reads more rejects =>
      cases herror
      have htoken := Parser.reason_of_interpret reads rejects
      have hreason : e'.reason = .missingFlagValue := hvalue
      rw [hreason] at htoken
      cases htoken
  | @missing flag p looks names takes may nothing =>
      refine ⟨looks, flag, p, names, takes, may, nothing, ?_⟩
      rw [locateAfter_of_names hnames hline names]
      simp only [List.map_singleton, passEach, Flag.pass, value_map takes,
        Line.isLastToken_followedBy nothing hpiece, if_true]
      rfl

/-! ## One more token -/

/-- A token was read, or only its value is missing. -/
def Continues (group : List (Flag Parser)) (token : String) (r : Reading Value) : Prop :=
  r.result.isOk = true ∨ ∃ flag ∈ group, r.result = .error (flag.refusal token .missingFlagValue)

/-- Behind flags that are spelled in front of a piece, a word that names a flag is read, or only its
    value is missing. -/
theorem Spelled.continues (hnames : (group.map (·.name)).Nodup)
    (h : Spelled group line given rest) (hsettled : Token.Settled piece line.rest)
    (hblank : rest.isBlank = true) {flag : Flag Parser} {word : String}
    (hword : Token.Plain word.toList) (looks : looksLikeFlag word = true)
    (names : Names group word [flag])
    (hadmitted : Admitted ctx ((given.map (·.flag)) ++ [flag])) :
    Continues group word ((Parser.flags group).read ctx (line.followedBy word.toList)) := by
  obtain ⟨htoken, hend⟩ := Line.word_followedBy hblank hword
  have hspelled := h.followedBy hsettled word.toList
  rw [← htoken] at looks names
  obtain ⟨hbefore, hflag⟩ := (admitted_append given [flag]).mp hadmitted
  cases takes : flag.value with
  | none =>
      left
      have gives := Gives.present names (List.forall_mem_singleton.mpr takes)
      have hall : Admitted ctx ((given ++ ([flag].map Given.present ++ [])).map Given.flag) := by
        rwa [List.append_nil, List.map_append, map_flag_present]
      rw [(hspelled.trans (.next looks gives .done)).read hnames hend hall]
      rfl
  | some p =>
      right
      have hresolve := (resolve_eq_some_iff hnames).mpr names
      refine ⟨flag, mem_of_resolve hresolve flag (List.mem_singleton.mpr rfl), ?_⟩
      have hleft := isBlank_of_looksLikeFlag looks
      have hpos := Line.length_rest_skipToken_lt hleft
      obtain ⟨left, hfuel, hread⟩ := hspelled.readTokens hnames hbefore (Nat.le_refl _)
      obtain ⟨fuel, rfl⟩ : ∃ n, left = n + 1 := ⟨left - 1, by omega⟩
      obtain ⟨hmay, -⟩ := admitted_cons.mp hflag
      rw [FlagGroup.readTokens_of_token hleft looks hresolve, List.map_singleton,
        readEach_singleton, read_missing (value_map takes _) hmay hend, htoken] at hread
      simp only [Parser.read, readGroup, hread, Reading.map]
      rfl

theorem plain_of_looksLikeFlag {word : String} (looks : looksLikeFlag word = true)
    (hunbroken : ∀ c ∈ word.toList, isBlank c = false) : Token.Plain word.toList := by
  rw [looksLikeFlag] at looks
  split at looks
  · next name hname =>
      rw [hname] at hunbroken ⊢
      exact ⟨by simp, hunbroken, by simp [Token.isQuote]⟩
  · next name hname =>
      rw [hname] at hunbroken ⊢
      exact ⟨by simp, hunbroken, by simp [Token.isQuote]⟩
  · cases looks

/-- A suggested token is of a flag that may be given. -/
theorem mem_suggestNames {typed : String} {s : Suggestion}
    (h : s ∈ suggestNames (Parser.suggestFlags group) c typed) :
    ∃ flag ∈ group, flag.objection? c s.value = none ∧
      (s.value = "--" ++ flag.name ∨ ∃ short ∈ flag.aliases, s.value = "-" ++ short) := by
  rw [Parser.suggestFlags_eq] at h
  obtain ⟨able, hable, hs⟩ := List.mem_flatMap.mp (List.mem_filter.mp h).1
  obtain ⟨hmem, hoffered⟩ := List.mem_filter.mp hable
  obtain ⟨flag, hflag, rfl⟩ := List.mem_map.mp hmem
  refine ⟨flag, hflag, ?_, ?_⟩
  · have hoffered : c.grants flag.permission = true ∧
        (flag.repeatable = true ∨ c.hasFlag flag.name = false) := by
      simpa [Flag.map, or_comm] using hoffered
    exact (objection_eq_none_iff flag c s.value).mpr hoffered
  · rcases List.mem_cons.mp hs with rfl | hs
    · exact Or.inl rfl
    · obtain ⟨-, hs⟩ := List.mem_ite_nil_right.mp hs
      obtain ⟨short, hshort, rfl⟩ := List.mem_map.mp hs
      exact Or.inr ⟨short, hshort, rfl⟩

theorem name_mem_suggestNames {typed : String} {flag : Flag Parser} (hflag : flag ∈ group)
    (hmay : flag.objection? c "" = none)
    (htyped : (flag.suggestion ("--" ++ flag.name)).continues typed = true) :
    flag.suggestion ("--" ++ flag.name) ∈ suggestNames (Parser.suggestFlags group) c typed := by
  obtain ⟨hgrants, hfresh⟩ := (objection_eq_none_iff flag c "").mp hmay
  rw [Parser.suggestFlags_eq]
  refine List.mem_filter.mpr ⟨List.mem_flatMap.mpr ⟨flag.map Parser.ability, ?_, ?_⟩, htyped⟩
  · refine List.mem_filter.mpr ⟨List.mem_map_of_mem hflag, ?_⟩
    show (c.grants flag.permission && !(c.hasFlag flag.name && !flag.repeatable)) = true
    rcases hfresh with hrepeatable | hfresh
    · simp [hgrants, hrepeatable]
    · simp [hgrants, hfresh]
  · exact List.mem_cons_self

/-- Behind flags that are spelled, a suggested token is read, or only its value is missing. -/
theorem Spelled.suggested_continues (hnames : (group.map (·.name)).Nodup)
    (haliases : (group.flatMap (·.aliases)).Nodup) (hplain : Unhyphened group)
    (h : Spelled group line given rest) (hsettled : Token.Settled piece line.rest)
    (hadmitted : Admitted ctx (given.map (·.flag))) (hblank : rest.isBlank = true)
    (hc : SameStanding (Given.applyAll given ctx) c) {typed : String} {s : Suggestion}
    (hs : s ∈ suggestNames (Parser.suggestFlags group) c typed)
    (hlooks : looksLikeFlag s.value = true) (hunbroken : ∀ c ∈ s.value.toList, isBlank c = false) :
    Continues group s.value
      ((Parser.flags group).read ctx (line.followedBy s.value.toList)) := by
  obtain ⟨flag, hflag, hmay, hvalue⟩ := mem_suggestNames hs
  have names : Names group s.value [flag] := by
    rcases hvalue with hname | ⟨short, hshort, halias⟩
    · rw [hname]
      exact .name hflag
    · rw [halias]
      exact .short (hplain flag hflag short hshort) (withAlias_of_own hflag hshort
        fun other hother hshort' => eq_of_alias haliases hflag hother hshort hshort')
  refine h.continues hnames hsettled hblank (plain_of_looksLikeFlag hlooks hunbroken) hlooks names
    ?_
  rw [← hc.objection_eq] at hmay
  exact (admitted_append given [flag]).mpr
    ⟨hadmitted, admitted_cons.mpr ⟨hmay, by simp, .nil⟩⟩

/-- Behind flags that are spelled and a flag whose value is missing, a word that its parser accepts
    is read. -/
theorem Spelled.value_read (hnames : (group.map (·.name)).Nodup)
    (h : Spelled group line given rest) (hsettled : Token.Settled piece line.rest)
    (hrest : rest.InFront piece) (looks : looksLikeFlag rest.peekToken = true) {flag : Flag Parser}
    {p : Parser} {interpret : String → Except ArgumentError Value} {value : Value}
    (names : Names group rest.peekToken [flag]) (takes : flag.value = some p)
    (reads : p.interpret? = some interpret) (hnothing : rest.skipToken.isBlank = true)
    {word : String} (hword : Token.Plain word.toList) (hlooks : looksLikeFlag word = true)
    (accepted : interpret word = .ok value)
    (hadmitted : Admitted ctx (given.map (·.flag) ++ [flag])) :
    ((Parser.flags group).read ctx (line.followedBy word.toList)).result.isOk = true := by
  obtain ⟨htoken, hend⟩ := Line.word_followedBy hnothing hword
  rw [← hrest.skipToken] at htoken hend
  have hleft : (rest.followedBy word.toList).skipToken.isBlank = false :=
    isBlank_of_looksLikeFlag (by rwa [htoken])
  rw [← htoken] at accepted
  rw [← hrest.peekToken word.toList] at looks names
  have gives := Gives.value names takes reads hleft accepted
  have hspelled := (h.followedBy hsettled word.toList).trans (.next looks gives .done)
  rw [hspelled.read hnames hend (by simpa using hadmitted)]
  rfl

/-! ## Suggestions -/

/-- Behind flags that are spelled up to the piece, names are suggested, each of which can be read;
    and if nothing is typed yet, the names of all flags that may be given. -/
theorem Spelled.suggests_names (hnames : (group.map (·.name)).Nodup)
    (haliases : (group.flatMap (·.aliases)).Nodup) (hplain : Unhyphened group)
    (h : Spelled group line given rest) (hline : line.Precedes piece)
    (hadmitted : Admitted ctx (given.map (·.flag))) (hblank : rest.isBlank = true) :
    ∃ list, (Parser.flags group).suggest ctx (line.followedBy piece) = pure list ∧
      (∀ s ∈ list, looksLikeFlag s.value = true → (∀ c ∈ s.value.toList, isBlank c = false) →
        Continues group s.value
          ((Parser.flags group).read ctx (line.followedBy s.value.toList))) ∧
      (piece = [] → ∀ flag ∈ group, Admitted (Given.applyAll given ctx) [flag] →
        flag.suggestion ("--" ++ flag.name) ∈ list) := by
  obtain ⟨left, c, -, hstanding, hlocate⟩ :=
    h.locateAfter hnames hline.settled (SameStanding.chains.refl ctx) (Nat.le_refl _)
  have hplace : locate (Parser.suggestFlags group) ctx (line.followedBy piece) =
      .name c (rest.followedBy piece) :=
    hlocate.trans (locateAfter_of_last (Line.isLastToken_followedBy hblank hline.piece) left c)
  have htyped : (rest.followedBy piece).peekToken = String.ofList (Token.cut piece).value := by
    rw [Line.peekToken, Line.followedBy, Token.cut_behind_blank (Line.forall_isBlank hblank)]
  simp only [Parser.suggest, suggestGroup, hplace, htyped]
  split
  · next hother =>
      refine ⟨[], rfl, by simp, fun hnothing => ?_⟩
      rw [hnothing] at hother
      cases hother
  · refine ⟨_, rfl, fun s hs hlooks hunbroken => ?_, fun hnothing flag hflag hmay => ?_⟩
    · exact h.suggested_continues hnames haliases hplain hline.settled hadmitted hblank hstanding
        hs hlooks hunbroken
    · obtain ⟨hmay, -⟩ := admitted_cons.mp hmay
      rw [hnothing]
      exact name_mem_suggestNames hflag (hstanding.objection_eq flag "" ▸ hmay) rfl

/-- Behind flags that are spelled and a flag whose value is missing, values are suggested that can
    be read. -/
theorem Spelled.suggests_values (hnames : (group.map (·.name)).Nodup) (hvalues : TokenValued group)
    (h : Spelled group line given rest) (hline : line.Precedes piece)
    (hadmitted : Admitted ctx (given.map (·.flag))) (hleft : rest.isBlank = false)
    {r : Reading Unit} {e : ArgumentError} (hstuck : Stuck group (Given.applyAll given ctx) rest r)
    (herror : r.result = .error e) (hmissing : e.reason = .missingFlagValue) :
    ∃ list, (Parser.flags group).suggest ctx (line.followedBy piece) = pure list ∧
      ∀ s ∈ list, looksLikeFlag s.value = true → (∀ c ∈ s.value.toList, isBlank c = false) →
        ((Parser.flags group).read ctx (line.followedBy s.value.toList)).result.isOk = true := by
  have hrest : rest.InFront piece := ⟨h.settled hline.settled, hleft⟩
  obtain ⟨left, c, hfuel, -, hlocate⟩ :=
    h.locateAfter hnames hline.settled (SameStanding.chains.refl ctx) (Nat.le_refl _)
  obtain ⟨fuel, rfl⟩ := hrest.exists_fuel hfuel
  obtain ⟨looks, flag, p, names, takes, hmay, hnothing, hvalue⟩ :=
    hstuck.locateAfter_eq_value hnames hrest hline.piece herror hmissing fuel c
  have hplace : locate (Parser.suggestFlags group) ctx (line.followedBy piece) =
      .value p.suggest c (rest.skipToken.followedBy piece) := hlocate.trans hvalue
  have hmem := mem_of_resolve ((resolve_eq_some_iff hnames).mpr names)
  obtain ⟨interpret, reads⟩ :=
    hvalues.exists_interpret (hmem flag (List.mem_singleton.mpr rfl)) takes
  obtain ⟨list, hlist, haccepts⟩ :=
    Parser.suggest_accepted reads (rest.skipToken.followedBy piece)
  refine ⟨list, ?_, fun s hs hlooks hunbroken => ?_⟩
  · simp only [Parser.suggest, suggestGroup, hplace, hlist]
  · obtain ⟨value, accepted⟩ := haccepts s hs
    refine h.value_read hnames hline.settled hrest looks names takes reads hnothing
      (plain_of_looksLikeFlag hlooks hunbroken) hlooks accepted ?_
    exact (admitted_append given [flag]).mpr
      ⟨hadmitted, admitted_cons.mpr ⟨hmay, by simp, .nil⟩⟩

/-- Behind a refusal that is noticed, nothing is suggested. -/
theorem Spelled.suggests_nothing (hnames : (group.map (·.name)).Nodup)
    (h : Spelled group line given rest) (hline : line.Precedes piece)
    (hleft : rest.isBlank = false) {r : Reading Unit} {e : ArgumentError}
    (hstuck : Stuck group (Given.applyAll given ctx) rest r) (herror : r.result = .error e)
    (hnoticed : ¬Overlooked group e) (hvalue : e.reason ≠ .missingFlagValue) :
    (Parser.flags group).suggest ctx (line.followedBy piece) = pure [] := by
  have hrest : rest.InFront piece := ⟨h.settled hline.settled, hleft⟩
  obtain ⟨left, c, hfuel, -, hlocate⟩ :=
    h.locateAfter hnames hline.settled (SameStanding.chains.refl ctx) (Nat.le_refl _)
  obtain ⟨fuel, rfl⟩ := hrest.exists_fuel hfuel
  have hplace : locate (Parser.suggestFlags group) ctx (line.followedBy piece) = .nowhere :=
    hlocate.trans (hstuck.locateAfter_eq_nowhere hnames hrest herror hnoticed hvalue fuel c)
  simp only [Parser.suggest, suggestGroup, hplace]

/-- Flags are suggested as the group is read. If the tokens in front of the piece are refused, for a
    reason that is not overlooked, nothing is suggested. If they are read, or only the value of the
    last flag is missing, each suggested token can be read behind them; and if they are read and
    nothing is typed yet, all flags that may be given are suggested. -/
theorem suggests_as_read (hnames : (group.map (·.name)).Nodup)
    (haliases : (group.flatMap (·.aliases)).Nodup) (hplain : Unhyphened group)
    (hvalues : TokenValued group) (hline : line.Precedes piece) {alone : Reading Value}
    (halone : (Parser.flags group).read ctx line = alone) :
    (∀ e, alone.result = .error e → e.reason ≠ .missingFlagValue → ¬Overlooked group e →
      (Parser.flags group).suggest ctx (line.followedBy piece) = pure []) ∧
    ((∀ e, alone.result = .error e → e.reason = .missingFlagValue) →
      ∃ list, (Parser.flags group).suggest ctx (line.followedBy piece) = pure list ∧
        (∀ s ∈ list, looksLikeFlag s.value = true → (∀ c ∈ s.value.toList, isBlank c = false) →
          Continues group s.value
            ((Parser.flags group).read ctx (line.followedBy s.value.toList))) ∧
        (alone.result.isOk = true → piece = [] → ∀ flag ∈ group, Admitted alone.context [flag] →
          flag.suggestion ("--" ++ flag.name) ∈ list)) := by
  obtain ⟨given, rest, hspelled, hadmitted, hend⟩ :=
    spelled_or_stuck hnames hvalues ctx (Nat.le_refl line.rest.length)
  have hread : alone = (readTokens (Parser.readFlags group) line.rest.length ctx line).map
      fun () => .plain .unit := halone.symm
  rcases hend with ⟨hblank, hdone⟩ | ⟨hleft, hstuck⟩
  · -- the tokens are read
    rw [hdone] at hread
    subst hread
    refine ⟨fun e herror => (nomatch herror), fun _ => ?_⟩
    obtain ⟨list, hlist, hreads, hall⟩ :=
      hspelled.suggests_names hnames haliases hplain hline hadmitted hblank
    exact ⟨list, hlist, hreads, fun _ => hall⟩
  · -- the group is read no further
    obtain ⟨e, herror⟩ := hstuck.error
    have halone : alone.result = .error e := by
      rw [hread, Reading.map, herror]
      rfl
    refine ⟨fun e' he hvalue hnoticed => ?_, fun hmissing => ?_⟩
    · obtain rfl : e = e' := Except.error.inj (halone.symm.trans he)
      exact hspelled.suggests_nothing hnames hline hleft hstuck herror hnoticed hvalue
    · obtain ⟨list, hlist, hreads⟩ := hspelled.suggests_values hnames hvalues hline hadmitted hleft
        hstuck herror (hmissing e halone)
      refine ⟨list, hlist, fun s hs hlooks hunbroken => Or.inl (hreads s hs hlooks hunbroken), ?_⟩
      intro hok
      rw [halone] at hok
      cases hok

/-- Behind a loud call, quiet calls are suggested, and can be made. -/
theorem suggests_as_read_call :
    (ofCall.map (·.name)).Nodup ∧ (ofCall.flatMap (·.aliases)).Nodup ∧ Unhyphened ofCall ∧
      TokenValued ofCall ∧ (Line.ofString "-l ").Precedes [] ∧
      ∃ list, (Parser.flags ofCall).suggest (.ofRight "") (.ofString "-l ") = pure list ∧
        (∃ s ∈ list, s.value = "--quiet") ∧
        Continues ofCall "--quiet" ((Parser.flags ofCall).read (.ofRight "")
          (.ofString "-l --quiet")) := by
  have hnames : (ofCall.map (·.name)).Nodup := by decide
  have haliases : (ofCall.flatMap (·.aliases)).Nodup := by decide
  have hplain : Unhyphened ofCall := by simp [Unhyphened, ofCall, quiet, rings]
  have hline : (Line.ofString "-l ").Precedes [] := by
    refine ⟨?_, rfl⟩
    exact @Token.Settled.token [] ['-', 'l', ' '] [' '] ⟨[], ['-', 'l'], ['-', 'l'], []⟩ (by simp)
      (fun _ => rfl) (by simp) (.blank (List.forall_mem_singleton.mpr rfl))
  have hok : ((Parser.flags ofCall).read (.ofRight "") (.ofString "-l ")).result.isOk = true := by
    decide +kernel
  obtain ⟨-, hsuggests⟩ := suggests_as_read hnames haliases hplain tokenValued_ofCall hline
    (rfl : (Parser.flags ofCall).read (.ofRight "") (.ofString "-l ") = _)
  obtain ⟨list, hlist, hreads, hall⟩ := hsuggests fun e herror => by
    rw [herror] at hok
    cases hok
  have hmay : quiet.objection? ((Parser.flags ofCall).read (.ofRight "") (.ofString "-l ")).context
      "" = none := by
    decide +kernel
  have hquiet := hall hok rfl quiet (by simp [ofCall]) (admitted_cons.mpr ⟨hmay, by simp, .nil⟩)
  have hword : (quiet.suggestion ("--" ++ quiet.name)).value = "--quiet" := rfl
  have hplainWord : Token.Plain "--quiet".toList := by decide +kernel
  have hread := hreads _ hquiet (by decide +kernel) (hword ▸ hplainWord.unbroken)
  have hbehind : (Line.ofString "-l ").followedBy "--quiet".toList = .ofString "-l --quiet" := rfl
  rw [hword, hbehind] at hread
  exact ⟨hnames, haliases, hplain, tokenValued_ofCall, hline, list, hlist, ⟨_, hquiet, rfl⟩, hread⟩

/-- A flag that is given a second time is refused, and flags are suggested behind it. -/
theorem suggests_behind_duplicate :
    (ofCall.map (·.name)).Nodup ∧ (ofCall.flatMap (·.aliases)).Nodup ∧
      (Line.ofString "-l -l ").Precedes [] ∧
      (∃ e, ((Parser.flags ofCall).read (.ofRight "") (.ofString "-l -l ")).result = .error e ∧
        e.reason = .duplicateFlag) ∧
      (Parser.flags ofCall).suggest (.ofRight "") (.ofString "-l -l ") =
        pure [.ofText "--quiet", .ofText "--rings"] := by
  refine ⟨by decide, by decide, ⟨?_, rfl⟩, ⟨_, rfl, rfl⟩, rfl⟩
  have hlast : Token.Settled [] [' ', '-', 'l', ' '] :=
    @Token.Settled.token [] _ [' '] ⟨[' '], ['-', 'l'], ['-', 'l'], []⟩ (by simp) (fun _ => rfl)
      (by simp) (.blank (List.forall_mem_singleton.mpr rfl))
  exact @Token.Settled.token [] ['-', 'l', ' ', '-', 'l', ' '] [' ', '-', 'l', ' ']
    ⟨[], ['-', 'l'], ['-', 'l'], []⟩ (by simp) (fun _ => rfl) (by simp) hlast

end Flag

end CommandLine
