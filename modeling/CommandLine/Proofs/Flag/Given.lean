import CommandLine.Proofs.Parser.Interpret
import CommandLine.Proofs.Route.FlagTokens

/-! # Flags that were given

    A flag group whose values are tokens reads a line exactly if the line spells flags up to its
    end: tokens that look like flags and name flags of the group, with a token behind each flag that
    takes a value (`Spelled`). What was read is then the list of the flags that were given
    (`Given`), and what is known afterwards is what this list says and nothing else
    (`Given.Outcome`).

    The route: at every place a token gives flags that are admitted, or the group is read no further
    (`gives_or_stuck`); so on every line some flags are spelled, up to the end or to such a place
    (`spelled_or_stuck`), and where flags are spelled the group reads them (`Spelled.readTokens`).
    The list of these flags says which counts, values and texts are known
    (`Given.outcome_applyAll`) and whether the sender may give them (`admitted_iff_licensed`). -/

namespace CommandLine

open Text

namespace Flag

/-! ## Given flags -/

/-- A flag as it was given, with its value and the text that the value was read from. -/
structure Given where
  flag : Flag Parser
  value : Value
  text? : Option String

namespace Given

/-- A flag without a value stands for true. -/
def present (flag : Flag Parser) : Given :=
  ⟨flag, .plain (.truth true), none⟩

/-- What is known once a flag is given. -/
def apply (g : Given) (ctx : Context) : Context :=
  match g.text? with
  | none => (ctx.store g.flag.name g.value).markFlag g.flag.name
  | some text =>
    ((ctx.store g.flag.name g.value).recordConsumed g.flag.name text).markFlag g.flag.name

/-- What is known once some flags are given, one after the other. -/
def applyAll (given : List Given) (ctx : Context) : Context :=
  given.foldl (fun ctx g => g.apply ctx) ctx

theorem applyAll_cons (g : Given) (given : List Given) (ctx : Context) :
    applyAll (g :: given) ctx = applyAll given (g.apply ctx) :=
  rfl

theorem applyAll_append (given more : List Given) (ctx : Context) :
    applyAll (given ++ more) ctx = applyAll more (applyAll given ctx) :=
  List.foldl_append

/-- Giving a flag marks it. -/
theorem apply_standing (g : Given) (ctx : Context) :
    SameStanding (ctx.markFlag g.flag.name) (g.apply ctx) := by
  rw [apply]
  cases g.text? with
  | none => exact ⟨⟨rfl, rfl⟩, rfl⟩
  | some text => exact ⟨⟨rfl, rfl⟩, rfl⟩

end Given

theorem admitted_iff_of_sameStanding {ctx c : Context} (h : SameStanding ctx c)
    {flags : List (Flag Parser)} : Admitted ctx flags ↔ Admitted c flags :=
  ⟨.of_sameStanding h, .of_sameStanding h.symm⟩

/-- The first flags have to be admitted now, and the others once those are given. -/
theorem admitted_append {ctx : Context} (given : List Given) (more : List (Flag Parser)) :
    Admitted ctx (given.map (·.flag) ++ more) ↔
      Admitted ctx (given.map (·.flag)) ∧ Admitted (Given.applyAll given ctx) more := by
  induction given generalizing ctx with
  | nil =>
      rw [List.map_nil, List.nil_append]
      exact (and_iff_right ⟨by simp, .nil⟩).symm
  | cons g given ih =>
      have hcons (flags : List (Flag Parser)) : Admitted ctx (g.flag :: flags) ↔
          g.flag.objection? ctx "" = none ∧ Admitted (ctx.markFlag g.flag.name) flags :=
        admitted_cons
      rw [List.map_cons, List.cons_append, hcons, hcons, and_assoc]
      have hstanding := g.apply_standing ctx
      rw [admitted_iff_of_sameStanding hstanding, admitted_iff_of_sameStanding hstanding, ih,
        Given.applyAll_cons]

/-! ## Lines of flags -/

/-- At a place of a line a token gives flags, up to the place behind it: flags without values, or
    one flag with the token behind it for its value. -/
inductive Gives (group : List (Flag Parser)) (line : Line) : List Given → Line → Prop where
  | present {flags : List (Flag Parser)} (names : Names group line.peekToken flags)
      (valueless : ∀ flag ∈ flags, flag.value = none) :
      Gives group line (flags.map .present) line.skipToken
  | value {flag : Flag Parser} {p : Parser} {interpret : String → Except ArgumentError Value}
      {value : Value} (names : Names group line.peekToken [flag]) (takes : flag.value = some p)
      (reads : p.interpret? = some interpret) (more : line.skipToken.isBlank = false)
      (accepted : interpret line.skipToken.peekToken = .ok value) :
      Gives group line [⟨flag, value, some line.skipToken.tokenText⟩] line.skipToken.skipToken

/-- From one place of a line to another, tokens that look like flags give some flags. -/
inductive Spelled (group : List (Flag Parser)) : Line → List Given → Line → Prop where
  | done {line : Line} : Spelled group line [] line
  | next {line after rest : Line} {token given : List Given}
      (looks : looksLikeFlag line.peekToken = true) (gives : Gives group line token after)
      (behind : Spelled group after given rest) : Spelled group line (token ++ given) rest

/-- At a place of a line no flags are given, and the group is read no further. -/
inductive Stuck (group : List (Flag Parser)) (ctx : Context) (line : Line) :
    Reading Unit → Prop where
  | unknown (none : looksLikeFlag line.peekToken = false ∨ resolve group line.peekToken = none) :
      Stuck group ctx line ⟨.error (unknown line.peekToken), ctx, line.skipToken⟩
  | refused {flag : Flag Parser} {c : Context} {e : ArgumentError}
      (objects : flag.objection? c line.peekToken = some e) :
      Stuck group ctx line ⟨.error e, c, line.skipToken⟩
  | missing {flag : Flag Parser} {p : Parser} (looks : looksLikeFlag line.peekToken = true)
      (names : Names group line.peekToken [flag]) (takes : flag.value = some p)
      (may : flag.objection? ctx line.peekToken = none)
      (nothing : line.skipToken.isBlank = true) :
      Stuck group ctx line
        ⟨.error (flag.refusal line.peekToken .missingFlagValue), ctx, line.skipToken⟩
  | rejected {flag : Flag Parser} {p : Parser} {interpret : String → Except ArgumentError Value}
      {e : ArgumentError} (names : Names group line.peekToken [flag]) (takes : flag.value = some p)
      (reads : p.interpret? = some interpret) (more : line.skipToken.isBlank = false)
      (rejects : interpret line.skipToken.peekToken = .error e) :
      Stuck group ctx line
        ⟨.error (e.withFact "flag" flag.name), ctx, line.skipToken.skipToken⟩

variable {group : List (Flag Parser)} {ctx : Context} {line after rest : Line}
variable {token given : List Given}

/-- The values of a group are read by parsers of one token. -/
def TokenValued (group : List (Flag Parser)) : Prop :=
  ∀ flag ∈ group, ∀ p, flag.value = some p → p.interpret?.isSome = true

theorem TokenValued.exists_interpret (h : TokenValued group) {flag : Flag Parser}
    (hflag : flag ∈ group) {p : Parser} (takes : flag.value = some p) :
    ∃ interpret, p.interpret? = some interpret :=
  Option.isSome_iff_exists.mp (h flag hflag p takes)

theorem isBlank_of_looksLikeFlag (h : looksLikeFlag line.peekToken = true) :
    line.isBlank = false := by
  refine Bool.eq_false_iff.mpr fun hblank => ?_
  have htrim : trimStart line.rest = [] := List.isEmpty_iff.mp hblank
  rw [Line.peekToken, Token.cut, htrim] at h
  cases h

theorem map_flag_present (flags : List (Flag Parser)) :
    (flags.map Given.present).map (·.flag) = flags := by
  rw [List.map_map]
  exact List.map_id flags

/-- The flags of a token are given with what the token spells. -/
theorem applyAll_present (flags : List (Flag Parser)) (ctx : Context) :
    Given.applyAll (flags.map .present) ctx = givenAll flags ctx :=
  List.foldl_map

theorem readEach_singleton (token : String) (flag : Flag Reader) (ctx : Context) (line : Line) :
    readEach token [flag] ctx line = flag.read token ctx line := by
  simp only [readEach, Reading.andThen]
  split
  · next hok => rw [← hok]
  · next e herror => rw [← herror]

/-! ### The flags of one token -/

/-- A flag whose parser accepts its token is given with the value of the token. -/
theorem read_accepted {flag : Flag Parser} {p : Parser}
    {interpret : String → Except ArgumentError Value} {value : Value} {token : String}
    (takes : flag.value = some p) (reads : p.interpret? = some interpret)
    (hmay : flag.objection? ctx token = none) (more : line.isBlank = false)
    (accepted : interpret line.peekToken = .ok value) :
    (flag.map Parser.read).read token ctx line =
      ⟨.ok (), (Given.mk flag value (some line.tokenText)).apply ctx, line.skipToken⟩ := by
  have hread := Parser.read_token reads ctx more
  rw [Stage.read_value_ok takes hmay more (by rw [hread, accepted]), hread,
    line.readSince_skipToken]
  rfl

/-- A group reads the flags that a token gives, if they are admitted, and then reads on. -/
theorem Gives.readTokens (hnames : (group.map (·.name)).Nodup)
    (looks : looksLikeFlag line.peekToken = true) (h : Gives group line token after)
    (hadmitted : Admitted ctx (token.map (·.flag))) (fuel : Nat) :
    Flag.readTokens (Parser.readFlags group) (fuel + 1) ctx line =
      Flag.readTokens (Parser.readFlags group) fuel (Given.applyAll token ctx) after := by
  have hleft := isBlank_of_looksLikeFlag looks
  cases h with
  | @present flags names valueless =>
      rw [map_flag_present] at hadmitted
      rw [FlagGroup.readTokens_of_token hleft looks ((resolve_eq_some_iff hnames).mpr names),
        readEach_valueless valueless hadmitted, applyAll_present]
      rfl
  | @value flag p interpret value names takes reads more accepted =>
      obtain ⟨hmay, -⟩ := admitted_cons.mp hadmitted
      rw [FlagGroup.readTokens_of_token hleft looks ((resolve_eq_some_iff hnames).mpr names),
        List.map_singleton, readEach_singleton, read_accepted takes reads hmay more accepted]
      rfl

theorem Gives.length_lt (looks : looksLikeFlag line.peekToken = true)
    (h : Gives group line token after) : after.rest.length < line.rest.length := by
  have hshorter := Line.length_rest_skipToken_lt (isBlank_of_looksLikeFlag looks)
  cases h with
  | present => exact hshorter
  | value _ _ _ more _ => exact Nat.lt_trans (Line.length_rest_skipToken_lt more) hshorter

/-- A token gives only flags without values, or one flag with a value. -/
theorem valueless_or_taking {token : String} {flags : List (Flag Parser)}
    (hresolve : resolve group token = some flags) :
    (∀ flag ∈ flags, flag.value = none) ∨
      ∃ flag p, flags = [flag] ∧ flag.value = some p := by
  rcases single_or_valueless hresolve with ⟨flag, rfl⟩ | hnone
  · cases takes : flag.value with
    | none => exact Or.inl (List.forall_mem_singleton.mpr takes)
    | some p => exact Or.inr ⟨flag, p, rfl, takes⟩
  · exact Or.inl hnone

/-- Flags without values that are not admitted are given up to one that may not be given. -/
theorem readEach_refused {flags : List (Flag Parser)} (hnone : ∀ flag ∈ flags, flag.value = none)
    (h : ¬Admitted ctx flags) (token : String) (line : Line) :
    ∃ (flag : Flag Parser) (c : Context) (e : ArgumentError), flag.objection? c token = some e ∧
      readEach token (flags.map (Flag.map Parser.read)) ctx line = ⟨.error e, c, line⟩ := by
  induction flags generalizing ctx with
  | nil => exact absurd ⟨by simp, .nil⟩ h
  | cons flag flags ih =>
      obtain ⟨hvalue, hnone⟩ := List.forall_mem_cons.mp hnone
      rw [List.map_cons, readEach]
      cases hmay : flag.objection? ctx token with
      | some e =>
          refine ⟨flag, ctx, e, hmay, ?_⟩
          rw [read_refused ((objection_map _ flag ctx token).trans hmay)]
          rfl
      | none =>
          have hmarked : SameStanding (flag.given ctx) (ctx.markFlag flag.name) :=
            ⟨⟨rfl, rfl⟩, rfl⟩
          have hrest : ¬Admitted (flag.given ctx) flags := fun hrest =>
            h (admitted_cons.mpr ⟨hmay, hrest.of_sameStanding hmarked⟩)
          obtain ⟨other, c, e, hobjects, hread⟩ := ih hnone hrest
          refine ⟨other, c, e, hobjects, ?_⟩
          rw [← hread, read_valueless (value_map_none hvalue _) hmay]
          rfl

/-- A flag that takes a value is given with the token behind it, or the group is read no further. -/
theorem gives_or_stuck_of_value {flag : Flag Parser} {p : Parser}
    {interpret : String → Except ArgumentError Value}
    (looks : looksLikeFlag line.peekToken = true) (names : Names group line.peekToken [flag])
    (takes : flag.value = some p) (reads : p.interpret? = some interpret) (ctx : Context) :
    (∃ token after, Gives group line token after ∧ Admitted ctx (token.map (·.flag))) ∨
      ∃ (e : ArgumentError) (c : Context) (left : Line),
        (flag.map Parser.read).read line.peekToken ctx line.skipToken = ⟨.error e, c, left⟩ ∧
          Stuck group ctx line ⟨.error e, c, left⟩ := by
  cases hmay : flag.objection? ctx line.peekToken with
  | some e =>
      exact Or.inr ⟨e, ctx, line.skipToken,
        read_refused ((objection_map _ flag ctx _).trans hmay) _, .refused hmay⟩
  | none =>
      have takesReader := value_map takes Parser.read
      have hmayRead := (objection_map Parser.read flag ctx line.peekToken).trans hmay
      cases hmore : line.skipToken.isBlank with
      | true =>
          exact Or.inr ⟨_, ctx, line.skipToken, read_missing takesReader hmayRead hmore,
            .missing looks names takes hmay hmore⟩
      | false =>
          cases hresult : interpret line.skipToken.peekToken with
          | ok value =>
              refine Or.inl ⟨_, _, .value names takes reads hmore hresult, ?_⟩
              exact admitted_cons.mpr ⟨hmay, by simp, .nil⟩
          | error e =>
              have hread := Parser.read_token reads ctx hmore
              have hrejects : (p.read ctx line.skipToken).result = .error e := by
                rw [hread, hresult]
              refine Or.inr ⟨_, ctx, line.skipToken.skipToken, ?_,
                .rejected names takes reads hmore hresult⟩
              rw [read_rejected takesReader hmayRead hmore hrejects, hread]
              rfl

/-- Where something is left, a token gives flags that are admitted, or the group is read no
    further. -/
theorem gives_or_stuck (hnames : (group.map (·.name)).Nodup) (hvalues : TokenValued group)
    (hleft : line.isBlank = false) (ctx : Context) (fuel : Nat) :
    (∃ token after, looksLikeFlag line.peekToken = true ∧ Gives group line token after ∧
        Admitted ctx (token.map (·.flag))) ∨
      Stuck group ctx line (readTokens (Parser.readFlags group) (fuel + 1) ctx line) := by
  by_cases hgives : looksLikeFlag line.peekToken = false ∨ resolve group line.peekToken = none
  · right
    have hread : readTokens (Parser.readFlags group) (fuel + 1) ctx line =
        ⟨.error (unknown line.peekToken), ctx, line.skipToken⟩ := by
      simp only [readTokens, hleft, Bool.false_eq_true, if_false, Parser.readFlags_eq, resolve_map]
      rcases hgives with hlooks | hresolve
      · rw [hlooks]
        rfl
      · rw [hresolve, Option.map_none, ite_self]
    rw [hread]
    exact .unknown hgives
  · obtain ⟨hlooks, hsome⟩ := not_or.mp hgives
    have hlooks : looksLikeFlag line.peekToken = true := by simpa using hlooks
    obtain ⟨flags, hresolve⟩ := Option.ne_none_iff_exists'.mp hsome
    have names := (resolve_eq_some_iff hnames).mp hresolve
    rw [FlagGroup.readTokens_of_token hleft hlooks hresolve]
    rcases valueless_or_taking hresolve with hnone | ⟨flag, p, rfl, takes⟩
    · by_cases hadmitted : Admitted ctx flags
      · left
        refine ⟨_, _, hlooks, .present names hnone, ?_⟩
        rwa [map_flag_present]
      · right
        obtain ⟨flag, c, e, hobjects, hread⟩ :=
          readEach_refused hnone hadmitted line.peekToken line.skipToken
        rw [hread]
        exact .refused hobjects
    · obtain ⟨interpret, reads⟩ :=
        hvalues.exists_interpret (mem_of_resolve hresolve flag (List.mem_singleton.mpr rfl)) takes
      rw [List.map_singleton, readEach_singleton]
      rcases gives_or_stuck_of_value hlooks names takes reads ctx with
        ⟨token, after, gives, hadmitted⟩ | ⟨e, c, left, hread, hstuck⟩
      · exact Or.inl ⟨token, after, hlooks, gives, hadmitted⟩
      · rw [hread]
        exact Or.inr hstuck

/-! ### The flags of a line -/

/-- A group reads the flags that are spelled, if they are admitted, and then reads on. -/
theorem Spelled.readTokens (hnames : (group.map (·.name)).Nodup)
    (h : Spelled group line given rest) (hadmitted : Admitted ctx (given.map (·.flag))) {fuel : Nat}
    (hfuel : line.rest.length ≤ fuel) :
    ∃ left, rest.rest.length ≤ left ∧
      Flag.readTokens (Parser.readFlags group) fuel ctx line =
        Flag.readTokens (Parser.readFlags group) left (Given.applyAll given ctx) rest := by
  induction h generalizing ctx fuel with
  | done => exact ⟨fuel, hfuel, rfl⟩
  | @next line after rest token given looks gives behind ih =>
      have hshorter := gives.length_lt looks
      obtain ⟨fuel, rfl⟩ : ∃ n, fuel = n + 1 := ⟨fuel - 1, by omega⟩
      rw [List.map_append, admitted_append] at hadmitted
      obtain ⟨left, hleftover, hread⟩ := ih hadmitted.2 (show after.rest.length ≤ fuel by omega)
      refine ⟨left, hleftover, ?_⟩
      rw [gives.readTokens hnames looks hadmitted.1, hread, Given.applyAll_append]

/-- On every line some admitted flags are spelled, up to the end or to a place where the group is
    read no further. -/
theorem spelled_or_stuck (hnames : (group.map (·.name)).Nodup) (hvalues : TokenValued group)
    (ctx : Context) {fuel : Nat} (hfuel : line.rest.length ≤ fuel) :
    ∃ given rest, Spelled group line given rest ∧ Admitted ctx (given.map (·.flag)) ∧
      (rest.isBlank = true ∧ readTokens (Parser.readFlags group) fuel ctx line =
          ⟨.ok (), Given.applyAll given ctx, rest⟩ ∨
        rest.isBlank = false ∧ Stuck group (Given.applyAll given ctx) rest
          (readTokens (Parser.readFlags group) fuel ctx line)) := by
  have hnothing : Admitted ctx (([] : List Given).map (·.flag)) := ⟨by simp, .nil⟩
  induction fuel generalizing ctx line with
  | zero =>
      have hblank := Line.isBlank_of_length hfuel
      refine ⟨[], line, .done, hnothing, Or.inl ⟨hblank, ?_⟩⟩
      exact FlagGroup.readTokens_of_isBlank hblank 0 ctx
  | succ fuel ih =>
      cases hblank : line.isBlank with
      | true =>
          refine ⟨[], line, .done, hnothing, Or.inl ⟨hblank, ?_⟩⟩
          exact FlagGroup.readTokens_of_isBlank hblank (fuel + 1) ctx
      | false =>
          rcases gives_or_stuck hnames hvalues hblank ctx fuel with
            ⟨token, after, looks, gives, hadmitted⟩ | hstuck
          · have hshorter := gives.length_lt looks
            obtain ⟨given, rest, hspelled, hothers, hend⟩ :=
              ih (Given.applyAll token ctx) (show after.rest.length ≤ fuel by omega)
                ⟨by simp, .nil⟩
            refine ⟨token ++ given, rest, .next looks gives hspelled, ?_, ?_⟩
            · rw [List.map_append, admitted_append]
              exact ⟨hadmitted, hothers⟩
            · rwa [gives.readTokens hnames looks hadmitted, Given.applyAll_append]
          · exact ⟨[], line, .done, hnothing, Or.inr ⟨hblank, hstuck⟩⟩

theorem Spelled.trans {mid : Line} {more : List Given} (h : Spelled group line given mid)
    (hmore : Spelled group mid more rest) : Spelled group line (given ++ more) rest := by
  induction h with
  | done => exact hmore
  | next looks gives behind ih =>
      rw [List.append_assoc]
      exact .next looks gives (ih hmore)

theorem Stuck.error {r : Reading Unit} (h : Stuck group ctx line r) : ∃ e, r.result = .error e := by
  cases h <;> exact ⟨_, rfl⟩

/-! ## What is known afterwards -/

namespace Given

/-- How often a flag was given. -/
def times (given : List Given) (name : String) : Nat :=
  given.countP (·.flag.name == name)

/-- The last time that a flag was given. -/
def last? (given : List Given) (name : String) : Option Given :=
  (given.filter (·.flag.name == name)).getLast?

theorem times_cons (g : Given) (given : List Given) (name : String) :
    times (g :: given) name = times given name + if g.flag.name = name then 1 else 0 := by
  simp only [times, List.countP_cons, beq_iff_eq]

theorem last?_cons (g : Given) (given : List Given) (name : String) :
    last? (g :: given) name =
      (last? given name).or (if g.flag.name = name then some g else none) := by
  rw [last?, last?, List.filter_cons]
  by_cases hname : g.flag.name = name
  · rw [if_pos (beq_iff_eq.mpr hname), if_pos hname, List.getLast?_cons]
    cases (given.filter (·.flag.name == name)).getLast? <;> rfl
  · rw [if_neg (by simpa using hname), if_neg hname, Option.or_none]

theorem flagCount_apply (g : Given) (ctx : Context) (name : String) :
    (g.apply ctx).flagCount name = ctx.flagCount name + if g.flag.name = name then 1 else 0 := by
  have hflags : (g.apply ctx).flags = _ := (g.apply_standing ctx).flags
  rw [Context.flagCount, hflags, Context.markFlag, Store.get?_put]
  by_cases hname : g.flag.name = name
  · subst hname
    simp
  · rw [if_neg (Ne.symm hname), if_neg hname]
    rfl

theorem value?_apply (g : Given) (ctx : Context) (name : String) :
    (g.apply ctx).value? name = if g.flag.name = name then some g.value else ctx.value? name := by
  have hvalues : (g.apply ctx).values = ctx.values.put g.flag.name g.value := by
    rw [apply]
    split <;> rfl
  rw [Context.value?, hvalues, Store.get?_put]
  simp only [eq_comm, Context.value?]

theorem consumed?_apply (g : Given) (ctx : Context) (name : String) :
    (g.apply ctx).consumed? name =
      if g.flag.name = name then g.text?.or (ctx.consumed? name) else ctx.consumed? name := by
  rw [apply]
  cases g.text? with
  | none => simp [Context.consumed?, Context.markFlag, Context.store]
  | some text =>
      show (ctx.consumed.put g.flag.name text).get? name = _
      rw [Store.get?_put]
      simp only [eq_comm, Context.consumed?, Option.some_or]

/-- What some given flags change. -/
structure Outcome (given : List Given) (ctx after : Context) : Prop where
  counts : ∀ name, after.flagCount name = ctx.flagCount name + times given name
  values : ∀ name, after.value? name = ((last? given name).map (·.value)).or (ctx.value? name)
  texts : ∀ name,
    after.consumed? name = ((last? given name).bind (·.text?)).or (ctx.consumed? name)
  others : after =
    { ctx with values := after.values, consumed := after.consumed, flags := after.flags }

/-- Whenever a flag is given its value is read from a text, or never. -/
def Uniform (given : List Given) : Prop :=
  ∀ g ∈ given, ∀ g' ∈ given, g.flag.name = g'.flag.name → g.text? = none → g'.text? = none

theorem mem_of_last? {given : List Given} {name : String} {g : Given}
    (h : last? given name = some g) : g ∈ given ∧ g.flag.name = name := by
  obtain ⟨hmem, hname⟩ := List.mem_filter.mp (List.mem_of_getLast? h)
  exact ⟨hmem, eq_of_beq hname⟩

theorem outcome_applyAll {given : List Given} (h : Uniform given) (ctx : Context) :
    Outcome given ctx (applyAll given ctx) := by
  induction given generalizing ctx with
  | nil => exact ⟨fun _ => rfl, fun _ => rfl, fun _ => rfl, rfl⟩
  | cons g given ih =>
      have huniform : Uniform given := fun x hx y hy =>
        h x (List.mem_cons_of_mem _ hx) y (List.mem_cons_of_mem _ hy)
      have hrest := ih huniform (g.apply ctx)
      rw [applyAll_cons]
      constructor
      · intro name
        rw [hrest.counts, flagCount_apply, times_cons]
        omega
      · intro name
        rw [hrest.values, value?_apply, last?_cons]
        cases last? given name with
        | some g' => rfl
        | none => split <;> rfl
      · intro name
        rw [hrest.texts, consumed?_apply, last?_cons]
        cases hlast : last? given name with
        | none => split <;> rfl
        | some g' =>
            obtain ⟨hmem, hname'⟩ := mem_of_last? hlast
            cases htext : g'.text? with
            | some text => simp [htext]
            | none =>
                -- the flag takes no value, so no text was recorded before
                by_cases hname : g.flag.name = name
                · have hnone := h g' (List.mem_cons_of_mem _ hmem) g List.mem_cons_self
                    (hname'.trans hname.symm) htext
                  simp [htext, hnone]
                · simp [htext, hname]
      · rw [hrest.others]
        rw [apply]
        split <;> rfl

end Given

/-! ## Exactness -/

/-- Given flags are of the group, and those with a value have the text that it was read from. -/
theorem Gives.mem (hnames : (group.map (·.name)).Nodup) (h : Gives group line token after) :
    ∀ g ∈ token, g.flag ∈ group ∧ g.text?.isSome = g.flag.value.isSome := by
  cases h with
  | @present flags names valueless =>
      have hmem := mem_of_resolve ((resolve_eq_some_iff hnames).mpr names)
      refine List.forall_mem_map.mpr fun flag hflag => ⟨hmem flag hflag, ?_⟩
      show false = flag.value.isSome
      rw [valueless flag hflag]
      rfl
  | @value flag p interpret value names takes reads more accepted =>
      have hmem := mem_of_resolve ((resolve_eq_some_iff hnames).mpr names)
      refine List.forall_mem_singleton.mpr ⟨hmem flag (List.mem_singleton.mpr rfl), ?_⟩
      show true = flag.value.isSome
      rw [takes]
      rfl

theorem Spelled.mem (hnames : (group.map (·.name)).Nodup) (h : Spelled group line given rest) :
    ∀ g ∈ given, g.flag ∈ group ∧ g.text?.isSome = g.flag.value.isSome := by
  induction h with
  | done => simp
  | next looks gives behind ih => exact List.forall_mem_append.mpr ⟨gives.mem hnames, ih⟩

theorem Spelled.uniform (hnames : (group.map (·.name)).Nodup) (h : Spelled group line given rest) :
    Given.Uniform given := by
  intro g hg g' hg' hname hnone
  obtain ⟨hgroup, htext⟩ := h.mem hnames g hg
  obtain ⟨hgroup', htext'⟩ := h.mem hnames g' hg'
  rw [← List.inj_on_of_nodup_map hnames hgroup hgroup' hname, ← htext, hnone] at htext'
  exact Option.not_isSome_iff_eq_none.mp (by rw [htext']; simp)

/-- The sender holds the permissions of some flags, and only flags that may be repeated are given
    more than once. -/
structure Licensed (group : List (Flag Parser)) (ctx : Context) (given : List Given) : Prop where
  granted : ∀ g ∈ given, ctx.grants g.flag.permission = true
  once : ∀ flag ∈ group, flag.repeatable = false → Given.times given flag.name ≤ 1

/-- At most one element has a property if no two have it. -/
theorem countP_le_one_iff {α : Type} {p : α → Bool} {list : List α} :
    list.countP p ≤ 1 ↔ list.Pairwise fun x y => p x = true → p y = false := by
  induction list with
  | nil => simp
  | cons x list ih =>
      rw [List.pairwise_cons, ← ih, List.countP_cons]
      by_cases hx : p x = true
      · have hnone : list.countP p = 0 ↔ ∀ y ∈ list, p y = false := by
          simp only [List.countP_eq_zero, Bool.not_eq_true]
        simp only [hx, if_true, forall_const, ← hnone]
        omega
      · simp [hx]

/-- Where no flag was given before, flags are admitted if they are licensed. -/
theorem admitted_iff_licensed (hnames : (group.map (·.name)).Nodup)
    (hmem : ∀ g ∈ given, g.flag ∈ group) (hfresh : ∀ flag ∈ group, ctx.hasFlag flag.name = false) :
    Admitted ctx (given.map (·.flag)) ↔ Licensed group ctx given := by
  constructor
  · rintro ⟨heach, honce⟩
    refine ⟨fun g hg => (heach g.flag (List.mem_map_of_mem hg)).1, fun flag hflag hrepeatable => ?_⟩
    refine countP_le_one_iff.mpr ((List.pairwise_map.mp honce).imp_of_mem fun {x y} _ hy h hx => ?_)
    refine Bool.eq_false_iff.mpr fun hy' => ?_
    have hsame := List.inj_on_of_nodup_map hnames (hmem y hy) hflag (eq_of_beq hy')
    rcases h with h | h
    · rw [hsame, hrepeatable] at h
      cases h
    · exact h ((eq_of_beq hx).trans (eq_of_beq hy').symm)
  · rintro ⟨hgranted, honce⟩
    constructor
    · intro flag hflag
      obtain ⟨g, hg, rfl⟩ := List.mem_map.mp hflag
      exact ⟨hgranted g hg, Or.inr (hfresh _ (hmem g hg))⟩
    · refine List.pairwise_map.mpr (List.pairwise_iff_forall_sublist.mpr fun {x y} hsub => ?_)
      by_cases hrepeatable : y.flag.repeatable = true
      · exact Or.inl hrepeatable
      · refine Or.inr fun hname => ?_
        have hy : y ∈ given := hsub.subset (by simp)
        have htwice := countP_le_one_iff.mp (honce y.flag (hmem y hy) (by simpa using hrepeatable))
        have := List.pairwise_iff_forall_sublist.mp htwice hsub (beq_iff_eq.mpr hname)
        simp at this

/-- A group reads a line on which admitted flags are spelled. -/
theorem Spelled.read (hnames : (group.map (·.name)).Nodup) (h : Spelled group line given rest)
    (hblank : rest.isBlank = true) (hadmitted : Admitted ctx (given.map (·.flag))) :
    (Parser.flags group).read ctx line =
      ⟨.ok (.plain .unit), Given.applyAll given ctx, rest⟩ := by
  obtain ⟨left, -, hread⟩ := h.readTokens hnames hadmitted (Nat.le_refl _)
  rw [FlagGroup.readTokens_of_isBlank hblank] at hread
  simp only [Parser.read, readGroup, hread, Reading.map]
  rfl

/-- A group reads a line exactly if flags are spelled up to its end that the sender may give, and
    then what is known is what they say and nothing else. -/
theorem readGroup_exact (hnames : (group.map (·.name)).Nodup) (hvalues : TokenValued group)
    (hfresh : ∀ flag ∈ group, ctx.hasFlag flag.name = false) {r : Reading Value}
    (hr : (Parser.flags group).read ctx line = r) :
    (r.result.isOk = true →
      ∃ given, Spelled group line given r.line ∧ r.line.isBlank = true ∧
        Licensed group ctx given ∧ Given.Outcome given ctx r.context ∧
        ∀ flag ∈ group, r.context.flagCount flag.name = Given.times given flag.name) ∧
    ∀ given rest, Spelled group line given rest → rest.isBlank = true →
      Licensed group ctx given → r.result.isOk = true := by
  have hlicensed {given : List Given} {rest : Line} (h : Spelled group line given rest) :
      Admitted ctx (given.map (·.flag)) ↔ Licensed group ctx given :=
    admitted_iff_licensed hnames (fun g hg => (h.mem hnames g hg).1) hfresh
  constructor
  · intro hok
    obtain ⟨value, hvalue⟩ : ∃ value, r.result = .ok value := by
      cases hresult : r.result with
      | ok value => exact ⟨value, rfl⟩
      | error e =>
          rw [hresult] at hok
          cases hok
    have hresult := FlagGroup.result_of_reads (g := { flags := group }) (hr ▸ hvalue)
    obtain ⟨given, rest, hspelled, hadmitted, ⟨hblank, -⟩ | ⟨-, hstuck⟩⟩ :=
      spelled_or_stuck hnames hvalues ctx (Nat.le_refl line.rest.length)
    case inr =>
      obtain ⟨e, herror⟩ := hstuck.error
      cases hresult.symm.trans herror
    have hread := hspelled.read hnames hblank hadmitted
    rw [hr] at hread
    subst hread
    have houtcome := Given.outcome_applyAll (hspelled.uniform hnames) ctx
    refine ⟨given, hspelled, hblank, (hlicensed hspelled).mp hadmitted, houtcome, ?_⟩
    intro flag hflag
    have hnone : ctx.flagCount flag.name = 0 := by
      have hfresh := hfresh flag hflag
      rw [Context.hasFlag, Store.contains, Option.isSome_eq_false_iff, Option.isNone_iff_eq_none]
        at hfresh
      rw [Context.flagCount, hfresh]
      rfl
    rw [houtcome.counts, hnone, Nat.zero_add]
  · intro given rest hspelled hblank hgiven
    rw [← hr, hspelled.read hnames hblank ((hlicensed hspelled).mpr hgiven)]
    rfl

/-- Not to ring. -/
def quiet : Flag Parser :=
  { name := "quiet", aliases := ["q"] }

/-- How often to ring. -/
def rings : Flag Parser :=
  { name := "rings", aliases := ["r"], value := some (.integer 1 5), repeatable := true }

/-- The flags of a call. -/
def ofCall : List (Flag Parser) :=
  [{ name := "loud", aliases := ["l"] }, quiet, rings]

theorem tokenValued_ofCall : TokenValued ofCall := by
  intro flag hflag p hp
  simp only [ofCall, List.mem_cons, List.not_mem_nil, or_false] at hflag
  rcases hflag with rfl | rfl | rfl <;> cases hp
  rfl

/-- What is read of the flags of a call, where the number of rings is given twice. -/
def callRead : Reading Value :=
  (Parser.flags ofCall).read (.ofRight "") (.ofString "-lq --rings 2 -r  '3' ")

/-- The last number of rings is known, and that it was given twice. -/
theorem readGroup_exact_call :
    (ofCall.map (·.name)).Nodup ∧ TokenValued ofCall ∧
      (∀ flag ∈ ofCall, (Context.ofRight "").hasFlag flag.name = false) ∧
      ∃ given, Spelled ofCall (.ofString "-lq --rings 2 -r  '3' ") given callRead.line ∧
        Given.times given "rings" = 2 ∧ callRead.context.consumed? "rings" = some "'3'" := by
  have hnames : (ofCall.map (·.name)).Nodup := by decide
  have hfresh : ∀ flag ∈ ofCall, (Context.ofRight "").hasFlag flag.name = false := by decide
  have hok : callRead.result.isOk = true := by decide +kernel
  have hcount : callRead.context.flagCount "rings" = 2 := by decide +kernel
  have htext : callRead.context.consumed? "rings" = some "'3'" := by decide +kernel
  obtain ⟨hread, -⟩ := readGroup_exact hnames tokenValued_ofCall hfresh (r := callRead) rfl
  obtain ⟨given, hspelled, -, -, -, hcounts⟩ := hread hok
  refine ⟨hnames, tokenValued_ofCall, hfresh, given, hspelled, ?_, htext⟩
  exact (hcounts rings (by simp [ofCall])).symm.trans hcount

end Flag

end CommandLine
