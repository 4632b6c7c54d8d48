import CommandLine.Proofs.Focus.Flags
import CommandLine.Proofs.Route.Directions

/-! # Tokens that give flags

    Whether a flag group takes a line is decided by what its tokens give: a token has to look like a
    flag and to be resolved to flags of the group, each of which the sender may give now
    (`FlagGroup.Accepts`). Such a token, with words for the value if its flag takes one, is a whole
    line for the group (`FlagGroup.takes_token`), and every line that the group takes begins with
    one (`FlagGroup.accepts_of_reads`). -/

namespace CommandLine

open Text

variable {ctx c : Context} {g : FlagGroup} {token : String}

namespace Context

theorem hasFlag_markFlag (ctx : Context) (name other : String) :
    (ctx.markFlag name).hasFlag other = (other == name || ctx.hasFlag other) := by
  simp only [hasFlag, markFlag, Store.contains, Store.get?_put]
  by_cases h : other = name
  · simp [h]
  · simp [h]

end Context

namespace SameStanding

theorem symm (h : SameStanding ctx c) : SameStanding c ctx :=
  ⟨⟨h.sender.1.symm, h.sender.2.symm⟩, h.flags.symm⟩

theorem hasFlag_eq (h : SameStanding ctx c) (name : String) :
    c.hasFlag name = ctx.hasFlag name := by
  simp only [Context.hasFlag, h.flags]

theorem markFlag (h : SameStanding ctx c) (name : String) :
    SameStanding (ctx.markFlag name) (c.markFlag name) :=
  ⟨h.sender, by simp only [Context.markFlag, Context.flagCount, h.flags]⟩

theorem objection_eq {P : Type} (h : SameStanding ctx c) (flag : Flag P) (token : String) :
    flag.objection? ctx token = flag.objection? c token := by
  simp only [Flag.objection?, h.sender.grants_eq, h.hasFlag_eq]

end SameStanding

namespace Flag

variable {P : Type}

/-! ## Flags that may be given -/

/-- The sender may give some flags now, one after the other. -/
structure Admitted (ctx : Context) (flags : List (Flag P)) : Prop where
  each : ∀ flag ∈ flags, ctx.grants flag.permission = true ∧
    (flag.repeatable = true ∨ ctx.hasFlag flag.name = false)
  once : flags.Pairwise fun x y => y.repeatable = true ∨ x.name ≠ y.name

theorem objection_eq_none_iff (flag : Flag P) (ctx : Context) (token : String) :
    flag.objection? ctx token = none ↔ ctx.grants flag.permission = true ∧
      (flag.repeatable = true ∨ ctx.hasFlag flag.name = false) := by
  rw [objection?]
  cases ctx.grants flag.permission <;> cases flag.repeatable <;> cases ctx.hasFlag flag.name <;>
    simp

/-- What is admitted is for the sender and the flags that were given to say. -/
theorem Admitted.of_sameStanding {flags : List (Flag P)} (hc : SameStanding ctx c)
    (h : Admitted ctx flags) : Admitted c flags := by
  refine ⟨fun flag hflag => ?_, h.once⟩
  rw [hc.sender.grants_eq, hc.hasFlag_eq]
  exact h.each flag hflag

/-- The first flag has to be admitted now, and the others once it was given. -/
theorem admitted_cons {flag : Flag P} {flags : List (Flag P)} :
    Admitted ctx (flag :: flags) ↔
      flag.objection? ctx token = none ∧ Admitted (ctx.markFlag flag.name) flags := by
  have hmarked : ∀ other : Flag P, (ctx.markFlag flag.name).hasFlag other.name = false ↔
      flag.name ≠ other.name ∧ ctx.hasFlag other.name = false := by
    intro other
    rw [Context.hasFlag_markFlag, Bool.or_eq_false_iff, beq_eq_false_iff_ne, ne_comm]
  have hgrants : ∀ permission, (ctx.markFlag flag.name).grants permission = ctx.grants permission :=
    fun _ => rfl
  rw [objection_eq_none_iff]
  constructor
  · rintro ⟨heach, honce⟩
    obtain ⟨hflag, hflags⟩ := List.forall_mem_cons.mp heach
    obtain ⟨hapart, honce⟩ := List.pairwise_cons.mp honce
    refine ⟨hflag, fun other hother => ?_, honce⟩
    obtain ⟨hmay, hfresh⟩ := hflags other hother
    rw [hmarked, hgrants]
    rcases hfresh with hrepeatable | hfresh
    · exact ⟨hmay, Or.inl hrepeatable⟩
    · exact ⟨hmay, (hapart other hother).imp_right fun hname => ⟨hname, hfresh⟩⟩
  · rintro ⟨hflag, hrest⟩
    refine ⟨List.forall_mem_cons.mpr ⟨hflag, fun other hother => ?_⟩,
      List.pairwise_cons.mpr ⟨fun other hother => ?_, hrest.once⟩⟩
    · obtain ⟨hmay, hfresh⟩ := hrest.each other hother
      rw [hmarked] at hfresh
      exact ⟨hmay, hfresh.imp_right And.right⟩
    · have hfresh := (hrest.each other hother).2
      rw [hmarked] at hfresh
      exact hfresh.imp_right And.left

/-! ## Reading the flags of a token -/

/-- The context in which some flags without values were given, one after the other. -/
def givenAll (flags : List (Flag P)) (c : Context) : Context :=
  flags.foldl (fun c flag => flag.given c) c

/-- Flags without values are given one after the other. -/
theorem readEach_valueless {flags : List (Flag Parser)}
    (hnone : ∀ flag ∈ flags, flag.value = none) (h : Admitted c flags) (token : String)
    (line : Line) :
    readEach token (flags.map (Flag.map Parser.read)) c line =
      ⟨.ok (), givenAll flags c, line⟩ := by
  induction flags generalizing c with
  | nil => rfl
  | cons flag flags ih =>
      obtain ⟨hvalue, hnone⟩ := List.forall_mem_cons.mp hnone
      obtain ⟨hobjection, hrest⟩ :
          flag.objection? c token = none ∧ Admitted (c.markFlag flag.name) flags :=
        admitted_cons.mp h
      have hgiven : SameStanding (c.markFlag flag.name) (flag.given c) := ⟨⟨rfl, rfl⟩, rfl⟩
      have hfirst : (flag.map Parser.read).read token c line = ⟨.ok (), flag.given c, line⟩ :=
        read_valueless (value_map_none hvalue _) hobjection line
      rw [List.map_cons, readEach, hfirst]
      exact ih hnone (hrest.of_sameStanding hgiven)

theorem sameSender_givenAll (flags : List (Flag P)) (c : Context) :
    SameSender c (givenAll flags c) := by
  induction flags generalizing c with
  | nil => exact SameSender.chains.refl c
  | cons flag flags ih => exact ih (flag.given c)

theorem hasFlag_givenAll (flags : List (Flag P)) (c : Context) (name : String) :
    (givenAll flags c).hasFlag name = true ↔
      name ∈ flags.map (·.name) ∨ c.hasFlag name = true := by
  induction flags generalizing c with
  | nil => simp [givenAll]
  | cons flag flags ih =>
      have hfirst : (flag.given c).hasFlag name = (c.markFlag flag.name).hasFlag name := rfl
      have hrest : (givenAll (flag :: flags) c) = givenAll flags (flag.given c) := rfl
      rw [hrest, ih, hfirst, Context.hasFlag_markFlag, List.map_cons, List.mem_cons,
        Bool.or_eq_true, beq_iff_eq]
      tauto

/-- The words behind a token that gives some flags: none if the flags take no values, and otherwise
    those that the parser of the flag takes. -/
inductive Completes (ctx : Context) : List (Flag Parser) → List String → Prop where
  | valueless {flags : List (Flag Parser)} (none : ∀ flag ∈ flags, flag.value = none) :
      Completes ctx flags []
  | value {flag : Flag Parser} {p : Parser} {words : List String} {first : String}
      (value : flag.value = some p) (begins : Token.Begins words first)
      (takes : Reader.Takes p.read ctx words []) : Completes ctx [flag] words

/-- The flags of a token are given when it is completed by the words behind it. -/
theorem Completes.readEach {flags : List (Flag Parser)} {words : List String}
    (h : Completes ctx flags words) (hadmitted : Admitted ctx flags) (hc : SameStanding ctx c)
    {line : Line} (hline : line.Holds words) (token : String) :
    ∃ after left, readEach token (flags.map (Flag.map Parser.read)) c line =
        ⟨.ok (), after, left⟩ ∧ left.isBlank = true ∧ SameSender ctx after ∧
      ∀ flag ∈ flags, after.hasFlag flag.name = true := by
  have hadmitted' : Admitted c flags := hadmitted.of_sameStanding hc
  cases h with
  | valueless hnone =>
      refine ⟨givenAll flags c, line, readEach_valueless hnone hadmitted' token line,
        hline.isBlank_nil, SameSender.chains.trans hc.sender (sameSender_givenAll flags c), ?_⟩
      exact fun flag hflag =>
        (hasFlag_givenAll flags c flag.name).mpr (Or.inl (List.mem_map_of_mem hflag))
  | @value flag p words first hvalue hbegins htakes =>
      have hmay : flag.objection? c token = none := (admitted_cons.mp hadmitted').1
      obtain ⟨value, hreads, hafter, hleft⟩ :=
        htakes c line hc (by rw [List.append_nil]; exact hline)
      have heach : Flag.readEach token ([flag].map (Flag.map Parser.read)) c line =
          ⟨.ok (), flag.givenValue value ((p.read c line).line.readSince line)
            (p.read c line).context, (p.read c line).line⟩ := by
        rw [List.map_singleton, Flag.readEach,
          Stage.read_value_ok hvalue hmay (hbegins line hline).1 hreads]
        rfl
      refine ⟨_, _, heach, hleft.isBlank_nil, ⟨hafter.sender.1, hafter.sender.2⟩, ?_⟩
      · intro flag' hflag'
        rw [List.mem_singleton.mp hflag']
        show ((p.read c line).context.markFlag flag.name).hasFlag flag.name = true
        rw [Context.hasFlag_markFlag, beq_self_eq_true, Bool.true_or]

/-- A flag that was given may be given, and is marked. -/
theorem standing_of_read {flag : Flag Parser} {line : Line}
    (hkeeps : ∀ p, flag.value = some p → Reader.Keeps SameStanding p.read)
    (h : ((flag.map Parser.read).read token c line).result = .ok ()) :
    flag.objection? c token = none ∧
      SameStanding (c.markFlag flag.name) ((flag.map Parser.read).read token c line).context := by
  cases hmay : (flag.map Parser.read).objection? c token with
  | some e =>
      rw [read_refused hmay] at h
      cases h
  | none =>
      refine ⟨hmay, ?_⟩
      cases hvalue : flag.value with
      | none =>
          rw [read_valueless (value_map_none hvalue _) hmay]
          exact ⟨⟨rfl, rfl⟩, rfl⟩
      | some p =>
          have hkeep := hkeeps p hvalue c line
          obtain ⟨hleft, value, hreads⟩ : line.isBlank = false ∧
              ∃ value, (p.read c line).result = .ok value := by
            simp only [Flag.read, hmay] at h
            simp only [Flag.map, hvalue, Option.map_some] at h
            split at h
            · cases h
            · next hleft =>
                obtain ⟨value, hread, -⟩ := Reading.andThen_ok h
                exact ⟨by simpa using hleft, value, Reading.withFact_ok hread⟩
          rw [Stage.read_value_ok hvalue hmay hleft hreads]
          exact ⟨hkeep.sender, (hkeep.markFlag flag.name).flags⟩

/-- Flags that were given one after the other were admitted. -/
theorem admitted_of_readEach {flags : List (Flag Parser)} {line : Line}
    (hkeeps : ∀ flag ∈ flags, ∀ p, flag.value = some p → Reader.Keeps SameStanding p.read)
    (h : (readEach token (flags.map (Flag.map Parser.read)) c line).result = .ok ()) :
    Admitted c flags := by
  induction flags generalizing c line with
  | nil => exact ⟨by simp, .nil⟩
  | cons flag flags ih =>
      obtain ⟨hkeep, hkeeps⟩ := List.forall_mem_cons.mp hkeeps
      obtain ⟨_, hfirst, hnext⟩ := Reading.andThen_ok h
      rw [List.map_cons, readEach, hnext] at h
      obtain ⟨hmay, hmarked⟩ := standing_of_read hkeep hfirst
      exact admitted_cons.mpr ⟨hmay, (ih hkeeps h).of_sameStanding hmarked.symm⟩

end Flag

/-! ## Whole lines -/

namespace FlagGroup

/-- A token looks like a flag and gives flags of a group that the sender may give now. -/
def Accepts (g : FlagGroup) (ctx : Context) (token : String) : Prop :=
  looksLikeFlag token = true ∧
    ∃ flags, Flag.resolve g.flags token = some flags ∧ Flag.Admitted ctx flags

/-- Where something is left of a line, something is left to bound the number of tokens. -/
theorem exists_fuel {line : Line} (hleft : line.isBlank = false) :
    ∃ fuel, line.rest.length = fuel + 1 := by
  refine Nat.exists_eq_succ_of_ne_zero fun hlength => ?_
  rw [Line.isBlank, List.length_eq_zero_iff.mp hlength] at hleft
  cases hleft

theorem readTokens_of_isBlank {group : List (Flag Parser)} {line : Line}
    (hblank : line.isBlank = true) (fuel : Nat) (c : Context) :
    Flag.readTokens (Parser.readFlags group) fuel c line = ⟨.ok (), c, line⟩ := by
  cases fuel <;> simp only [Flag.readTokens, hblank, if_true]

/-- On a line that is not blank a group gives the flags of the next token, and then reads on. -/
theorem readTokens_of_token {group : List (Flag Parser)} {line : Line} {flags : List (Flag Parser)}
    (hleft : line.isBlank = false) (hlooks : looksLikeFlag line.peekToken = true)
    (hresolve : Flag.resolve group line.peekToken = some flags) (fuel : Nat) (c : Context) :
    Flag.readTokens (Parser.readFlags group) (fuel + 1) c line =
      (Flag.readEach line.peekToken (flags.map (Flag.map Parser.read)) c
        line.skipToken).andThen fun _ => Flag.readTokens (Parser.readFlags group) fuel := by
  simp only [Flag.readTokens, hleft, Bool.false_eq_true, if_false, Parser.readFlags_eq,
    Flag.resolve_map, hlooks, if_true, hresolve, Option.map_some]

theorem read_of_token {line : Line} {flags : List (Flag Parser)} (hleft : line.isBlank = false)
    (hlooks : looksLikeFlag line.peekToken = true)
    (hresolve : Flag.resolve g.flags line.peekToken = some flags) :
    ∃ fuel, (Parser.flags g.flags).read c line = Reading.map (fun () => .plain .unit)
      ((Flag.readEach line.peekToken (flags.map (Flag.map Parser.read)) c
        line.skipToken).andThen fun _ => Flag.readTokens (Parser.readFlags g.flags) fuel) := by
  obtain ⟨fuel, hfuel⟩ := exists_fuel hleft
  refine ⟨fuel, ?_⟩
  simp only [Parser.read, Flag.readGroup, hfuel, readTokens_of_token hleft hlooks hresolve]

/-- Where something is left, a group reads only what begins with a token of flags. -/
theorem resolves_of_readTokens {group : List (Flag Parser)} {line : Line} {fuel : Nat}
    (hleft : line.isBlank = false)
    (h : (Flag.readTokens (Parser.readFlags group) (fuel + 1) c line).result = .ok ()) :
    looksLikeFlag line.peekToken = true ∧
      ∃ flags, Flag.resolve group line.peekToken = some flags := by
  simp only [Flag.readTokens, hleft, Bool.false_eq_true, if_false, Parser.readFlags_eq,
    Flag.resolve_map] at h
  cases hlooks : looksLikeFlag line.peekToken with
  | false =>
      simp only [hlooks, Bool.false_eq_true, if_false] at h
      cases h
  | true =>
      cases hresolve : Flag.resolve group line.peekToken with
      | none =>
          simp only [hlooks, if_true, hresolve, Option.map_none] at h
          cases h
      | some flags => exact ⟨rfl, flags, rfl⟩

theorem result_of_reads {line : Line} {value : Value}
    (h : ((Parser.flags g.flags).read c line).result = .ok value) :
    (Flag.readTokens (Parser.readFlags g.flags) line.rest.length c line).result = .ok () := by
  simp only [Parser.read, Flag.readGroup, Reading.map] at h
  cases hresult : (Flag.readTokens (Parser.readFlags g.flags) line.rest.length c line).result with
  | ok _ => rfl
  | error e =>
      rw [hresult] at h
      cases h

theorem resolves_of_reads {line : Line} {value : Value} (hleft : line.isBlank = false)
    (h : ((Parser.flags g.flags).read c line).result = .ok value) :
    looksLikeFlag line.peekToken = true ∧
      ∃ flags, Flag.resolve g.flags line.peekToken = some flags := by
  obtain ⟨fuel, hfuel⟩ := exists_fuel hleft
  have hresult := result_of_reads h
  rw [hfuel] at hresult
  exact resolves_of_readTokens hleft hresult

/-- A token that a group accepts, completed by words for the value of its flag, is a whole line for
    the group. -/
theorem takes_token {flags : List (Flag Parser)} {word : String} {words : List String}
    (hlooks : looksLikeFlag token = true) (hresolve : Flag.resolve g.flags token = some flags)
    (hadmitted : Flag.Admitted ctx flags)
    (hstands : Token.Stands word.toList token (spaced words))
    (hcompletes : Flag.Completes ctx flags words) :
    g.Takes ctx (word :: words) fun after => ∀ flag ∈ flags, after.hasFlag flag.name = true := by
  intro c line hc hline
  have hleft : line.isBlank = false := hline.isBlank_cons hstands
  have htoken : line.peekToken = token :=
    line.skipBlank_agrees.peekToken.symm.trans (hline.peekToken hstands)
  have hafter : line.skipToken.Holds words := by
    rw [← line.skipBlank_agrees.skipToken]
    exact hline.skipToken hstands
  rw [← htoken] at hlooks hresolve
  obtain ⟨after, left, hreads, hend, hsender, hflags⟩ :=
    hcompletes.readEach hadmitted hc hafter line.peekToken
  obtain ⟨fuel, hread⟩ := read_of_token (c := c) hleft hlooks hresolve
  have hdone : Flag.readTokens (Parser.readFlags g.flags) fuel after left =
      ⟨.ok (), after, left⟩ := readTokens_of_isBlank hend fuel after
  simp only [hreads, Reading.andThen, hdone] at hread
  rw [hread]
  exact ⟨_, rfl, hsender, hflags⟩

/-- Every line that a group takes, and on which something is left, begins with a token that the
    group accepts. -/
theorem accepts_of_reads {line : Line} {value : Value}
    (hkeeps : ∀ flag ∈ g.flags, ∀ p, flag.value = some p → Reader.Keeps SameStanding p.read)
    (hleft : line.isBlank = false)
    (h : ((Parser.flags g.flags).read c line).result = .ok value) :
    g.Accepts c line.peekToken := by
  obtain ⟨hlooks, flags, hresolve⟩ := resolves_of_reads hleft h
  obtain ⟨fuel, hread⟩ := read_of_token (c := c) hleft hlooks hresolve
  refine ⟨hlooks, flags, hresolve, ?_⟩
  rw [hread, Reading.map, Reading.andThen] at h
  split at h
  · next hfirst =>
      refine Flag.admitted_of_readEach (fun flag hmem => ?_) hfirst
      exact hkeeps flag (Flag.mem_of_resolve hresolve flag hmem)
  · cases h

end FlagGroup

end CommandLine
