import CommandLine.Proofs.Parser.Interpret
import CommandLine.Proofs.Route.Directions

/-! # Flags that are denied to a sender

    A flag group refuses a flag whose permission the sender lacks, and the error has that permission
    among its facts. The group may be far inside of another one: a flag may take a value whose
    parser reads flags of its own. On the way out the error gets more facts, but behind those that
    it has, so that the permission that is found in it is still the one that was lacking
    (`Parser.Within.honest`).

    Alternatives report an error of their own. A parser or a function of the surrounding program
    could report whatever it likes; `Allowed.sincere` is what does not say of a flag that it is
    denied, for only flag groups know of flags. -/

namespace CommandLine

/-- Parsers of the surrounding program leave the sender alone, and neither they nor functions report
    that a flag is denied. -/
def Allowed.sincere : Allowed where
  host := fun h => h.read.Keeps SameSender ∧
    ∀ ctx line e, (h.read ctx line).result = .error e → e.reason ≠ .noFlagPermission
  refine := fun f => ∀ ctx value e, f ctx value = .error e → e.reason ≠ .noFlagPermission
  build := fun f => ∀ ctx e, f ctx = .error e → e.reason ≠ .noFlagPermission

theorem Allowed.sincere_keeps : Allowed.sincere.Keeps SameSender :=
  ⟨fun _ hhost => hhost.1, fun _ _ _ _ => ⟨rfl, rfl⟩, fun _ _ _ _ => ⟨rfl, rfl⟩,
    fun _ _ _ => ⟨rfl, rfl⟩⟩

/-- A text is that of the permission of a flag, anywhere in a parser, that is denied. Alternatives
    do not pass on what is denied inside of them. -/
inductive Parser.Denies (ctx : Context) : Parser → String → Prop where
  | flag {group : List (Flag Parser)} {flag : Flag Parser} (mem : flag ∈ group)
      (denied : ctx.grants flag.permission = false) :
      Denies ctx (.flags group) flag.permission.toText
  | value {group : List (Flag Parser)} {flag : Flag Parser} {p : Parser} {text : String}
      (mem : flag ∈ group) (value : flag.value = some p) (inside : Denies ctx p text) :
      Denies ctx (.flags group) text
  | cached {slot lifetime : Nat} {inner : Parser} {text : String} (inside : Denies ctx inner text) :
      Denies ctx (.cached slot lifetime inner) text
  | map {f : Value → Value} {inner : Parser} {text : String} (inside : Denies ctx inner text) :
      Denies ctx (.map f inner) text
  | flatMap {f : Context → Value → Except ArgumentError Value} {inner : Parser} {text : String}
      (inside : Denies ctx inner text) : Denies ctx (.flatMap f inner) text
  | part {parts : List (Part Parser)} {build : Context → Except ArgumentError Value}
      {part : Part Parser} {text : String} (mem : part ∈ parts)
      (inside : Denies ctx part.parser text) : Denies ctx (.aggregate parts build) text

/-- A sender that lacks the same permissions is denied the same flags. -/
theorem Parser.Denies.of_sameSender {before after : Context} (h : SameSender before after)
    {p : Parser} {text : String} (hdenies : p.Denies after text) : p.Denies before text := by
  induction hdenies with
  | flag mem denied => exact .flag mem ((h.grants_eq _).symm.trans denied)
  | value mem value _ ih => exact .value mem value ih
  | cached _ ih => exact .cached ih
  | map _ ih => exact .map ih
  | flatMap _ ih => exact .flatMap ih
  | part mem _ ih => exact .part mem ih

/-- An error that says that a flag is denied says of which permission. -/
def ArgumentError.Honest (denied : String → Prop) (e : ArgumentError) : Prop :=
  e.reason = .noFlagPermission → ∃ text, e.fact? "permission" = some text ∧ denied text

/-- A reader whose errors are honest as long as the sender is the same. -/
def Reader.Honest (ctx : Context) (denied : String → Prop) (reader : Reader) : Prop :=
  ∀ now line e, SameSender ctx now → (reader now line).result = .error e → e.Honest denied

variable {ctx now : Context} {denied : String → Prop}

/-! ## Errors -/

namespace ArgumentError.Honest

variable {e : ArgumentError}

theorem of_ne (h : e.reason ≠ .noFlagPermission) : e.Honest denied :=
  fun hreason => absurd hreason h

theorem mono {more : String → Prop} (h : e.Honest denied)
    (hmore : ∀ text, denied text → more text) : e.Honest more := by
  intro hreason
  obtain ⟨text, hfact, hdenied⟩ := h hreason
  exact ⟨text, hfact, hmore text hdenied⟩

/-- Facts are added behind the others. -/
theorem withFact (h : e.Honest denied) (name value : String) :
    (e.withFact name value).Honest denied := by
  intro hreason
  obtain ⟨text, hfact, hdenied⟩ := h hreason
  refine ⟨text, ?_, hdenied⟩
  rw [fact?] at hfact
  rw [fact?, ArgumentError.withFact, List.lookup_append, hfact, Option.some_or]

end ArgumentError.Honest

/-! ## Readers -/

theorem Reader.honest_ofToken (parser : String) {interpret : String → Except ArgumentError Value}
    (h : ∀ token e, interpret token = .error e → e.reason.OfToken) :
    (Reader.ofToken parser interpret).Honest ctx denied := by
  intro now line e _ herror
  rw [ofToken] at herror
  split at herror
  · cases herror
    exact .of_ne (by simp [ArgumentError.noInput])
  · refine .of_ne fun hreason => ?_
    have htoken := h _ e herror
    rw [hreason] at htoken
    cases htoken

namespace Parser

theorem honest_readText (mode : TextMode) : Reader.Honest ctx denied (readText mode) := by
  intro now line e _ herror
  unfold readText at herror
  split at herror
  · cases herror
    exact .of_ne (by simp [ArgumentError.noInput])
  · cases mode with
    | word => cases herror
    | rest => cases herror
    | untilFlag =>
        simp only at herror
        split at herror
        · cases herror
          exact .of_ne (by simp [ArgumentError.noInput])
        · cases herror

end Parser

/-- Alternatives report an error of their own. -/
theorem Alternatives.honest_readAfter (name : String) (readers : List Reader)
    (failures : List ArgumentError) :
    Reader.Honest ctx denied (readAfter name failures readers) := by
  induction readers generalizing failures with
  | nil =>
      intro now line e _ herror
      cases herror
      exact .of_ne (by simp [refusal])
  | cons reader readers ih =>
      intro now line e hsame herror
      simp only [readAfter] at herror
      split at herror
      · next hresult => cases hresult.symm.trans herror
      · exact ih _ now line e hsame herror

/-- The parts of an aggregate are read one after the other, by the same sender. -/
theorem Part.honest_readEach {parts : List (Part Reader)}
    (hkeeps : ∀ part ∈ parts, part.parser.Keeps SameSender)
    (h : ∀ part ∈ parts, part.parser.Honest ctx denied) {line : Line} {e : ArgumentError}
    (hsame : SameSender ctx now) (herror : (readEach parts now line).result = .error e) :
    e.Honest denied := by
  induction parts generalizing now line with
  | nil => cases herror
  | cons part parts ih =>
      obtain ⟨hpart, hparts⟩ := List.forall_mem_cons.mp h
      obtain ⟨hkeep, hkeeps⟩ := List.forall_mem_cons.mp hkeeps
      rcases Reading.andThen_error herror with herror | ⟨value, -, herror⟩
      · obtain ⟨e', hown, rfl⟩ := Reading.withFact_error herror
        exact (hpart now line e' hsame hown).withFact _ _
      · have hafter : SameSender ctx ((part.parser now line).context.store part.name value) :=
          SameSender.chains.trans hsame (hkeep now line)
        exact ih hkeeps hparts hafter herror

theorem Part.honest_readAll {parts : List (Part Reader)}
    (hkeeps : ∀ part ∈ parts, part.parser.Keeps SameSender)
    (h : ∀ part ∈ parts, part.parser.Honest ctx denied)
    {build : Context → Except ArgumentError Value}
    (hbuild : ∀ ctx e, build ctx = .error e → e.reason ≠ .noFlagPermission) :
    Reader.Honest ctx denied (readAll parts build) := by
  intro now line e hsame herror
  simp only [readAll] at herror
  split at herror
  · exact .of_ne (hbuild _ e herror)
  · next e' hresult =>
      cases herror
      exact honest_readEach hkeeps h hsame hresult

/-! ## Flag groups -/

namespace Flag

/-- A flag whose errors are honest. -/
structure Honest (ctx : Context) (denied : String → Prop) (flag : Flag Reader) : Prop where
  own : ctx.grants flag.permission = false → denied flag.permission.toText
  value : ∀ reader, flag.value = some reader → reader.Honest ctx denied

variable {flag : Flag Reader} {token : String} {line : Line} {e : ArgumentError}

/-- A flag that may not be given names its permission, unless it was given before. -/
theorem Honest.objection (h : flag.Honest ctx denied) (hsame : SameSender ctx now)
    (hobjection : flag.objection? now token = some e) : e.Honest denied := by
  rw [objection?, hsame.grants_eq] at hobjection
  split at hobjection
  · next hdenied =>
      cases hobjection
      exact fun _ => ⟨_, rfl, h.own (by simpa using hdenied)⟩
  · split at hobjection
    · cases hobjection
      exact .of_ne (by simp [refusal])
    · cases hobjection

theorem Honest.read (h : flag.Honest ctx denied) (hsame : SameSender ctx now)
    (herror : (flag.read token now line).result = .error e) : e.Honest denied := by
  rw [Flag.read] at herror
  split at herror
  · next hobjection =>
      cases herror
      exact h.objection hsame hobjection
  · cases herror
  · next reader _ hvalue =>
      split at herror
      · cases herror
        exact .of_ne (by simp [refusal])
      · rcases Reading.andThen_error herror with herror | ⟨value, -, herror⟩
        · obtain ⟨e', hown, rfl⟩ := Reading.withFact_error herror
          exact (h.value reader hvalue now line e' hsame hown).withFact _ _
        · cases herror

theorem honest_readEach {flags : List (Flag Reader)}
    (hkeeps : ∀ flag ∈ flags, flag.Keeps SameSender)
    (h : ∀ flag ∈ flags, flag.Honest ctx denied) (hsame : SameSender ctx now)
    (herror : (readEach token flags now line).result = .error e) : e.Honest denied := by
  induction flags generalizing now line with
  | nil => cases herror
  | cons flag flags ih =>
      obtain ⟨hflag, hflags⟩ := List.forall_mem_cons.mp h
      obtain ⟨hkeep, hkeeps⟩ := List.forall_mem_cons.mp hkeeps
      rcases Reading.andThen_error herror with herror | ⟨_, -, herror⟩
      · exact hflag.read hsame herror
      · exact ih hkeeps hflags
          (SameSender.chains.trans hsame (hkeep.read SameSender.chains token now line)) herror

theorem honest_readTokens {group : List (Flag Reader)}
    (hkeeps : ∀ flag ∈ group, flag.Keeps SameSender)
    (h : ∀ flag ∈ group, flag.Honest ctx denied) {fuel : Nat} (hsame : SameSender ctx now)
    (herror : (readTokens group fuel now line).result = .error e) : e.Honest denied := by
  induction fuel generalizing now line with
  | zero =>
      rw [readTokens] at herror
      split at herror <;> cases herror
  | succ fuel ih =>
      rw [readTokens] at herror
      split at herror
      · cases herror
      · simp only at herror
        split at herror
        · cases herror
          exact .of_ne (by simp [unknown])
        · next flags hflags =>
            -- only flags of the group are read
            have hkeeps := forall_of_resolve hkeeps hflags
            rcases Reading.andThen_error herror with herror | ⟨_, -, herror⟩
            · exact honest_readEach hkeeps (forall_of_resolve h hflags) hsame herror
            · exact ih (SameSender.chains.trans hsame
                (keeps_readEach SameSender.chains hkeeps _ now _)) herror

end Flag

/-! ## Parsers -/

/-- An error that says that a flag is denied comes from a flag group, and names the permission of a
    flag there that the sender lacks. -/
theorem Parser.Within.honest {p : Parser} (h : p.Within .sincere) (ctx : Context) :
    Reader.Honest ctx (p.Denies ctx) p.read := by
  induction h with
  | text mode => exact honest_readText mode
  | integer => exact Reader.honest_ofToken _ fun _ _ => reason_interpretInteger
  | real => exact Reader.honest_ofToken _ fun _ _ => reason_interpretReal
  | truth => exact Reader.honest_ofToken _ fun _ _ => reason_interpretTruth
  | uuid => exact Reader.honest_ofToken _ fun _ _ => reason_interpretUuid
  | enumeration => exact Reader.honest_ofToken _ fun _ _ => reason_interpretVariant
  | host ok => exact fun now line e _ herror => .of_ne (ok.2 now line e herror)
  | cached _ ih =>
      exact fun now line e hsame herror => (ih now line e hsame herror).mono fun _ => .cached
  | map _ ih =>
      intro now line e hsame herror
      exact (ih now line e hsame (Reading.map_error herror)).mono fun _ => .map
  | flatMap ok _ ih =>
      intro now line e hsame herror
      rcases Reading.andThen_error herror with herror | ⟨_, -, herror⟩
      · exact (ih now line e hsame herror).mono fun _ => .flatMap
      · exact .of_ne (ok _ _ e herror)
  | firstOf => exact Alternatives.honest_readAfter _ _ []
  | either => exact Alternatives.honest_readAfter _ _ []
  | @aggregate parts build ok within ih =>
      simp only [Parser.read, readParts_eq]
      refine Part.honest_readAll (List.forall_mem_map.mpr fun part hpart => ?_)
        (List.forall_mem_map.mpr fun part hpart => ?_) ok
      · exact (within part hpart).keeps SameSender.chains Allowed.sincere_keeps
      · exact fun now line e hsame herror =>
          (ih part hpart now line e hsame herror).mono fun _ => .part hpart
  | @flags group named within ih =>
      intro now line e hsame herror
      have herror := Reading.map_error herror
      rw [Flag.readGroup, readFlags_eq] at herror
      refine Flag.honest_readTokens (List.forall_mem_map.mpr fun flag hflag => ?_)
        (List.forall_mem_map.mpr fun flag hflag => ⟨?_, ?_⟩) hsame herror
      · refine ⟨fun _ => ⟨rfl, rfl⟩, fun _ _ _ => ⟨rfl, rfl⟩, Flag.forall_value_map fun p hp => ?_⟩
        exact (within flag hflag p hp).keeps SameSender.chains Allowed.sincere_keeps
      · exact fun hdenied => .flag hflag hdenied
      · refine Flag.forall_value_map fun p hp now line e hsame herror => ?_
        exact (ih flag hflag p hp now line e hsame herror).mono fun _ => .value hflag hp

end CommandLine
