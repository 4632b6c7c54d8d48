import CommandLine.Parser.Read

/-! # What parsers leave as it was

    Most parsers leave the context alone; a flag group marks its flags and stores their values,
    and a parser of the surrounding program may do anything. `Parser.Within` says of which parts a
    parser may be made, and `Parser.Within.keeps` that a parser changes a context only in the ways
    in which those parts do. -/

namespace CommandLine

/-- What may occur in a parser. -/
structure Allowed where
  host : HostParser → Prop := fun _ => True
  refine : (Context → Value → Except ArgumentError Value) → Prop := fun _ => True
  build : (Context → Except ArgumentError Value) → Prop := fun _ => True
  /-- The keys under which values are stored. -/
  key : String → Prop := fun _ => True

/-- A parser that is made of what is allowed. -/
inductive Parser.Within (allowed : Allowed) : Parser → Prop where
  | text (mode : TextMode) : Within allowed (.text mode)
  | integer (min max : Int) : Within allowed (.integer min max)
  | real (min max : Float) : Within allowed (.real min max)
  | truth (liberal : Bool) : Within allowed (.truth liberal)
  | uuid : Within allowed .uuid
  | enumeration (variants : List Variant) : Within allowed (.enumeration variants)
  | host {h : HostParser} (ok : allowed.host h) : Within allowed (.host h)
  | cached {slot lifetime : Nat} {inner : Parser} (within : Within allowed inner) :
      Within allowed (.cached slot lifetime inner)
  | map {f : Value → Value} {inner : Parser} (within : Within allowed inner) :
      Within allowed (.map f inner)
  | flatMap {f : Context → Value → Except ArgumentError Value} {inner : Parser}
      (ok : allowed.refine f) (within : Within allowed inner) : Within allowed (.flatMap f inner)
  | firstOf {alternatives : List Parser} (within : ∀ p ∈ alternatives, Within allowed p) :
      Within allowed (.firstOf alternatives)
  | either {primary fallback : Parser} (first : Within allowed primary)
      (second : Within allowed fallback) : Within allowed (.either primary fallback)
  | aggregate {parts : List (Part Parser)} {build : Context → Except ArgumentError Value}
      (ok : allowed.build build) (within : ∀ part ∈ parts, Within allowed part.parser) :
      Within allowed (.aggregate parts build)
  | flags {group : List (Flag Parser)} (named : ∀ flag ∈ group, allowed.key flag.name)
      (within : ∀ flag ∈ group, ∀ p, flag.value = some p → Within allowed p) :
      Within allowed (.flags group)

/-- A reader that changes contexts only in the ways of a relation. -/
def Reader.Keeps (K : Context → Context → Prop) (reader : Reader) : Prop :=
  ∀ ctx line, K ctx (reader ctx line).context

/-- A relation that no change and changes one after the other are in. -/
structure Chains (K : Context → Context → Prop) : Prop where
  refl : ∀ ctx, K ctx ctx
  trans : ∀ {a b c}, K a b → K b c → K a c

/-! ## How attempts come out -/

namespace Reading

variable {α β : Type} {r : Reading α} {b : β} {e : ArgumentError}

/-- An attempt that goes on and succeeds has succeeded at its beginning. -/
theorem andThen_ok {next : α → Context → Line → Reading β} (h : (r.andThen next).result = .ok b) :
    ∃ a, r.result = .ok a ∧ r.andThen next = next a r.context r.line := by
  rw [andThen] at h ⊢
  cases hr : r.result with
  | ok a => exact ⟨a, rfl, rfl⟩
  | error e =>
      rw [hr] at h
      cases h

theorem map_ok {f : α → β} (h : (r.map f).result = .ok b) : ∃ a, r.result = .ok a := by
  cases hr : r.result with
  | ok a => exact ⟨a, rfl⟩
  | error e =>
      rw [map, hr] at h
      cases h

theorem withFact_ok {name value : String} {a : α} (h : (r.withFact name value).result = .ok a) :
    r.result = .ok a := by
  rw [withFact] at h
  cases hr : r.result with
  | ok a' => rwa [hr] at h
  | error e =>
      rw [hr] at h
      cases h

/-- An attempt that goes on fails at its beginning or behind it. -/
theorem andThen_error {next : α → Context → Line → Reading β}
    (h : (r.andThen next).result = .error e) :
    r.result = .error e ∨
      ∃ value, r.result = .ok value ∧ (next value r.context r.line).result = .error e := by
  rw [andThen] at h
  split at h
  · next value hvalue => exact .inr ⟨value, hvalue, h⟩
  · next e' he =>
      cases h
      exact .inl he

theorem map_error {f : α → β} (h : (r.map f).result = .error e) : r.result = .error e := by
  cases hresult : r.result with
  | ok value =>
      simp only [map, hresult] at h
      cases h
  | error e' =>
      simp only [map, hresult] at h
      cases h
      rfl

theorem withFact_error {name value : String} (h : (r.withFact name value).result = .error e) :
    ∃ e', r.result = .error e' ∧ e = e'.withFact name value := by
  cases hresult : r.result with
  | ok value =>
      simp only [withFact, hresult] at h
      cases h
  | error e' =>
      simp only [withFact, hresult] at h
      cases h
      exact ⟨e', rfl, rfl⟩

end Reading

variable {K : Context → Context → Prop}

/-! ## Readers -/

theorem Reading.keeps_andThen {α β : Type} (hK : Chains K) {ctx : Context} {r : Reading α}
    {next : α → Context → Line → Reading β} (hr : K ctx r.context)
    (hnext : ∀ value ctx line, K ctx (next value ctx line).context) :
    K ctx (r.andThen next).context := by
  rw [andThen]
  split
  · exact hK.trans hr (hnext _ _ _)
  · exact hr

theorem Reader.keeps_ofToken (hK : Chains K) (parser : String)
    (interpret : String → Except ArgumentError Value) :
    (Reader.ofToken parser interpret).Keeps K := by
  intro ctx line
  rw [Reader.ofToken]
  split <;> exact hK.refl ctx

theorem Parser.keeps_readText (hK : Chains K) (mode : TextMode) :
    Reader.Keeps K (Parser.readText mode) := by
  intro ctx line
  unfold Parser.readText
  split
  · exact hK.refl ctx
  · cases mode with
    | word => exact hK.refl ctx
    | rest => exact hK.refl ctx
    | untilFlag =>
        simp only
        split <;> exact hK.refl ctx

theorem Alternatives.keeps_readAfter (hK : Chains K) (name : String) {readers : List Reader}
    (hreaders : ∀ reader ∈ readers, reader.Keeps K) (failures : List ArgumentError) :
    Reader.Keeps K (readAfter name failures readers) := by
  induction readers generalizing failures with
  | nil => exact fun ctx _ => hK.refl ctx
  | cons reader rest ih =>
      obtain ⟨hreader, hrest⟩ := List.forall_mem_cons.mp hreaders
      intro ctx line
      simp only [readAfter]
      split
      · exact hreader ctx line
      · exact ih hrest _ ctx line

/-- An aggregate stores the values of its parts in a context of its own. -/
theorem Part.keeps_readAll (hK : Chains K) (parts : List (Part Reader))
    (build : Context → Except ArgumentError Value) : Reader.Keeps K (readAll parts build) := by
  intro ctx line
  simp only [readAll]
  split <;> exact hK.refl ctx

/-! ## Flag groups -/

namespace Flag

variable {P : Type}

theorem mem_of_withName {group : List (Flag P)} {name : String} {flag : Flag P}
    (h : withName? group name = some flag) : flag ∈ group :=
  List.mem_of_find?_eq_some h

theorem mem_of_withAlias {group : List (Flag P)} {short : String} {flag : Flag P}
    (h : withAlias? group short = some flag) : flag ∈ group :=
  List.mem_of_find?_eq_some h

theorem mem_of_withLetter {group : List (Flag P)} {letter : Char} {flag : Flag P}
    (h : withLetter? group letter = some flag) : flag ∈ group :=
  mem_of_withAlias (Option.filter_eq_some_iff.mp h).1

theorem mem_of_letters {group flags : List (Flag P)} {letters : List Char}
    (h : letters.mapM (withLetter? group) = some flags) : ∀ flag ∈ flags, flag ∈ group := by
  induction letters generalizing flags with
  | nil =>
      cases h
      simp
  | cons letter letters ih =>
      simp only [List.mapM_cons, Option.bind_eq_bind, Option.bind_eq_some_iff, Option.pure_def,
        Option.some.injEq] at h
      obtain ⟨flag, hflag, rest, hrest, rfl⟩ := h
      exact List.forall_mem_cons.mpr ⟨mem_of_withLetter hflag, ih hrest⟩

/-- A token gives flags of the group only. -/
theorem mem_of_resolve {group flags : List (Flag P)} {token : String}
    (h : resolve group token = some flags) : ∀ flag ∈ flags, flag ∈ group := by
  rw [resolve] at h
  split at h
  · obtain ⟨flag, hflag, rfl⟩ := Option.map_eq_some_iff.mp h
    simpa using mem_of_withName hflag
  · next letters _ =>
      split at h
      · next flag hflag =>
          cases h
          simpa using mem_of_withAlias hflag
      · exact mem_of_letters h
  · cases h

/-- What is known of the flags of a group is known of those that a token gives. -/
theorem forall_of_resolve {Q : Flag P → Prop} {group flags : List (Flag P)} {token : String}
    (h : ∀ flag ∈ group, Q flag)
    (hflags : (if looksLikeFlag token then resolve group token else none) = some flags) :
    ∀ flag ∈ flags, Q flag := by
  split at hflags
  · exact fun flag hflag => h flag (mem_of_resolve hflags flag hflag)
  · cases hflags

/-- What is known of the reader of a flag's parser is known of the reader of the flag. -/
theorem forall_value_map {Q : Reader → Prop} {flag : Flag Parser}
    (h : ∀ p, flag.value = some p → Q p.read) :
    ∀ reader, (flag.map Parser.read).value = some reader → Q reader := by
  intro reader hreader
  obtain ⟨p, hp, rfl⟩ := Option.map_eq_some_iff.mp hreader
  exact h p hp

/-- A flag that changes contexts only in the ways of a relation. -/
structure Keeps (K : Context → Context → Prop) (flag : Flag Reader) : Prop where
  given : ∀ ctx, K ctx (flag.given ctx)
  givenValue : ∀ ctx value text, K ctx (flag.givenValue value text ctx)
  value : ∀ reader, flag.value = some reader → reader.Keeps K

theorem Keeps.read (hK : Chains K) {flag : Flag Reader} (h : flag.Keeps K) (token : String)
    (ctx : Context) (line : Line) : K ctx (flag.read token ctx line).context := by
  rw [Flag.read]
  split
  · exact hK.refl ctx
  · exact h.given ctx
  · next reader _ hvalue =>
      split
      · exact hK.refl ctx
      · refine Reading.keeps_andThen hK (h.value reader hvalue ctx line) ?_
        intro value ctx after
        exact h.givenValue ctx value _

theorem keeps_readEach (hK : Chains K) {flags : List (Flag Reader)}
    (h : ∀ flag ∈ flags, flag.Keeps K) (token : String) (ctx : Context) (line : Line) :
    K ctx (readEach token flags ctx line).context := by
  induction flags generalizing ctx line with
  | nil => exact hK.refl ctx
  | cons flag flags ih =>
      obtain ⟨hflag, hflags⟩ := List.forall_mem_cons.mp h
      exact Reading.keeps_andThen hK (hflag.read hK token ctx line) fun _ => ih hflags

theorem keeps_readTokens (hK : Chains K) {group : List (Flag Reader)}
    (h : ∀ flag ∈ group, flag.Keeps K) (fuel : Nat) (ctx : Context) (line : Line) :
    K ctx (readTokens group fuel ctx line).context := by
  induction fuel generalizing ctx line with
  | zero =>
      rw [readTokens]
      split <;> exact hK.refl ctx
  | succ fuel ih =>
      rw [readTokens]
      split
      · exact hK.refl ctx
      · simp only
        split
        · exact hK.refl ctx
        · next flags hflags =>
            -- only flags of the group are read, so the relation is known of each
            exact Reading.keeps_andThen hK (keeps_readEach hK (forall_of_resolve h hflags) _ ctx _)
              fun _ => ih

end Flag

/-! ## Parsers -/

/-- The parts that are allowed change contexts only in the ways of a relation. -/
structure Allowed.Keeps (K : Context → Context → Prop) (allowed : Allowed) : Prop where
  host : ∀ h, allowed.host h → h.read.Keeps K
  store : ∀ name, allowed.key name → ∀ ctx value, K ctx (ctx.store name value)
  consumed : ∀ name, allowed.key name → ∀ ctx text, K ctx (ctx.recordConsumed name text)
  mark : ∀ name, allowed.key name → ∀ ctx, K ctx (ctx.markFlag name)

/-- A parser changes contexts only in the ways of its parts. -/
theorem Parser.Within.keeps {allowed : Allowed} (hK : Chains K) (hallowed : allowed.Keeps K)
    {p : Parser} (h : p.Within allowed) : Reader.Keeps K p.read := by
  induction h with
  | text mode => exact keeps_readText hK mode
  | integer | real | truth | uuid | enumeration => exact Reader.keeps_ofToken hK _ _
  | host ok => exact hallowed.host _ ok
  | cached _ ih => exact ih
  | map _ ih => exact ih
  | flatMap _ _ ih =>
      intro ctx line
      exact Reading.keeps_andThen hK (ih ctx line) fun _ ctx _ => hK.refl ctx
  | firstOf _ ih =>
      intro ctx line
      simp only [Parser.read]
      refine Alternatives.keeps_readAfter hK _ ?_ [] ctx line
      rw [readers_eq]
      exact List.forall_mem_map.mpr ih
  | either _ _ ihFirst ihSecond =>
      intro ctx line
      simp only [Parser.read]
      refine Alternatives.keeps_readAfter hK _ ?_ [] ctx line
      rw [List.forall_mem_cons]
      exact ⟨ihFirst, List.forall_mem_singleton.mpr ihSecond⟩
  | aggregate _ _ _ => exact Part.keeps_readAll hK _ _
  | @flags group named _ ih =>
      -- a given flag stores its value, records the text and is marked, under its own name
      intro ctx line
      simp only [Parser.read]
      refine Flag.keeps_readTokens hK ?_ _ ctx line
      rw [readFlags_eq]
      refine List.forall_mem_map.mpr fun flag hflag => ⟨?_, ?_, ?_⟩
      · intro ctx
        exact hK.trans (hallowed.store _ (named flag hflag) ctx _)
          (hallowed.mark _ (named flag hflag) _)
      · intro ctx value text
        exact hK.trans (hK.trans (hallowed.store _ (named flag hflag) ctx _)
          (hallowed.consumed _ (named flag hflag) _ _)) (hallowed.mark _ (named flag hflag) _)
      · exact Flag.forall_value_map (ih flag hflag)

/-! ## Parsers without parts of the surrounding program -/

/-- No parser of the surrounding program. -/
def Allowed.closed : Allowed where
  host := fun _ => False

/-- No parser of the surrounding program, and no flags. -/
def Allowed.library : Allowed where
  host := fun _ => False
  key := fun _ => False

variable {p : Parser}

/-- Where all functions are allowed, so are the parsers that have nothing else from outside. -/
theorem Parser.Within.of_library {allowed : Allowed} (hrefine : ∀ f, allowed.refine f)
    (hbuild : ∀ f, allowed.build f) (h : p.Within .library) : p.Within allowed := by
  induction h with
  | text mode => exact .text mode
  | integer min max => exact .integer min max
  | real min max => exact .real min max
  | truth liberal => exact .truth liberal
  | uuid => exact .uuid
  | enumeration variants => exact .enumeration variants
  | host ok => exact ok.elim
  | cached _ ih => exact .cached ih
  | map _ ih => exact .map ih
  | flatMap _ _ ih => exact .flatMap (hrefine _) ih
  | firstOf _ ih => exact .firstOf ih
  | either _ _ ihFirst ihSecond => exact .either ihFirst ihSecond
  | aggregate _ _ ih => exact .aggregate (hbuild _) ih
  | flags named _ _ =>
      exact .flags (fun flag hflag => (named flag hflag).elim)
        (fun flag hflag => (named flag hflag).elim)

/-- Such a parser leaves the context as it was. -/
theorem Parser.Within.context_eq (h : p.Within .library) (ctx : Context) (line : Line) :
    (p.read ctx line).context = ctx := by
  have hsame : Chains fun a b : Context => b = a := ⟨fun _ => rfl, fun hab hbc => hbc.trans hab⟩
  have hnothing : Allowed.library.Keeps fun a b => b = a :=
    ⟨fun _ hhost => hhost.elim, fun _ hkey => hkey.elim, fun _ hkey => hkey.elim,
      fun _ hkey => hkey.elim⟩
  exact h.keeps hsame hnothing ctx line

end CommandLine
