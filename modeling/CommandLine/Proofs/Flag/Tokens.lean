import CommandLine.Parser.Flags
import Mathlib.Data.List.Forall2
import Mathlib.Data.List.Nodup
import Mathlib.Data.List.Pairwise

/-! # Tokens of a flag group

    What a token gives depends on the names and aliases of the flags, and on which of them take a
    value: two hyphens and a name give the flag with that name, one hyphen and an alias the first
    flag with that alias, and one hyphen and letters the flags that the letters are aliases of.
    Whatever stands in place of the parsers, a token gives the flags at the same places
    (`Flag.resolve_map`). -/

namespace CommandLine

open Text

/-- A list is looked up element by element. -/
theorem mapM_map {α β γ : Type} (find : α → Option β) (f : β → γ) (keys : List α) :
    (keys.mapM find).map (List.map f) = keys.mapM fun key => (find key).map f := by
  induction keys with
  | nil => rfl
  | cons key keys ih =>
      rw [List.mapM_cons, List.mapM_cons, ← ih]
      cases find key with
      | none => rfl
      | some found => cases keys.mapM find <;> rfl

theorem mapM_eq_some_iff {α β : Type} {find : α → Option β} {keys : List α} {found : List β} :
    keys.mapM find = some found ↔
      List.Forall₂ (fun key value => find key = some value) keys found := by
  induction keys generalizing found with
  | nil =>
      rw [List.mapM_nil, List.forall₂_nil_left_iff, Option.pure_def, Option.some.injEq]
      exact eq_comm
  | cons key keys ih =>
      simp only [List.mapM_cons, Option.bind_eq_bind, Option.bind_eq_some_iff, Option.pure_def,
          Option.some.injEq, List.forall₂_cons_left_iff, ih]
      constructor
      · rintro ⟨value, hvalue, rest, hrest, rfl⟩
        exact ⟨value, rest, hvalue, hrest, rfl⟩
      · rintro ⟨value, rest, hvalue, hrest, rfl⟩
        exact ⟨value, hvalue, rest, hrest, rfl⟩

/-! ## The forms of a token -/

theorem toList_hyphen (short : String) : ("-" ++ short).toList = '-' :: short.toList := by
  rw [String.toList_append]
  rfl

theorem toList_hyphens (name : String) : ("--" ++ name).toList = '-' :: '-' :: name.toList := by
  rw [String.toList_append]
  rfl

/-- A token that starts with a hyphen is two hyphens and a name, or one hyphen and no other. -/
theorem hyphen_cases {token : String} (h : token.toList.head? = some '-') :
    (∃ name, token = "--" ++ name) ∨
      ∃ short, token = "-" ++ short ∧ ∀ name, short.toList ≠ '-' :: name := by
  obtain ⟨rest, hrest⟩ := List.head?_eq_some_iff.mp h
  by_cases hplain : ∀ name, rest ≠ '-' :: name
  · refine Or.inr ⟨String.ofList rest, String.toList_inj.mp ?_, ?_⟩
    · rw [hrest, toList_hyphen, String.toList_ofList]
    · rwa [String.toList_ofList]
  · obtain ⟨name, rfl⟩ : ∃ name, rest = '-' :: name := by
      simpa only [not_forall, not_not] using hplain
    refine Or.inl ⟨String.ofList name, String.toList_inj.mp ?_⟩
    rw [hrest, toList_hyphens, String.toList_ofList]

/-- A hyphen is no letter. -/
theorem ne_hyphen_of_letter {text : List Char} (hletter : startsWithLetter text = true)
    (name : List Char) : text ≠ '-' :: name := by
  rintro rfl
  cases hletter

theorem looksLikeFlag_name (name : String) :
    looksLikeFlag ("--" ++ name) = startsWithLetter name.toList := by
  simp only [looksLikeFlag, toList_hyphens]

theorem looksLikeFlag_alias {short : String} (hletter : startsWithLetter short.toList = true) :
    looksLikeFlag ("-" ++ short) = true := by
  rw [looksLikeFlag, toList_hyphen]
  split
  · next name hname => exact absurd (List.cons.inj hname).2 (ne_hyphen_of_letter hletter name)
  · next letters _ hletters => rw [← (List.cons.inj hletters).2, hletter]
  · next hother => exact absurd rfl (hother _)

namespace Flag

variable {P Q : Type} {group : List (Flag P)} {flag : Flag P}

/-- Two hyphens and a name are a token of the flag with that name. -/
theorem resolve_name (group : List (Flag P)) (name : String) :
    resolve group ("--" ++ name) = (withName? group name).map ([·]) := by
  simp only [resolve, toList_hyphens, String.ofList_toList]

/-- One hyphen and no other are a token of the flag with an alias, or of the letters' flags. -/
theorem resolve_short (group : List (Flag P)) {short : String}
    (hplain : ∀ name, short.toList ≠ '-' :: name) :
    resolve group ("-" ++ short) =
      match withAlias? group short with
      | some flag => some [flag]
      | none => short.toList.mapM (withLetter? group) := by
  rw [resolve, toList_hyphen]
  split
  · next name hname => exact absurd (List.cons.inj hname).2 (hplain name)
  · next letters _ hletters =>
      obtain rfl : short.toList = letters := (List.cons.inj hletters).2
      have hname : withAlias? group (String.ofList short.toList) = withAlias? group short := by
        rw [String.ofList_toList]
      cases hfound : withAlias? group short <;> simp only [hname, hfound]
  · next hother => exact absurd rfl (hother _)

/-- A hyphen and an alias are a token of the flag with that alias. -/
theorem resolve_alias {short : String} (hplain : ∀ name, short.toList ≠ '-' :: name)
    (hfound : withAlias? group short = some flag) :
    resolve group ("-" ++ short) = some [flag] := by
  rw [resolve_short group hplain, hfound]

/-! ## Flags that are found -/

/-- No alias starts with a hyphen. -/
def Unhyphened (group : List (Flag P)) : Prop :=
  ∀ flag ∈ group, ∀ short ∈ flag.aliases, ∀ name, short.toList ≠ '-' :: name

theorem name_of_withName {name : String} (h : withName? group name = some flag) :
    flag.name = name :=
  eq_of_beq (List.find?_some (p := fun flag : Flag P => flag.name == name) h)

theorem alias_of_withAlias {short : String} (h : withAlias? group short = some flag) :
    short ∈ flag.aliases :=
  List.contains_iff_mem.mp
    (List.find?_some (p := fun flag : Flag P => flag.aliases.contains short) h)

/-- A look-up finds the only flag that it is for. -/
theorem find_of_only {p : Flag P → Bool} (hflag : flag ∈ group) (hp : p flag = true)
    (honly : ∀ other ∈ group, p other = true → other = flag) : group.find? p = some flag := by
  cases hfound : group.find? p with
  | none => exact absurd hp (List.find?_eq_none.mp hfound flag hflag)
  | some other => rw [honly other (List.mem_of_find?_eq_some hfound) (List.find?_some hfound)]

/-- Where no two flags have the same name, each is found by its own. -/
theorem withName_of_nodup (hnames : (group.map (·.name)).Nodup) (hflag : flag ∈ group) :
    withName? group flag.name = some flag := by
  refine find_of_only hflag (beq_self_eq_true _) fun other hother hname => ?_
  exact List.inj_on_of_nodup_map hnames hother hflag (eq_of_beq hname)

/-- A flag is found by an alias that no other flag has. -/
theorem withAlias_of_own {short : String} (hflag : flag ∈ group) (hshort : short ∈ flag.aliases)
    (hown : ∀ other ∈ group, short ∈ other.aliases → other = flag) :
    withAlias? group short = some flag := by
  refine find_of_only hflag (List.contains_iff_mem.mpr hshort) fun other hother halias => ?_
  exact hown other hother (List.contains_iff_mem.mp halias)

/-- Where aliases are distinct, an alias is of one flag. -/
theorem eq_of_alias (haliases : (group.flatMap (·.aliases)).Nodup) {other : Flag P}
    {short : String} (hflag : flag ∈ group) (hother : other ∈ group)
    (hshort : short ∈ flag.aliases) (hshort' : short ∈ other.aliases) : other = flag := by
  by_contra hne
  have hsymm : Std.Symm (Function.onFun List.Disjoint fun flag : Flag P => flag.aliases) :=
    ⟨fun _ _ h _ hmem hmem' => h hmem' hmem⟩
  exact (List.nodup_flatMap.mp haliases).2.forall hother hflag hne hshort' hshort

/-! ## What a token gives -/

/-- Only a token that starts with a hyphen gives flags. -/
theorem head_of_resolve {flags : List (Flag P)} (h : resolve group token = some flags) :
    token.toList.head? = some '-' := by
  rw [resolve] at h
  split at h
  · next hname => rw [hname, List.head?_cons]
  · next hletters => rw [hletters, List.head?_cons]
  · cases h

/-- A token gives one flag, or only flags without values. -/
theorem single_or_valueless {flags : List (Flag P)} (h : resolve group token = some flags) :
    (∃ flag, flags = [flag]) ∨ ∀ flag ∈ flags, flag.value = none := by
  have hletters : ∀ {letters : List Char} {flags : List (Flag P)},
      letters.mapM (withLetter? group) = some flags → ∀ flag ∈ flags, flag.value = none := by
    intro letters
    induction letters with
    | nil =>
        rintro flags ⟨⟩
        simp
    | cons letter letters ih =>
        intro flags h
        simp only [List.mapM_cons, Option.bind_eq_bind, Option.bind_eq_some_iff, Option.pure_def,
          Option.some.injEq] at h
        obtain ⟨flag, hflag, rest, hrest, rfl⟩ := h
        refine List.forall_mem_cons.mpr ⟨?_, ih hrest⟩
        exact Option.isNone_iff_eq_none.mp (Option.filter_eq_some_iff.mp hflag).2
  rw [resolve] at h
  split at h
  · obtain ⟨flag, -, rfl⟩ := Option.map_eq_some_iff.mp h
    exact Or.inl ⟨flag, rfl⟩
  · split at h
    · cases h
      exact Or.inl ⟨_, rfl⟩
    · exact Or.inr (hletters h)
  · cases h

/-- The flags that a token names: one flag by its name, or the first flag with an alias, or else one
    flag without a value for each letter. -/
inductive Names (group : List (Flag P)) : String → List (Flag P) → Prop where
  | name {flag : Flag P} (known : flag ∈ group) : Names group ("--" ++ flag.name) [flag]
  | short {short : String} {flag : Flag P} (plain : ∀ name, short.toList ≠ '-' :: name)
      (first : withAlias? group short = some flag) : Names group ("-" ++ short) [flag]
  | letters {short : String} {flags : List (Flag P)} (plain : ∀ name, short.toList ≠ '-' :: name)
      (unknown : withAlias? group short = none)
      (each : List.Forall₂ (fun letter flag =>
        withAlias? group (String.singleton letter) = some flag ∧ flag.value = none)
        short.toList flags) :
      Names group ("-" ++ short) flags

/-- Where no two flags have the same name, a token gives the flags that it names. -/
theorem resolve_eq_some_iff (hnames : (group.map (·.name)).Nodup) {flags : List (Flag P)} :
    resolve group token = some flags ↔ Names group token flags := by
  constructor
  · intro hresolve
    rcases hyphen_cases (head_of_resolve hresolve) with ⟨name, rfl⟩ | ⟨short, rfl, hplain⟩
    · rw [resolve_name, Option.map_eq_some_iff] at hresolve
      obtain ⟨flag, hfound, rfl⟩ := hresolve
      exact name_of_withName hfound ▸ .name (List.mem_of_find?_eq_some hfound)
    · rw [resolve_short group hplain] at hresolve
      cases hfound : withAlias? group short with
      | some flag =>
          rw [hfound] at hresolve
          cases hresolve
          exact .short hplain hfound
      | none =>
          rw [hfound] at hresolve
          refine .letters hplain hfound ((mapM_eq_some_iff.mp hresolve).imp fun letter flag h => ?_)
          obtain ⟨hletter, hvalue⟩ := Option.filter_eq_some_iff.mp h
          exact ⟨hletter, Option.isNone_iff_eq_none.mp hvalue⟩
  · rintro (⟨known⟩ | ⟨plain, first⟩ | ⟨plain, unknown, each⟩)
    · rw [resolve_name, withName_of_nodup hnames known]
      rfl
    · exact resolve_alias plain first
    · rw [resolve_short group plain, unknown]
      refine mapM_eq_some_iff.mpr (each.imp fun letter flag h => ?_)
      exact Option.filter_eq_some_iff.mpr ⟨h.1, Option.isNone_iff_eq_none.mpr h.2⟩

/-! ## Groups whose parsers are replaced -/

theorem withAlias_map (f : P → Q) (group : List (Flag P)) (short : String) :
    withAlias? (group.map (Flag.map f)) short = (withAlias? group short).map (Flag.map f) :=
  List.find?_map

theorem withLetter_map (f : P → Q) (group : List (Flag P)) (letter : Char) :
    withLetter? (group.map (Flag.map f)) letter = (withLetter? group letter).map (Flag.map f) := by
  rw [withLetter?]
  rw [withAlias_map, Option.filter_map]
  congr 2
  funext flag
  simp [Flag.map]

theorem letters_map (f : P → Q) (group : List (Flag P)) (letters : List Char) :
    letters.mapM (withLetter? (group.map (Flag.map f))) =
      (letters.mapM (withLetter? group)).map (List.map (Flag.map f)) := by
  rw [mapM_map]
  exact congrArg letters.mapM (funext (withLetter_map f group))

/-- The names and aliases of flags decide which of them a token gives. -/
theorem resolve_map (f : P → Q) (group : List (Flag P)) (token : String) :
    resolve (group.map (Flag.map f)) token = (resolve group token).map (List.map (Flag.map f)) := by
  unfold resolve
  split
  · have hname : withName? (group.map (Flag.map f)) (String.ofList ‹_›) =
        (withName? group (String.ofList ‹_›)).map (Flag.map f) := List.find?_map
    rw [hname, Option.map_map, Option.map_map]
    rfl
  · rw [withAlias_map, letters_map]
    cases withAlias? group (String.ofList _) <;> rfl
  · rfl

theorem value_map {p : P} (takes : flag.value = some p) (f : P → Q) :
    (flag.map f).value = some (f p) := by
  rw [Flag.map, takes, Option.map_some]

theorem value_map_none (hnone : flag.value = none) (f : P → Q) : (flag.map f).value = none := by
  rw [Flag.map, hnone, Option.map_none]

/-- The parser of a flag does not decide whether the flag may be given. -/
theorem objection_map (f : P → Q) (flag : Flag P) (ctx : Context) (token : String) :
    (flag.map f).objection? ctx token = flag.objection? ctx token :=
  rfl

/-! ## Giving one flag -/

theorem read_refused {flag : Flag Reader} {ctx : Context} {e : ArgumentError}
    (objects : flag.objection? ctx token = some e) (line : Line) :
    flag.read token ctx line = ⟨.error e, ctx, line⟩ := by
  simp only [Flag.read, objects]

theorem read_valueless {flag : Flag Reader} {ctx : Context} (hnone : flag.value = none)
    (hmay : flag.objection? ctx token = none) (line : Line) :
    flag.read token ctx line = ⟨.ok (), flag.given ctx, line⟩ := by
  simp only [Flag.read, hmay, hnone]

/-- A flag that takes a value is refused where nothing is left. -/
theorem read_missing {flag : Flag Reader} {reader : Reader} {ctx : Context} {line : Line}
    (takes : flag.value = some reader) (hmay : flag.objection? ctx token = none)
    (hblank : line.isBlank = true) :
    flag.read token ctx line =
      ⟨.error (flag.refusal token .missingFlagValue), ctx, line⟩ := by
  simp only [Flag.read, hmay, takes, hblank, if_true]

/-- A flag that takes a value is refused where its reader reads none. -/
theorem read_rejected {flag : Flag Reader} {reader : Reader} {ctx : Context} {line : Line}
    {e : ArgumentError} (takes : flag.value = some reader)
    (hmay : flag.objection? ctx token = none) (hmore : line.isBlank = false)
    (rejects : (reader ctx line).result = .error e) :
    flag.read token ctx line = ⟨.error (e.withFact "flag" flag.name),
      (reader ctx line).context, (reader ctx line).line⟩ := by
  simp only [Flag.read, hmay, takes, hmore, Bool.false_eq_true, if_false, Reading.withFact,
    Reading.andThen, Except.mapError, rejects]

end Flag

end CommandLine
