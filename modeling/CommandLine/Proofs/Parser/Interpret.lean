import CommandLine.Parser.Suggest
import CommandLine.Proofs.Line.Span

/-! # Parsers that interpret one token

    Most standard parsers read one token, and what they make of it is a function of the token
    (`Parser.interpret?`): they leave the context alone and refuse a token for what it is
    (`Parser.reason_of_interpret`). What they suggest does not depend on the context either, and
    they accept all of it (`Parser.suggest_accepted`). -/

namespace CommandLine

open Text

/-- The reasons for which a token is refused whatever stands around it. -/
inductive Reason.OfToken : Reason → Prop where
  | invalidFormat : OfToken .invalidFormat
  | outOfRange : OfToken .outOfRange
  | unknownValue : OfToken .unknownValue

/-! ## Tokens of a line -/

/-- The next token as it is written, without the white space around it. -/
def Line.tokenText (line : Line) : String :=
  String.ofList (trim (Token.cut line.rest).raw)

theorem Text.trim_append_blank {blank text : List Char}
    (hblank : ∀ c ∈ blank, isBlank c = true) : trim (blank ++ text) = trim text := by
  rw [trim, trim, trimStart, trimStart, List.dropWhile_append_of_pos hblank]

theorem Line.readSince_skipToken (line : Line) :
    line.skipToken.readSince line = line.tokenText := by
  have hblank : ∀ c ∈ (Token.cut line.rest).blank, Text.isBlank c = true := fun c hc =>
    List.mem_takeWhile_imp hc
  rw [line.reads_skipToken.readSince, Text.trim_append_blank hblank]
  rfl

namespace Parser

/-! ## Refused tokens -/

variable {token : String} {e : ArgumentError}

theorem reason_interpretInteger {min max : Int} (h : interpretInteger min max token = .error e) :
    e.reason.OfToken := by
  rw [interpretInteger] at h
  split at h
  · cases h
    exact .invalidFormat
  · split at h
    · cases h
    · cases h
      exact .outOfRange

theorem reason_interpretReal {min max : Float} (h : interpretReal min max token = .error e) :
    e.reason.OfToken := by
  rw [interpretReal] at h
  split at h
  · cases h
    exact .invalidFormat
  · split at h
    · cases h
      exact .outOfRange
    · cases h

theorem reason_interpretTruth {liberal : Bool} (h : interpretTruth liberal token = .error e) :
    e.reason.OfToken := by
  simp only [interpretTruth] at h
  split at h
  · cases h
  · split at h
    · cases h
    · cases h
      exact .invalidFormat

theorem reason_interpretUuid (h : interpretUuid token = .error e) : e.reason.OfToken := by
  rw [interpretUuid] at h
  split at h
  · cases h
  · cases h
    exact .invalidFormat

theorem reason_interpretVariant {variants : List Variant}
    (h : interpretVariant variants token = .error e) : e.reason.OfToken := by
  rw [interpretVariant] at h
  split at h
  · cases h
  · cases h
    exact .unknownValue

/-! ## Accepted suggestions -/

/-- An integer of 64 bits between the bounds is accepted as it is written. -/
theorem interpretInteger_showInt {min max n : Int} (hfits : Number.fitsInt64 n = true)
    (hmin : min ≤ n) (hmax : n ≤ max) :
    interpretInteger min max (Number.showInt n) = .ok (.plain (.integer n)) := by
  simp only [interpretInteger, Number.readInt_showInt hfits]
  rw [if_pos ⟨hmin, hmax⟩]

theorem fitsInt64_of_readInt {text : String} {n : Int} (h : Number.readInt text = some n) :
    Number.fitsInt64 n = true :=
  (Option.filter_eq_some_iff.mp h).2

/-- Suggested integers fit into 64 bits and are between the bounds. -/
theorem mem_nextIntegers {min max n : Int} {typed : String} (h : n ∈ nextIntegers min max typed) :
    Number.fitsInt64 n = true ∧ min ≤ n ∧ n ≤ max := by
  have hdigit : ∀ d ∈ ([0, 1, 2, 3, 4, 5, 6, 7, 8, 9] : List Int),
      Number.fitsInt64 d = true ∧ Number.fitsInt64 (-d) = true := by decide
  simp only [nextIntegers] at h
  split at h
  · obtain ⟨hmem, hwithin⟩ := List.mem_filter.mp h
    simp only [Bool.and_eq_true, decide_eq_true_eq] at hwithin
    exact ⟨(hdigit n hmem).1, hwithin⟩
  · split at h
    · obtain ⟨hmem, hwithin⟩ := List.mem_filter.mp h
      obtain ⟨d, hd, rfl⟩ := List.mem_map.mp hmem
      simp only [Bool.and_eq_true, decide_eq_true_eq] at hwithin
      exact ⟨(hdigit d hd).2, hwithin.1⟩
    · split at h
      · cases h
      · next read hread =>
          rcases List.mem_append.mp h with hsame | hlonger
          · obtain ⟨hmem, hwithin⟩ := List.mem_filter.mp hsame
            simp only [Bool.and_eq_true, decide_eq_true_eq] at hwithin
            rw [List.mem_singleton.mp hmem] at hwithin ⊢
            exact ⟨fitsInt64_of_readInt hread, hwithin⟩
          · obtain ⟨-, hwithin⟩ := List.mem_filter.mp hlonger
            simp only [Bool.and_eq_true, decide_eq_true_eq] at hwithin
            exact ⟨hwithin.1.1.2, hwithin.1.2⟩

theorem interpretTruth_word {liberal : Bool} {word : String}
    (h : word ∈ trueWords liberal ++ falseWords liberal) :
    ∃ value, interpretTruth liberal word = .ok value := by
  have hwords : ∀ word ∈ trueWords liberal ++ falseWords liberal,
      Text.lowercase word = word := by
    cases liberal <;> decide +kernel
  simp only [interpretTruth, hwords word h]
  rcases List.mem_append.mp h with htrue | hfalse
  · rw [if_pos (List.contains_iff_mem.mpr htrue)]
    exact ⟨_, rfl⟩
  · split
    · exact ⟨_, rfl⟩
    · rw [if_pos (List.contains_iff_mem.mpr hfalse)]
      exact ⟨_, rfl⟩

theorem interpretVariant_name {variants : List Variant} {v : Variant} (h : v ∈ variants) :
    ∃ value, interpretVariant variants v.name = .ok value := by
  have hsame : sameUpToCase v.name v.name = true := beq_self_eq_true _
  obtain ⟨found, hfound⟩ := Option.isSome_iff_exists.mp
    (List.find?_isSome.mpr ⟨v, h, hsame⟩ :
      (variants.find? fun other => sameUpToCase other.name v.name).isSome = true)
  have hfind : findVariant variants v.name = some found := hfound
  rw [interpretVariant, hfind]
  exact ⟨_, rfl⟩

/-! ## Parsers of one token -/

/-- What a parser makes of a token, if it reads one token and nothing else decides. -/
def interpret? : Parser → Option (String → Except ArgumentError Value)
  | .text .word => some fun token => .ok (.plain (.text token))
  | .integer min max => some (interpretInteger min max)
  | .real min max => some (interpretReal min max)
  | .truth liberal => some (interpretTruth liberal)
  | .uuid => some interpretUuid
  | .enumeration variants => some (interpretVariant variants)
  | .map f inner => inner.interpret?.map fun interpret token => (interpret token).map f
  | _ => none

variable {p : Parser} {interpret : String → Except ArgumentError Value}

/-- A parser of one token reads the token and interprets it. -/
theorem read_of_interpret (h : p.interpret? = some interpret) :
    ∃ name, p.read = Reader.ofToken name interpret := by
  fun_induction interpret? p generalizing interpret with
  | case1 =>
      cases h
      refine ⟨textName .word, ?_⟩
      funext ctx line
      rw [Parser.read, readText, Reader.ofToken]
  | case2 min max =>
      cases h
      exact ⟨_, rfl⟩
  | case3 min max =>
      cases h
      exact ⟨_, rfl⟩
  | case4 liberal =>
      cases h
      exact ⟨_, rfl⟩
  | case5 =>
      cases h
      exact ⟨_, rfl⟩
  | case6 variants =>
      cases h
      exact ⟨_, rfl⟩
  | case7 f inner ih =>
      obtain ⟨inside, hinside, rfl⟩ := Option.map_eq_some_iff.mp h
      obtain ⟨name, hname⟩ := ih hinside
      refine ⟨name, ?_⟩
      funext ctx line
      show Reading.map f (inner.read ctx line) = _
      rw [hname, Reader.ofToken, Reader.ofToken]
      split <;> rfl
  | case8 => cases h

/-- Where a token is left, a parser of one token reads it, and leaves the context alone. -/
theorem read_token (h : p.interpret? = some interpret) (ctx : Context) {line : Line}
    (hleft : line.isBlank = false) :
    p.read ctx line = ⟨interpret line.peekToken, ctx, line.skipToken⟩ := by
  obtain ⟨name, hname⟩ := read_of_interpret h
  rw [hname, Reader.ofToken, hleft]
  rfl

/-- A parser of one token refuses it for what it is. -/
theorem reason_of_interpret (h : p.interpret? = some interpret)
    (hrefuses : interpret token = .error e) : e.reason.OfToken := by
  fun_induction interpret? p generalizing interpret with
  | case1 =>
      cases h
      cases hrefuses
  | case2 min max =>
      cases h
      exact reason_interpretInteger hrefuses
  | case3 min max =>
      cases h
      exact reason_interpretReal hrefuses
  | case4 liberal =>
      cases h
      exact reason_interpretTruth hrefuses
  | case5 =>
      cases h
      exact reason_interpretUuid hrefuses
  | case6 variants =>
      cases h
      exact reason_interpretVariant hrefuses
  | case7 f inner ih =>
      obtain ⟨inside, hinside, rfl⟩ := Option.map_eq_some_iff.mp h
      cases hresult : inside token with
      | ok value =>
          simp only [hresult] at hrefuses
          cases hrefuses
      | error e' =>
          simp only [hresult] at hrefuses
          cases hrefuses
          exact ih hinside hresult
  | case8 => cases h

/-- What a parser of one token suggests is the same in every context, and the parser accepts it. -/
theorem suggest_accepted (h : p.interpret? = some interpret) (line : Line) :
    ∃ list, (∀ ctx, p.suggest ctx line = pure list) ∧
      ∀ s ∈ list, ∃ value, interpret s.value = .ok value := by
  fun_induction interpret? p generalizing interpret with
  | case1 => exact ⟨[], fun _ => rfl, by simp⟩
  | case2 min max =>
      cases h
      refine ⟨suggestIntegers min max line.peekToken, fun _ => rfl, ?_⟩
      refine List.forall_mem_map.mpr fun n hn => ?_
      obtain ⟨hfits, hmin, hmax⟩ := mem_nextIntegers hn
      exact ⟨_, interpretInteger_showInt hfits hmin hmax⟩
  | case3 min max => exact ⟨[], fun _ => rfl, by simp⟩
  | case4 liberal =>
      cases h
      refine ⟨suggestTruth liberal, fun _ => rfl, ?_⟩
      exact List.forall_mem_map.mpr fun word hword => interpretTruth_word hword
  | case5 => exact ⟨[], fun _ => rfl, by simp⟩
  | case6 variants =>
      cases h
      refine ⟨suggestVariants variants, fun _ => rfl, ?_⟩
      exact List.forall_mem_map.mpr fun v hv => interpretVariant_name hv
  | case7 f inner ih =>
      obtain ⟨inside, hinside, rfl⟩ := Option.map_eq_some_iff.mp h
      obtain ⟨list, hsuggest, haccepts⟩ := ih hinside
      refine ⟨list, hsuggest, fun s hs => ?_⟩
      obtain ⟨value, hvalue⟩ := haccepts s hs
      exact ⟨f value, congrArg (Except.map f) hvalue⟩
  | case8 => cases h

end Parser

end CommandLine
