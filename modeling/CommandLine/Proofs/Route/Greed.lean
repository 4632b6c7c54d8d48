import CommandLine.Proofs.Parser.Arrival
import CommandLine.Proofs.Route.End
import CommandLine.Proofs.Tree.Ordering

/-! # Parsers that are not greedy

    A parser that is not greedy reads no more than a number of tokens which is known from its parts
    (`Parser.tokenBound`): those that read one token read one, an aggregate reads as many as its
    parts together, alternatives as many as one of them. So the check of a command, which only looks
    at whether an argument is greedy, keeps the rest of the line for what comes behind an argument
    (`Parser.Within.greedy_sound`).

    The exception is a choice between two parsers. It reads what one of them reads and is never
    greedy, whatever they are (`Parser.Hides`). Behind such an argument a command may have another
    one that is never reached (`Tree.greed_hidden`). -/

namespace CommandLine

open Text

/-! ## Counting tokens -/

namespace Line

variable {a b c : Line} {m n : Nat}

/-- At most some number of the tokens of `a` have been read at `b`. -/
def TakesAtMost (n : Nat) (a b : Line) : Prop :=
  ∃ count ≤ n, b.tokens = a.tokens.drop count

theorem TakesAtMost.nothing (n : Nat) (a : Line) : a.TakesAtMost n a :=
  ⟨0, Nat.zero_le n, rfl⟩

theorem TakesAtMost.mono (hmn : m ≤ n) (h : TakesAtMost m a b) : TakesAtMost n a b := by
  obtain ⟨count, hcount, htokens⟩ := h
  exact ⟨count, Nat.le_trans hcount hmn, htokens⟩

theorem TakesAtMost.trans (hab : TakesAtMost m a b) (hbc : TakesAtMost n b c) :
    TakesAtMost (m + n) a c := by
  obtain ⟨first, hfirst, hb⟩ := hab
  obtain ⟨second, hsecond, hc⟩ := hbc
  exact ⟨first + second, Nat.add_le_add hfirst hsecond, by rw [hc, hb, List.drop_drop]⟩

theorem takesAtMost_skipToken (h : a.isBlank = false) : a.TakesAtMost 1 a.skipToken :=
  ⟨1, Nat.le_refl 1, by rw [tokens_of_further h, List.drop_one, List.tail_cons]⟩

/-- The tokens of a line of plain words are the words. -/
theorem Holds.tokens {line : Line} {words : List String} (h : line.Holds words)
    (hplain : ∀ word ∈ words, Token.Plain word.toList) : line.tokens = words := by
  induction words generalizing line with
  | nil => exact tokens_of_isBlank h.isBlank_nil
  | cons word words ih =>
      obtain ⟨hword, hwords⟩ := List.forall_mem_cons.mp hplain
      have hstands := hword.stands (Token.apart_spaced words)
      have hnext := h.skipToken hstands
      rw [line.skipBlank_agrees.skipToken] at hnext
      rw [tokens_of_further (h.isBlank_cons hstands), ih hnext hwords,
        ← line.skipBlank_agrees.peekToken, h.peekToken hstands]

end Line

/-! ## Readers that take a number of tokens -/

/-- A reader that reads at most some number of tokens when it succeeds. -/
def Reader.TakesAtMost (n : Nat) (reader : Reader) : Prop :=
  ∀ ctx line value, (reader ctx line).result = .ok value →
    line.TakesAtMost n (reader ctx line).line

variable {m n : Nat} {reader : Reader}

theorem Reader.TakesAtMost.mono (hmn : m ≤ n) (h : reader.TakesAtMost m) : reader.TakesAtMost n :=
  Arrives.mono (fun hab => hab.mono hmn) h

theorem Reader.TakesAtMost.map (f : Value → Value) (h : reader.TakesAtMost n) :
    Reader.TakesAtMost n fun ctx line => (reader ctx line).map f :=
  Arrives.map f h

theorem Reader.takes_ofToken (parser : String) (interpret : String → Except ArgumentError Value) :
    (Reader.ofToken parser interpret).TakesAtMost 1 :=
  arrives_ofToken Line.takesAtMost_skipToken parser interpret

theorem Parser.takes_readText : Reader.TakesAtMost 1 (readText .word) :=
  Reader.takes_ofToken (textName .word) fun token => .ok (.plain (.text token))

namespace Parser

mutual

/-- The most tokens that a parser reads if it is not greedy. -/
def tokenBound : Parser → Nat
  | .cached _ _ inner => inner.tokenBound
  | .map _ inner => inner.tokenBound
  | .flatMap _ inner => inner.tokenBound
  | .firstOf alternatives => mostTokens alternatives
  | .either primary fallback => max primary.tokenBound fallback.tokenBound
  | .aggregate parts _ => allTokens parts
  | _ => 1

/-- The most tokens that one of some parsers reads. -/
def mostTokens : List Parser → Nat
  | [] => 0
  | p :: rest => max p.tokenBound (mostTokens rest)

/-- The most tokens that some parts read together. -/
def allTokens : List (Part Parser) → Nat
  | [] => 0
  | ⟨_, p, _⟩ :: rest => p.tokenBound + allTokens rest

end

theorem tokenBound_le_of_mem {p : Parser} {ps : List Parser} (h : p ∈ ps) :
    p.tokenBound ≤ mostTokens ps := by
  induction ps with
  | nil => cases h
  | cons q ps ih =>
      rw [mostTokens]
      rcases List.mem_cons.mp h with rfl | h
      · exact Nat.le_max_left _ _
      · exact Nat.le_trans (ih h) (Nat.le_max_right _ _)

end Parser

/-- Parts read as many tokens as they read together. -/
theorem Part.Reads.takesAtMost {parts : List (Part Parser)} {ctx child : Context}
    {line last : Line} {values : List (String × Value)}
    (hparts : ∀ part ∈ parts, part.parser.read.TakesAtMost part.parser.tokenBound)
    (h : Reads parts ctx line values child last) :
    line.TakesAtMost (Parser.allTokens parts) last := by
  induction h with
  | done => exact .nothing 0 _
  | part accepts _ ih =>
      obtain ⟨hpart, hmore⟩ := List.forall_mem_cons.mp hparts
      exact (hpart _ _ _ accepts).trans (ih hmore)

/-! ## Greedy parts -/

namespace Parser

/-- Somewhere in a parser there is a choice between two parsers of which one is greedy. -/
inductive Hides : Parser → Prop where
  | first {primary fallback : Parser} (greedy : primary.greedy = true) :
      Hides (.either primary fallback)
  | second {primary fallback : Parser} (greedy : fallback.greedy = true) :
      Hides (.either primary fallback)
  | cached {slot lifetime : Nat} {inner : Parser} (inside : inner.Hides) :
      Hides (.cached slot lifetime inner)
  | map {f : Value → Value} {inner : Parser} (inside : inner.Hides) : Hides (.map f inner)
  | flatMap {f : Context → Value → Except ArgumentError Value} {inner : Parser}
      (inside : inner.Hides) : Hides (.flatMap f inner)
  | firstOf {alternatives : List Parser} {p : Parser} (among : p ∈ alternatives)
      (inside : p.Hides) : Hides (.firstOf alternatives)
  | inFirst {primary fallback : Parser} (inside : primary.Hides) :
      Hides (.either primary fallback)
  | inSecond {primary fallback : Parser} (inside : fallback.Hides) :
      Hides (.either primary fallback)
  | aggregate {parts : List (Part Parser)} {build : Context → Except ArgumentError Value}
      {part : Part Parser} (among : part ∈ parts) (inside : part.parser.Hides) :
      Hides (.aggregate parts build)

theorem greedy_of_mem {p : Parser} {ps : List Parser} (hp : p ∈ ps) (h : anyGreedy ps = false) :
    p.greedy = false := by
  induction ps with
  | nil => cases hp
  | cons q ps ih =>
      rw [anyGreedy, Bool.or_eq_false_iff] at h
      rcases List.mem_cons.mp hp with rfl | hp
      · exact h.1
      · exact ih hp h.2

theorem greedy_of_mem_parts {part : Part Parser} {parts : List (Part Parser)} (hpart : part ∈ parts)
    (h : anyPartGreedy parts = false) : part.parser.greedy = false := by
  induction parts with
  | nil => cases hpart
  | cons other parts ih =>
      rw [anyPartGreedy, Bool.or_eq_false_iff] at h
      rcases List.mem_cons.mp hpart with rfl | hpart
      · exact h.1
      · exact ih hpart h.2

/-- A parser that is not greedy, and hides nothing greedy, reads a number of tokens at most. -/
theorem Within.takes {p : Parser} (h : p.Within .closed) (hgreedy : p.greedy = false)
    (hhides : ¬p.Hides) : p.read.TakesAtMost p.tokenBound := by
  induction h with
  | text mode =>
      cases mode with
      | word => exact takes_readText
      | rest | untilFlag => cases hgreedy
  | integer | real | truth | uuid | enumeration => exact Reader.takes_ofToken _ _
  | host ok => exact ok.elim
  | cached _ ih => exact ih hgreedy fun inside => hhides (.cached inside)
  | map _ ih => exact (ih hgreedy fun inside => hhides (.map inside)).map _
  | flatMap _ _ ih =>
      exact Reader.Arrives.refine _ (ih hgreedy fun inside => hhides (.flatMap inside))
  | firstOf _ ih =>
      refine Alternatives.arrives_read ?_
      rw [readers_eq]
      refine List.forall_mem_map.mpr fun p hp => ?_
      exact (ih p hp (greedy_of_mem hp hgreedy) fun inside => hhides (.firstOf hp inside)).mono
        (tokenBound_le_of_mem hp)
  | either _ _ ihFirst ihSecond =>
      -- here the parser is never greedy, so that nothing is known of its arms from that
      have hfirst := ihFirst (Bool.eq_false_iff.mpr fun greedy => hhides (.first greedy))
        fun inside => hhides (.inFirst inside)
      have hsecond := ihSecond (Bool.eq_false_iff.mpr fun greedy => hhides (.second greedy))
        fun inside => hhides (.inSecond inside)
      refine Alternatives.arrives_read ?_
      rw [List.forall_mem_cons, List.forall_mem_singleton]
      exact ⟨(hfirst.mono (Nat.le_max_left _ _)).map _, (hsecond.mono (Nat.le_max_right _ _)).map _⟩
  | aggregate _ _ ih =>
      intro ctx line value hok
      simp only [Parser.read, readParts_eq] at hok ⊢
      obtain ⟨values, child, hreads⟩ := Part.exists_reads_of_readAll hok
      exact hreads.takesAtMost fun part hpart =>
        ih part hpart (greedy_of_mem_parts hpart hgreedy) fun inside =>
          hhides (.aggregate hpart inside)
  | flags _ _ _ => cases hgreedy

end Parser

/-! ## What comes behind an argument -/

namespace Command

theorem isFlags_of_greedySeen {usage : String} {p : Progress} {back : List Component}
    (hseen : p.greedySeen = true) (h : checkOrder usage p back = .ok ()) :
    ∀ y ∈ back, y.isFlags = true := by
  induction back generalizing p with
  | nil => exact fun y hy => absurd hy List.not_mem_nil
  | cons c back ih =>
      obtain ⟨-, hflags, -, hback⟩ := checkOrder_cons_iff.mp h
      refine List.forall_mem_cons.mpr ⟨hflags hseen, ih ?_ hback⟩
      rw [Progress.next, if_pos (hflags hseen)]
      exact hseen

/-- In a valid command only flags come behind a greedy argument, however far. -/
theorem isFlags_of_validate {c : Command} {front back : List Component} {a : Argument}
    (h : c.validate = .ok ()) (hsplit : c.components = front ++ .argument a :: back)
    (hgreedy : a.parser.greedy = true) : ∀ y ∈ back, y.isFlags = true := by
  have hchecked := checkOrder_of_validate h
  rw [hsplit] at hchecked
  obtain ⟨p, hp⟩ := checkOrder_append hchecked
  refine isFlags_of_greedySeen ?_ (checkOrder_cons_iff.mp hp).2.2.2
  simp [Progress.next, Component.isFlags, Component.isGreedy, hgreedy]

end Command

namespace Parser

/-- A parser without parts of the surrounding program that hides nothing greedy reads a number of
    tokens at most, which depends on nothing else, if it is not greedy. In a valid command it is not
    greedy wherever anything but flags comes behind an argument of that parser. -/
theorem Within.greedy_sound {p : Parser} (h : p.Within .closed) (hhides : ¬p.Hides) :
    (p.greedy = false → p.read.TakesAtMost p.tokenBound) ∧
    ∀ (c : Command) (front back : List Component) (a : Argument) (y : Component),
      c.validate = .ok () → c.components = front ++ .argument a :: back → a.parser = p →
      y ∈ back → y.isFlags = false → p.greedy = false ∧ p.read.TakesAtMost p.tokenBound := by
  refine ⟨fun hgreedy => h.takes hgreedy hhides, ?_⟩
  rintro c front back a y hvalid hsplit rfl hy hflags
  have hgreedy : a.parser.greedy = false := by
    by_contra hgreedy
    rw [Bool.not_eq_false] at hgreedy
    rw [Command.isFlags_of_validate hvalid hsplit hgreedy y hy] at hflags
    cases hflags
  exact ⟨hgreedy, h.takes hgreedy hhides⟩

/-- A place: two numbers, the second of which may be a word in their stead. -/
def place : Parser :=
  .aggregate
    [⟨"x", .integer 0 99, none⟩, ⟨"y", .either (.integer 0 99) (.text .word), none⟩]
    fun _ => .ok (.plain .unit)

theorem closed_place : place.Within .closed := by
  refine .aggregate trivial (List.forall_mem_cons.mpr ⟨.integer 0 99, ?_⟩)
  exact List.forall_mem_singleton.mpr (.either (.integer 0 99) (.text .word))

theorem not_hides_place : ¬place.Hides := by
  intro h
  cases h with
  | aggregate among inside =>
      simp only [List.mem_cons, List.not_mem_nil, or_false] at among
      rcases among with rfl | rfl
      · cases inside
      · cases inside with
        | first greedy | second greedy => cases greedy
        | inFirst inside | inSecond inside => cases inside

/-- The place that is to be marked. -/
def markedPlace : Argument :=
  { name := "place", parser := place }

/-- How often it is to be marked. -/
def markings : Argument :=
  { name := "times", parser := .integer 1 9 }

/-- `mark <place> <times>`. -/
def ofMark : Command where
  components := [.literal { name := "mark" }, .argument markedPlace, .argument markings]

/-- A place takes two tokens at most, and so leaves the others for the number behind it. -/
theorem greedy_sound_mark :
    place.Within .closed ∧ ¬place.Hides ∧ place.greedy = false ∧ place.tokenBound = 2 ∧
      place.read.TakesAtMost 2 ∧ ofMark.validate = .ok () ∧
      ofMark.components =
        [.literal { name := "mark" }] ++ .argument markedPlace :: [.argument markings] ∧
      (Component.argument markings).isFlags = false ∧ markedPlace.parser.greedy = false := by
  obtain ⟨htakes, hbefore⟩ := closed_place.greedy_sound not_hides_place
  have hvalid : ofMark.validate = .ok () := by decide +kernel
  have hmarked : place.greedy = false :=
    (hbefore ofMark [.literal { name := "mark" }] [.argument markings] markedPlace
      (.argument markings) hvalid rfl rfl List.mem_cons_self rfl).1
  exact ⟨closed_place, not_hides_place, rfl, rfl, htakes rfl, hvalid, rfl, rfl, hmarked⟩

/-! ## A choice between two parsers -/

/-- A choice reads what its first parser reads, wherever that succeeds. -/
theorem takes_of_either {p q : Parser} (h : (either p q).read.TakesAtMost n) :
    p.read.TakesAtMost n := by
  intro ctx line value hok
  have hchoice : (either p q).read ctx line = (p.read ctx line).map fromLeft := by
    simp only [Parser.read, Alternatives.read, Alternatives.readAfter, Reading.map, hok, Except.map]
  have htakes := h ctx line (fromLeft value)
  rw [hchoice] at htakes
  exact htakes (by simp only [Reading.map, hok, Except.map])

/-- No number bounds the tokens of a text that is all that is left. -/
theorem not_takes_rest (n : Nat) : ¬(text .rest).read.TakesAtMost n := by
  intro htakes
  have hplain : ∀ word ∈ List.replicate (n + 1) "x", Token.Plain word.toList := by
    intro word hword
    rw [List.eq_of_mem_replicate hword]
    decide
  have htokens := (Line.holds_joined (List.replicate (n + 1) "x")).tokens hplain
  generalize Line.ofString (joined " " (List.replicate (n + 1) "x")) = line at htokens
  have hfurther : line.isBlank = false := by
    rw [Bool.eq_false_iff]
    intro hblank
    rw [Line.tokens_of_isBlank hblank] at htokens
    cases htokens
  have hread (ctx : Context) : (text .rest).read ctx line =
      ⟨.ok (.plain (.text line.readRest.1)), ctx, line.finish⟩ := by
    simp only [Parser.read, readText, hfurther, Bool.false_eq_true, if_false]
    rfl
  have hnothing : line.finish.tokens = [] := Line.tokens_of_isBlank rfl
  obtain ⟨count, hcount, hleft⟩ :=
    htakes { sender := ⟨"", "", 0, []⟩ } line _ (congrArg Reading.result (hread _))
  rw [hread, hnothing, htokens, List.drop_replicate] at hleft
  have hlength := congrArg List.length hleft
  rw [List.length_replicate, List.length_nil] at hlength
  omega

/-- What is to be said: a text, or a number of a text. -/
def speech : Parser :=
  .either (.text .rest) (.integer Number.minInt64 Number.maxInt64)

end Parser

/-- `say <text> <times>`, where the text is a choice. -/
def Command.sayTimes : Command where
  components :=
    [.literal { name := "say" }, .argument { name := "text", parser := .speech },
     .argument { name := "times", parser := .integer Number.minInt64 Number.maxInt64 }]

/-- A text that is all that is left is not bounded, and the choice between it and a number is not
    greedy. So a command is accepted in which a number comes behind it, and nothing is left for the
    number. -/
theorem Tree.greed_hidden :
    Parser.speech.Within .closed ∧ Parser.speech.greedy = false ∧
      (∀ n, ¬Parser.speech.read.TakesAtMost n) ∧
      Command.sayTimes.validate = .ok () ∧
      (({} : Tree).apply (.insert .sayTimes)).entries.length = 1 ∧
      (({} : Tree).apply (.insert .sayTimes)).route { sender := ⟨"Steve", "player", 0, []⟩ }
        "say hello 3" = .error (.invalidSyntax "" ["<times>"]) := by
  refine ⟨.either (.text .rest) (.integer _ _), rfl, ?_, by decide +kernel, by decide +kernel, ?_⟩
  · exact fun n htakes => Parser.not_takes_rest n (Parser.takes_of_either htakes)
  · exact (Position.run_of_descend rfl).trans ((Position.run_of_descend rfl).trans
      (Position.run_of_fail rfl))

end CommandLine
