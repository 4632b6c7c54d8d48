import CommandLine.Proofs.Line.WholeTokens
import CommandLine.Proofs.Parser.Choice
import CommandLine.Proofs.Parser.Frame
import CommandLine.Proofs.Parser.Interpret

/-! # Where parsers arrive

    What is known of the place at which a parser begins and the place behind what it accepted is
    known of parsers that are made of it: a function on the value keeps the place, alternatives
    arrive where one of them does (`Reader.Arrives`), and the parts of an aggregate go on from one
    another (`Part.Reads`).

    Parsers that read one token after the other, and at least one, are `Parser.Stepwise`. They
    arrive behind whole tokens (`Parser.Stepwise.arrives`). -/

namespace CommandLine

/-! ## Readers -/

/-- A reader that leaves a line, where it succeeds, at a place in relation to where it began. -/
def Reader.Arrives (R : Line → Line → Prop) (reader : Reader) : Prop :=
  ∀ ctx line value, (reader ctx line).result = .ok value → R line (reader ctx line).line

variable {R S : Line → Line → Prop} {reader : Reader}

theorem Reader.Arrives.mono (hRS : ∀ {a b}, R a b → S a b) (h : reader.Arrives R) :
    reader.Arrives S :=
  fun ctx line value hok => hRS (h ctx line value hok)

theorem Reader.arrives_ofToken (hR : ∀ {line : Line}, line.isBlank = false → R line line.skipToken)
    (parser : String) (interpret : String → Except ArgumentError Value) :
    (Reader.ofToken parser interpret).Arrives R := by
  intro ctx line value hok
  rw [Reader.ofToken] at hok ⊢
  split at hok
  · cases hok
  · next hblank =>
      rw [if_neg hblank]
      exact hR (Bool.eq_false_iff.mpr hblank)

theorem Reader.Arrives.map (f : Value → Value) (h : reader.Arrives R) :
    Reader.Arrives R fun ctx line => (reader ctx line).map f := by
  intro ctx line value hok
  obtain ⟨inner, hread⟩ := Reading.map_ok hok
  exact h ctx line inner hread

theorem Reader.Arrives.refine (f : Context → Value → Except ArgumentError Value)
    (h : reader.Arrives R) : Reader.Arrives R fun ctx line => Parser.refine f (reader ctx line) := by
  intro ctx line value hok
  obtain ⟨inner, hread, hnext⟩ := Reading.andThen_ok hok
  show R line (Parser.refine f (reader ctx line)).line
  rw [Parser.refine, hnext]
  exact h ctx line inner hread

/-- Alternatives arrive where one of them does. -/
theorem Alternatives.arrives_read {name : String} {readers : List Reader}
    (h : ∀ reader ∈ readers, reader.Arrives R) : Reader.Arrives R (read name readers) := by
  intro ctx line value hok
  obtain ⟨before, reader, after, rfl, -, hreads⟩ :=
    (chooses_read name readers ctx line).first value hok
  have hreader : reader.Arrives R := h reader (List.mem_append_right _ List.mem_cons_self)
  rw [hreads] at hok ⊢
  exact hreader ctx line value hok

/-! ## Parts -/

/-- The context with values under their names, one stored after the other. -/
def Context.holding (ctx : Context) (values : List (String × Value)) : Context :=
  values.foldl (fun ctx entry => ctx.store entry.1 entry.2) ctx

namespace Part

/-- Parts read a line one after the other: their values under their names, the context that holds
    them, and the place behind the last part. -/
inductive Reads : List (Part Parser) → Context → Line → List (String × Value) → Context → Line →
    Prop where
  | done {ctx : Context} {line : Line} : Reads [] ctx line [] ctx line
  | part {part : Part Parser} {parts : List (Part Parser)} {ctx child : Context} {line last : Line}
      {value : Value} {values : List (String × Value)}
      (accepts : (part.parser.read ctx line).result = .ok value)
      (more : Reads parts ((part.parser.read ctx line).context.store part.name value)
        (part.parser.read ctx line).line values child last) :
      Reads (part :: parts) ctx line ((part.name, value) :: values) child last

variable {parts front : List (Part Parser)} {ctx child : Context} {line last : Line}
  {values : List (String × Value)} {build : Context → Except ArgumentError Value}

/-- Reading goes on behind parts that have read. -/
theorem Reads.readEach_append (h : Reads front ctx line values child last)
    (more : List (Part Parser)) :
    readEach ((front ++ more).map (Part.map Parser.read)) ctx line =
      readEach (more.map (Part.map Parser.read)) child last := by
  induction h with
  | done => rfl
  | part accepts _ ih =>
      simp only [List.cons_append, List.map_cons, readEach, Part.map, Reading.withFact,
        Reading.andThen, accepts, Except.mapError]
      exact ih

/-- Where parts succeed, they have read one after the other. -/
theorem exists_reads (h : (readEach (parts.map (Part.map Parser.read)) ctx line).result = .ok ()) :
    ∃ values child, Reads parts ctx line values child
      (readEach (parts.map (Part.map Parser.read)) ctx line).line := by
  induction parts generalizing ctx line with
  | nil => exact ⟨[], ctx, .done⟩
  | cons part parts ih =>
      obtain ⟨value, hread, hnext⟩ := Reading.andThen_ok h
      have haccepts : (part.parser.read ctx line).result = .ok value := Reading.withFact_ok hread
      rw [List.map_cons, readEach, hnext] at h ⊢
      obtain ⟨values, child, hmore⟩ := ih h
      exact ⟨_, child, .part haccepts hmore⟩

theorem exists_reads_of_readAll {value : Value}
    (h : (readAll (parts.map (Part.map Parser.read)) build ctx line).result = .ok value) :
    ∃ values child, Reads parts ctx line values child
      (readAll (parts.map (Part.map Parser.read)) build ctx line).line := by
  simp only [readAll] at h ⊢
  cases hread : (readEach (parts.map (Part.map Parser.read)) ctx line).result with
  | ok done => exact exists_reads hread
  | error e =>
      rw [hread] at h
      cases h

/-- Parts that read whole tokens go on from one another. -/
theorem Reads.passes (hparts : ∀ part ∈ parts, part.parser.read.Arrives Line.PassesSome)
    (h : Reads parts ctx line values child last) : line.Passes last := by
  induction h with
  | done => exact .none
  | part accepts _ ih =>
      obtain ⟨hpart, hmore⟩ := List.forall_mem_cons.mp hparts
      exact (hpart _ _ _ accepts).passes.trans (ih hmore)

/-- The values of parts that leave their context alone are all that is added to it. -/
theorem Reads.context_eq (hparts : ∀ part ∈ parts, part.parser.Within .library)
    (h : Reads parts ctx line values child last) : child = ctx.holding values := by
  induction h with
  | done => rfl
  | part _ _ ih =>
      obtain ⟨hpart, hmore⟩ := List.forall_mem_cons.mp hparts
      rw [ih hmore, hpart.context_eq]
      rfl

end Part

/-! ## Parsers that read token by token -/

namespace Parser

/-- A parser that reads one token, or several one after the other. -/
inductive Stepwise : Parser → Prop where
  | token {p : Parser} {interpret : String → Except ArgumentError Value}
      (one : p.interpret? = some interpret) : Stepwise p
  | cached {slot lifetime : Nat} {inner : Parser} (inside : Stepwise inner) :
      Stepwise (.cached slot lifetime inner)
  | map {f : Value → Value} {inner : Parser} (inside : Stepwise inner) : Stepwise (.map f inner)
  | flatMap {f : Context → Value → Except ArgumentError Value} {inner : Parser}
      (inside : Stepwise inner) : Stepwise (.flatMap f inner)
  | firstOf {alternatives : List Parser} (among : ∀ p ∈ alternatives, Stepwise p) :
      Stepwise (.firstOf alternatives)
  | either {primary fallback : Parser} (first : Stepwise primary) (second : Stepwise fallback) :
      Stepwise (.either primary fallback)
  | aggregate {parts : List (Part Parser)} {build : Context → Except ArgumentError Value}
      (nonempty : parts ≠ []) (each : ∀ part ∈ parts, Stepwise part.parser) :
      Stepwise (.aggregate parts build)

variable {p : Parser}

theorem within_of_interpret {interpret : String → Except ArgumentError Value} {allowed : Allowed}
    (h : p.interpret? = some interpret) : p.Within allowed := by
  fun_induction interpret? p generalizing interpret with
  | case1 => exact .text _
  | case2 min max => exact .integer min max
  | case3 min max => exact .real min max
  | case4 liberal => exact .truth liberal
  | case5 => exact .uuid
  | case6 variants => exact .enumeration variants
  | case7 f inner ih =>
      obtain ⟨inside, hinside, -⟩ := Option.map_eq_some_iff.mp h
      exact .map (ih hinside)
  | case8 => cases h

theorem Stepwise.within (h : p.Stepwise) : p.Within .library := by
  induction h with
  | token one => exact within_of_interpret one
  | cached _ ih => exact .cached ih
  | map _ ih => exact .map ih
  | flatMap _ ih => exact .flatMap trivial ih
  | firstOf _ ih => exact .firstOf ih
  | either _ _ ihFirst ihSecond => exact .either ihFirst ihSecond
  | aggregate _ _ ih => exact .aggregate trivial ih

/-- What such a parser accepts is at least one token, and no part of a token. -/
theorem Stepwise.arrives (h : p.Stepwise) : p.read.Arrives Line.PassesSome := by
  induction h with
  | token one =>
      obtain ⟨name, hname⟩ := read_of_interpret one
      rw [hname]
      exact Reader.arrives_ofToken (fun further => ⟨further, .none⟩) name _
  | cached _ ih => exact ih
  | map _ ih => exact ih.map _
  | flatMap _ ih => exact ih.refine _
  | firstOf _ ih =>
      refine Alternatives.arrives_read ?_
      rw [readers_eq]
      exact List.forall_mem_map.mpr ih
  | either _ _ ihFirst ihSecond =>
      refine Alternatives.arrives_read ?_
      rw [List.forall_mem_cons, List.forall_mem_singleton]
      exact ⟨ihFirst.map _, ihSecond.map _⟩
  | @aggregate parts build hsome _ ih =>
      intro ctx line value hok
      simp only [Parser.read, readParts_eq] at hok ⊢
      obtain ⟨values, child, hreads⟩ := Part.exists_reads_of_readAll hok
      generalize (Part.readAll (parts.map (Part.map read)) build ctx line).line = last at hreads
      cases hreads with
      | done => exact absurd rfl hsome
      | part accepts more =>
          -- the first part reads at least one token, the others go on from there
          obtain ⟨hfirst, hothers⟩ := List.forall_mem_cons.mp ih
          exact (hfirst ctx line _ accepts).trans_passes (more.passes hothers)

end Parser

end CommandLine
