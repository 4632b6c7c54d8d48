import CommandLine.Proofs.Line.Agree
import CommandLine.Proofs.Parser.Onward

/-! # What parsers cannot see

    A completion reads a line in a context that is marked for suggestions and in which no consumed
    texts are recorded. Parsers do not look at either. And of a line most of them look at nothing
    but its tokens, one after the other: a reader is `Reader.Tied` to a relation of lines if on
    lines in that relation, and in contexts that are alike, it does the same and leaves lines in
    that relation. `Parser.Within.tied` says of all relations of lines with the same tokens that
    parsers are tied to them, provided that the texts are that a parser reads, and what the
    surrounding program adds to it.

    All parsers are tied to lines that are the same up to white space that has been read
    (`Parser.Within.steady`). -/

namespace CommandLine

/-- Contexts that differ at most in the consumed texts and in the mark for suggestions. -/
structure Context.Alike (a b : Context) : Prop where
  sender : a.sender = b.sender
  values : a.values = b.values
  flags : a.flags = b.flags
  notes : a.notes = b.notes
  checker : a.checker = b.checker

namespace Context.Alike

variable {a b c : Context}

theorem refl (a : Context) : a.Alike a :=
  ⟨rfl, rfl, rfl, rfl, rfl⟩

theorem symm (h : a.Alike b) : b.Alike a :=
  ⟨h.sender.symm, h.values.symm, h.flags.symm, h.notes.symm, h.checker.symm⟩

theorem trans (hab : a.Alike b) (hbc : b.Alike c) : a.Alike c :=
  ⟨hab.sender.trans hbc.sender, hab.values.trans hbc.values, hab.flags.trans hbc.flags,
    hab.notes.trans hbc.notes, hab.checker.trans hbc.checker⟩

theorem grants (h : a.Alike b) (permission : Permission) :
    a.grants permission = b.grants permission := by
  simp only [Context.grants, h.checker, h.sender]

theorem hasFlag (h : a.Alike b) (name : String) : a.hasFlag name = b.hasFlag name := by
  simp only [Context.hasFlag, h.flags]

theorem store (h : a.Alike b) (key : String) (value : Value) :
    (a.store key value).Alike (b.store key value) :=
  ⟨h.sender, by simp only [Context.store, h.values], h.flags, h.notes, h.checker⟩

theorem markFlag (h : a.Alike b) (name : String) : (a.markFlag name).Alike (b.markFlag name) :=
  ⟨h.sender, h.values, by simp only [Context.markFlag, Context.flagCount, h.flags], h.notes,
    h.checker⟩

/-- No text that is recorded makes a difference. -/
theorem recordConsumed (h : a.Alike b) (key text : String) : (a.recordConsumed key text).Alike b :=
  ⟨h.sender, h.values, h.flags, h.notes, h.checker⟩

/-- A context that is marked for suggestions is like the one that is not. -/
theorem suggesting (a : Context) : a.Alike { a with suggesting := true } :=
  ⟨rfl, rfl, rfl, rfl, rfl⟩

end Context.Alike

/-! ## Readings -/

/-- A relation of lines that have the same tokens left. -/
structure Line.Tokenwise (L : Line → Line → Prop) : Prop where
  isBlank : ∀ {a b}, L a b → a.isBlank = b.isBlank
  peekToken : ∀ {a b}, L a b → a.peekToken = b.peekToken
  skipToken : ∀ {a b}, L a b → L a.skipToken b.skipToken

/-- Readings with the same result that leave contexts that are alike and lines in a relation. -/
structure Reading.Tied {α : Type} (L : Line → Line → Prop) (r s : Reading α) : Prop where
  result : r.result = s.result
  context : r.context.Alike s.context
  line : L r.line s.line

variable {L : Line → Line → Prop}

namespace Reading.Tied

variable {α β : Type} {r s : Reading α}

theorem map (h : r.Tied L s) (f : α → β) : (r.map f).Tied L (s.map f) :=
  ⟨congrArg (·.map f) h.result, h.context, h.line⟩

theorem withFact (h : r.Tied L s) (name value : String) :
    (r.withFact name value).Tied L (s.withFact name value) :=
  ⟨congrArg (·.mapError (·.withFact name value)) h.result, h.context, h.line⟩

/-- Readings stay tied if what is read on after a success does. -/
theorem andThen (h : r.Tied L s) {next next' : α → Context → Line → Reading β}
    (hnext : ∀ value, r.result = .ok value →
      (next value r.context r.line).Tied L (next' value s.context s.line)) :
    (r.andThen next).Tied L (s.andThen next') := by
  unfold Reading.andThen
  rw [← h.result]
  split
  · next value hvalue => exact hnext value hvalue
  · exact ⟨rfl, h.context, h.line⟩

end Reading.Tied

/-- A reader that does the same on lines in a relation, in contexts that are alike, and goes no way
    back. -/
structure Reader.Tied (L : Line → Line → Prop) (reader : Reader) : Prop where
  tied : ∀ {ctx ctx' line line'}, ctx.Alike ctx' → L line line' →
    (reader ctx line).Tied L (reader ctx' line')
  length_le : ∀ ctx line, (reader ctx line).line.rest.length ≤ line.rest.length

theorem Reader.Tied.map {reader : Reader} (h : reader.Tied L) (f : Value → Value) :
    Reader.Tied L fun ctx line => (reader ctx line).map f :=
  ⟨fun hctx hline => (h.tied hctx hline).map f, h.length_le⟩

theorem Reader.tied_ofToken (hL : Line.Tokenwise L) (parser : String)
    (interpret : String → Except ArgumentError Value) :
    (Reader.ofToken parser interpret).Tied L := by
  constructor
  · intro ctx ctx' line line' hctx hline
    unfold Reader.ofToken
    rw [hL.isBlank hline, hL.peekToken hline]
    split
    · exact ⟨rfl, hctx, hline⟩
    · exact ⟨rfl, hctx, hL.skipToken hline⟩
  · exact Reader.moves_ofToken Line.advances_shrinks _ _

theorem Parser.tied_readText_word (hL : Line.Tokenwise L) :
    Reader.Tied L (Parser.readText .word) := by
  constructor
  · intro ctx ctx' line line' hctx hline
    unfold Parser.readText
    rw [hL.isBlank hline, hL.peekToken hline]
    split
    · exact ⟨rfl, hctx, hline⟩
    · exact ⟨rfl, hctx, hL.skipToken hline⟩
  · exact Parser.moves_readText Line.advances_shrinks .word

theorem Alternatives.tied_readAfter (hL : Line.Tokenwise L) (name : String)
    {readers : List Reader} (hreaders : ∀ reader ∈ readers, reader.Tied L)
    (failures : List ArgumentError) : Reader.Tied L (readAfter name failures readers) := by
  constructor
  · intro ctx ctx' line line' hctx hline
    induction readers generalizing failures with
    | nil =>
        simp only [readAfter, refusal, hL.peekToken hline]
        exact ⟨rfl, hctx, hline⟩
    | cons reader rest ih =>
        obtain ⟨hreader, hrest⟩ := List.forall_mem_cons.mp hreaders
        have hattempt := hreader.tied hctx hline
        simp only [readAfter, ← hattempt.result]
        split
        · exact hattempt
        · exact ih hrest _
  · exact moves_readAfter Line.advances_shrinks name
      (fun reader hreader => (hreaders reader hreader).length_le) failures

/-! ## Aggregates -/

namespace Part

theorem tied_readEach {parts : List (Part Reader)} (h : ∀ part ∈ parts, part.parser.Tied L)
    {ctx ctx' : Context} {line line' : Line} (hctx : ctx.Alike ctx') (hline : L line line') :
    (readEach parts ctx line).Tied L (readEach parts ctx' line') := by
  induction parts generalizing ctx ctx' line line' with
  | nil => exact ⟨rfl, hctx, hline⟩
  | cons part parts ih =>
      obtain ⟨hpart, hparts⟩ := List.forall_mem_cons.mp h
      have hread := (hpart.tied hctx hline).withFact "component" part.name
      exact hread.andThen fun value _ => ih hparts (hread.context.store _ value) hread.line

theorem tied_readAll {parts : List (Part Reader)} (h : ∀ part ∈ parts, part.parser.Tied L)
    {build : Context → Except ArgumentError Value}
    (hbuild : ∀ {a b : Context}, a.Alike b → build a = build b) :
    Reader.Tied L (readAll parts build) := by
  constructor
  · intro ctx ctx' line line' hctx hline
    have hinner := tied_readEach h hctx hline
    simp only [readAll, ← hinner.result]
    split
    · exact ⟨hbuild hinner.context, hctx, hinner.line⟩
    · exact ⟨rfl, hctx, hinner.line⟩
  · exact moves_readAll Line.advances_shrinks (fun part hpart => (h part hpart).length_le) build

end Part

/-! ## Flag groups -/

namespace Flag

variable {P : Type}

theorem objection_eq {a b : Context} (h : a.Alike b) (flag : Flag P) (token : String) :
    flag.objection? a token = flag.objection? b token := by
  simp only [objection?, h.grants, h.hasFlag]

theorem alike_given {a b : Context} (h : a.Alike b) (flag : Flag P) :
    (flag.given a).Alike (flag.given b) :=
  (h.store _ _).markFlag _

theorem alike_givenValue {a b : Context} (h : a.Alike b) (flag : Flag P) (value : Value)
    (text text' : String) :
    (flag.givenValue value text a).Alike (flag.givenValue value text' b) :=
  (((h.store flag.name value).recordConsumed _ text).trans
    ((Context.Alike.refl _).recordConsumed _ text').symm).markFlag _

/-- A flag whose value is read by a tied reader, if it takes one. -/
def Tied (L : Line → Line → Prop) (flag : Flag Reader) : Prop :=
  ∀ reader, flag.value = some reader → reader.Tied L

theorem Tied.read (hL : Line.Tokenwise L) {flag : Flag Reader} (h : flag.Tied L) (token : String)
    {ctx ctx' : Context} {line line' : Line} (hctx : ctx.Alike ctx') (hline : L line line') :
    (flag.read token ctx line).Tied L (flag.read token ctx' line') := by
  unfold Flag.read
  rw [← objection_eq hctx, ← hL.isBlank hline]
  split
  · exact ⟨rfl, hctx, hline⟩
  · exact ⟨rfl, alike_given hctx flag, hline⟩
  · next reader _ hvalue =>
      split
      · exact ⟨rfl, hctx, hline⟩
      · have hread := ((h reader hvalue).tied hctx hline).withFact "flag" flag.name
        exact hread.andThen fun value _ =>
          ⟨rfl, alike_givenValue hread.context flag value _ _, hread.line⟩

theorem Tied.moves {flag : Flag Reader} (h : flag.Tied L) : flag.Moves Line.Shrinks :=
  fun reader hreader => (h reader hreader).length_le

theorem tied_readEach (hL : Line.Tokenwise L) {flags : List (Flag Reader)}
    (h : ∀ flag ∈ flags, flag.Tied L) (token : String) {ctx ctx' : Context} {line line' : Line}
    (hctx : ctx.Alike ctx') (hline : L line line') :
    (readEach token flags ctx line).Tied L (readEach token flags ctx' line') := by
  induction flags generalizing ctx ctx' line line' with
  | nil => exact ⟨rfl, hctx, hline⟩
  | cons flag flags ih =>
      obtain ⟨hflag, hflags⟩ := List.forall_mem_cons.mp h
      have hread := hflag.read hL token hctx hline
      exact hread.andThen fun _ _ => ih hflags hread.context hread.line

/-- The number of tokens that may be read does not matter as long as it covers the line. -/
theorem tied_readTokens (hL : Line.Tokenwise L) {group : List (Flag Reader)}
    (h : ∀ flag ∈ group, flag.Tied L) {n m : Nat} {ctx ctx' : Context} {line line' : Line}
    (hctx : ctx.Alike ctx') (hline : L line line') (hn : line.rest.length ≤ n)
    (hm : line'.rest.length ≤ m) :
    (readTokens group n ctx line).Tied L (readTokens group m ctx' line') := by
  induction n generalizing m ctx ctx' line line' with
  | zero =>
      -- no character is left
      have hblank := Line.isBlank_of_length hn
      unfold readTokens
      rw [← hL.isBlank hline, if_pos hblank, if_pos hblank]
      exact ⟨rfl, hctx, hline⟩
  | succ n ih =>
      unfold readTokens
      rw [← hL.isBlank hline]
      split
      · exact ⟨rfl, hctx, hline⟩
      · next hblank =>
          have hblank : line.isBlank = false := by simpa using hblank
          have hshorter := Line.length_rest_skipToken_lt hblank
          have hshorter' := Line.length_rest_skipToken_lt (hL.isBlank hline ▸ hblank)
          -- a token is left on both lines, so neither number is used up
          obtain ⟨m, rfl⟩ : ∃ k, m = k + 1 := ⟨m - 1, by omega⟩
          simp only [← hL.peekToken hline]
          split
          · exact ⟨rfl, hctx, hL.skipToken hline⟩
          · next flags hflags =>
              have htied := forall_of_resolve h hflags
              have hread := tied_readEach hL htied line.peekToken hctx (hL.skipToken hline)
              have hlength (ctx : Context) (line : Line) (token : String) :
                  (readEach token flags ctx line).line.rest.length ≤ line.rest.length :=
                moves_readEach Line.advances_shrinks
                  (fun flag hflag => (htied flag hflag).moves) token ctx line
              have hleft := hlength ctx line.skipToken line.peekToken
              have hleft' := hlength ctx' line'.skipToken line.peekToken
              exact hread.andThen fun _ _ =>
                ih hread.context hread.line (by omega) (by omega)

end Flag

/-! ## Parsers -/

/-- A text of a mode is read by a parser, or by a part of it. -/
inductive Parser.HasText (mode : TextMode) : Parser → Prop where
  | text : HasText mode (.text mode)
  | cached {slot lifetime : Nat} {inner : Parser} (below : HasText mode inner) :
      HasText mode (.cached slot lifetime inner)
  | map {f : Value → Value} {inner : Parser} (below : HasText mode inner) :
      HasText mode (.map f inner)
  | flatMap {f : Context → Value → Except ArgumentError Value} {inner : Parser}
      (below : HasText mode inner) : HasText mode (.flatMap f inner)
  | firstOf {alternatives : List Parser} {p : Parser} (mem : p ∈ alternatives)
      (below : HasText mode p) : HasText mode (.firstOf alternatives)
  | primary {primary fallback : Parser} (below : HasText mode primary) :
      HasText mode (.either primary fallback)
  | fallback {primary fallback : Parser} (below : HasText mode fallback) :
      HasText mode (.either primary fallback)
  | part {parts : List (Part Parser)} {build : Context → Except ArgumentError Value}
      {part : Part Parser} (mem : part ∈ parts) (below : HasText mode part.parser) :
      HasText mode (.aggregate parts build)
  | flag {group : List (Flag Parser)} {flag : Flag Parser} {p : Parser} (mem : flag ∈ group)
      (value : flag.value = some p) (below : HasText mode p) : HasText mode (.flags group)

/-- What the surrounding program adds to parsers is tied. -/
structure Allowed.Tied (L : Line → Line → Prop) (allowed : Allowed) : Prop where
  host : ∀ h, allowed.host h → h.read.Tied L
  refine : ∀ f, allowed.refine f → ∀ {a b : Context} value, a.Alike b → f a value = f b value
  build : ∀ f, allowed.build f → ∀ {a b : Context}, a.Alike b → f a = f b

/-- A parser is tied to lines with the same tokens if the texts are that it reads, and what it is
    allowed to have from outside. -/
theorem Parser.Within.tied {allowed : Allowed} (hL : Line.Tokenwise L) (hallowed : allowed.Tied L)
    {p : Parser} (h : p.Within allowed)
    (htexts : ∀ mode, p.HasText mode → Reader.Tied L (readText mode)) : Reader.Tied L p.read := by
  induction h with
  | text mode => exact htexts mode .text
  | integer | real | truth | uuid | enumeration => exact Reader.tied_ofToken hL _ _
  | host ok => exact hallowed.host _ ok
  | cached _ ih => exact ih fun mode hmode => htexts mode (.cached hmode)
  | map _ ih => exact (ih fun mode hmode => htexts mode (.map hmode)).map _
  | flatMap ok _ ih =>
      have hinner := ih fun mode hmode => htexts mode (.flatMap hmode)
      constructor
      · intro ctx ctx' line line' hctx hline
        have hread := hinner.tied hctx hline
        exact hread.andThen fun value _ =>
          ⟨hallowed.refine _ ok value hread.context, hread.context, hread.line⟩
      · intro ctx line
        exact Reading.moves_andThen Line.advances_shrinks (hinner.length_le ctx line)
          fun _ _ _ => Nat.le_refl _
  | firstOf _ ih =>
      refine Alternatives.tied_readAfter hL _ ?_ []
      rw [readers_eq]
      exact List.forall_mem_map.mpr fun p hp =>
        ih p hp fun mode hmode => htexts mode (.firstOf hp hmode)
  | either _ _ ihFirst ihSecond =>
      refine Alternatives.tied_readAfter hL _ ?_ []
      rw [List.forall_mem_cons]
      refine ⟨(ihFirst fun mode hmode => ?_).map _,
        List.forall_mem_singleton.mpr ((ihSecond fun mode hmode => ?_).map _)⟩
      · exact htexts mode (.primary hmode)
      · exact htexts mode (.fallback hmode)
  | aggregate ok _ ih =>
      -- the parts store into a context of their own, which only the value is built from
      refine Part.tied_readAll ?_ (hallowed.build _ ok)
      rw [readParts_eq]
      exact List.forall_mem_map.mpr fun part hpart =>
        ih part hpart fun mode hmode => htexts mode (.part hpart hmode)
  | @flags group _ _ ih =>
      have htied : ∀ flag ∈ readFlags group, flag.Tied L := by
        rw [readFlags_eq]
        exact List.forall_mem_map.mpr fun flag hflag => Flag.forall_value_map fun p hp =>
          ih flag hflag p hp fun mode hmode => htexts mode (.flag hflag hp hmode)
      constructor
      · intro ctx ctx' line line' hctx hline
        exact (Flag.tied_readTokens hL htied hctx hline (Nat.le_refl _) (Nat.le_refl _)).map _
      · intro ctx line
        exact Flag.moves_readTokens Line.advances_shrinks
          (fun flag hflag => (htied flag hflag).moves) _ ctx line

/-! ## Lines up to white space that has been read -/

theorem Line.tokenwise_agrees : Line.Tokenwise Line.Agrees :=
  ⟨fun h => h.isBlank, fun h => h.peekToken, fun h => congrArg Line.skipBlank h.skipToken⟩

/-- Readings with the same result that leave the same behind. -/
structure Reading.Similar {α : Type} (r s : Reading α) : Prop where
  result : r.result = s.result
  context : r.context.Alike s.context
  line : r.line.Agrees s.line

/-- A reader that does the same in contexts that are alike, and goes no way back. -/
structure Reader.Steady (reader : Reader) : Prop where
  similar : ∀ {ctx ctx' line line'}, ctx.Alike ctx' → line.Agrees line' →
    (reader ctx line).Similar (reader ctx' line')
  length_le : ∀ ctx line, (reader ctx line).line.rest.length ≤ line.rest.length

theorem Reading.similar_iff_tied {α : Type} {r s : Reading α} :
    r.Similar s ↔ r.Tied Line.Agrees s :=
  ⟨fun h => ⟨h.result, h.context, h.line⟩, fun h => ⟨h.result, h.context, h.line⟩⟩

theorem Reader.steady_iff_tied {reader : Reader} : reader.Steady ↔ reader.Tied Line.Agrees := by
  constructor
  · exact fun h =>
      ⟨fun hctx hline => Reading.similar_iff_tied.mp (h.similar hctx hline), h.length_le⟩
  · exact fun h =>
      ⟨fun hctx hline => Reading.similar_iff_tied.mpr (h.tied hctx hline), h.length_le⟩

theorem Parser.steady_readText (mode : TextMode) : Reader.Steady (Parser.readText mode) := by
  cases mode with
  | word => exact Reader.steady_iff_tied.mpr (tied_readText_word Line.tokenwise_agrees)
  | rest =>
      refine ⟨?_, Parser.moves_readText Line.advances_shrinks .rest⟩
      intro ctx ctx' line line' hctx hline
      unfold Parser.readText
      rw [← hline.isBlank, hline.readRest]
      split
      · exact ⟨rfl, hctx, hline⟩
      · exact ⟨rfl, hctx, .refl _⟩
  | untilFlag =>
      refine ⟨?_, Parser.moves_readText Line.advances_shrinks .untilFlag⟩
      intro ctx ctx' line line' hctx hline
      unfold Parser.readText
      rw [← hline.isBlank]
      split
      · exact ⟨rfl, hctx, hline⟩
      · next hblank =>
          -- the text is what lies between two places, so it has to be compared apart from them
          have hblank : line.isBlank = false := by simpa using hblank
          have hread := hline.readSince_skipToFlag hblank
          have hleft := hline.skipToFlag hblank
          simp only [hread]
          split
          · exact ⟨rfl, hctx, hleft⟩
          · exact ⟨rfl, hctx, hleft⟩

/-- A flag whose value is read by a steady reader, if it takes one. -/
def Flag.Steady (flag : Flag Reader) : Prop :=
  ∀ reader, flag.value = some reader → reader.Steady

theorem Flag.Steady.moves {flag : Flag Reader} (h : flag.Steady) : flag.Moves Line.Shrinks :=
  fun reader hreader => (h reader hreader).length_le

/-- What the surrounding program adds to parsers is steady. -/
def Allowed.blind : Allowed where
  host := fun h => h.read.Steady
  refine := fun f => ∀ {a b : Context} value, a.Alike b → f a value = f b value
  build := fun f => ∀ {a b : Context}, a.Alike b → f a = f b

theorem Allowed.blind_tied : Allowed.blind.Tied Line.Agrees :=
  ⟨fun _ hhost => Reader.steady_iff_tied.mp hhost, fun _ hrefine => hrefine,
    fun _ hbuild => hbuild⟩

/-- All parsers are steady. -/
theorem Parser.Within.steady {p : Parser} (h : p.Within .blind) : Reader.Steady p.read :=
  Reader.steady_iff_tied.mpr <| h.tied Line.tokenwise_agrees Allowed.blind_tied fun mode _ =>
    Reader.steady_iff_tied.mp (steady_readText mode)

end CommandLine
