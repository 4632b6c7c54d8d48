import CommandLine.Parser.Aggregate
import CommandLine.Parser.Alternatives

/-! # What a parser reads

    `Parser.read` gives every parser its reader. `Parser.readNow` is for callers that cannot wait:
    it reads what `read` reads, and refuses parsers that may have to wait. -/

namespace CommandLine.Parser

/-- A reading with a function that may refuse its value. -/
def refine (f : Context → Value → Except ArgumentError Value) (r : Reading Value) :
    Reading Value :=
  r.andThen fun value ctx line => ⟨f ctx value, ctx, line⟩

/-- The value of the first of two parsers. -/
def fromLeft (v : Value) : Value :=
  .plain (.left v.data)

/-- The value of the second of two parsers. -/
def fromRight (v : Value) : Value :=
  .plain (.right v.data)

mutual

/-- The reader of a parser. -/
def read : Parser → Reader
  | .text mode => readText mode
  | .integer min max => .ofToken "integer" (interpretInteger min max)
  | .real min max => .ofToken "float" (interpretReal min max)
  | .truth liberal => .ofToken "boolean" (interpretTruth liberal)
  | .uuid => .ofToken "uuid" interpretUuid
  | .enumeration variants => .ofToken "enum" (interpretVariant variants)
  | .host h => h.read
  | .cached _ _ inner => inner.read
  | .map f inner => fun ctx line => (inner.read ctx line).map f
  | .flatMap f inner => fun ctx line => refine f (inner.read ctx line)
  | .firstOf alternatives =>
    Alternatives.read (Text.joined "|" (names alternatives)) (readers alternatives)
  | .either primary fallback =>
    Alternatives.read (primary.name ++ "|" ++ fallback.name)
      [fun ctx line => (primary.read ctx line).map fromLeft,
       fun ctx line => (fallback.read ctx line).map fromRight]
  | .aggregate parts build => Part.readAll (readParts parts) build
  | .flags group => fun ctx line =>
    (Flag.readGroup (readFlags group) ctx line).map fun () => .plain .unit

/-- The readers of some parsers. -/
def readers : List Parser → List Reader
  | [] => []
  | p :: rest => p.read :: readers rest

/-- The parts of an aggregate with the readers of their parsers. -/
def readParts : List (Part Parser) → List (Part Reader)
  | [] => []
  | ⟨name, p, suggester⟩ :: rest => ⟨name, p.read, suggester⟩ :: readParts rest

/-- The flags of a group with the readers of their parsers. -/
def readFlags : List (Flag Parser) → List (Flag Reader)
  | [] => []
  | ⟨name, aliases, none, description, permission, repeatable⟩ :: rest =>
    ⟨name, aliases, none, description, permission, repeatable⟩ :: readFlags rest
  | ⟨name, aliases, some p, description, permission, repeatable⟩ :: rest =>
    ⟨name, aliases, some p.read, description, permission, repeatable⟩ :: readFlags rest

end

/-- Refuses to read without waiting. -/
def refuseNow (name : String) : Reader := fun ctx line =>
  ⟨.error { parser := name, input := "", reason := .needsWaiting }, ctx, line⟩

/-- The reader of a parser for callers that cannot wait. -/
def readNow : Parser → Reader
  | .host h => if h.waits then refuseNow h.name else h.read
  | .cached _ _ inner => inner.readNow
  | .map f inner => fun ctx line => (inner.readNow ctx line).map f
  | .flatMap _ inner => refuseNow inner.name
  | .firstOf alternatives => refuseNow (Text.joined "|" (names alternatives))
  | .either primary fallback => refuseNow (primary.name ++ "|" ++ fallback.name)
  | .aggregate .. => refuseNow "aggregate"
  | .flags _ => refuseNow flagsName
  | .text mode => readText mode
  | .integer min max => .ofToken "integer" (interpretInteger min max)
  | .real min max => .ofToken "float" (interpretReal min max)
  | .truth liberal => .ofToken "boolean" (interpretTruth liberal)
  | .uuid => .ofToken "uuid" interpretUuid
  | .enumeration variants => .ofToken "enum" (interpretVariant variants)

theorem readers_eq (ps : List Parser) : readers ps = ps.map read := by
  induction ps with
  | nil => rfl
  | cons p ps ih => simp [readers, ih]

theorem readParts_eq (parts : List (Part Parser)) :
    readParts parts = parts.map (Part.map read) := by
  induction parts with
  | nil => rfl
  | cons part parts ih => simp [readParts, Part.map, ih]

theorem readFlags_eq (group : List (Flag Parser)) :
    readFlags group = group.map (Flag.map read) := by
  induction group with
  | nil => rfl
  | cons flag group ih =>
      obtain ⟨name, aliases, value, description, permission, repeatable⟩ := flag
      cases value <;> simp [readFlags, Flag.map, ih]

end CommandLine.Parser
