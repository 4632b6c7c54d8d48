import CommandLine.Parser.Read

/-! # What a parser suggests

    `Parser.suggest` gives every parser its suggester. Only parsers that remember suggestions, and
    those of the surrounding program, use the memory. -/

namespace CommandLine.Parser

/-- A suggester that always has the same suggestions. -/
def always (list : List Suggestion) : Suggester :=
  fun _ _ => return list

mutual

/-- The suggester of a parser. -/
def suggest : Parser → Suggester
  | .integer min max => fun _ line => return suggestIntegers min max line.peekToken
  | .truth liberal => always (suggestTruth liberal)
  | .enumeration variants => always (suggestVariants variants)
  | .host h => h.suggest
  | .cached slot lifetime inner => fun ctx line =>
    Recall.cached slot lifetime (String.ofList (Text.trimStart line.rest)) (inner.suggest ctx line)
  | .map _ inner => inner.suggest
  | .flatMap _ inner => inner.suggest
  | .firstOf alternatives => Alternatives.suggest (suggesters alternatives)
  | .either primary fallback => Alternatives.suggest [primary.suggest, fallback.suggest]
  | .aggregate parts _ => Part.suggestAll (suggestParts parts)
  | .flags group => Flag.suggestGroup (suggestFlags group)
  | .text _ => always []
  | .real .. => always []
  | .uuid => always []

/-- The suggesters of some parsers. -/
def suggesters : List Parser → List Suggester
  | [] => []
  | p :: rest => p.suggest :: suggesters rest

/-- The parts of an aggregate with what their parsers read and suggest. -/
def suggestParts : List (Part Parser) → List (Part Ability)
  | [] => []
  | ⟨name, p, suggester⟩ :: rest => ⟨name, ⟨p.read, p.suggest⟩, suggester⟩ :: suggestParts rest

/-- The flags of a group with what their parsers read and suggest. -/
def suggestFlags : List (Flag Parser) → List (Flag Ability)
  | [] => []
  | ⟨name, aliases, none, description, permission, repeatable⟩ :: rest =>
    ⟨name, aliases, none, description, permission, repeatable⟩ :: suggestFlags rest
  | ⟨name, aliases, some p, description, permission, repeatable⟩ :: rest =>
    ⟨name, aliases, some ⟨p.read, p.suggest⟩, description, permission, repeatable⟩ ::
      suggestFlags rest

end

/-- What a parser reads and suggests. -/
def ability (p : Parser) : Ability :=
  ⟨p.read, p.suggest⟩

theorem suggesters_eq (ps : List Parser) : suggesters ps = ps.map suggest := by
  induction ps with
  | nil => rfl
  | cons p ps ih => simp [suggesters, ih]

theorem suggestParts_eq (parts : List (Part Parser)) :
    suggestParts parts = parts.map (Part.map ability) := by
  induction parts with
  | nil => rfl
  | cons part parts ih => simp [suggestParts, Part.map, ability, ih]

theorem suggestFlags_eq (group : List (Flag Parser)) :
    suggestFlags group = group.map (Flag.map ability) := by
  induction group with
  | nil => rfl
  | cons flag group ih =>
      obtain ⟨name, aliases, value, description, permission, repeatable⟩ := flag
      cases value <;> simp [suggestFlags, Flag.map, ability, ih]

end CommandLine.Parser
