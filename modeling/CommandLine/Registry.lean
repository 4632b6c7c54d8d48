import CommandLine.Parser.Suggest

/-! # Registries of parsers

    A registry makes parsers by the type of their values or by name, and keeps suggesters by name
    for commands that share them. Each parser it makes is a new one, with slots of its own for what
    its suggestions leave in the memory. -/

namespace CommandLine

/-- The types of values that a parser can be asked for by. -/
inductive ValueType where
  | text
  | integer
  | real
  | truth
  | uuid
  /-- The common type of boxed values. -/
  | boxed
deriving DecidableEq, Repr

/-- Makes a new parser. -/
abbrev Supplier := Fresh Parser

/-- Parsers by type and by name, and suggesters by name. -/
structure Registry where
  byType : List (ValueType × Supplier) := []
  byName : Store Supplier := .empty
  suggesters : Store Suggester := .empty

namespace Registry

/-- The name of the parsers that a supplier makes. -/
def suppliedName (supplier : Supplier) : String :=
  (supplier.run 0).1.name

/-- Makes a supplier the one for a name. -/
def registerNamed (r : Registry) (name : String) (supplier : Supplier) : Registry :=
  { r with byName := r.byName.put name supplier }

/-- Makes a supplier the one for a type, and for the name of its parsers. -/
def register (r : Registry) (type : ValueType) (supplier : Supplier) : Registry :=
  { r.registerNamed (suppliedName supplier) supplier with
    byType := (type, supplier) :: r.byType.filter (·.1 != type) }

/-- Makes a suggester the one for a name. -/
def registerSuggester (r : Registry) (name : String) (suggest : Suggester) : Registry :=
  { r with suggesters := r.suggesters.put name suggest }

/-- The parser of integers without bounds. -/
def anyInteger : Parser :=
  .integer Number.minInt64 Number.maxInt64

/-- The greatest finite floating point number. -/
def maxReal : Float :=
  Float.ofBits 0x7fefffffffffffff

/-- The parser of floating point numbers without bounds. -/
def anyReal : Parser :=
  .real (-maxReal) maxReal

/-- The standard parsers with the types of their values. -/
def standardParsers : List (ValueType × Parser) :=
  [(.text, .text .word), (.integer, anyInteger), (.real, anyReal), (.truth, .truth false),
   (.uuid, .uuid)]

/-- The registry with the standard parsers. -/
def standard : Registry :=
  (standardParsers.foldl (fun r entry => register r entry.1 (pure entry.2)) {}).registerNamed
    (Parser.text .rest).name (pure (.text .rest))

/-- The supplier for a type. -/
def forType? (r : Registry) (type : ValueType) : Option Supplier :=
  r.byType.lookup type

/-- The supplier for a name. -/
def named? (r : Registry) (name : String) : Option Supplier :=
  r.byName.get? name

/-- The suggester for a name. -/
def suggester? (r : Registry) (name : String) : Option Suggester :=
  r.suggesters.get? name

end Registry

end CommandLine
