import CommandLine.Cache
import CommandLine.Context
import CommandLine.Error
import CommandLine.Line.Basic

/-! # Parsers

    A parser reads the value of an argument off a line. `Reading` is the outcome of one attempt: a
    value or an error, and the context and line as they were left, also by an attempt that failed. A
    parser can also suggest texts for the token that is being typed.

    `Parser` is the type of descriptions of parsers. What they mean is defined in the modules on it:
    `Parser.read` says what a parser reads, `Parser.readNow` what it reads without waiting, and
    `Parser.suggest` what it suggests. -/

namespace CommandLine

/-- The outcome of an attempt to read. -/
structure Reading (α : Type) where
  result : Except ArgumentError α
  context : Context
  line : Line

namespace Reading

variable {α β : Type}

/-- Reads on after a success; an error ends the attempt. -/
def andThen (r : Reading α) (next : α → Context → Line → Reading β) : Reading β :=
  match r.result with
  | .ok value => next value r.context r.line
  | .error e => ⟨.error e, r.context, r.line⟩

/-- The reading with a function applied to its value. -/
def map (f : α → β) (r : Reading α) : Reading β :=
  ⟨r.result.map f, r.context, r.line⟩

/-- The reading with a fact added to its error. -/
def withFact (r : Reading α) (name value : String) : Reading α :=
  { r with result := r.result.mapError (·.withFact name value) }

/-- The value of a reading that succeeded. -/
def value? (r : Reading α) : Option α :=
  r.result.toOption

end Reading

/-- Reads a value off a line. -/
abbrev Reader := Context → Line → Reading Value

/-- Suggests texts for the next token of a line. -/
abbrev Suggester := Context → Line → Recall (List Suggestion)

/-- How much of a line a text takes. -/
inductive TextMode where
  /-- One token. -/
  | word
  /-- All that is left. -/
  | rest
  /-- All up to the first token that looks like a flag. -/
  | untilFlag
deriving DecidableEq, Repr

/-- A member of an enumeration. -/
structure Variant where
  name : String
  description : Option String := none
deriving DecidableEq, Repr

/-- A flag of a group: given by its name after two hyphens or by an alias after one. A flag with a
    parser takes a value. -/
structure Flag (P : Type) where
  name : String
  aliases : List String := []
  value : Option P := none
  description : Option String := none
  permission : Permission := .empty
  /-- Whether the flag may be given more than once. -/
  repeatable : Bool := false
deriving Inhabited

/-- A part of an aggregate. Where it has a suggester of its own, that one is asked in place of its
    parser. -/
structure Part (P : Type) where
  name : String
  parser : P
  suggester : Option Suggester := none

/-- A parser of the surrounding program. -/
structure HostParser where
  name : String
  /-- Whether it may read all that is left of a line. -/
  greedy : Bool := false
  /-- Whether it may have to wait for its answer. -/
  waits : Bool := false
  read : Reader
  suggest : Suggester

/-- The description of a parser. -/
inductive Parser where
  /-- A text. -/
  | text (mode : TextMode)
  /-- An integer between two bounds. -/
  | integer (min max : Int)
  /-- A finite floating point number between two bounds. -/
  | real (min max : Float)
  /-- A truth value. If `liberal`, other words than true and false are understood. -/
  | truth (liberal : Bool)
  /-- An identifier. -/
  | uuid
  /-- A member of an enumeration. -/
  | enumeration (variants : List Variant)
  /-- A parser of the surrounding program. -/
  | host (h : HostParser)
  /-- A parser whose suggestions are remembered for some milliseconds. -/
  | cached (slot lifetime : Nat) (inner : Parser)
  /-- A parser with a function applied to its value. -/
  | map (f : Value → Value) (inner : Parser)
  /-- A parser with a function applied to its value that may refuse it. -/
  | flatMap (f : Context → Value → Except ArgumentError Value) (inner : Parser)
  /-- The first of some parsers that accepts. -/
  | firstOf (alternatives : List Parser)
  /-- The first of two parsers that accepts; the value says which. -/
  | either (primary fallback : Parser)
  /-- Parts one after the other, and a value built from the context that holds theirs. -/
  | aggregate (parts : List (Part Parser)) (build : Context → Except ArgumentError Value)
  /-- The flags of a group, in any order, up to the end of the line. -/
  | flags (group : List (Flag Parser))

instance : Inhabited Parser := ⟨.text .word⟩

namespace Parser

/-- The name under which flag groups report errors. -/
def flagsName : String := "flag"

/-- The name of a text parser. -/
def textName : TextMode → String
  | .word => "string"
  | .rest => "greedy_string"
  | .untilFlag => "greedy_flag_yielding_string"

mutual

/-- The name under which a parser reports errors. -/
def name : Parser → String
  | .text mode => textName mode
  | .integer .. => "integer"
  | .real .. => "float"
  | .truth _ => "boolean"
  | .uuid => "uuid"
  | .enumeration _ => "enum"
  | .host h => h.name
  | .cached _ _ inner => inner.name
  | .map _ inner => inner.name
  | .flatMap _ inner => inner.name
  | .firstOf alternatives => Text.joined "|" (names alternatives)
  | .either primary fallback => primary.name ++ "|" ++ fallback.name
  | .aggregate .. => "aggregate"
  | .flags _ => flagsName

/-- The names of some parsers. -/
def names : List Parser → List String
  | [] => []
  | p :: rest => p.name :: names rest

end

mutual

/-- Whether a parser may read all that is left of a line. -/
def greedy : Parser → Bool
  | .text mode => mode != .word
  | .host h => h.greedy
  | .cached _ _ inner => inner.greedy
  | .map _ inner => inner.greedy
  | .flatMap _ inner => inner.greedy
  | .firstOf alternatives => anyGreedy alternatives
  | .aggregate parts _ => anyPartGreedy parts
  | .flags _ => true
  | _ => false

/-- Whether one of some parsers is greedy. -/
def anyGreedy : List Parser → Bool
  | [] => false
  | p :: rest => p.greedy || anyGreedy rest

/-- Whether one of some parts is greedy. -/
def anyPartGreedy : List (Part Parser) → Bool
  | [] => false
  | ⟨_, p, _⟩ :: rest => p.greedy || anyPartGreedy rest

end

end Parser

end CommandLine
