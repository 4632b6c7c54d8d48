import CommandLine.Store
import CommandLine.Uuid

/-! # Values

    What parsing an argument gives. A context keeps the values of many parsers, each with a result
    type of its own, so values are typed dynamically: a value is seen only by a read at its type. A
    value is either *plain*, of the type of its data, or *boxed*: all boxed values are of one common
    type. -/

namespace CommandLine

/-- The data of a value. -/
inductive Datum where
  /-- A text. -/
  | text (s : String)
  /-- An integer of 64 bits. -/
  | integer (n : Int)
  /-- A finite floating point number. -/
  | real (x : Float)
  /-- A truth value. -/
  | truth (b : Bool)
  /-- An identifier. -/
  | uuid (u : Uuid)
  /-- A member of an enumeration, by its name. -/
  | variant (name : String)
  /-- Nothing but the fact that parsing succeeded. -/
  | unit
  /-- The result of the first of two parsers. -/
  | left (d : Datum)
  /-- The result of the second of two parsers. -/
  | right (d : Datum)
  /-- The image of a result under a function. -/
  | mapped (d : Datum)
  /-- Results by name. -/
  | fields (entries : List (String × Option Datum))
  /-- A copy of another value, if there was one. -/
  | copy (source : Option Datum)
deriving Inhabited

/-- Data with its typing. -/
structure Value where
  data : Datum
  boxed : Bool
deriving Inhabited

namespace Value

/-- A value of the type of its data. -/
def plain (d : Datum) : Value :=
  ⟨d, false⟩

/-- A value of the common type. -/
def box (d : Datum) : Value :=
  ⟨d, true⟩

/-- The integer, for a value of integer type. -/
def integer? : Value → Option Int
  | ⟨.integer n, false⟩ => some n
  | _ => none

/-- The text, for a value of text type. -/
def text? : Value → Option String
  | ⟨.text s, false⟩ => some s
  | _ => none

/-- The truth value, for a value of truth type. -/
def truth? : Value → Option Bool
  | ⟨.truth b, false⟩ => some b
  | _ => none

/-- The data, for a value of the common type. -/
def boxed? (v : Value) : Option Datum :=
  if v.boxed then some v.data else none

end Value

/-- A note on a command or on a run of one. Like values, notes are seen only by a read at their
    type. -/
inductive Note where
  | text (s : String)
  | integer (n : Int)
  | count (n : Nat)
  | truth (b : Bool)
deriving DecidableEq, Repr

namespace Note

/-- The text, for a note of text type. -/
def text? : Note → Option String
  | .text s => some s
  | _ => none

/-- The integer, for a note of integer type. -/
def integer? : Note → Option Int
  | .integer n => some n
  | _ => none

/-- The count, for a note of count type. -/
def count? : Note → Option Nat
  | .count n => some n
  | _ => none

/-- The truth value, for a note of truth type. -/
def truth? : Note → Option Bool
  | .truth b => some b
  | _ => none

end Note

end CommandLine
