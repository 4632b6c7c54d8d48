import CommandLine.Registry
import CommandLine.Value.Json

/-! # Parsers of a host

    A host is a program that takes commands. This host gives all its parsers the common type of
    boxed values. It has a parser for words it knows, one that counts how often it is asked for
    suggestions, functions that refine the values of other parsers, and a suggester that shows what
    it is asked with. -/

namespace CommandLine.Host

/-- The word that a token is, if the host knows it. -/
def interpretKnown (words : List String) (token : String) : Except ArgumentError Value :=
  if words.contains token then .ok (.plain (.text token))
  else .error { parser := "known", input := token, reason := .unknownValue }

/-- Reads a word of a list. The host may have to look the list up. -/
def known (words : List String) : Parser :=
  .host
    { name := "known"
      waits := true
      read := .ofToken "known" (interpretKnown words)
      suggest := Parser.always (words.map .ofText) }

/-- Suggests the token that is being typed with the number of earlier calls. -/
def suggestCount (slot : Nat) : Suggester := fun _ line => do
  let count := (← get).callCount slot
  modify (·.countCall slot)
  return [.ofText (line.peekToken ++ "-" ++ Number.showNat count)]

/-- Reads any token, also the empty one at the end of a line, and counts calls for suggestions. -/
def counting (slot : Nat) : Parser :=
  .host
    { name := "counting"
      read := fun ctx line => ⟨.ok (.plain (.text line.peekToken)), ctx, line.skipToken⟩
      suggest := suggestCount slot }

/-- How long remembered suggestions live when nothing else is said: five minutes. -/
def defaultLifetime : Nat := 300000

/-- A parser whose values have the common type. -/
def boxed (p : Parser) : Parser :=
  .map (fun v => .box v.data) p

/-- A parser whose values are marked as mapped. -/
def mapped (p : Parser) : Parser :=
  .map (fun v => .box (.mapped v.data)) p

/-- Adds the level of the sender to an integer, up to one hundred. -/
def addLevel (ctx : Context) (v : Value) : Except ArgumentError Value :=
  match v.data with
  | .integer n =>
    let sum := n + ctx.sender.level
    if Number.fitsInt64 sum && sum ≤ 100 then .ok (.box (.integer sum))
    else .error
      { parser := "offset", input := Number.showInt n, reason := .outOfRange,
        facts := [("level", Number.showInt ctx.sender.level)] }
  | _ => .error { parser := "offset", input := "", reason := .custom "not an integer" }

/-- Refuses every value. -/
def refuse (parser : String) : Except ArgumentError Value :=
  .error { parser, input := "", reason := .unknownValue }

/-- The boxed values of some parts, by their names. -/
def collect (names : List String) (ctx : Context) : Except ArgumentError Value :=
  .ok (.box (.fields (names.map fun name => (name, ctx.boxed? name))))

/-- The sum of boxed integers, starting from `total`. -/
def sumFrom (ctx : Context) (total : Int) : List String → Except ArgumentError Value
  | [] => .ok (.box (.integer total))
  | name :: rest =>
    match ctx.boxed? name with
    | some (.integer n) =>
      if Number.fitsInt64 (total + n) then sumFrom ctx (total + n) rest
      else .error { parser := "sum", input := name, reason := .custom "cannot add" }
    | _ => .error { parser := "sum", input := name, reason := .custom "cannot add" }

/-- The sum of the boxed values of some parts. -/
def sum (names : List String) (ctx : Context) : Except ArgumentError Value :=
  sumFrom ctx 0 names

/-- Shows what a suggester is asked with: what is left of the line, whether the context is one for
    suggestions, and the values in it. -/
def suggestContext : Suggester := fun ctx line =>
  let labelled (text : String) : String := line.peekToken ++ ":" ++ text
  let rest : Suggestion := { value := labelled "rest", description := line.remaining }
  let marker : List Suggestion := if ctx.suggesting then [.ofText (labelled "suggesting")] else []
  let values : List Suggestion := ctx.values.sorted.map fun (key, v) =>
    { value := labelled key, description := v.data.toJson.render }
  return rest :: marker ++ values

/-- Ways to play, with what they are for. -/
def gameModes : List Variant :=
  [⟨"survival", some "Regular play"⟩, ⟨"creative", some "Unlimited blocks"⟩, ⟨"spectator", none⟩]

/-- Colors. -/
def colors : List Variant :=
  [⟨"red", none⟩, ⟨"Blue", none⟩, ⟨"grÜn", none⟩]

/-- The way to play of a name, or the error text. -/
def gameMode? (name : String) : Except String Variant :=
  match Parser.findVariant gameModes name with
  | some v => .ok v
  | none => .error ("Unknown GameMode: " ++ name)

end CommandLine.Host
