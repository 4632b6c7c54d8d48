import CommandLine.Toml.Reader

/-! # Settings

    Switches that change how commands are registered and completed. They are read from a TOML
    document: switches that it does not have keep their defaults, and keys that are no switches are
    ignored. -/

namespace CommandLine

/-- Switches that change how commands are registered and completed. -/
structure Settings where
  /-- Literals match up to the case of ASCII letters. -/
  ignoreCase : Bool := false
  /-- A command replaces one with the same path for the same kind of senders. -/
  replaceCommands : Bool := false
  /-- Commands may be added and removed while the tree is locked. -/
  ignoreLock : Bool := false
  /-- Where there is no suggestion, the empty text is suggested. -/
  forceSuggestion : Bool := false
  /-- At most so many suggestions are given. -/
  maxSuggestions : Option Nat := none
deriving DecidableEq, Repr

namespace Settings

/-- A switch of a document, off when the document does not have it. -/
def switch? (entries : List (String × Toml)) (key : String) : Option Bool :=
  match entries.lookup key with
  | none => some false
  | some (.truth b) => some b
  | some _ => none

/-- A limit of a document. -/
def limit? (entries : List (String × Toml)) (key : String) : Option (Option Nat) :=
  match entries.lookup key with
  | none => some none
  | some (.integer n) => if 0 ≤ n then some (some n.toNat) else none
  | some _ => none

/-- The settings that a TOML document spells. -/
def ofToml? (text : String) : Option Settings := do
  let entries ← Toml.ofText? text
  return {
    ignoreCase := ← switch? entries "case_insensitive_literals"
    replaceCommands := ← switch? entries "override_existing_commands"
    ignoreLock := ← switch? entries "allow_unsafe_registration"
    forceSuggestion := ← switch? entries "force_suggestion"
    maxSuggestions := ← limit? entries "max_suggestions" }

/-- A line of a document. -/
def tomlLine (key value : String) : String :=
  key ++ " = " ++ value ++ "\n"

/-- The settings as a TOML document. -/
def toToml (s : Settings) : String :=
  let shown (b : Bool) := if b then "true" else "false"
  tomlLine "case_insensitive_literals" (shown s.ignoreCase) ++
    tomlLine "override_existing_commands" (shown s.replaceCommands) ++
    tomlLine "allow_unsafe_registration" (shown s.ignoreLock) ++
    tomlLine "force_suggestion" (shown s.forceSuggestion) ++
    ((s.maxSuggestions.map fun n => tomlLine "max_suggestions" (Number.showNat n)).getD "")

end Settings

end CommandLine
