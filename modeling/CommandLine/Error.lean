import CommandLine.Text.Quoted

/-! # Why a line is refused

    Errors are causes; their wording is in the `message` functions. An argument error says which
    parser refused which text. A failure says why a line leads to no command. A registration error
    says why a command cannot be added or removed, and a run error why running a line did not
    succeed. -/

namespace CommandLine

/-- Why a parser refuses a text. -/
inductive Reason where
  /-- No token is left. -/
  | noInput
  /-- The token does not spell a value of the wanted type. -/
  | invalidFormat
  /-- The value is not between the bounds. -/
  | outOfRange
  /-- The token names no known value. -/
  | unknownValue
  /-- The parser may have to wait for its answer, and was asked not to. -/
  | needsWaiting
  /-- The token names no flag of the group. -/
  | unknownFlag
  /-- The flag was given before and may be given only once. -/
  | duplicateFlag
  /-- No value follows the flag. -/
  | missingFlagValue
  /-- The sender does not hold the permission of the flag. -/
  | noFlagPermission
  /-- The token does not match a pattern. -/
  | patternMismatch
  /-- A cause that only the parser knows. -/
  | custom (message : String)
deriving DecidableEq, Repr

/-- The wording of a reason. -/
def Reason.message : Reason → String
  | .noInput => "no input provided"
  | .invalidFormat => "invalid format"
  | .outOfRange => "out of range"
  | .unknownValue => "unknown value"
  | .needsWaiting => "parser requires asynchronous parsing"
  | .unknownFlag => "unknown flag"
  | .duplicateFlag => "duplicate flag"
  | .missingFlagValue => "missing flag value"
  | .noFlagPermission => "no permission for flag"
  | .patternMismatch => "does not match the expected pattern"
  | .custom message => message

/-- The refusal of a text by a parser, with facts about it by name. -/
structure ArgumentError where
  parser : String
  input : String
  reason : Reason
  facts : List (String × String) := []
deriving DecidableEq, Repr

namespace ArgumentError

/-- The refusal of a parser that found no token. -/
def noInput (parser : String) : ArgumentError :=
  { parser, input := "", reason := .noInput }

/-- The error with one more fact, after the others. -/
def withFact (e : ArgumentError) (name value : String) : ArgumentError :=
  { e with facts := e.facts ++ [(name, value)] }

/-- The first fact of a name. -/
def fact? (e : ArgumentError) (name : String) : Option String :=
  e.facts.lookup name

/-- The wording of an argument error. -/
def message (e : ArgumentError) : String :=
  e.parser ++ " failed to parse '" ++ e.input ++ "': " ++ e.reason.message ++
    String.join (e.facts.map fun (name, value) => " [" ++ name ++ "=" ++ value ++ "]")

end ArgumentError

/-- Why a line leads to no command. -/
inductive Failure where
  /-- The first token starts no command. -/
  | noSuchCommand (token : String)
  /-- The rest of the line fits nothing at the place that was reached. -/
  | invalidSyntax (input : String) (expected : List String)
  /-- A parser refused the text of an argument. -/
  | badArgument (argument : String) (cause : ArgumentError)
  /-- The sender does not hold a permission. -/
  | noPermission (permission : String)
  /-- The commands at the place that was reached are for other kinds of senders. -/
  | invalidSender (required : List String)
  /-- A preprocessor stopped the line. -/
  | interrupted (reason : String)
deriving DecidableEq, Repr

/-- The wording of an interruption. -/
def interruptionMessage (reason : String) : String :=
  "Command processing interrupted: " ++ reason

/-- The wording of a failure. -/
def Failure.message : Failure → String
  | .noSuchCommand token => "No such command: " ++ token
  | .invalidSyntax input expected =>
    "Invalid syntax at '" ++ input ++ "', expected one of " ++ Text.bracketed expected
  | .badArgument argument cause => "Invalid argument '" ++ argument ++ "': " ++ cause.message
  | .noPermission permission => "Missing permission: " ++ permission
  | .invalidSender required => "Sender must be one of " ++ Text.bracketed required
  | .interrupted reason => interruptionMessage reason

/-- Why a command cannot be added or removed. A path is the usage text of a command or the name of a
    node. -/
inductive RegistrationError where
  /-- The command has no components. -/
  | emptyCommand
  /-- The node has an argument of another name. -/
  | ambiguousNode (node existing conflicting : String)
  /-- A name of the literal is taken by another literal at the node. -/
  | duplicateAlias (node name : String)
  /-- The path has a command for the same kind of senders. -/
  | duplicateCommand (path : String)
  /-- A literal or required argument follows an optional argument. -/
  | requiredAfterOptional (path component : String)
  /-- A component follows one that leaves nothing to read. -/
  | unreachableAfterGreedy (path component : String)
  /-- The node has a group of other flags. -/
  | conflictingFlags (path : String)
  /-- Two components use the same key. -/
  | duplicateKey (path key : String)
  /-- The tree is locked. -/
  | treeLocked
  /-- The tree does not have the command. -/
  | unknownCommand (path : String)
deriving DecidableEq, Repr

/-- The wording of a registration error. -/
def RegistrationError.message : RegistrationError → String
  | .emptyCommand => "Command has no components"
  | .ambiguousNode node existing conflicting =>
    "Ambiguous node '" ++ node ++ "': argument '" ++ conflicting ++
      "' conflicts with existing argument '" ++ existing ++ "'"
  | .duplicateAlias node name =>
    "Literal '" ++ name ++ "' below '" ++ node ++ "' is already registered"
  | .duplicateCommand path => "Command '" ++ path ++ "' is already registered"
  | .requiredAfterOptional path component =>
    "Required component '" ++ component ++ "' follows an optional one in '" ++ path ++ "'"
  | .unreachableAfterGreedy path component =>
    "Component '" ++ component ++ "' follows a greedy argument in '" ++ path ++ "'"
  | .conflictingFlags path => "Conflicting flag sets registered for '" ++ path ++ "'"
  | .duplicateKey path key =>
    "Key '" ++ key ++ "' is used by more than one component of '" ++ path ++ "'"
  | .treeLocked => "Command tree is locked"
  | .unknownCommand path => "Unknown command: " ++ path

/-- Why running a line did not succeed. -/
inductive RunError where
  /-- The line leads to no command. -/
  | parse (failure : Failure)
  /-- A postprocessor stopped the command. -/
  | interrupted (reason : String)
  /-- The handler of the command failed. -/
  | handler (message : String)
  /-- The handler broke off on a task of its own. -/
  | task (message : String)
deriving DecidableEq, Repr

/-- The wording of a run error. -/
def RunError.message : RunError → String
  | .parse failure => "Parse error: " ++ failure.message
  | .interrupted reason => interruptionMessage reason
  | .handler message => "Execution error: Command handler failed: " ++ message
  | .task message => "Execution error: Command task failed: " ++ message

end CommandLine
