import CommandLine.Parser.Standard

/-! # Flag groups

    A flag group reads flags up to the end of the line. A token of two hyphens and a name gives the
    flag of that name; a token of one hyphen gives the flag with that alias, or else one flag for
    each letter, none of which may take a value. A flag is admitted when the sender holds its
    permission and when it was not given before, unless it may be repeated.

    The definitions leave open what the parser of a flag is: groups are resolved for any type, read
    when the parsers are readers, and completed when they are pairs of a reader and a suggester. -/

namespace CommandLine

/-- A reader together with a suggester. -/
structure Ability where
  read : Reader
  suggest : Suggester

namespace Flag

variable {P Q : Type}

/-- The flag with a function applied to its parser. -/
def map (f : P → Q) (flag : Flag P) : Flag Q :=
  { flag with value := flag.value.map f }

/-- The flag of a group with a name. -/
def withName? (group : List (Flag P)) (name : String) : Option (Flag P) :=
  group.find? (·.name == name)

/-- The flag of a group with an alias. -/
def withAlias? (group : List (Flag P)) (short : String) : Option (Flag P) :=
  group.find? (·.aliases.contains short)

/-- The flag without a value that has a letter as its alias. -/
def withLetter? (group : List (Flag P)) (letter : Char) : Option (Flag P) :=
  (withAlias? group (String.singleton letter)).filter (·.value.isNone)

/-- The flags that a token gives, in order. -/
def resolve (group : List (Flag P)) (token : String) : Option (List (Flag P)) :=
  match token.toList with
  | '-' :: '-' :: name => (withName? group (String.ofList name)).map ([·])
  | '-' :: letters =>
    match withAlias? group (String.ofList letters) with
    | some flag => some [flag]
    | none => letters.mapM (withLetter? group)
  | _ => none

/-- The tokens of all names and aliases of a group, sorted. They do not say which flag an alias
    belongs to, nor which flags take a value. -/
def signature (group : List (Flag P)) : List String :=
  (group.flatMap fun flag => ("--" ++ flag.name) :: flag.aliases.map ("-" ++ ·)).mergeSort

/-- The error for a token that gives no flag. -/
def unknown (token : String) : ArgumentError :=
  { parser := Parser.flagsName, input := token, reason := .unknownFlag }

/-- An error about a flag that a token gives. -/
def refusal (flag : Flag P) (token : String) (reason : Reason) : ArgumentError :=
  { parser := Parser.flagsName, input := token, reason, facts := [("flag", flag.name)] }

/-- Why a flag may not be given now, if it may not. -/
def objection? (flag : Flag P) (ctx : Context) (token : String) : Option ArgumentError :=
  if !ctx.grants flag.permission then
    some ((flag.refusal token .noFlagPermission).withFact "permission" flag.permission.toText)
  else if !flag.repeatable && ctx.hasFlag flag.name then
    some (flag.refusal token .duplicateFlag)
  else none

/-- Stores the value of a flag that takes none. -/
def given (flag : Flag P) (ctx : Context) : Context :=
  (ctx.store flag.name (.plain (.truth true))).markFlag flag.name

/-- Stores the value of a flag and the text that it was read from. -/
def givenValue (flag : Flag P) (value : Value) (text : String) (ctx : Context) : Context :=
  ((ctx.store flag.name value).recordConsumed flag.name text).markFlag flag.name

/-- Gives a flag: reads its value if it takes one. -/
def read (flag : Flag Reader) (token : String) (ctx : Context) (line : Line) : Reading Unit :=
  match flag.objection? ctx token, flag.value with
  | some e, _ => ⟨.error e, ctx, line⟩
  | none, none => ⟨.ok (), flag.given ctx, line⟩
  | none, some reader =>
    if line.isBlank then ⟨.error (flag.refusal token .missingFlagValue), ctx, line⟩
    else ((reader ctx line).withFact "flag" flag.name).andThen fun value ctx after =>
      ⟨.ok (), flag.givenValue value (after.readSince line) ctx, after⟩

/-- Gives the flags of one token, in order. -/
def readEach (token : String) : List (Flag Reader) → Context → Line → Reading Unit
  | [], ctx, line => ⟨.ok (), ctx, line⟩
  | flag :: rest, ctx, line => (flag.read token ctx line).andThen fun _ => readEach token rest

/-- Reads the flags of at most `fuel` tokens. -/
def readTokens (group : List (Flag Reader)) (fuel : Nat) (ctx : Context) (line : Line) :
    Reading Unit :=
  if line.isBlank then ⟨.ok (), ctx, line⟩
  else match fuel with
    | 0 => ⟨.ok (), ctx, line⟩
    | fuel + 1 =>
      let token := line.peekToken
      match if looksLikeFlag token then resolve group token else none with
      | none => ⟨.error (unknown token), ctx, line.skipToken⟩
      | some flags =>
        (readEach token flags ctx line.skipToken).andThen fun _ => readTokens group fuel

/-- Reads flags up to the end of the line. Each token takes at least one character, so that the
    number of characters left bounds the number of tokens. -/
def readGroup (group : List (Flag Reader)) (ctx : Context) (line : Line) : Reading Unit :=
  readTokens group line.rest.length ctx line

/-- What the token that is being typed belongs to, among the flags of a group. -/
inductive Place where
  /-- It gives a flag. -/
  | name (ctx : Context) (line : Line)
  /-- It is part of the value of a flag. -/
  | value (suggest : Suggester) (ctx : Context) (line : Line)
  /-- The tokens before it are in error. -/
  | nowhere

/-- The outcome of passing the flags of a complete token: the place of the token that is being
    typed, or the context and line after the flags. -/
abbrev Passing := Except Place (Context × Line)

/-- Passes a flag of a complete token. Its value is stored without the text it was read from. -/
def pass (flag : Flag Ability) (ctx : Context) (line : Line) : Passing :=
  match flag.value with
  | none => .ok (ctx.markFlag flag.name, line)
  | some ability =>
    if line.isLastToken then .error (.value ability.suggest ctx line)
    else
      let reading := ability.read ctx line
      match reading.result with
      | .ok value =>
        .ok ((reading.context.store flag.name value).markFlag flag.name, reading.line)
      | .error _ => .error .nowhere

/-- Passes the flags of a complete token, in order. -/
def passEach : List (Flag Ability) → Context → Line → Passing
  | [], ctx, line => .ok (ctx, line)
  | flag :: rest, ctx, line =>
    match flag.pass ctx line with
    | .error place => .error place
    | .ok (ctx, line) => passEach rest ctx line

/-- Passes at most `fuel` complete tokens and says what the token after them belongs to. -/
def locateAfter (group : List (Flag Ability)) (fuel : Nat) (ctx : Context) (line : Line) : Place :=
  if line.isLastToken then .name ctx line
  else match fuel with
    | 0 => .nowhere
    | fuel + 1 =>
      match resolve group line.peekToken with
      | none => .nowhere
      | some flags =>
        match passEach flags ctx line.skipToken with
        | .error place => place
        | .ok (ctx, line) => locateAfter group fuel ctx line

/-- What the last token of a line belongs to. -/
def locate (group : List (Flag Ability)) (ctx : Context) (line : Line) : Place :=
  locateAfter group line.rest.length ctx line

/-- A suggestion for a token that gives the flag. -/
def suggestion (flag : Flag P) (value : String) : Suggestion :=
  { value, description := flag.description }

/-- The tokens that may give a flag of the group now: every name, and the aliases when one hyphen
    and no other was typed first. -/
def suggestNames (group : List (Flag P)) (ctx : Context) (typed : String) : List Suggestion :=
  let withAliases := match typed.toList with
    | '-' :: '-' :: _ => false
    | '-' :: _ => true
    | _ => false
  let offered := group.filter fun flag =>
    ctx.grants flag.permission && !(ctx.hasFlag flag.name && !flag.repeatable)
  Suggestion.matching typed <| offered.flatMap fun flag =>
    flag.suggestion ("--" ++ flag.name) ::
      if withAliases then flag.aliases.map fun short => flag.suggestion ("-" ++ short) else []

/-- Suggests texts for the last token of a line of flags. -/
def suggestGroup (group : List (Flag Ability)) : Suggester := fun ctx line =>
  match locate group ctx line with
  | .name ctx line =>
    let typed := line.peekToken
    if typed != "" && typed.toList.head? != some '-' then return []
    else return suggestNames group ctx typed
  | .value suggest ctx line => suggest ctx line
  | .nowhere => return []

end Flag

end CommandLine
