import CommandLine.Toml.Scalar

/-! # Reading TOML documents

    Headers, keys and values are read as the TOML specification writes them, one after the other;
    anything else makes the text no document. No theorem depends on which texts are documents. -/

namespace CommandLine.Toml

/-- The text after spaces and tabs. -/
def skipSpace (cs : List Char) : List Char :=
  cs.dropWhile fun c => c == ' ' || c == '\t'

/-- The text after a comment, if one starts here; a comment of other characters is refused. -/
def skipComment (cs : List Char) : Option (List Char) :=
  match cs with
  | '#' :: rest =>
    let after := rest.dropWhile isShown
    if after.isEmpty || (lineEnd? after).isSome then some after else none
  | _ => some cs

/-- The text after white space, comments and line ends. -/
def skipLines (fuel : Nat) (cs : List Char) : Option (List Char) :=
  match fuel with
  | 0 => none
  | fuel + 1 =>
    match skipComment (skipSpace cs) with
    | none => none
    | some rest =>
      match lineEnd? rest with
      | some rest => skipLines fuel rest
      | none => some rest

/-- Whether a character may stand in a key without quotes. -/
def isKeyChar (c : Char) : Bool :=
  c.isAlphanum || c == '_' || c == '-'

/-- Reads one part of a key. -/
def readKeyPart (cs : List Char) : Option (String × List Char) :=
  match cs with
  | '"' :: rest => readText '"' (cs.length + 1) [] rest
  | '\'' :: rest => readText '\'' (cs.length + 1) [] rest
  | _ =>
    let bare := cs.takeWhile isKeyChar
    if bare.isEmpty then none else some (String.ofList bare, cs.dropWhile isKeyChar)

/-- Reads the parts of a dotted key and the white space after it. -/
def readKey (fuel : Nat) (cs : List Char) : Option (List String × List Char) :=
  match fuel with
  | 0 => none
  | fuel + 1 =>
    match readKeyPart (skipSpace cs) with
    | none => none
    | some (part, rest) =>
      match skipSpace rest with
      | '.' :: rest => (readKey fuel rest).map fun (parts, rest) => (part :: parts, rest)
      | rest => some ([part], rest)

/-- Whether a character may stand in a word. -/
def isWordChar (c : Char) : Bool :=
  c.isAlphanum || c == '_' || c == '-' || c == '+' || c == '.' || c == ':'

/-- Reads a word; a date may be followed by a space and a time of day. -/
def readWord (cs : List Char) : Option (Toml × List Char) :=
  let word := cs.takeWhile isWordChar
  let rest := cs.dropWhile isWordChar
  let longer := word ++ ' ' :: (rest.drop 1).takeWhile isWordChar
  if isDate word && rest.head? == some ' ' && isMoment longer then
    some (.moment (String.ofList longer), (rest.drop 1).dropWhile isWordChar)
  else (ofWord? word).map fun value => (value, rest)

mutual

/-- Reads a value. -/
def readValue (fuel : Nat) (cs : List Char) : Option (Toml × List Char) :=
  match fuel with
  | 0 => none
  | fuel + 1 =>
    match cs with
    | '"' :: _ => (readQuoted '"' cs).map fun (s, rest) => (.text s, rest)
    | '\'' :: _ => (readQuoted '\'' cs).map fun (s, rest) => (.text s, rest)
    | '[' :: rest => (readItems fuel rest).map fun (items, rest) => (.array items, rest)
    | '\x7b' :: rest =>
      match skipSpace rest with
      | '\x7d' :: rest => some (.inline [], rest)
      | rest => (readPairs fuel ⟨.header, []⟩ rest).map fun (t, rest) => (.inline t.entries, rest)
    | _ => readWord cs

/-- Reads the items of an array up to its closing bracket. -/
def readItems (fuel : Nat) (cs : List Char) : Option (List Toml × List Char) :=
  match fuel with
  | 0 => none
  | fuel + 1 =>
    match skipLines (cs.length + 1) cs with
    | none => none
    | some (']' :: rest) => some ([], rest)
    | some rest =>
      match readValue fuel rest with
      | none => none
      | some (item, rest) =>
        match skipLines (rest.length + 1) rest with
        | some (']' :: rest) => some ([item], rest)
        | some (',' :: rest) =>
          (readItems fuel rest).map fun (items, rest) => (item :: items, rest)
        | _ => none

/-- Reads the pairs of an inline table that has at least one, up to its closing brace. -/
def readPairs (fuel : Nat) (t : Table) (cs : List Char) : Option (Table × List Char) :=
  match fuel with
  | 0 => none
  | fuel + 1 =>
    match readKey (cs.length + 1) cs with
    | some (path, '=' :: rest) =>
      match readValue fuel (skipSpace rest) with
      | none => none
      | some (value, rest) =>
        match t.addDotted path value, skipSpace rest with
        | some t, '\x7d' :: rest => some (t, rest)
        | some t, ',' :: rest => readPairs fuel t rest
        | _, _ => none
    | _ => none

end

/-- Reads the end of a line: white space, an optional comment, and a line end or the end of the
    document. -/
def readLineEnd (cs : List Char) : Option (List Char) :=
  match skipComment (skipSpace cs) with
  | none => none
  | some [] => some []
  | some rest => lineEnd? rest

/-- Reads the lines of a document. Pairs go into the table at `path`. -/
def readLines (fuel : Nat) (path : List String) (document : Table) (cs : List Char) :
    Option Table :=
  match fuel with
  | 0 => none
  | fuel + 1 =>
    match skipLines (cs.length + 1) cs with
    | none => none
    | some [] => some document
    | some ('[' :: '[' :: rest) =>
      match readKey (rest.length + 1) rest with
      | some (path, ']' :: ']' :: rest) =>
        match document.openElement path, readLineEnd rest with
        | some document, some rest => readLines fuel path document rest
        | _, _ => none
      | _ => none
    | some ('[' :: rest) =>
      match readKey (rest.length + 1) rest with
      | some (path, ']' :: rest) =>
        match document.openHeader path, readLineEnd rest with
        | some document, some rest => readLines fuel path document rest
        | _, _ => none
      | _ => none
    | some rest =>
      match readKey (rest.length + 1) rest with
      | some (key, '=' :: rest) =>
        match readValue (rest.length + 1) (skipSpace rest) with
        | none => none
        | some (value, rest) =>
          match document.descend false (·.addDotted key value) path, readLineEnd rest with
          | some document, some rest => readLines fuel path document rest
          | _, _ => none
      | _ => none

/-- The text after a byte order mark, if there is one. -/
def skipByteOrderMark : List Char → List Char
  | '\ufeff' :: cs => cs
  | cs => cs

/-- The entries of the document that a text spells. -/
def ofText? (text : String) : Option (List (String × Toml)) :=
  let cs := skipByteOrderMark text.toList
  (readLines (cs.length + 1) [] ⟨.header, []⟩ cs).map (·.entries)

end CommandLine.Toml
