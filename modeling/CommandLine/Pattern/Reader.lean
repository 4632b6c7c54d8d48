import CommandLine.Number.Hex
import CommandLine.Number.Integer
import CommandLine.Pattern.Basic

/-! # Reading patterns

    A pattern is written as a sequence of characters, sets in brackets, anchors and groups in
    parentheses, each with repetition marks after it; bars separate alternatives. Marks such as
    `(?i)` change how the rest of their group is read. This is the part of the documented syntax of
    regular expressions that checks are written in; a text outside of it is no pattern. No theorem
    depends on how patterns are written. -/

namespace CommandLine.Pattern

/-- How letters, dots and anchors are read. -/
structure Mode where
  ignoreCase : Bool := false
  multiLine : Bool := false
  dotAll : Bool := false

/-- The set of all characters of a named class, if it is one. -/
def classLetter? (c : Char) : Option CharSet :=
  match c with
  | 'd' => some .digit
  | 'D' => some (.not .digit)
  | 'w' => some .word
  | 'W' => some (.not .word)
  | 's' => some .blank
  | 'S' => some (.not .blank)
  | _ => none

/-- The control character that an escaped letter stands for. -/
def controlLetter? (c : Char) : Option Char :=
  [('a', '\x07'), ('f', '\x0c'), ('t', '\t'), ('n', '\n'), ('r', '\r'), ('v', '\x0b')].lookup c

/-- Whether an escaped character stands for itself. -/
def isEscapable (c : Char) : Bool :=
  c.toNat < 0x80 && !c.isAlphanum && c != '<' && c != '>'

/-- The character of a code point given by hexadecimal digits. -/
def charOfHex? (digits : List Char) : Option Char :=
  let code := Number.ofHexDigits digits
  if digits.isEmpty || !(digits.all fun c => (Number.hexValue c).isSome) then none
  else if code < 0xd800 || (0xe000 ≤ code && code < 0x110000) then some (Char.ofNat code)
  else none

/-- Reads a code point: a fixed number of hexadecimal digits, or any number of them in braces. -/
def readCodePoint (width : Nat) (cs : List Char) : Option (Char × List Char) :=
  match cs with
  | '\x7b' :: rest =>
    match rest.dropWhile (· != '\x7d') with
    | _ :: after => (charOfHex? (rest.takeWhile (· != '\x7d'))).map fun c => (c, after)
    | [] => none
  | _ =>
    if (cs.take width).length = width then
      (charOfHex? (cs.take width)).map fun c => (c, cs.drop width)
    else none

/-- Reads an escaped character or class after the backslash. -/
def readEscape (cs : List Char) : Option (CharSet × List Char) :=
  match cs with
  | [] => none
  | 'x' :: rest => (readCodePoint 2 rest).map fun (c, rest) => (.single c, rest)
  | 'u' :: rest => (readCodePoint 4 rest).map fun (c, rest) => (.single c, rest)
  | 'U' :: rest => (readCodePoint 8 rest).map fun (c, rest) => (.single c, rest)
  | c :: rest =>
    match classLetter? c, controlLetter? c with
    | some s, _ => some (s, rest)
    | none, some d => some (.single d, rest)
    | none, none => if isEscapable c then some (.single c, rest) else none

/-- The named sets that may be used inside brackets. -/
def posixSet? (name : String) : Option CharSet :=
  let lower := CharSet.range 'a' 'z'
  let upper := CharSet.range 'A' 'Z'
  let numeral := CharSet.range '0' '9'
  match name with
  | "alpha" => some (.union lower upper)
  | "lower" => some lower
  | "upper" => some upper
  | "digit" => some numeral
  | "alnum" => some (.union numeral (.union lower upper))
  | "word" => some (.union (.single '_') (.union numeral (.union lower upper)))
  | "space" => some (.union (.range '\t' '\r') (.single ' '))
  | "blank" => some (.union (.single '\t') (.single ' '))
  | "xdigit" => some (.union numeral (.union (.range 'a' 'f') (.range 'A' 'F')))
  | "punct" => some (.union (.union (.range '!' '/') (.range ':' '@'))
      (.union (.range '[' '\x60') (.range '\x7b' '~')))
  | "ascii" => some (.range '\x00' '\x7f')
  | "cntrl" => some (.union (.range '\x00' '\x1f') (.single '\x7f'))
  | "graph" => some (.range '!' '~')
  | "print" => some (.range ' ' '~')
  | _ => none

/-- Reads a named set such as `[:alpha:]` after its opening bracket and colon. -/
def readPosix (cs : List Char) : Option (CharSet × List Char) :=
  let negated := cs.head? == some '^'
  let cs := if negated then cs.drop 1 else cs
  match cs.dropWhile Char.isAlpha with
  | ':' :: ']' :: rest =>
    (posixSet? (String.ofList (cs.takeWhile Char.isAlpha))).map fun s =>
      (if negated then .not s else s, rest)
  | _ => none

/-- Reads one character of a set, or a class. -/
def readSetItem (cs : List Char) : Option (CharSet × List Char) :=
  match cs with
  | [] => none
  | '\\' :: rest => readEscape rest
  | c :: rest => some (.single c, rest)

/-- The only character of a set, if it was written as one. -/
def onlyChar? : CharSet → Option Char
  | .range a b => if a = b then some a else none
  | _ => none

/-- Reads the items of a set up to its closing bracket; a bracket that comes `first` is an item. -/
def readSet (fuel : Nat) (first : Bool) (read : CharSet) (cs : List Char) :
    Option (CharSet × List Char) :=
  match fuel with
  | 0 => none
  | fuel + 1 =>
    match cs with
    | [] => none
    | ']' :: rest =>
      if first then readSet fuel false (.union read (.single ']')) rest else some (read, rest)
    | '[' :: ':' :: rest =>
      match readPosix rest with
      | some (s, rest) => readSet fuel false (.union read s) rest
      | none => none
    | '[' :: '^' :: rest =>
      match readSet fuel true .nothing rest with
      | some (s, rest) => readSet fuel false (.union read (.not s)) rest
      | none => none
    | '[' :: rest =>
      match readSet fuel true .nothing rest with
      | some (s, rest) => readSet fuel false (.union read s) rest
      | none => none
    | _ =>
      match readSetItem cs with
      | none => none
      | some (low, '-' :: ']' :: rest) =>
        readSet fuel false (.union read low) ('-' :: ']' :: rest)
      | some (low, '-' :: rest) =>
        match onlyChar? low, readSetItem rest with
        | some a, some (high, rest) =>
          match onlyChar? high with
          | some b =>
            if a ≤ b then readSet fuel false (.union read (.range a b)) rest else none
          | none => none
        | _, _ => none
      | some (item, rest) => readSet fuel false (.union read item) rest

/-- Reads the bounds of a counted repetition after the opening brace. -/
def readBounds (cs : List Char) : Option ((Nat × Option Nat) × List Char) :=
  match Number.readDigits (cs.takeWhile Char.isDigit), cs.dropWhile Char.isDigit with
  | some least, '\x7d' :: rest => some ((least, some least), rest)
  | some least, ',' :: '\x7d' :: rest => some ((least, none), rest)
  | some least, ',' :: rest =>
    match Number.readDigits (rest.takeWhile Char.isDigit), rest.dropWhile Char.isDigit with
    | some most, '\x7d' :: rest => if least ≤ most then some ((least, some most), rest) else none
    | _, _ => none
  | _, _ => none

/-- The text after a mark that asks for as few repetitions as possible. -/
def skipLazy : List Char → List Char
  | '?' :: rest => rest
  | cs => cs

/-- Reads the repetition marks after a pattern. -/
def readTimes (fuel : Nat) (p : Pattern) (cs : List Char) : Option (Pattern × List Char) :=
  match fuel, cs with
  | 0, _ => none
  | fuel + 1, '*' :: rest => readTimes fuel (.times p 0 none) (skipLazy rest)
  | fuel + 1, '+' :: rest => readTimes fuel (.times p 1 none) (skipLazy rest)
  | fuel + 1, '?' :: rest => readTimes fuel (.times p 0 (some 1)) (skipLazy rest)
  | fuel + 1, '\x7b' :: rest =>
    match readBounds rest with
    | some ((least, most), rest) => readTimes fuel (.times p least most) (skipLazy rest)
    | none => none
  | _, _ => some (p, cs)

/-- Reads mode letters; those after a hyphen are switched off. -/
def readMode (mode : Mode) (on : Bool) : List Char → Option (Mode × List Char)
  | 'i' :: rest => readMode { mode with ignoreCase := on } on rest
  | 'm' :: rest => readMode { mode with multiLine := on } on rest
  | 's' :: rest => readMode { mode with dotAll := on } on rest
  | 'U' :: rest => readMode mode on rest
  | 'u' :: rest => if on then readMode mode on rest else none
  | '-' :: rest => if on then readMode mode false rest else none
  | rest => some (mode, rest)

/-- Reads the name of a group with the bracket that closes it. -/
def readGroupName (cs : List Char) : Option (List Char) :=
  let isNameChar (c : Char) : Bool :=
    c.isAlphanum || c == '_' || c == '.' || c == '[' || c == ']' || Text.isAlphabetic c
  let name := cs.takeWhile isNameChar
  match cs.dropWhile isNameChar with
  | '>' :: rest =>
    if name.isEmpty || (name.head?.map Char.isDigit).getD true then none else some rest
  | _ => none

/-- How a group begins: with a pattern of its own in some mode, or as a mark that changes the mode
    of what follows. -/
inductive GroupStart where
  | group (mode : Mode) (rest : List Char)
  | mark (mode : Mode) (rest : List Char)

/-- Reads the beginning of a group after its opening parenthesis. -/
def readGroupStart (mode : Mode) (cs : List Char) : Option GroupStart :=
  match cs with
  | '?' :: 'P' :: '<' :: rest => (readGroupName rest).map (.group mode)
  | '?' :: '<' :: rest => (readGroupName rest).map (.group mode)
  | '?' :: ':' :: rest => some (.group mode rest)
  | '?' :: rest =>
    match readMode mode true rest with
    | some (changed, ':' :: rest) => some (.group changed rest)
    | some (changed, ')' :: after) =>
      if rest.head? == some ')' then none else some (.mark changed after)
    | _ => none
  | _ => some (.group mode cs)

/-- Reads one character, set or anchor. -/
def readAtom (mode : Mode) (cs : List Char) : Option (Pattern × List Char) :=
  match cs with
  | [] => none
  | '.' :: rest => some (.chars false (if mode.dotAll then .all else .anyButNewline), rest)
  | '^' :: rest => some (.start mode.multiLine, rest)
  | '$' :: rest => some (.stop mode.multiLine, rest)
  | '\\' :: 'b' :: rest => some (.wordEdge true, rest)
  | '\\' :: 'B' :: rest => some (.wordEdge false, rest)
  | '\\' :: 'A' :: rest => some (.start false, rest)
  | '\\' :: 'z' :: rest => some (.stop false, rest)
  | '\\' :: rest => (readEscape rest).map fun (s, rest) => (.chars mode.ignoreCase s, rest)
  | '[' :: '^' :: rest =>
    (readSet (rest.length + 1) true .nothing rest).map fun (s, rest) =>
      (.chars mode.ignoreCase (.not s), rest)
  | '[' :: rest =>
    (readSet (rest.length + 1) true .nothing rest).map fun (s, rest) =>
      (.chars mode.ignoreCase s, rest)
  | c :: rest =>
    if ['*', '+', '?', '\x7b'].contains c then none
    else some (.chars mode.ignoreCase (.single c), rest)

/-- Reads the alternatives of a group up to its closing parenthesis or the end of the text. `others`
    holds the alternatives before the current one, and `current` what was read of that one. -/
def readGroup (fuel : Nat) (mode : Mode) (others : Option Pattern) (current : Pattern)
    (cs : List Char) : Option (Pattern × List Char) :=
  let joined := match others with
    | none => current
    | some p => .alt p current
  match fuel, cs with
  | 0, _ => none
  | _, [] => some (joined, [])
  | _, ')' :: _ => some (joined, cs)
  | fuel + 1, '|' :: rest => readGroup fuel mode (some joined) .empty rest
  | fuel + 1, '(' :: rest =>
    match readGroupStart mode rest with
    | none => none
    | some (.mark changed rest) => readGroup fuel changed others current rest
    | some (.group inner rest) =>
      match readGroup fuel inner none .empty rest with
      | some (p, ')' :: rest) =>
        match readTimes (rest.length + 1) p rest with
        | some (p, rest) => readGroup fuel mode others (.seq current p) rest
        | none => none
      | _ => none
  | fuel + 1, _ =>
    match readAtom mode cs with
    | none => none
    | some (p, rest) =>
      match readTimes (rest.length + 1) p rest with
      | some (p, rest) => readGroup fuel mode others (.seq current p) rest
      | none => none

/-- The pattern that a text describes. -/
def ofText? (text : String) : Option Pattern :=
  let cs := text.toList
  match readGroup (cs.length + 1) {} none .empty cs with
  | some (p, []) => some p
  | _ => none

end CommandLine.Pattern
