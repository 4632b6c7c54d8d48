import CommandLine.Number.Hex

/-! # Universally unique identifiers

    An identifier is 32 hexadecimal digits. It is read from the digits alone, or from groups of 8,
    4, 4, 4 and 12 digits with hyphens between them, which may stand in braces or after `urn:uuid:`;
    it is shown in groups and in lower case.

    These are the forms that identifier libraries document: simple, hyphenated, braced and URN. Of
    identifiers the theorems about parsers use only that they are read from one token, and never
    which tokens are accepted. -/

namespace CommandLine

/-- The hexadecimal digits of an identifier, in lower case. -/
structure Uuid where
  digits : List Char
deriving DecidableEq, Repr

namespace Uuid

/-- The identifier with the given digits of either case. -/
def ofDigits? (cs : List Char) : Option Uuid :=
  if cs.length = 32 && cs.all fun c => (Number.hexValue c).isSome then
    some ⟨cs.map Char.toLower⟩
  else none

/-- The identifier whose digits stand in hyphenated groups. -/
def ofGroups? (cs : List Char) : Option Uuid :=
  if cs.length = 36 && [8, 13, 18, 23].all fun place => cs[place]? == some '-' then
    ofDigits? (cs.take 8 ++ (cs.drop 9).take 4 ++ (cs.drop 14).take 4 ++ (cs.drop 19).take 4 ++
      cs.drop 24)
  else none

/-- The identifier that a text spells. -/
def ofString? (text : String) : Option Uuid :=
  let cs := text.toList
  let urn := "urn:uuid:".toList
  if cs.length = 32 then ofDigits? cs
  else if cs.length = 38 && cs.head? == some '\x7b' && cs.getLast? == some '\x7d' then
    ofGroups? ((cs.drop 1).take 36)
  else if cs.length = 45 && urn.isPrefixOf cs then ofGroups? (cs.drop urn.length)
  else ofGroups? cs

/-- The text of an identifier: hyphenated groups in lower case. -/
def toText (u : Uuid) : String :=
  let group (start size : Nat) := String.ofList ((u.digits.drop start).take size)
  String.intercalate "-" [group 0 8, group 8 4, group 12 4, group 16 4, group 20 12]

end Uuid

end CommandLine
