import CommandLine.Number.Digits

/-! # Integers of 64 bits

    Integers are written in decimal, with a sign when negative. A text is read as an integer when it
    is an optional sign and at least one digit, and its value fits into 64 bits. -/

namespace CommandLine.Number

/-- The least integer of 64 bits. -/
def minInt64 : Int := -9223372036854775808

/-- The greatest integer of 64 bits. -/
def maxInt64 : Int := 9223372036854775807

/-- Whether an integer fits into 64 bits. -/
def fitsInt64 (n : Int) : Bool :=
  minInt64 ≤ n && n ≤ maxInt64

/-- The decimal characters of an integer. -/
def intDigits (n : Int) : List Char :=
  if n < 0 then '-' :: digits n.natAbs else digits n.natAbs

/-- The decimal text of an integer. -/
def showInt (n : Int) : String :=
  String.ofList (intDigits n)

/-- The decimal text of a natural number. -/
def showNat (n : Nat) : String :=
  String.ofList (digits n)

/-- The value of at least one decimal digit. -/
def readDigits (cs : List Char) : Option Nat :=
  if cs.isEmpty || !cs.all Char.isDigit then none else some (ofDigits cs)

/-- The value of an optional sign and at least one decimal digit. -/
def readSigned : List Char → Option Int
  | '-' :: cs => (readDigits cs).map fun n => -(n : Int)
  | '+' :: cs => (readDigits cs).map fun n => (n : Int)
  | cs => (readDigits cs).map fun n => (n : Int)

/-- The 64-bit integer that a text spells. -/
def readInt (text : String) : Option Int :=
  (readSigned text.toList).filter fitsInt64

/-- Reading the digits of a natural number gives it back. -/
theorem readDigits_digits (n : Nat) : readDigits (digits n) = some n := by
  have hall : (digits n).all Char.isDigit = true :=
    List.all_eq_true.2 fun _ hc => isDigit_of_mem_digits hc
  simp [readDigits, digits_ne_nil, hall, ofDigits_digits]

/-- A text that starts with a digit has no sign. -/
theorem readSigned_of_isDigit {c : Char} (cs : List Char) (h : c.isDigit = true) :
    readSigned (c :: cs) = (readDigits (c :: cs)).map fun n => (n : Int) := by
  unfold readSigned
  split
  · simp_all [Char.isDigit]
  · simp_all [Char.isDigit]
  · rfl

/-- Reading the decimal text of an integer gives it back. -/
theorem readSigned_intDigits (n : Int) : readSigned (intDigits n) = some n := by
  unfold intDigits
  split
  · next h =>
    have : -(n.natAbs : Int) = n := by omega
    change (readDigits (digits n.natAbs)).map (fun m => -(m : Int)) = some n
    rw [readDigits_digits]
    exact congrArg some this
  · next h =>
    have hn : (n.natAbs : Int) = n := by omega
    have hd := readDigits_digits n.natAbs
    cases hcs : digits n.natAbs with
    | nil => exact absurd hcs (digits_ne_nil _)
    | cons c cs =>
        have hc : c.isDigit = true := isDigit_of_mem_digits (hcs ▸ List.mem_cons_self)
        rw [readSigned_of_isDigit cs hc, ← hcs, hd]
        exact congrArg some hn

/-- An integer of 64 bits is read back from its text. -/
theorem readInt_showInt {n : Int} (h : fitsInt64 n = true) : readInt (showInt n) = some n := by
  simp [readInt, showInt, readSigned_intDigits, h]

end CommandLine.Number
