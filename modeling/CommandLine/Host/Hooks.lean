import CommandLine.Dispatcher
import CommandLine.Pattern.Check

/-! # What a host does around commands

    Checks, preprocessors, postprocessors, defaults and handlers of a host, and the notes that they
    read. -/

namespace CommandLine.Host

/-- Refuses senders below a level. -/
def minLevel (least : Int) : Check := fun ctx line =>
  if ctx.sender.level < least then some
    { parser := "level", input := line.peekToken, reason := .custom "level too low",
      facts := [("min", Number.showInt least)] }
  else none

/-- Stops lines with a number sign. -/
def stopComments : Preprocessor := fun ctx line =>
  if line.text.contains '#' then .error "comment" else .ok ctx

/-- The name of the note on who typed a line. -/
def sourceNote : String := "source"

/-- The name of the note on the byte length of a line. -/
def lengthNote : String := "length"

/-- Notes who typed a line and how long it is. -/
def tagSource : Preprocessor := fun ctx line =>
  .ok ((ctx.note sourceNote (.text ctx.sender.name)).note lengthNote
    (.count (Text.byteLength line.text)))

/-- Stores a value before any argument is read. -/
def seed : Preprocessor := fun ctx _ =>
  .ok (ctx.store "seed" (.box (.integer 1)))

/-- The name of the note that a command must be confirmed. -/
def confirmNote : String := "confirm"

/-- The name of the note on the time to wait after a command. -/
def cooldownNote : String := "cooldown"

/-- The name of the note with the label of a command. -/
def labelNote : String := "label"

/-- The time to wait that is noted on a command. -/
def cooldown? (notes : Store Note) : Option Nat :=
  (notes.get? cooldownNote).bind Note.count?

/-- Whether it is noted that a command must be confirmed. -/
def confirm? (notes : Store Note) : Option Bool :=
  (notes.get? confirmNote).bind Note.truth?

/-- The label that is noted on a command. -/
def label? (notes : Store Note) : Option String :=
  (notes.get? labelNote).bind Note.text?

/-- Stops commands that must be confirmed, for senders of low level. -/
def askConfirmation : Postprocessor := fun c ctx =>
  if (confirm? c.notes).getD false && ctx.sender.level < 10 then .error "needs confirmation"
  else .ok ctx

/-- Removes the amount and stores the time to wait after a command. -/
def storeCooldown : Postprocessor := fun c ctx =>
  .ok ((ctx.remove "amount").store "cooldown"
    (.box (.integer ((cooldown? c.notes).getD 0 : Nat))))

/-- The default that is the level of the sender. -/
def levelDefault : Default :=
  .computed fun ctx => .box (.integer ctx.sender.level)

/-- The default that is the name of the sender. -/
def nameDefault : Default :=
  .computed fun ctx => .plain (.text ctx.sender.name)

/-- The default that is a copy of the value under a key. -/
def copyDefault (key : String) : Default :=
  .computed fun ctx => .box (.copy (ctx.boxed? key))

/-- Writes down a label and the context. -/
def record (label : String) : Handler := fun context =>
  { log := [{ label, context }] }

/-- Breaks off. -/
def breakOff : Handler := fun _ =>
  { ending := .brokeOff "panic" }

/-- Fails with a message. -/
def failWith (message : String) : Handler := fun _ =>
  { ending := .failed message }

end CommandLine.Host
