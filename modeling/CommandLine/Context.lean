import CommandLine.Number.Integer
import CommandLine.Permission
import CommandLine.Value

/-! # Contexts

    What is known while a line is parsed: who typed it, the values and consumed texts of the
    arguments read so far, how often each flag was given, notes of the surrounding program, and how
    permissions are checked. -/

namespace CommandLine

/-- What is known while a line is parsed. -/
structure Context where
  sender : Sender
  values : Store Value := .empty
  consumed : Store String := .empty
  flags : Store Nat := .empty
  notes : Store Note := .empty
  /-- Whether the line is parsed to find suggestions. -/
  suggesting : Bool := false
  /-- Without a checker every permission is granted. -/
  checker : Option Checker := none

namespace Context

/-- Whether the sender holds a permission. -/
def grants (ctx : Context) (permission : Permission) : Bool :=
  match ctx.checker with
  | none => true
  | some checker => permission.evaluate (checker ctx.sender)

/-- A permission is granted if the rights that the checker gives to the sender are enough for it,
    and of the checker nothing else is asked. -/
theorem grants_iff (ctx : Context) (permission : Permission) :
    ctx.grants permission = true ↔
      ∀ checker, ctx.checker = some checker →
        permission.Held fun right => checker ctx.sender right = true := by
  rw [grants]
  cases ctx.checker with
  | none => simp
  | some checker =>
      rw [permission.evaluate_iff]
      simp only [Option.some.injEq, forall_eq']

/-- A checker that gives the sender more rights grants what was granted before. -/
theorem grants_mono {ctx other : Context}
    (hmore : ∀ more, other.checker = some more → ∃ checker, ctx.checker = some checker ∧
      ∀ right, checker ctx.sender right = true → more other.sender right = true)
    {permission : Permission} (h : ctx.grants permission = true) :
    other.grants permission = true := by
  rw [grants_iff] at h ⊢
  intro more hchecker
  obtain ⟨checker, hbefore, hrights⟩ := hmore more hchecker
  exact (h checker hbefore).mono hrights

/-- The value under a key. -/
def value? (ctx : Context) (key : String) : Option Value :=
  ctx.values.get? key

/-- The data under a key, for a value of the common type. -/
def boxed? (ctx : Context) (key : String) : Option Datum :=
  (ctx.value? key).bind Value.boxed?

/-- The context with a value under a key. -/
def store (ctx : Context) (key : String) (value : Value) : Context :=
  { ctx with values := ctx.values.put key value }

/-- The context with the text that was read for a key. -/
def recordConsumed (ctx : Context) (key : String) (text : String) : Context :=
  { ctx with consumed := ctx.consumed.put key text }

/-- The text that was read for a key. -/
def consumed? (ctx : Context) (key : String) : Option String :=
  ctx.consumed.get? key

/-- The context without the value under a key and the text that was read for it. -/
def remove (ctx : Context) (key : String) : Context :=
  { ctx with values := ctx.values.erase key, consumed := ctx.consumed.erase key }

/-- Copies the value under a key to another key, if there is one. -/
def copy (ctx : Context) (key target : String) : Option Context :=
  (ctx.value? key).map (ctx.store target)

/-- How often a flag was given. -/
def flagCount (ctx : Context) (name : String) : Nat :=
  (ctx.flags.get? name).getD 0

/-- Whether a flag was given. -/
def hasFlag (ctx : Context) (name : String) : Bool :=
  ctx.flags.contains name

/-- The context in which a flag was given once more. -/
def markFlag (ctx : Context) (name : String) : Context :=
  { ctx with flags := ctx.flags.put name (ctx.flagCount name + 1) }

/-- The context with a note under a key. -/
def note (ctx : Context) (key : String) (note : Note) : Context :=
  { ctx with notes := ctx.notes.put key note }

/-- The form of a context that shows its keys and flags. -/
def describe (ctx : Context) : String :=
  let present := ctx.flags.sorted.map fun (name, count) =>
    Text.quoted name ++ ": " ++ Number.showNat count
  Text.record "CommandContext"
    [("values", Text.bracketed (ctx.values.sortedNames.map Text.quoted)),
     ("flags", Text.record "FlagContext" [("present", Text.braced present)]),
     ("suggestions", if ctx.suggesting then "true" else "false")]

end Context

end CommandLine
