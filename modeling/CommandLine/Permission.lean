import CommandLine.Text.Quoted

/-! # Permissions

    A permission is nothing, one named right, or a combination of permissions of which any or all
    must be held. Whether a sender holds a named right is for a checker to say;
    `Permission.evaluate` extends the checker to combinations, however they are nested
    (`Permission.evaluate_iff`). -/

namespace CommandLine

/-- Whoever types a line. -/
structure Sender where
  name : String
  kind : String
  level : Int
  rights : List String
deriving DecidableEq, Repr

/-- Says whether a sender holds a named right. -/
abbrev Checker := Sender → String → Bool

namespace Checker

/-- Every sender holds every right. -/
def all : Checker :=
  fun _ _ => true

/-- A sender holds the rights in its list, and every right if the list has an asterisk. -/
def listed : Checker :=
  fun sender right => sender.rights.contains right || sender.rights.contains "*"

end Checker

/-- What a sender must hold. -/
inductive Permission where
  /-- Nothing needs to be held. -/
  | empty
  /-- A named right. -/
  | right (name : String)
  /-- At least one of some permissions. -/
  | anyOf (members : List Permission)
  /-- All of some permissions. -/
  | allOf (members : List Permission)
deriving Inhabited

namespace Permission

/-- The permission of that name; the empty name asks for nothing. -/
def named (name : String) : Permission :=
  if name = "" then .empty else .right name

/-- Whether a permission asks for nothing. -/
def isEmpty : Permission → Bool
  | .empty => true
  | _ => false

mutual

/-- Whether the rights that satisfy `holds` are enough for a permission. -/
def evaluate (holds : String → Bool) : Permission → Bool
  | .empty => true
  | .right name => holds name
  | .anyOf members => evaluateAny holds members
  | .allOf members => evaluateAll holds members

/-- Whether the rights are enough for at least one of some permissions. -/
def evaluateAny (holds : String → Bool) : List Permission → Bool
  | [] => false
  | p :: rest => p.evaluate holds || evaluateAny holds rest

/-- Whether the rights are enough for all of some permissions. -/
def evaluateAll (holds : String → Bool) : List Permission → Bool
  | [] => true
  | p :: rest => p.evaluate holds && evaluateAll holds rest

end

mutual

/-- The text of a permission: a name, or alternatives between bars, or requirements between commas,
    in parentheses. -/
def toText : Permission → String
  | .empty => ""
  | .right name => name
  | .anyOf members => "(" ++ Text.joined "|" (toTexts members) ++ ")"
  | .allOf members => "(" ++ Text.joined "," (toTexts members) ++ ")"

/-- The texts of some permissions. -/
def toTexts : List Permission → List String
  | [] => []
  | p :: rest => p.toText :: toTexts rest

end

mutual

/-- The form of a permission that shows how it is built. -/
def describe : Permission → String
  | .empty => "Empty"
  | .right name => "Node(" ++ Text.quoted name ++ ")"
  | .anyOf members => "AnyOf(" ++ Text.bracketed (describeAll members) ++ ")"
  | .allOf members => "AllOf(" ++ Text.bracketed (describeAll members) ++ ")"

/-- The forms of some permissions. -/
def describeAll : List Permission → List String
  | [] => []
  | p :: rest => p.describe :: describeAll rest

end

theorem evaluateAny_eq (holds : String → Bool) (members : List Permission) :
    evaluateAny holds members = members.any (evaluate holds) := by
  induction members with
  | nil => rfl
  | cons p rest ih => simp [evaluateAny, ih]

theorem evaluateAll_eq (holds : String → Bool) (members : List Permission) :
    evaluateAll holds members = members.all (evaluate holds) := by
  induction members with
  | nil => rfl
  | cons p rest ih => simp [evaluateAll, ih]

/-- What rights are enough for a permission. -/
inductive Held (holds : String → Prop) : Permission → Prop where
  | empty : Held holds .empty
  | right {name : String} (held : holds name) : Held holds (.right name)
  | anyOf {p : Permission} {members : List Permission} (mem : p ∈ members) (held : Held holds p) :
      Held holds (.anyOf members)
  | allOf {members : List Permission} (held : ∀ p ∈ members, Held holds p) :
      Held holds (.allOf members)

/-- More rights are enough for whatever fewer are enough for. -/
theorem Held.mono {holds more : String → Prop} (hmore : ∀ name, holds name → more name)
    {p : Permission} (h : p.Held holds) : p.Held more := by
  induction h with
  | empty => exact .empty
  | right held => exact .right (hmore _ held)
  | anyOf mem _ ih => exact .anyOf mem ih
  | allOf _ ih => exact .allOf ih

/-- A permission evaluates to whether the rights that satisfy `holds` are enough for it. -/
theorem evaluate_iff (holds : String → Bool) :
    ∀ p : Permission, p.evaluate holds = true ↔ p.Held (holds · = true)
  | .empty => by
      rw [evaluate]
      exact iff_of_true rfl .empty
  | .right name => by
      rw [evaluate]
      constructor
      · exact fun held => .right held
      · intro h
        cases h with
        | right held => exact held
  | .anyOf members => by
      rw [evaluate, evaluateAny_eq, List.any_eq_true]
      constructor
      · rintro ⟨p, hp, hheld⟩
        exact .anyOf hp ((evaluate_iff holds p).mp hheld)
      · intro h
        cases h with
        | @anyOf p _ hp hheld => exact ⟨p, hp, (evaluate_iff holds p).mpr hheld⟩
  | .allOf members => by
      rw [evaluate, evaluateAll_eq, List.all_eq_true]
      constructor
      · exact fun hall => .allOf fun p hp => (evaluate_iff holds p).mp (hall p hp)
      · intro h p hp
        cases h with
        | allOf hall => exact (evaluate_iff holds p).mpr (hall p hp)

end Permission

end CommandLine
