import CommandLine.Tree
import Mathlib.Data.List.TakeWhile

/-! # What adding a command makes of a tree

    `Node.Inserted` says once what an insertion can do to a node: a new edge with a fresh node below
    it, an edge that the node has already with a changed node below it, or one more command at the
    end. Whatever the checks of the insertion have found out stands in its constructors.

    A command that is valid and passes `Node.check` is added without an error, and the node becomes
    one that `Node.Inserted` describes (`Node.insert_of_check`); the laws of trees are proved from
    that relation and do not look at `Node.insert` again. -/

namespace CommandLine

namespace Node

/-- What adding an entry along components makes of a node. -/
inductive Inserted (rules : Rules) (e : Entry) : List Component → Node → Node → Prop where
  | here {n : Node} (free : checkEnding rules e.command n.ending = .ok ()) :
      Inserted rules e [] n { n with ending := settle rules e n.ending }
  | newLiteral {l : Literal} {rest : List Component} {n child : Node}
      (apart : n.clash? rules.ignoreCase l = none)
      (vacant : ∀ edge ∈ n.literals, shares rules.ignoreCase l edge = false)
      (below : Inserted rules e rest empty child) :
      Inserted rules e (.literal l :: rest) n { n with literals := n.literals ++ [(l, child)] }
  | sharedLiteral {l old : Literal} {rest : List Component} {n child child' : Node}
      {before after : List (Literal × Node)}
      (apart : n.clash? rules.ignoreCase l = none)
      (split : n.literals = before ++ (old, child) :: after)
      (first : ∀ edge ∈ before, shares rules.ignoreCase l edge = false)
      (shared : shares rules.ignoreCase l (old, child) = true)
      (below : Inserted rules e rest child child') :
      Inserted rules e (.literal l :: rest) n
        { n with literals := before ++ (old.merge rules.ignoreCase l, child') :: after }
  | newArgument {a : Argument} {rest : List Component} {n child : Node}
      (vacant : n.argument = none) (below : Inserted rules e rest empty child) :
      Inserted rules e (.argument a :: rest) n { n with argument := some (a, child) }
  | sharedArgument {a old : Argument} {rest : List Component} {n child child' : Node}
      (taken : n.argument = some (old, child)) (named : old.name = a.name)
      (below : Inserted rules e rest child child') :
      Inserted rules e (.argument a :: rest) n { n with argument := some (old, child') }
  | newFlags {g : FlagGroup} {n : Node} (vacant : n.flags = none) :
      Inserted rules e [.flags g] n { n with flags := some (g, settle rules e []) }
  | sharedFlags {g old : FlagGroup} {n : Node} {ending : List Entry}
      (taken : n.flags = some (old, ending))
      (signed : Flag.signature old.flags = Flag.signature g.flags)
      (free : checkEnding rules e.command ending = .ok ()) :
      Inserted rules e [.flags g] n { n with flags := some (old, settle rules e ending) }

/-- A literal goes to a new edge only if it shares none and its names clash with none. -/
theorem literalSlot_eq_none {n : Node} {ignoreCase : Bool} {name : String} {l : Literal}
    (h : n.literalSlot ignoreCase name l = .ok none) :
    n.clash? ignoreCase l = none ∧ ∀ edge ∈ n.literals, shares ignoreCase l edge = false := by
  rw [literalSlot] at h
  split at h
  · cases h
  · next hclash =>
      split at h
      · next hdrop =>
          refine ⟨hclash, ?_⟩
          intro edge hedge
          simpa using List.dropWhile_eq_nil_iff.mp hdrop edge hedge
      · cases h

/-- A literal goes to the first edge that it shares, if its names clash with no other. -/
theorem literalSlot_eq_some {n : Node} {ignoreCase : Bool} {name : String} {l : Literal}
    {slot : LiteralSlot} (h : n.literalSlot ignoreCase name l = .ok (some slot)) :
    n.clash? ignoreCase l = none ∧ n.literals = slot.before ++ slot.edge :: slot.after ∧
      (∀ edge ∈ slot.before, shares ignoreCase l edge = false) ∧
      shares ignoreCase l slot.edge = true := by
  rw [literalSlot] at h
  split at h
  · cases h
  · next hclash =>
      split at h
      · cases h
      · next edge after hdrop =>
          cases h
          refine ⟨hclash, ?_, ?_, ?_⟩
          · show n.literals = n.literals.takeWhile _ ++ edge :: after
            rw [← hdrop, List.takeWhile_append_dropWhile]
          · intro edge hedge
            simpa using List.mem_takeWhile_imp hedge
          · -- what is dropped ends before the first edge that is shared
            have hhead :=
              List.head?_dropWhile_not (fun edge => !shares ignoreCase l edge) n.literals
            rw [hdrop] at hhead
            simpa using hhead

/-- A literal goes to a new edge if it shares none and its names clash with none. -/
theorem literalSlot_of_vacant {n : Node} {ignoreCase : Bool} {l : Literal}
    (apart : n.clash? ignoreCase l = none)
    (vacant : ∀ edge ∈ n.literals, shares ignoreCase l edge = false) (name : String) :
    n.literalSlot ignoreCase name l = .ok none := by
  have hdrop : n.literals.dropWhile (fun edge => !shares ignoreCase l edge) = [] := by
    rw [List.dropWhile_eq_nil_iff]
    intro edge hedge
    rw [vacant edge hedge]
    rfl
  simp only [literalSlot, apart, hdrop]

/-- A literal goes to the first edge that it shares if its names clash with no other. -/
theorem literalSlot_of_split {n : Node} {ignoreCase : Bool} {l : Literal} {edge : Literal × Node}
    {before after : List (Literal × Node)} (apart : n.clash? ignoreCase l = none)
    (split : n.literals = before ++ edge :: after)
    (first : ∀ other ∈ before, shares ignoreCase l other = false)
    (shared : shares ignoreCase l edge = true) (name : String) :
    n.literalSlot ignoreCase name l = .ok (some ⟨before, edge, after⟩) := by
  have hbefore : ∀ other ∈ before, (!shares ignoreCase l other) = true := by
    intro other hother
    rw [first other hother]
    rfl
  have hdrop : n.literals.dropWhile (fun edge => !shares ignoreCase l edge) = edge :: after := by
    rw [split, List.dropWhile_append_of_pos hbefore, List.dropWhile_cons_of_neg (by simp [shared])]
  have htake : n.literals.takeWhile (fun edge => !shares ignoreCase l edge) = before := by
    rw [split, List.takeWhile_append_of_pos hbefore, List.takeWhile_cons_of_neg (by simp [shared]),
      List.append_nil]
  simp only [literalSlot, apart, hdrop, htake]

/-- An argument goes to a new edge only where there is none. -/
theorem argumentSlot_eq_none {n : Node} {name : String} {a : Argument}
    (h : n.argumentSlot name a = .ok none) : n.argument = none := by
  rw [argumentSlot] at h
  split at h
  · assumption
  · split at h <;> cases h

/-- An argument shares the one of its name. -/
theorem argumentSlot_eq_some {n : Node} {name : String} {a old : Argument} {child : Node}
    (h : n.argumentSlot name a = .ok (some (old, child))) :
    n.argument = some (old, child) ∧ old.name = a.name := by
  rw [argumentSlot] at h
  split at h
  · cases h
  · next hargument =>
      split at h
      · next hname =>
          cases h
          exact ⟨hargument, hname⟩
      · cases h

/-- A flag group goes to a new edge only where there is none. -/
theorem flagsSlot_eq_none {n : Node} {name : String} {g : FlagGroup}
    (h : n.flagsSlot name g = .ok none) : n.flags = none := by
  rw [flagsSlot] at h
  split at h
  · assumption
  · split at h <;> cases h

/-- A flag group shares the one of its signature. -/
theorem flagsSlot_eq_some {n : Node} {name : String} {g old : FlagGroup} {ending : List Entry}
    (h : n.flagsSlot name g = .ok (some (old, ending))) :
    n.flags = some (old, ending) ∧ Flag.signature old.flags = Flag.signature g.flags := by
  rw [flagsSlot] at h
  split at h
  · cases h
  · next hflags =>
      split at h
      · next hsignature =>
          cases h
          exact ⟨hflags, hsignature⟩
      · cases h

end Node

namespace Command

/-- Nothing follows a flag group. -/
def FlagsLast : List Component → Prop
  | [] => True
  | .flags _ :: rest => rest = []
  | _ :: rest => FlagsLast rest

/-- A component passes the check of the order exactly if it comes behind no flag group, behind a
    greedy argument it is a flag group itself, and behind one that may be left out it is not
    required. What follows it has to pass the check from there on. -/
theorem checkOrder_cons_iff {path : String} {c : Component} {rest : List Component}
    {p : Progress} :
    checkOrder path p (c :: rest) = .ok () ↔
      p.afterFlags = false ∧ (p.greedySeen = true → c.isFlags = true) ∧
        (p.optionalSeen = true → c.isFlags = false → c.isRequired = false) ∧
        checkOrder path (p.next c) rest = .ok () := by
  rw [checkOrder]
  split
  · next hreached =>
      refine ⟨nofun, ?_⟩
      rintro ⟨hbehind, hgreedy, -, -⟩
      simp only [hbehind, Bool.false_or, Bool.and_eq_true, Bool.not_eq_true'] at hreached
      rw [hgreedy hreached.1] at hreached
      cases hreached.2
  · next hreached =>
      simp only [Bool.or_eq_true, Bool.and_eq_true, Bool.not_eq_true', not_or, not_and,
        Bool.not_eq_true, Bool.not_eq_false] at hreached
      split
      · next hneeded =>
          refine ⟨nofun, ?_⟩
          rintro ⟨-, -, hoptional, -⟩
          simp only [Bool.and_eq_true, Bool.not_eq_true'] at hneeded
          rw [hoptional hneeded.2 hneeded.1.1] at hneeded
          cases hneeded.1.2
      · next hneeded =>
          simp only [Bool.and_eq_true, Bool.not_eq_true', not_and, Bool.not_eq_true] at hneeded
          refine ⟨fun h => ⟨hreached.1, hreached.2, ?_, h⟩, fun h => h.2.2.2⟩
          intro hseen hflags
          by_contra hrequired
          rw [Bool.not_eq_false] at hrequired
          rw [hneeded ⟨hflags, hrequired⟩] at hseen
          cases hseen

/-- What stands behind some components of a list that passes the check of the order passes it, too,
    with the progress that they have made. -/
theorem checkOrder_append {path : String} {front back : List Component} {p : Progress}
    (h : checkOrder path p (front ++ back) = .ok ()) : ∃ q, checkOrder path q back = .ok () := by
  induction front generalizing p with
  | nil => exact ⟨p, h⟩
  | cons c front ih => exact ih (checkOrder_cons_iff.mp h).2.2.2

theorem checkOrder_of_validate {c : Command} (h : c.validate = .ok ()) :
    checkOrder c.usage {} c.components = .ok () := by
  rw [validate] at h
  split at h
  · cases h
  · split at h
    · cases h
    · exact h

theorem flagsLast_of_checkOrder {path : String} {components : List Component} {p : Progress}
    (h : checkOrder path p components = .ok ()) : FlagsLast components := by
  induction components generalizing p with
  | nil => trivial
  | cons c rest ih =>
      have hrest := (checkOrder_cons_iff.mp h).2.2.2
      cases c with
      | literal l => exact ih hrest
      | argument a => exact ih hrest
      | flags g =>
          show rest = []
          cases rest with
          | nil => rfl
          | cons next rest =>
              -- the progress after a flag group refuses whatever comes next
              have hnext := (checkOrder_cons_iff.mp hrest).1
              cases hnext

/-- A valid command has its flag group at the end. -/
theorem flagsLast_of_validate {c : Command} (h : c.validate = .ok ()) :
    FlagsLast c.components :=
  flagsLast_of_checkOrder (checkOrder_of_validate h)

end Command

namespace Node

theorem checkEnding_nil (rules : Rules) (c : Command) : checkEnding rules c [] = .ok () := by
  simp [checkEnding]

/-- Nothing conflicts with a command below a fresh node. -/
theorem check_empty (rules : Rules) (c : Command) (components : List Component) (name : String) :
    check rules c components name empty = .ok () := by
  cases components with
  | nil => exact checkEnding_nil rules c
  | cons component rest => cases component <;> rfl

/-- A command without conflicts is added, as `Inserted` describes. -/
theorem insert_of_check {rules : Rules} {e : Entry} {components : List Component} {name : String}
    {n : Node} (hlast : Command.FlagsLast components)
    (hcheck : check rules e.command components name n = .ok ()) :
    ∃ n', insert rules e components name n = .ok n' ∧ Inserted rules e components n n' := by
  -- the check takes the edges that the insertion takes, and none below a new one
  induction components generalizing name n with
  | nil => exact ⟨_, rfl, .here hcheck⟩
  | cons component rest ih =>
      cases component with
      | literal l =>
          simp only [check, insert] at hcheck ⊢
          split at hcheck
          · cases hcheck
          · next hslot =>
              obtain ⟨hclash, hvacant⟩ := literalSlot_eq_none hslot
              obtain ⟨child, hchild, hbelow⟩ := ih (n := empty) hlast
                (check_empty rules e.command rest l.name)
              rw [hchild]
              exact ⟨_, rfl, .newLiteral hclash hvacant hbelow⟩
          · next slot hslot =>
              obtain ⟨hclash, hsplit, hfirst, hshared⟩ := literalSlot_eq_some hslot
              obtain ⟨child', hchild, hbelow⟩ := ih hlast hcheck
              rw [hchild]
              exact ⟨_, rfl, .sharedLiteral hclash hsplit hfirst hshared hbelow⟩
      | argument a =>
          simp only [check, insert] at hcheck ⊢
          split at hcheck
          · cases hcheck
          · next hslot =>
              obtain ⟨child, hchild, hbelow⟩ := ih (n := empty) hlast
                (check_empty rules e.command rest a.name)
              rw [hchild]
              exact ⟨_, rfl, .newArgument (argumentSlot_eq_none hslot) hbelow⟩
          · next old child hslot =>
              obtain ⟨hargument, hname⟩ := argumentSlot_eq_some hslot
              obtain ⟨child', hchild, hbelow⟩ := ih hlast hcheck
              rw [hchild]
              exact ⟨_, rfl, .sharedArgument hargument hname hbelow⟩
      | flags g =>
          obtain rfl : rest = [] := hlast
          simp only [check, insert] at hcheck ⊢
          split at hcheck
          · cases hcheck
          · next hslot =>
              exact ⟨_, rfl, .newFlags (flagsSlot_eq_none hslot)⟩
          · next old ending hslot =>
              obtain ⟨hflags, hsignature⟩ := flagsSlot_eq_some hslot
              exact ⟨_, rfl, .sharedFlags hflags hsignature hcheck⟩

end Node

/-- A successful insertion adds a valid command under the next number. -/
theorem Tree.insert_ok {t t' : Tree} {c : Command} {e : Entry} (h : t.insert c = .ok (t', e)) :
    e = ⟨t.nextSerial, c⟩ ∧ c.validate = .ok () ∧
      Node.Inserted t.rules e c.components t.root t'.root ∧
      t' = { t with root := t'.root, nextSerial := t.nextSerial + 1 } := by
  simp only [Tree.insert, bind, Except.bind] at h
  split at h
  · cases h
  · split at h
    · cases h
    · next hvalid =>
        split at h
        · cases h
        · next hcheck =>
            obtain ⟨root, hroot, hinserted⟩ := Node.insert_of_check
              (e := ⟨t.nextSerial, c⟩) (Command.flagsLast_of_validate hvalid) hcheck
            rw [hroot] at h
            cases h
            exact ⟨rfl, hvalid, hinserted, rfl⟩

end CommandLine
