import CommandLine.Proofs.Tree.Removal

/-! # Changing a tree in place

    `Tree.insert` and `Tree.remove` make a new tree, and nothing of it is left when they fail. Here
    both are carried out on the tree itself: an edge that has been added or merged, or a node that
    has been changed, stays so when the walk fails further down. That makes a difference to a walk
    alone, since it may add edges and then meet a conflict; but it makes none to a walk after the
    checks (`Tree.insertInPlace_eq`), nor to a removal (`Tree.removeInPlace_eq`). -/

namespace CommandLine

namespace Node

/-- Adds a command along its components, and stops at the first conflict. -/
def insertInPlace (rules : Rules) (e : Entry) :
    List Component → String → Node → Node × Except RegistrationError Unit
  | [], _, n => ({ n with ending := settle rules e n.ending }, .ok ())
  | .literal l :: rest, name, n =>
    match n.literalSlot rules.ignoreCase name l with
    | .error err => (n, .error err)
    | .ok none =>
      let (child, outcome) := insertInPlace rules e rest l.name empty
      ({ n with literals := n.literals ++ [(l, child)] }, outcome)
    | .ok (some slot) =>
      let (child, outcome) := insertInPlace rules e rest slot.edge.1.name slot.edge.2
      let merged := slot.edge.1.merge rules.ignoreCase l
      ({ n with literals := slot.before ++ (merged, child) :: slot.after }, outcome)
  | .argument a :: rest, name, n =>
    match n.argumentSlot name a with
    | .error err => (n, .error err)
    | .ok none =>
      let (child, outcome) := insertInPlace rules e rest a.name empty
      ({ n with argument := some (a, child) }, outcome)
    | .ok (some (old, child)) =>
      let (child, outcome) := insertInPlace rules e rest old.name child
      ({ n with argument := some (old, child) }, outcome)
  | .flags g :: _, name, n =>
    match n.flagsSlot name g with
    | .error err => (n, .error err)
    | .ok none => ({ n with flags := some (g, settle rules e []) }, .ok ())
    | .ok (some (old, ending)) => ({ n with flags := some (old, settle rules e ending) }, .ok ())

/-- After the check the walk meets no conflict at any component, and leaves what `insert` makes. -/
theorem insertInPlace_of_check {rules : Rules} {e : Entry} {components : List Component}
    {name : String} {n : Node} (hcheck : check rules e.command components name n = .ok ()) :
    ∃ n', insert rules e components name n = .ok n' ∧
      insertInPlace rules e components name n = (n', .ok ()) := by
  -- below a new edge the check has not looked, but nothing conflicts there
  induction components generalizing name n with
  | nil => exact ⟨_, rfl, rfl⟩
  | cons component rest ih =>
      cases component with
      | literal l =>
          rcases hslot : n.literalSlot rules.ignoreCase name l with err | (- | slot) <;>
            simp only [check, insert, insertInPlace, hslot] at hcheck ⊢
          · cases hcheck
          · obtain ⟨child, hinsert, hwalk⟩ := ih (check_empty rules e.command rest l.name)
            rw [hinsert, hwalk]
            exact ⟨_, rfl, rfl⟩
          · obtain ⟨child, hinsert, hwalk⟩ := ih hcheck
            rw [hinsert, hwalk]
            exact ⟨_, rfl, rfl⟩
      | argument a =>
          rcases hslot : n.argumentSlot name a with err | (- | ⟨old, child⟩) <;>
            simp only [check, insert, insertInPlace, hslot] at hcheck ⊢
          · cases hcheck
          · obtain ⟨child, hinsert, hwalk⟩ := ih (check_empty rules e.command rest a.name)
            rw [hinsert, hwalk]
            exact ⟨_, rfl, rfl⟩
          · obtain ⟨child, hinsert, hwalk⟩ := ih hcheck
            rw [hinsert, hwalk]
            exact ⟨_, rfl, rfl⟩
      | flags g =>
          rcases hslot : n.flagsSlot name g with err | (- | ⟨old, ending⟩) <;>
            simp only [check, insert, insertInPlace, hslot] at hcheck ⊢
          · cases hcheck
          · exact ⟨_, rfl, rfl⟩
          · exact ⟨_, rfl, rfl⟩

/-- Without the check, a literal may have taken over aliases when an argument conflicts. -/
example :
    let amount : Argument := { name := "amount", parser := .uuid }
    let pay : Literal × Node := ({ name := "pay" }, { empty with argument := some (amount, empty) })
    let walk := insertInPlace {} ⟨0, { components := [] }⟩
      [.literal { name := "pay", aliases := ["send"] }, .argument { amount with name := "whom" }]
      Tree.rootName { empty with literals := [pay] }
    walk.2.isOk = false ∧ walk.1.literals.map (·.1.names) = [["pay", "send"]] := by
  decide +kernel

/-- Takes a command away from those that end at a place, and tells whether it was there. -/
def dropEntry (serial : Nat) (ending : List Entry) : List Entry × Bool :=
  let left := ending.filter (·.serial != serial)
  (left, left.length != ending.length)

/-- Takes a command away where the components lead, and on the way back the edges below which
    nothing is left. Tells whether there was such a command. -/
def removeInPlace (ignoreCase : Bool) (serial : Nat) :
    List Component → String → Node → Node × Bool
  | [], _, n =>
    let (ending, removed) := dropEntry serial n.ending
    ({ n with ending }, removed)
  | .literal l :: rest, name, n =>
    match n.literalSlot ignoreCase name l with
    | .ok (some slot) =>
      let (child, removed) := removeInPlace ignoreCase serial rest slot.edge.1.name slot.edge.2
      let kept := if removed && child.isBare then [] else [(slot.edge.1, child)]
      ({ n with literals := slot.before ++ kept ++ slot.after }, removed)
    | _ => (n, false)
  | .argument a :: rest, name, n =>
    match n.argumentSlot name a with
    | .ok (some (old, child)) =>
      let (child, removed) := removeInPlace ignoreCase serial rest old.name child
      ({ n with argument := if removed && child.isBare then none else some (old, child) }, removed)
    | _ => (n, false)
  | [.flags g], name, n =>
    match n.flagsSlot name g with
    | .ok (some (old, ending)) =>
      let (left, removed) := dropEntry serial ending
      ({ n with flags := if removed && left.isEmpty then none else some (old, left) }, removed)
    | _ => (n, false)
  | .flags _ :: _ :: _, _, n => (n, false)

/-- What is left of some commands is shorter exactly when the command was among them. -/
theorem dropEntry_eq (serial : Nat) (ending : List Entry) :
    dropEntry serial ending = match withoutEntry serial ending with
      | some left => (left, true)
      | none => (ending, false) := by
  rw [dropEntry, withoutEntry]
  by_cases hany : ending.any (·.serial == serial) = true
  · rw [if_pos hany]
    obtain ⟨x, hx, hserial⟩ := List.any_eq_true.mp hany
    have hlt : (ending.filter (·.serial != serial)).length < ending.length :=
      List.length_filter_lt_length_iff_exists.mpr ⟨x, hx, by simpa using hserial⟩
    have hne : ((ending.filter (·.serial != serial)).length != ending.length) = true :=
      bne_iff_ne.mpr (Nat.ne_of_lt hlt)
    rw [hne]
  · rw [if_neg hany]
    have hall : ending.filter (·.serial != serial) = ending := by
      refine List.filter_eq_self.mpr fun x hx => ?_
      rw [bne_iff_ne]
      exact fun hserial => hany (List.any_eq_true.mpr ⟨x, hx, beq_iff_eq.mpr hserial⟩)
    rw [hall, bne_self_eq_false]

/-- A node is made of its parts. -/
theorem mk_parts (n : Node) : (⟨n.ending, n.literals, n.argument, n.flags⟩ : Node) = n := by
  cases n
  rfl

/-- A removal that finds no command changes nothing on its way, and one that finds it leaves what
    `remove` makes. -/
theorem removeInPlace_eq (ignoreCase : Bool) (serial : Nat) (components : List Component)
    (name : String) (n : Node) :
    removeInPlace ignoreCase serial components name n =
      match remove ignoreCase serial components name n with
      | some n' => (n', true)
      | none => (n, false) := by
  induction components generalizing name n with
  | nil =>
      simp only [remove, removeInPlace, dropEntry_eq]
      cases withoutEntry serial n.ending with
      | none => simp [mk_parts]
      | some ending => rfl
  | cons component rest ih =>
      cases component with
      | literal l =>
          rcases hslot : n.literalSlot ignoreCase name l with err | (- | slot) <;>
            simp only [remove, removeInPlace, hslot]
          obtain ⟨-, hsplit, -, -⟩ := literalSlot_eq_some hslot
          rw [ih]
          cases remove ignoreCase serial rest slot.edge.1.name slot.edge.2 with
          | none =>
              -- the edge is put back as it was
              simp [← hsplit, mk_parts]
          | some child =>
              rcases keep_cases slot.edge.1 child with ⟨hbare, hkeep⟩ | ⟨hbare, hkeep⟩ <;>
                simp [hbare, hkeep]
      | argument a =>
          rcases hslot : n.argumentSlot name a with err | (- | ⟨old, child⟩) <;>
            simp only [remove, removeInPlace, hslot]
          obtain ⟨htaken, -⟩ := argumentSlot_eq_some hslot
          rw [ih]
          cases remove ignoreCase serial rest old.name child with
          | none => simp [← htaken, mk_parts]
          | some child' =>
              rcases keep_cases old child' with ⟨hbare, hkeep⟩ | ⟨hbare, hkeep⟩ <;>
                simp [hbare, hkeep]
      | flags g =>
          rcases rest with - | ⟨next, rest⟩
          · rcases hslot : n.flagsSlot name g with err | (- | ⟨old, ending⟩) <;>
              simp only [remove, removeInPlace, hslot]
            obtain ⟨htaken, -⟩ := flagsSlot_eq_some hslot
            rw [dropEntry_eq]
            cases withoutEntry serial ending with
            | none => simp [← htaken, mk_parts]
            | some ending' => simp
          · simp only [remove, removeInPlace]

end Node

namespace Tree

/-- What is looked at before a command is added. -/
def checkInsertion (t : Tree) (c : Command) : Except RegistrationError Unit := do
  t.checkUnlocked
  c.validate
  Node.check t.rules c c.components rootName t.root

/-- Adds a command to the tree itself, after the checks. -/
def insertInPlace (t : Tree) (c : Command) : Tree × Except RegistrationError Entry :=
  match t.checkInsertion c with
  | .error err => (t, .error err)
  | .ok () =>
    let entry := ⟨t.nextSerial, c⟩
    let (root, outcome) := Node.insertInPlace t.rules entry c.components rootName t.root
    ({ t with root, nextSerial := t.nextSerial + 1 }, outcome.map fun _ => entry)

/-- Adding to the tree itself comes to the same as making a new one, and changes nothing when it
    fails. -/
theorem insertInPlace_eq (t : Tree) (c : Command) :
    t.insertInPlace c = match t.insert c with
      | .ok (t', e) => (t', .ok e)
      | .error err => (t, .error err) := by
  have hinsert : t.insert c = do
      t.checkInsertion c
      let entry := ⟨t.nextSerial, c⟩
      let root ← Node.insert t.rules entry c.components rootName t.root
      return ({ t with root, nextSerial := t.nextSerial + 1 }, entry) := by
    simp only [insert, checkInsertion, bind_assoc]
  rw [hinsert, insertInPlace]
  cases hcheck : t.checkInsertion c with
  | error err => rfl
  | ok u =>
      have hconflicts : Node.check t.rules c c.components rootName t.root = .ok () := by
        simp only [checkInsertion, bind, Except.bind] at hcheck
        split at hcheck
        · cases hcheck
        · split at hcheck
          · cases hcheck
          · exact hcheck
      obtain ⟨root, hroot, hwalk⟩ :=
        Node.insertInPlace_of_check (e := ⟨t.nextSerial, c⟩) hconflicts
      simp only [hwalk, hroot]
      rfl

/-- Removes a command from the tree itself. -/
def removeInPlace (t : Tree) (e : Entry) : Tree × Except RegistrationError Unit :=
  match t.checkUnlocked with
  | .error err => (t, .error err)
  | .ok () =>
    let (root, removed) :=
      Node.removeInPlace t.rules.ignoreCase e.serial e.command.components rootName t.root
    ({ t with root }, if removed then .ok () else .error (.unknownCommand e.command.usage))

/-- Removing from the tree itself comes to the same as making a new one, and changes nothing when it
    fails. -/
theorem removeInPlace_eq (t : Tree) (e : Entry) :
    t.removeInPlace e = match t.remove e with
      | .ok t' => (t', .ok ())
      | .error err => (t, .error err) := by
  rw [removeInPlace, remove, Node.removeInPlace_eq]
  cases t.checkUnlocked with
  | error err => rfl
  | ok u =>
      cases Node.remove t.rules.ignoreCase e.serial e.command.components rootName t.root <;> rfl

end Tree

end CommandLine
