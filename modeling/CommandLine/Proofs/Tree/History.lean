import CommandLine.Proofs.Tree.Removal

/-! # Histories of trees

    A tree is made without commands and edited from then on. `Tree.History` lists the trees that it
    has been, and `Tree.Reshaped` says what one edit can do to the root. What holds of the root
    without commands and outlives every reshaping holds of all reachable trees
    (`Tree.Reachable.root`). -/

namespace CommandLine.Tree

/-- What can be asked of a tree. Whether case is ignored is settled when the tree is made. -/
inductive Edit where
  | insert (c : Command)
  | remove (e : Entry)
  | removeRoot (name : String)
  | lock
  | replaceCommands (b : Bool)
  | ignoreLock (b : Bool)

/-- Adds a command of one word. -/
def Edit.addWord (name : String) : Edit :=
  .insert { components := [.literal { name }] }

/-- The tree after an edit. An edit that is refused changes nothing. -/
def apply (t : Tree) : Edit → Tree
  | .insert c =>
    match t.insert c with
    | .ok (t', _) => t'
    | .error _ => t
  | .remove e =>
    match t.remove e with
    | .ok t' => t'
    | .error _ => t
  | .removeRoot name =>
    match t.removeRoot name with
    | .ok (t', _) => t'
    | .error _ => t
  | .lock => t.lock
  | .replaceCommands b => { t with rules := { t.rules with replaceCommands := b } }
  | .ignoreLock b => { t with ignoreLock := b }

/-- A tree with the trees that it was before, the latest first. -/
inductive History : Tree → List Tree → Prop where
  | fresh {t : Tree} (bare : t.root = .empty) : History t []
  | edit {t : Tree} {past : List Tree} (before : History t past) (edit : Edit) :
      History (t.apply edit) (t :: past)

/-- An insertion that succeeds is an edit. -/
theorem History.of_insert {t t' : Tree} {past : List Tree} (h : History t past) {c : Command}
    {e : Entry} (hinsert : t.insert c = .ok (t', e)) : History t' (t :: past) := by
  have hedit := h.edit (.insert c)
  rw [apply, hinsert] at hedit
  exact hedit

/-- A removal that succeeds is an edit. -/
theorem History.of_remove {t t' : Tree} {past : List Tree} (h : History t past) {e : Entry}
    (hremove : t.remove e = .ok t') : History t' (t :: past) := by
  have hedit := h.edit (.remove e)
  rw [apply, hremove] at hedit
  exact hedit

/-- A tree that edits can lead to. -/
def Reachable (t : Tree) : Prop :=
  ∃ past, History t past

/-- What one edit makes of the root of a tree. -/
inductive Reshaped (rules : Rules) : Node → Node → Prop where
  | unchanged {n : Node} : Reshaped rules n n
  | inserted {e : Entry} {n n' : Node} (valid : e.command.validate = .ok ())
      (inserted : Node.Inserted rules e e.command.components n n') : Reshaped rules n n'
  | removed {e : Entry} {n n' : Node}
      (removed : Node.Removed rules.ignoreCase e.serial e.command.components n n') :
      Reshaped rules n n'
  | uprooted {n : Node} (name : String) :
      Reshaped rules n
        { n with literals := n.literals.eraseP fun edge => edge.1.answers rules.ignoreCase name }

/-- An edit reshapes the root and leaves it as it is whether case is ignored. -/
theorem apply_reshaped (t : Tree) (edit : Edit) :
    (t.apply edit).rules.ignoreCase = t.rules.ignoreCase ∧
      Reshaped t.rules t.root (t.apply edit).root := by
  cases edit with
  | insert c =>
      simp only [apply]
      split
      · next t' e h =>
          obtain ⟨rfl, hvalid, hinserted, hshape⟩ := insert_ok h
          refine ⟨?_, .inserted hvalid hinserted⟩
          rw [hshape]
      · exact ⟨rfl, .unchanged⟩
  | remove e =>
      simp only [apply]
      split
      · next t' h =>
          obtain ⟨hremoved, hshape⟩ := remove_ok h
          refine ⟨?_, .removed hremoved⟩
          rw [hshape]
      · exact ⟨rfl, .unchanged⟩
  | removeRoot name =>
      simp only [apply]
      split
      · next t' entries h =>
          rw [removeRoot_ok h]
          exact ⟨rfl, .uprooted name⟩
      · exact ⟨rfl, .unchanged⟩
  | lock => exact ⟨rfl, .unchanged⟩
  | replaceCommands b => exact ⟨rfl, .unchanged⟩
  | ignoreLock b => exact ⟨rfl, .unchanged⟩

/-- What holds of the root without commands and is kept by every edit holds of all roots. -/
theorem Reachable.root {ignoreCase : Bool} {P : Node → Prop} (hempty : P .empty)
    (hstep : ∀ {rules : Rules} {n n' : Node}, rules.ignoreCase = ignoreCase →
      Reshaped rules n n' → P n → P n')
    {t : Tree} (ht : t.Reachable) (hcase : t.rules.ignoreCase = ignoreCase) : P t.root := by
  obtain ⟨past, hpast⟩ := ht
  induction hpast with
  | fresh bare =>
      rw [bare]
      exact hempty
  | edit before edit ih =>
      obtain ⟨hsame, hreshaped⟩ := apply_reshaped _ edit
      rw [hsame] at hcase
      exact hstep hcase hreshaped (ih hcase)

end CommandLine.Tree
