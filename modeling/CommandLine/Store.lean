/-! # Stores

    A store keeps one entry under each name, in the order in which the names came. Putting an entry
    under a name that is taken replaces the entry. -/

namespace CommandLine

/-- Entries by name. -/
structure Store (α : Type) where
  entries : List (String × α)

namespace Store

variable {α : Type}

instance : Inhabited (Store α) :=
  ⟨⟨[]⟩⟩

/-- The store without entries. -/
def empty : Store α :=
  ⟨[]⟩

/-- The entry under a name. -/
def get? (store : Store α) (name : String) : Option α :=
  store.entries.lookup name

/-- Whether there is an entry under a name. -/
def contains (store : Store α) (name : String) : Bool :=
  (store.get? name).isSome

/-- The entries with the one under `name` replaced, or added at the end. -/
def putEntry (name : String) (value : α) : List (String × α) → List (String × α)
  | [] => [(name, value)]
  | (other, old) :: rest =>
    if name == other then (name, value) :: rest else (other, old) :: putEntry name value rest

/-- The store with an entry under a name. -/
def put (store : Store α) (name : String) (value : α) : Store α :=
  ⟨putEntry name value store.entries⟩

/-- The store without the entry under a name. -/
def erase (store : Store α) (name : String) : Store α :=
  ⟨store.entries.filter (·.1 != name)⟩

/-- The names of a store, in the order in which they came. -/
def names (store : Store α) : List String :=
  store.entries.map (·.1)

/-- The entries of a store, by name. -/
def sorted (store : Store α) : List (String × α) :=
  store.entries.mergeSort fun a b => a.1 ≤ b.1

/-- The names of a store, sorted. -/
def sortedNames (store : Store α) : List String :=
  store.sorted.map (·.1)

theorem get?_empty (name : String) : (empty : Store α).get? name = none :=
  rfl

/-- The entry under a name, one entry at a time. -/
theorem lookup_cons_ite (key other : String) (old : α) (entries : List (String × α)) :
    List.lookup other ((key, old) :: entries) =
      if other = key then some old else List.lookup other entries := by
  rw [List.lookup_cons]
  by_cases h : other = key
  · simp [h]
  · simp [h, beq_false_of_ne h]

/-- An entry is found under the name it was put under, and no other entry changes. -/
theorem get?_put (store : Store α) (name other : String) (value : α) :
    (store.put name value).get? other =
      if other = name then some value else store.get? other := by
  obtain ⟨entries⟩ := store
  simp only [put, get?]
  induction entries with
  | nil => simp [putEntry, lookup_cons_ite]
  | cons e entries ih =>
      obtain ⟨key, old⟩ := e
      by_cases h : name = key
      · subst h
        simp only [putEntry, beq_self_eq_true, if_true, lookup_cons_ite]
        split <;> rfl
      · simp only [putEntry, beq_false_of_ne h, Bool.false_eq_true, if_false, lookup_cons_ite, ih]
        by_cases hk : other = key
        · subst hk
          simp [Ne.symm h]
        · simp [hk]

/-- An erased name has no entry, and no other entry changes. -/
theorem get?_erase (store : Store α) (name other : String) :
    (store.erase name).get? other = if other = name then none else store.get? other := by
  obtain ⟨entries⟩ := store
  simp only [erase, get?]
  induction entries with
  | nil => simp
  | cons e entries ih =>
      obtain ⟨key, old⟩ := e
      by_cases hk : key = name
      · subst hk
        simp only [List.filter_cons, bne_self_eq_false, Bool.false_eq_true, if_false, ih,
          lookup_cons_ite]
        split <;> rfl
      · simp only [List.filter_cons, bne_iff_ne, ne_eq, hk, not_false_eq_true, if_true,
          lookup_cons_ite, ih]
        by_cases ho : other = key
        · subst ho
          simp [hk]
        · simp [ho]

end Store

end CommandLine
