import CommandLine.Suggestion

/-! # Remembered suggestions

    Suggestions that are slow to find are remembered for a time. A cache keeps, under the text they
    were asked for, the suggestions and the time at which they were found. Entries older than the
    time to live are of no use; they are dropped when the next entry is stored. -/

namespace CommandLine

/-- Suggestions, the text they were asked for, and when they were found, in milliseconds. -/
structure CacheEntry where
  key : String
  list : List Suggestion
  time : Nat
deriving DecidableEq, Repr

/-- Whether an entry is younger than the time to live. -/
def CacheEntry.isFresh (now lifetime : Nat) (e : CacheEntry) : Bool :=
  now - e.time < lifetime

/-- Remembered suggestions, at most one entry for a text. -/
structure Cache where
  entries : List CacheEntry := []
deriving DecidableEq, Repr

namespace Cache

/-- The suggestions remembered for a text, if they are young enough. -/
def find? (cache : Cache) (now lifetime : Nat) (key : String) : Option (List Suggestion) :=
  ((cache.entries.find? (·.key == key)).filter (·.isFresh now lifetime)).map (·.list)

/-- The cache with suggestions found now, without the entries that are too old. -/
def insert (cache : Cache) (now lifetime : Nat) (key : String) (list : List Suggestion) : Cache :=
  ⟨(cache.entries.filter fun e => e.isFresh now lifetime && e.key != key) ++ [⟨key, list, now⟩]⟩

/-- The number of entries, those that are too old included. -/
def size (cache : Cache) : Nat :=
  cache.entries.length

end Cache

/-- What suggestions leave behind: the time of the clock in milliseconds, and for each slot a cache
    and the number of times that it was asked. -/
structure Memory where
  now : Nat := 0
  caches : List (Nat × Cache) := []
  calls : List (Nat × Nat) := []
deriving DecidableEq, Repr

namespace Memory

/-- The cache in a slot. -/
def cache (m : Memory) (slot : Nat) : Cache :=
  (m.caches.lookup slot).getD {}

/-- The memory with another cache in a slot. -/
def setCache (m : Memory) (slot : Nat) (cache : Cache) : Memory :=
  { m with caches := (slot, cache) :: m.caches.filter (·.1 != slot) }

/-- How often a slot was asked. -/
def callCount (m : Memory) (slot : Nat) : Nat :=
  (m.calls.lookup slot).getD 0

/-- The memory in which a slot was asked once more. -/
def countCall (m : Memory) (slot : Nat) : Memory :=
  { m with calls := (slot, m.callCount slot + 1) :: m.calls.filter (·.1 != slot) }

/-- The memory after some milliseconds. -/
def advance (m : Memory) (milliseconds : Nat) : Memory :=
  { m with now := m.now + milliseconds }

@[simp] theorem cache_setCache (m : Memory) (slot : Nat) (cache : Cache) :
    (m.setCache slot cache).cache slot = cache := by
  simp [setCache, Memory.cache]

@[simp] theorem callCount_setCache (m : Memory) (slot tally : Nat) (cache : Cache) :
    (m.setCache slot cache).callCount tally = m.callCount tally := rfl

@[simp] theorem now_setCache (m : Memory) (slot : Nat) (cache : Cache) :
    (m.setCache slot cache).now = m.now := rfl

@[simp] theorem cache_countCall (m : Memory) (slot tally : Nat) :
    (m.countCall tally).cache slot = m.cache slot := rfl

@[simp] theorem callCount_countCall (m : Memory) (tally : Nat) :
    (m.countCall tally).callCount tally = m.callCount tally + 1 := by
  simp [countCall, callCount]

@[simp] theorem now_countCall (m : Memory) (tally : Nat) : (m.countCall tally).now = m.now := rfl

end Memory

/-- A computation that may remember suggestions. -/
abbrev Recall := StateM Memory

/-- Gives the suggestions remembered in a slot for a text, or else finds them and remembers them. -/
def Recall.cached (slot lifetime : Nat) (key : String) (find : Recall (List Suggestion)) :
    Recall (List Suggestion) := do
  let memory ← get
  match (memory.cache slot).find? memory.now lifetime key with
  | some list => return list
  | none =>
    let list ← find
    modify fun m => m.setCache slot ((m.cache slot).insert m.now lifetime key list)
    return list

theorem Recall.run_cached (slot lifetime : Nat) (key : String) (find : Recall (List Suggestion))
    (m : Memory) :
    (Recall.cached slot lifetime key find).run m =
      match (m.cache slot).find? m.now lifetime key with
      | some list => (list, m)
      | none =>
        let found := find.run m
        (found.1, found.2.setCache slot
          ((found.2.cache slot).insert found.2.now lifetime key found.1)) := by
  simp only [cached, StateT.run_bind, StateT.run_get]
  cases h : (m.cache slot).find? m.now lifetime key with
  | some list =>
    simp only [pure_bind, h]
    rfl
  | none =>
    simp only [pure_bind, h, StateT.run_bind]
    rfl

/-- Numbers for slots: each is drawn once. -/
abbrev Fresh := StateM Nat

/-- Draws the next slot. -/
def Fresh.slot : Fresh Nat :=
  modifyGet fun n => (n, n + 1)

end CommandLine
