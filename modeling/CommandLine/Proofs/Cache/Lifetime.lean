import CommandLine.Parser.Suggest
import Mathlib.Data.List.Nodup

/-! # How long suggestions are remembered

    A parser that remembers suggestions is asked, its cache is cleared, and time goes by, in any
    order. A `Watch` sees this from outside: each answer with the number of times that the parser
    inside was called for it, and each clearing. What the cache holds is then a matter of what was
    seen: of the calls since the last clearing it holds none but the last for each key, and each of
    these as long as it is young enough (`Watch.Tells`). So an answer is that of the last call for
    its key, and a call is made exactly if no call since the last clearing is young enough
    (`Watch.Reached.answers_of_past`). -/

namespace CommandLine

/-- The text under which suggestions for a line are remembered. -/
def Line.cacheKey (line : Line) : String :=
  String.ofList (Text.trimStart line.rest)

/-- A parser that counts how often it is asked for suggestions. -/
def Parser.counted (tally : Nat) (inner : Parser) : Parser :=
  .host
    { name := inner.name
      greedy := inner.greedy
      read := inner.read
      suggest := fun ctx line => do
        modify (·.countCall tally)
        inner.suggest ctx line }

/-- A suggester that uses neither a slot for a cache nor a counter, and does not turn back the
    clock. -/
structure Suggester.Spares (slot tally : Nat) (s : Suggester) : Prop where
  cache : ∀ ctx line m, ((s ctx line).run m).2.cache slot = m.cache slot
  calls : ∀ ctx line m, ((s ctx line).run m).2.callCount tally = m.callCount tally
  now : ∀ ctx line m, m.now ≤ ((s ctx line).run m).2.now

/-- What happens to a parser that remembers suggestions. -/
inductive Watch.Act where
  | ask (ctx : Context) (line : Line)
  | clear
  | advance (milliseconds : Nat)

/-- What is seen of a parser that remembers suggestions. -/
inductive Watch.Sight where
  /-- An answer for a key, the number of calls that it took, and its time. -/
  | answer (key : String) (list : List Suggestion) (calls time : Nat)
  | cleared

/-- The memory, and what was seen so far, the last first. -/
structure Watch where
  memory : Memory
  past : List Watch.Sight := []

namespace Cache

variable {cache : Cache} {now lifetime : Nat} {key : String} {list : List Suggestion}

/-- What is found is the list of an entry for the key that is young enough. -/
theorem exists_of_find? (h : cache.find? now lifetime key = some list) :
    ∃ e ∈ cache.entries, e.key = key ∧ now - e.time < lifetime ∧ e.list = list := by
  rw [find?, Option.map_eq_some_iff] at h
  obtain ⟨e, he, hlist⟩ := h
  obtain ⟨hfound, hfresh⟩ := Option.filter_eq_some_iff.mp he
  have hkey := List.find?_some hfound
  exact ⟨e, List.mem_of_find?_eq_some hfound, beq_iff_eq.mp hkey, of_decide_eq_true hfresh, hlist⟩

/-- Where nothing is found, no entry for the key is young enough, if there is one entry at most. -/
theorem not_fresh_of_find? (hdistinct : (cache.entries.map (·.key)).Nodup)
    (h : cache.find? now lifetime key = none) {e : CacheEntry} (he : e ∈ cache.entries)
    (hkey : e.key = key) : ¬now - e.time < lifetime := by
  intro hfresh
  rw [find?, Option.map_eq_none_iff] at h
  cases hfound : cache.entries.find? (·.key == key) with
  | none => exact absurd (beq_iff_eq.mpr hkey) (List.find?_eq_none.mp hfound e he)
  | some first =>
      have hfirst := List.find?_some hfound
      have hsame : first = e := List.inj_on_of_nodup_map hdistinct
        (List.mem_of_find?_eq_some hfound) he ((beq_iff_eq.mp hfirst).trans hkey.symm)
      have hkept : e.isFresh now lifetime = true := decide_eq_true hfresh
      rw [hfound, hsame, Option.filter_some, if_pos hkept] at h
      cases h

/-- An insertion leaves the entries for other keys that are young enough, and adds one. -/
theorem mem_insert {e : CacheEntry} : e ∈ (cache.insert now lifetime key list).entries ↔
    e = ⟨key, list, now⟩ ∨
      e ∈ cache.entries ∧ now - e.time < lifetime ∧ e.key ≠ key := by
  simp only [insert, List.mem_append, List.mem_filter, List.mem_singleton, Bool.and_eq_true,
    CacheEntry.isFresh, decide_eq_true_eq, bne_iff_ne]
  exact Or.comm

theorem nodup_insert (hdistinct : (cache.entries.map (·.key)).Nodup) :
    ((cache.insert now lifetime key list).entries.map (·.key)).Nodup := by
  simp only [insert, List.map_append, List.map_singleton]
  refine List.nodup_append.mpr
    ⟨hdistinct.sublist (List.filter_sublist.map _), List.nodup_singleton _, ?_⟩
  intro other hother new hnew
  obtain ⟨e, he, rfl⟩ := List.mem_map.mp hother
  obtain ⟨-, hkept⟩ := List.mem_filter.mp he
  rw [List.mem_singleton.mp hnew]
  exact bne_iff_ne.mp (Bool.and_eq_true_iff.mp hkept).2

end Cache

namespace Watch

/-- The key, answer and time of a call of the parser inside, if it was called. -/
def Sight.call? : Sight → Option CacheEntry
  | .answer key list calls time => if calls = 0 then none else some ⟨key, list, time⟩
  | .cleared => none

/-- Whether the cache was cleared. -/
def Sight.isCleared : Sight → Bool
  | .answer .. => false
  | .cleared => true

/-- The calls of the parser inside, the last first. -/
def calls (w : Watch) : List CacheEntry :=
  w.past.filterMap Sight.call?

/-- The calls since the cache was cleared. -/
def recent (w : Watch) : List CacheEntry :=
  (w.past.takeWhile (!·.isCleared)).filterMap Sight.call?

/-- The last of some calls for a key. -/
def lastFor (key : String) (calls : List CacheEntry) : Option CacheEntry :=
  calls.find? (·.key == key)

/-- Since the cache was cleared there was a call for a key that is younger than the time to live. -/
def Lives (w : Watch) (lifetime : Nat) (key : String) : Prop :=
  ∃ e ∈ w.recent, e.key = key ∧ w.memory.now - e.time < lifetime

section

variable (slot lifetime tally : Nat) (inner : Parser)

/-- The answer of the parser that remembers, and the memory after it. -/
def answer (w : Watch) (ctx : Context) (line : Line) : List Suggestion × Memory :=
  ((Parser.cached slot lifetime (inner.counted tally)).suggest ctx line).run w.memory

/-- What the parser inside answers when it is called and counted, and the memory after it. -/
def call (w : Watch) (ctx : Context) (line : Line) : List Suggestion × Memory :=
  (inner.suggest ctx line).run (w.memory.countCall tally)

/-- What is seen after one thing has happened. -/
def next (w : Watch) : Act → Watch
  | .ask ctx line =>
    let answer := w.answer slot lifetime tally inner ctx line
    let calls := answer.2.callCount tally - w.memory.callCount tally
    { memory := answer.2, past := .answer line.cacheKey answer.1 calls answer.2.now :: w.past }
  | .clear => { memory := w.memory.setCache slot {}, past := .cleared :: w.past }
  | .advance milliseconds => { w with memory := w.memory.advance milliseconds }

/-- What may be seen after some things have happened, if nothing was remembered at first. -/
inductive Reached : Watch → Prop where
  | start {m : Memory} (bare : m.cache slot = {}) : Reached { memory := m }
  | next {w : Watch} (before : Reached w) (act : Act) :
      Reached (w.next slot lifetime tally inner act)

end

/-- What the past tells of the cache: of every key it holds nothing but the last call, once, and the
    last call for every key as long as it is young enough. -/
structure Tells (slot lifetime : Nat) (w : Watch) : Prop where
  distinct : ((w.memory.cache slot).entries.map (·.key)).Nodup
  last : ∀ e ∈ (w.memory.cache slot).entries, lastFor e.key w.recent = some e
  kept : ∀ e, lastFor e.key w.recent = some e → w.memory.now - e.time < lifetime →
    e ∈ (w.memory.cache slot).entries
  ordered : w.recent.Pairwise (·.time ≥ ·.time)
  past : ∀ e ∈ w.recent, e.time ≤ w.memory.now

variable {slot lifetime tally : Nat} {inner : Parser} {w : Watch}

/-! ## The calls for a key -/

theorem lastFor_cons (e : CacheEntry) (key : String) (calls : List CacheEntry) :
    lastFor key (e :: calls) = if e.key = key then some e else lastFor key calls := by
  rw [lastFor, List.find?_cons]
  by_cases h : e.key = key
  · rw [if_pos h, beq_iff_eq.mpr h]
  · rw [if_neg h, beq_eq_false_iff_ne.mpr h]
    rfl

theorem lastFor_spec {key : String} {calls : List CacheEntry} {e : CacheEntry}
    (h : lastFor key calls = some e) : e ∈ calls ∧ e.key = key := by
  rw [lastFor] at h
  have hkey := List.find?_some h
  exact ⟨List.mem_of_find?_eq_some h, beq_iff_eq.mp hkey⟩

/-- No call for a key is younger than the last one. -/
theorem lastFor_youngest {key : String} {calls : List CacheEntry}
    (hordered : calls.Pairwise (·.time ≥ ·.time)) {e : CacheEntry} (he : e ∈ calls)
    (hkey : e.key = key) : ∃ last, lastFor key calls = some last ∧ e.time ≤ last.time := by
  induction calls with
  | nil => cases he
  | cons first calls ih =>
      obtain ⟨hfirst, hrest⟩ := List.pairwise_cons.mp hordered
      rw [lastFor_cons]
      split
      · refine ⟨first, rfl, ?_⟩
        rcases List.mem_cons.mp he with rfl | hmem
        · exact Nat.le_refl _
        · exact hfirst e hmem
      · next hother =>
          rcases List.mem_cons.mp he with rfl | hmem
          · exact absurd hkey hother
          · exact ih hrest hmem

/-- The calls since the cache was cleared are the last ones of all. -/
theorem recent_prefix (w : Watch) : w.recent <+: w.calls :=
  (List.takeWhile_prefix _).filterMap _

/-- The last call for a key since the cache was cleared is the last one of all. -/
theorem lastFor_calls {key : String} {e : CacheEntry} (h : lastFor key w.recent = some e) :
    lastFor key w.calls = some e := by
  obtain ⟨before, hsplit⟩ := w.recent_prefix
  rw [lastFor, ← hsplit, List.find?_append]
  exact Option.or_eq_some_iff.mpr (Or.inl h)

/-! ## One question -/

theorem answer_eq (slot lifetime tally : Nat) (inner : Parser) (w : Watch) (ctx : Context)
    (line : Line) :
    w.answer slot lifetime tally inner ctx line =
      match (w.memory.cache slot).find? w.memory.now lifetime line.cacheKey with
      | some list => (list, w.memory)
      | none =>
        let made := w.call tally inner ctx line
        (made.1, made.2.setCache slot
          ((made.2.cache slot).insert made.2.now lifetime line.cacheKey made.1)) := by
  rw [answer, Parser.suggest, Recall.run_cached]
  rfl

/-- A question is answered from the cache, and nothing changes, or by a call, which is stored. -/
theorem next_ask_cases (hinner : inner.suggest.Spares slot tally) (w : Watch) (ctx : Context)
    (line : Line) :
    (∃ list, (w.memory.cache slot).find? w.memory.now lifetime line.cacheKey = some list ∧
      w.next slot lifetime tally inner (.ask ctx line) =
        { memory := w.memory
          past := .answer line.cacheKey list 0 w.memory.now :: w.past }) ∨
    ((w.memory.cache slot).find? w.memory.now lifetime line.cacheKey = none ∧
      ∃ list m, w.call tally inner ctx line = (list, m) ∧ w.memory.now ≤ m.now ∧
        w.next slot lifetime tally inner (.ask ctx line) =
          { memory := m.setCache slot
              ((w.memory.cache slot).insert m.now lifetime line.cacheKey list)
            past := .answer line.cacheKey list 1 m.now :: w.past }) := by
  have hanswer := answer_eq slot lifetime tally inner w ctx line
  cases hfound : (w.memory.cache slot).find? w.memory.now lifetime line.cacheKey with
  | some list =>
      rw [hfound] at hanswer
      refine Or.inl ⟨list, rfl, ?_⟩
      simp only [next, hanswer, Nat.sub_self]
  | none =>
      rw [hfound] at hanswer
      have hcache := hinner.cache ctx line (w.memory.countCall tally)
      have hcalls := hinner.calls ctx line (w.memory.countCall tally)
      have hnow := hinner.now ctx line (w.memory.countCall tally)
      refine Or.inr ⟨rfl, (w.call tally inner ctx line).1, (w.call tally inner ctx line).2, rfl,
        hnow, ?_⟩
      simp only [next, hanswer, call, hcache, hcalls, Memory.cache_countCall,
        Memory.callCount_setCache, Memory.callCount_countCall, Memory.now_setCache,
        Nat.add_sub_cancel_left]

/-! ## What the past tells -/

namespace Tells

theorem start {m : Memory} (bare : m.cache slot = {}) : Tells slot lifetime { memory := m } where
  distinct := by simp [bare]
  last := by simp [bare]
  kept := fun e hlast => by cases hlast
  ordered := List.Pairwise.nil
  past := by simp [recent]

theorem clear (w : Watch) :
    Tells slot lifetime { memory := w.memory.setCache slot {}, past := .cleared :: w.past } where
  distinct := by simp
  last := by simp
  kept := fun e hlast => by cases hlast
  ordered := List.Pairwise.nil
  past := fun e he => by cases he

theorem advance (h : w.Tells slot lifetime) (milliseconds : Nat) :
    Tells slot lifetime { w with memory := w.memory.advance milliseconds } where
  distinct := h.distinct
  last := h.last
  kept := by
    intro e hlast hfresh
    have hfresh : w.memory.now + milliseconds - e.time < lifetime := hfresh
    exact h.kept e hlast (by omega)
  ordered := h.ordered
  past := fun e he => Nat.le_add_right_of_le (h.past e he)

/-- An answer from the cache is not a call. -/
theorem recalled (h : w.Tells slot lifetime) (key : String) (list : List Suggestion) (time : Nat) :
    Tells slot lifetime { memory := w.memory, past := .answer key list 0 time :: w.past } :=
  ⟨h.distinct, h.last, h.kept, h.ordered, h.past⟩

/-- A call is stored, and of the other entries those stay that are young enough. -/
theorem store (h : w.Tells slot lifetime) {m : Memory} (hnow : w.memory.now ≤ m.now) (key : String)
    (list : List Suggestion) :
    Tells slot lifetime
      { memory := m.setCache slot ((w.memory.cache slot).insert m.now lifetime key list)
        past := .answer key list 1 m.now :: w.past } := by
  constructor
  · rw [Memory.cache_setCache]
    exact Cache.nodup_insert h.distinct
  · intro e he
    rw [Memory.cache_setCache, Cache.mem_insert] at he
    show lastFor e.key (⟨key, list, m.now⟩ :: w.recent) = some e
    rw [lastFor_cons]
    rcases he with rfl | ⟨hold, -, hother⟩
    · exact if_pos rfl
    · rw [if_neg (Ne.symm hother)]
      exact h.last e hold
  · intro e hlast hfresh
    rw [Memory.cache_setCache, Cache.mem_insert]
    have hlast : lastFor e.key (⟨key, list, m.now⟩ :: w.recent) = some e := hlast
    have hfresh : m.now - e.time < lifetime := hfresh
    rw [lastFor_cons] at hlast
    split at hlast
    · exact Or.inl (Option.some.inj hlast).symm
    · next hother =>
        -- what is young enough now was so before
        exact Or.inr ⟨h.kept e hlast (by omega), hfresh, Ne.symm hother⟩
  · refine List.pairwise_cons.mpr ⟨fun e he => ?_, h.ordered⟩
    exact Nat.le_trans (h.past e he) hnow
  · refine List.forall_mem_cons.mpr ⟨Nat.le_refl _, fun e he => ?_⟩
    exact Nat.le_trans (h.past e he) hnow

/-- Whatever happens, the past goes on telling what the cache holds. -/
theorem next (hinner : inner.suggest.Spares slot tally) (h : w.Tells slot lifetime) (act : Act) :
    (w.next slot lifetime tally inner act).Tells slot lifetime := by
  cases act with
  | ask ctx line =>
      rcases w.next_ask_cases hinner ctx line with
        ⟨list, -, hnext⟩ | ⟨-, list, m, -, hnow, hnext⟩
      · rw [hnext]
        exact h.recalled _ _ _
      · rw [hnext]
        exact h.store hnow _ _
  | clear => exact .clear w
  | advance milliseconds => exact h.advance milliseconds

/-- An entry for a key is young enough exactly if some call for it is. -/
theorem lives_iff (h : w.Tells slot lifetime) (key : String) :
    w.Lives lifetime key ↔
      ∃ list, (w.memory.cache slot).find? w.memory.now lifetime key = some list := by
  constructor
  · rintro ⟨e, he, hkey, hfresh⟩
    obtain ⟨last, hlast, hage⟩ := lastFor_youngest h.ordered he hkey
    obtain ⟨-, hlastKey⟩ := lastFor_spec hlast
    have hyoung : w.memory.now - last.time < lifetime := by omega
    have hheld := h.kept last (hlastKey.symm ▸ hlast) hyoung
    cases hfound : (w.memory.cache slot).find? w.memory.now lifetime key with
    | some list => exact ⟨list, rfl⟩
    | none => exact absurd hyoung (Cache.not_fresh_of_find? h.distinct hfound hheld hlastKey)
  · rintro ⟨list, hfound⟩
    obtain ⟨e, he, hkey, hfresh, -⟩ := Cache.exists_of_find? hfound
    exact ⟨e, (lastFor_spec (h.last e he)).1, hkey, hfresh⟩

end Tells

theorem Reached.tells (hinner : inner.suggest.Spares slot tally)
    (h : Reached slot lifetime tally inner w) : w.Tells slot lifetime := by
  induction h with
  | start bare => exact .start bare
  | next _ act ih => exact ih.next hinner act

/-- After anything that may happen, a question for a key is answered with the list of the last call
    for the key. If a call since the last clearing is younger than the time to live, there is no
    other call and nothing changes. If not, the parser inside is called once for the list, and then
    the cache has one entry for a key: that of the call, and of the last calls for other keys since
    the last clearing those that are younger than the time to live. -/
theorem Reached.answers_of_past (hinner : inner.suggest.Spares slot tally)
    (h : Reached slot lifetime tally inner w) {ctx : Context} {line : Line} {w' : Watch}
    (hnext : w.next slot lifetime tally inner (.ask ctx line) = w') :
    ∃ list calls,
      w'.past = .answer line.cacheKey list calls w'.memory.now :: w.past ∧
      (lastFor line.cacheKey w'.calls).map (·.list) = some list ∧
      (w.Lives lifetime line.cacheKey → calls = 0 ∧ w'.memory = w.memory) ∧
      (¬w.Lives lifetime line.cacheKey →
        calls = 1 ∧ list = (w.call tally inner ctx line).1 ∧
        ((w'.memory.cache slot).entries.map (·.key)).Nodup ∧
        ∀ e, e ∈ (w'.memory.cache slot).entries ↔
          e = ⟨line.cacheKey, list, w'.memory.now⟩ ∨
            e.key ≠ line.cacheKey ∧ lastFor e.key w.recent = some e ∧
              w'.memory.now - e.time < lifetime) := by
  have htells := h.tells hinner
  have hlives := htells.lives_iff line.cacheKey
  subst hnext
  rcases w.next_ask_cases hinner ctx line with
    ⟨list, hfound, hnext⟩ | ⟨hfound, list, m, hcall, hnow, hnext⟩
  · obtain ⟨e, he, hkey, -, hlist⟩ := Cache.exists_of_find? hfound
    have hlast : lastFor line.cacheKey w.calls = some e := lastFor_calls (hkey ▸ htells.last e he)
    rw [hnext]
    refine ⟨list, 0, rfl, ?_, fun _ => ⟨rfl, rfl⟩, fun hnone => ?_⟩
    · show (lastFor line.cacheKey w.calls).map (·.list) = some list
      rw [hlast, Option.map_some, hlist]
    · exact absurd (hlives.mpr ⟨list, hfound⟩) hnone
  · rw [hnext]
    refine ⟨list, 1, rfl, ?_, fun hlive => ?_, fun _ => ⟨rfl, by rw [hcall], ?_, fun e => ?_⟩⟩
    · show (lastFor line.cacheKey (⟨line.cacheKey, list, m.now⟩ :: w.calls)).map (·.list) =
        some list
      rw [lastFor_cons, if_pos rfl, Option.map_some]
    · obtain ⟨held, hheld⟩ := hlives.mp hlive
      cases hfound.symm.trans hheld
    · exact (htells.store hnow line.cacheKey list).distinct
    · rw [Memory.cache_setCache, Cache.mem_insert]
      refine or_congr_right ⟨fun hold => ?_, fun hold => ?_⟩
      · obtain ⟨he, hfresh, hother⟩ := hold
        exact ⟨hother, htells.last e he, hfresh⟩
      · obtain ⟨hother, hlast, hfresh⟩ := hold
        have hfresh : m.now - e.time < lifetime := hfresh
        exact ⟨htells.kept e hlast (by omega), hfresh, hother⟩

/-- A parser that suggests another word when a second is over. -/
def hurrying : Parser :=
  .host
    { name := "hurrying"
      read := Parser.readText .word
      suggest := fun _ _ => do
        return [.ofText (if (← get).now < 1000 then "early" else "late")] }

theorem hurrying_spares (slot tally : Nat) : hurrying.suggest.Spares slot tally :=
  ⟨fun _ _ _ => rfl, fun _ _ _ => rfl, fun _ _ _ => Nat.le_refl _⟩

/-- Whoever asks. -/
def asker : Context where
  sender := ⟨"alice", "player", 1, []⟩

/-- What was seen some milliseconds after a question. -/
def hurried (milliseconds : Nat) : Watch :=
  (({ memory := {} } : Watch).next 0 1000 0 hurrying (.ask asker (.ofString "fo"))).next 0 1000 0
    hurrying (.advance milliseconds)

theorem hurried_reached (milliseconds : Nat) : Reached 0 1000 0 hurrying (hurried milliseconds) :=
  .next (.next (.start rfl) _) _

theorem recent_hurried (milliseconds : Nat) :
    (hurried milliseconds).recent = [⟨"fo", [.ofText "early"], 0⟩] := rfl

/-- With a second to live, the answer is remembered for a question in the last millisecond of it,
    and is asked for anew when the second is over. -/
theorem answers_within_a_second :
    ((hurried 999).next 0 1000 0 hurrying (.ask asker (.ofString " fo"))).past.head? =
        some (.answer "fo" [.ofText "early"] 0 999) ∧
      ((hurried 1000).next 0 1000 0 hurrying (.ask asker (.ofString " fo"))).past.head? =
        some (.answer "fo" [.ofText "late"] 1 1000) := by
  constructor
  · have hnext : (hurried 999).next 0 1000 0 hurrying (.ask asker (.ofString " fo")) = _ := rfl
    obtain ⟨list, calls, hpast, hlast, hhit, -⟩ :=
      (hurried_reached 999).answers_of_past (hurrying_spares 0 0) hnext
    have hlives : (hurried 999).Lives 1000 "fo" := by
      rw [Lives, recent_hurried]
      exact ⟨_, List.mem_singleton_self _, rfl, by decide⟩
    obtain ⟨rfl, hsame⟩ := hhit hlives
    rw [calls, hpast] at hlast
    have hlist : some [.ofText "early"] = some list := hlast
    rw [hpast, hsame, ← Option.some.inj hlist]
    rfl
  · have hnext : (hurried 1000).next 0 1000 0 hurrying (.ask asker (.ofString " fo")) = _ := rfl
    obtain ⟨list, calls, hpast, -, -, hmiss⟩ :=
      (hurried_reached 1000).answers_of_past (hurrying_spares 0 0) hnext
    have hover : ¬(hurried 1000).Lives 1000 "fo" := by
      rw [Lives, recent_hurried]
      rintro ⟨e, he, -, hyoung⟩
      obtain rfl := List.mem_singleton.mp he
      exact absurd hyoung (by decide)
    obtain ⟨rfl, hlist, -, -⟩ := hmiss hover
    rw [hpast, hlist]
    rfl

end Watch

end CommandLine
