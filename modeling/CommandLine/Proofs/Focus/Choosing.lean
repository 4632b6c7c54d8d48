import CommandLine.Dispatcher
import CommandLine.Proofs.Focus.Rejection

/-! # What is chosen of the suggestions

    Whatever is suggested at the focus of a completion, two things are done with it before it is cut
    to a limit: what does not continue the typed text is left out, and of each text only the first
    suggestion is kept. Both leave the rest as it was and in its order, neither does more when it is
    done again, and it does not matter which is done first (`Suggestion.Sifts`).

    So a completion never suggests a text twice, a limit takes the first of what would be suggested
    without it, and a suggestion is forced only where there would be none (`Tree.complete_sifted`).
    The limits are looked at when the focus has been found and asked: they change nothing else. A
    dispatcher has them from its settings, and forces no suggestion for a line that a preprocessor
    stops (`Dispatcher.complete_limited`). -/

namespace CommandLine

open Text

namespace Suggestion

/-! ## The first of each text -/

section

variable {seen : List String} {s : Suggestion} {list : List Suggestion}

theorem firstsExcept_of_seen (h : s.value ∈ seen) :
    firstsExcept seen (s :: list) = firstsExcept seen list := by
  rw [firstsExcept, if_pos (List.contains_iff_mem.mpr h)]

theorem firstsExcept_of_new (h : s.value ∉ seen) :
    firstsExcept seen (s :: list) = s :: firstsExcept (s.value :: seen) list := by
  rw [firstsExcept, if_neg (mt List.contains_iff_mem.mp h)]

end

/-- Of the texts in `seen` only those count that are in the list. -/
theorem firstsExcept_congr {seen other : List String} {list : List Suggestion}
    (h : ∀ s ∈ list, s.value ∈ seen ↔ s.value ∈ other) :
    firstsExcept seen list = firstsExcept other list := by
  induction list generalizing seen other with
  | nil => rfl
  | cons s list ih =>
      obtain ⟨hs, hlist⟩ := List.forall_mem_cons.mp h
      by_cases hseen : s.value ∈ seen
      · rw [firstsExcept_of_seen hseen, firstsExcept_of_seen (hs.mp hseen), ih hlist]
      · rw [firstsExcept_of_new hseen, firstsExcept_of_new (mt hs.mpr hseen)]
        refine congrArg (s :: ·) (ih fun x hx => ?_)
        rw [List.mem_cons, List.mem_cons, hlist x hx]

/-- It is the same to leave out texts before or after the first of each is taken. -/
theorem firstsExcept_filter (p : String → Bool) (seen : List String) (list : List Suggestion) :
    firstsExcept seen (list.filter fun s => p s.value) =
      (firstsExcept seen list).filter fun s => p s.value := by
  induction list generalizing seen with
  | nil => rfl
  | cons s list ih =>
      by_cases hp : p s.value = true
      · rw [List.filter_cons, if_pos hp]
        by_cases hseen : s.value ∈ seen
        · rw [firstsExcept_of_seen hseen, firstsExcept_of_seen hseen, ih]
        · rw [firstsExcept_of_new hseen, firstsExcept_of_new hseen, List.filter_cons, if_pos hp, ih]
      · rw [List.filter_cons, if_neg hp]
        by_cases hseen : s.value ∈ seen
        · rw [firstsExcept_of_seen hseen, ih]
        · -- the text of `s` is not among those that are kept
          rw [firstsExcept_of_new hseen, List.filter_cons, if_neg hp, ← ih]
          refine firstsExcept_congr fun x hx => ?_
          have hx : p x.value = true := (List.mem_filter.mp hx).2
          have hne : x.value ≠ s.value := fun heq => hp (heq ▸ hx)
          rw [List.mem_cons, or_iff_right hne]

theorem firstsExcept_sublist (seen : List String) (list : List Suggestion) :
    (firstsExcept seen list).Sublist list := by
  induction list generalizing seen with
  | nil => exact .slnil
  | cons s list ih =>
      by_cases hseen : s.value ∈ seen
      · rw [firstsExcept_of_seen hseen]
        exact (ih seen).cons s
      · rw [firstsExcept_of_new hseen]
        exact (ih _).cons_cons s

theorem mem_values_firstsExcept {v : String} {seen : List String} {list : List Suggestion} :
    v ∈ (firstsExcept seen list).map (·.value) ↔ v ∈ list.map (·.value) ∧ v ∉ seen := by
  induction list generalizing seen with
  | nil => simp [firstsExcept]
  | cons s list ih =>
      rw [List.map_cons, List.mem_cons]
      by_cases hseen : s.value ∈ seen
      · rw [firstsExcept_of_seen hseen, ih]
        constructor
        · exact fun ⟨hv, hnew⟩ => ⟨Or.inr hv, hnew⟩
        · rintro ⟨rfl | hv, hnew⟩
          · exact absurd hseen hnew
          · exact ⟨hv, hnew⟩
      · rw [firstsExcept_of_new hseen, List.map_cons, List.mem_cons, ih, List.mem_cons]
        by_cases hv : v = s.value
        · simp [hv, hseen]
        · simp [hv]

theorem nodup_values_firstsExcept (seen : List String) (list : List Suggestion) :
    ((firstsExcept seen list).map (·.value)).Nodup := by
  induction list generalizing seen with
  | nil => exact List.nodup_nil
  | cons s list ih =>
      by_cases hseen : s.value ∈ seen
      · rw [firstsExcept_of_seen hseen]
        exact ih seen
      · rw [firstsExcept_of_new hseen, List.map_cons, List.nodup_cons]
        refine ⟨fun hagain => ?_, ih _⟩
        exact (mem_values_firstsExcept.mp hagain).2 List.mem_cons_self

/-- Of a text that has been seen, nothing is kept. -/
theorem filter_firstsExcept_of_seen {v : String} {seen : List String} (hv : v ∈ seen)
    (list : List Suggestion) : (firstsExcept seen list).filter (·.value == v) = [] := by
  rw [List.filter_eq_nil_iff]
  intro s hs hsv
  have hmem : s.value ∈ (firstsExcept seen list).map (·.value) := List.mem_map_of_mem hs
  rw [beq_iff_eq.mp hsv] at hmem
  exact (mem_values_firstsExcept.mp hmem).2 hv

/-- Of a text that is not in `seen`, the first suggestion is kept as it is, and no other. -/
theorem filter_firstsExcept {v : String} {seen : List String} (hv : v ∉ seen)
    (list : List Suggestion) :
    (firstsExcept seen list).filter (·.value == v) = (list.find? (·.value == v)).toList := by
  induction list generalizing seen with
  | nil => rfl
  | cons s list ih =>
      by_cases hs : s.value = v
      · -- here `s` is the first, and behind it the text has been seen
        subst hs
        rw [firstsExcept_of_new hv, List.filter_cons, List.find?_cons, beq_self_eq_true,
          if_pos rfl, filter_firstsExcept_of_seen List.mem_cons_self]
        rfl
      · have hother : (s.value == v) = false := beq_eq_false_iff_ne.mpr hs
        rw [List.find?_cons, hother]
        by_cases hseen : s.value ∈ seen
        · rw [firstsExcept_of_seen hseen]
          exact ih hv
        · rw [firstsExcept_of_new hseen, List.filter_cons, hother, if_neg Bool.false_ne_true]
          exact ih (List.not_mem_cons_of_ne_of_not_mem (Ne.symm hs) hv)

/-- Where no text repeats another or one in `seen`, all suggestions are kept. -/
theorem firstsExcept_eq_self {seen : List String} {list : List Suggestion}
    (hnodup : (list.map (·.value)).Nodup) (hnew : ∀ s ∈ list, s.value ∉ seen) :
    firstsExcept seen list = list := by
  induction list generalizing seen with
  | nil => rfl
  | cons s list ih =>
      rw [List.map_cons, List.nodup_cons] at hnodup
      obtain ⟨hs, hlist⟩ := List.forall_mem_cons.mp hnew
      rw [firstsExcept_of_new hs, ih hnodup.2]
      intro x hx
      have hne : x.value ≠ s.value := fun heq => hnodup.1 (heq ▸ List.mem_map_of_mem hx)
      exact List.not_mem_cons_of_ne_of_not_mem hne (hlist x hx)

/-- How it comes out to leave out what does not continue a typed text, and to keep the first
    suggestion of each text. -/
structure Sifts (typed : String) (list : List Suggestion) : Prop where
  either_first : firsts (matching typed list) = matching typed (firsts list)
  firsts_again : firsts (firsts list) = firsts list
  matching_again : matching typed (matching typed list) = matching typed list
  firsts_sublist : (firsts list).Sublist list
  matching_sublist : (matching typed list).Sublist list
  /-- Of every text the first suggestion is left, with its label and description, and no other. -/
  first_of_each : ∀ v, (firsts list).filter (·.value == v) = (list.find? (·.value == v)).toList

theorem sifts (typed : String) (list : List Suggestion) : Sifts typed list where
  either_first := firstsExcept_filter (fun value => (ofText value).continues typed) [] list
  firsts_again :=
    firstsExcept_eq_self (nodup_values_firstsExcept [] list) fun _ _ => List.not_mem_nil
  matching_again := List.filter_eq_self.mpr fun _ hs => (List.mem_filter.mp hs).2
  firsts_sublist := firstsExcept_sublist [] list
  matching_sublist := List.filter_sublist
  first_of_each _ := filter_firstsExcept List.not_mem_nil list

end Suggestion

/-! ## Limits -/

namespace Limits

/-- As many suggestions as are given at most. -/
def cap (limits : Limits) (list : List Suggestion) : List Suggestion :=
  match limits.most with
  | none => list
  | some most => list.take most

theorem cap_sublist (limits : Limits) (list : List Suggestion) :
    (limits.cap list).Sublist list := by
  rw [cap]
  split
  · exact List.Sublist.refl _
  · exact List.take_sublist _ _

/-- What is left is suggested, and continues what was typed. -/
theorem mem_of_mem_cap {limits : Limits} {typed : String} {list : List Suggestion}
    {s : Suggestion} (hs : s ∈ limits.cap (Suggestion.firsts (Suggestion.matching typed list))) :
    s ∈ list ∧ s.continues typed = true := by
  have hmatching := (Suggestion.firstsExcept_sublist _ _).subset ((limits.cap_sublist _).subset hs)
  exact List.mem_filter.mp hmatching

theorem choose_eq (limits : Limits) (typed : String) (list : List Suggestion) :
    limits.choose typed list =
      if (limits.cap (Suggestion.firsts (Suggestion.matching typed list))).isEmpty && limits.force
      then [.ofText ""] else limits.cap (Suggestion.firsts (Suggestion.matching typed list)) :=
  rfl

section

variable (most : Option Nat) (typed : String) (list : List Suggestion)

/-- Where nothing is forced, the first of what is left are chosen. -/
theorem choose_unforced :
    choose { most } typed list =
      cap { most } (Suggestion.firsts (Suggestion.matching typed list)) := by
  rw [choose_eq, Bool.and_false, if_neg Bool.false_ne_true]

theorem choose_unlimited :
    choose {} typed list = Suggestion.firsts (Suggestion.matching typed list) :=
  choose_unforced none typed list

/-- From what is chosen without limits, any limits choose. -/
theorem choose_eq_cap (limits : Limits) :
    limits.choose typed list =
      if limits.cap (choose {} typed list) = [] ∧ limits.force = true then [.ofText ""]
      else limits.cap (choose {} typed list) := by
  rw [choose_eq, choose_unlimited]
  simp only [Bool.and_eq_true, List.isEmpty_iff]

/-- A suggestion is forced where there would be none. -/
theorem choose_forced :
    choose { most, force := true } typed list =
      if choose { most } typed list = [] then [.ofText ""] else choose { most } typed list := by
  rw [choose_eq, choose_unforced, Bool.and_true]
  simp only [List.isEmpty_iff]
  rfl

theorem nodup_values_choose : ((choose { most } typed list).map (·.value)).Nodup := by
  rw [choose_unforced]
  exact (Suggestion.nodup_values_firstsExcept [] (Suggestion.matching typed list)).sublist
    ((cap_sublist _ _).map _)

end

end Limits

/-! ## Completions -/

namespace Tree

/-- The limits are for the list only: the range is the same with all of them, and so is what is
    found and what is remembered of it. -/
theorem complete_limits (t : Tree) (limits : Limits) (ctx : Context) (text : String)
    (cursor : Nat) (memory : Memory) :
    t.complete limits ctx text cursor memory =
      ({ (t.complete {} ctx text cursor memory).1 with
          list := limits.choose (Line.typed text cursor)
            ((t.focus ctx (.upTo text cursor)).suggest memory).1 },
        ((t.focus ctx (.upTo text cursor)).suggest memory).2) :=
  rfl

/-- A completion suggests no text twice. -/
theorem nodup_values_complete (t : Tree) (most : Option Nat) (ctx : Context) (text : String)
    (cursor : Nat) (memory : Memory) :
    ((t.complete { most } ctx text cursor memory).1.list.map (·.value)).Nodup := by
  rw [list_complete]
  exact Limits.nodup_values_choose _ _ _

/-- What a completion suggests continues what was typed. -/
theorem continues_of_mem_complete {t : Tree} {most : Option Nat} {ctx : Context} {text : String}
    {cursor : Nat} {memory : Memory} {s : Suggestion}
    (hs : s ∈ (t.complete { most } ctx text cursor memory).1.list) :
    (lowercase (Line.typed text cursor)).toList <+: (lowercase s.value).toList := by
  rw [list_complete, Limits.choose_unforced] at hs
  have hcontinues : s.continues (Line.typed text cursor) = true := (Limits.mem_of_mem_cap hs).2
  rwa [Suggestion.continues, List.isPrefixOf_iff_prefix] at hcontinues

/-- Leaving out suggestions that do not continue the typed text and those of repeated texts loses
    and repeats nothing else. So on every tree, wherever the focus of a completion is, the suggested
    texts differ and continue what was typed up to case; a limit leaves the first of them, and where
    nothing is suggested, the empty text is if a suggestion is forced. -/
theorem complete_sifted :
    (∀ typed list, Suggestion.Sifts typed list) ∧
    ∀ (t : Tree) (ctx : Context) (text : String) (cursor : Nat) (memory : Memory)
      (most : Option Nat),
      let given := t.complete { most } ctx text cursor memory
      (given.1.list.map (·.value)).Nodup ∧
      (∀ s ∈ given.1.list,
        (lowercase (Line.typed text cursor)).toList <+: (lowercase s.value).toList) ∧
      (∀ k, most = some k →
        given.1.list = (t.complete {} ctx text cursor memory).1.list.take k) ∧
      t.complete { most, force := true } ctx text cursor memory =
        ({ given.1 with list := if given.1.list = [] then [.ofText ""] else given.1.list },
          given.2) := by
  refine ⟨Suggestion.sifts, fun t ctx text cursor memory most => ?_⟩
  have hrun (limits : Limits) := t.complete_limits limits ctx text cursor memory
  generalize (t.focus ctx (.upTo text cursor)).suggest memory = found at hrun
  have hlist (limits : Limits) : (t.complete limits ctx text cursor memory).1.list =
      limits.choose (Line.typed text cursor) found.1 := by
    rw [hrun]
  refine ⟨t.nodup_values_complete most ctx text cursor memory,
    fun s hs => continues_of_mem_complete hs, ?_, ?_⟩
  · rintro k rfl
    rw [hlist, hlist, Limits.choose_unforced, Limits.choose_unlimited]
    rfl
  · rw [hrun { most, force := true }, hrun { most }]
    simp only [Limits.choose_forced]

end Tree

/-- `visit` one of some places, two of which have the same name. -/
def Command.visit : Command where
  components :=
    [.literal { name := "visit" },
     .argument
      { name := "place"
        parser := .enumeration
          [⟨"Spawn", some "the first"⟩, ⟨"home", none⟩, ⟨"spawner", none⟩,
           ⟨"Spawn", some "the second"⟩] }]

/-- Of two places with the same name the first is suggested, and of two suggestions the first is
    left by a limit of one. -/
theorem Tree.complete_sifted_visit :
    let visiting := ({} : Tree).apply (.insert .visit)
    let given (limits : Limits) := (visiting.complete limits (.ofRight "") "visit SP" 8 {}).1.list
    given {} = [⟨"Spawn", none, some "the first"⟩, .ofText "spawner"] ∧
      given { most := some 1 } = [⟨"Spawn", none, some "the first"⟩] ∧
      (lowercase (Line.typed "visit SP" 8)).toList <+: (lowercase "Spawn").toList := by
  intro visiting given
  have hgiven : given {} = [⟨"Spawn", none, some "the first"⟩, .ofText "spawner"] := by
    decide +kernel
  obtain ⟨-, hcontinues, hfirst, -⟩ :=
    complete_sifted.2 visiting (.ofRight "") "visit SP" 8 {} (some 1)
  have hone : given { most := some 1 } = [⟨"Spawn", none, some "the first"⟩] := by
    show (visiting.complete _ _ _ _ _).1.list = _
    rw [hfirst 1 rfl]
    show (given {}).take 1 = _
    rw [hgiven]
    rfl
  refine ⟨hgiven, hone, hcontinues ⟨"Spawn", none, some "the first"⟩ ?_⟩
  show _ ∈ given { most := some 1 }
  rw [hone]
  exact List.mem_cons_self

/-! ## Dispatchers -/

namespace Dispatcher

variable {d : Dispatcher} {sender : Sender} {text : String}

/-- A line that the preprocessors let pass is completed in the tree. -/
theorem complete_of_passed {ctx : Context}
    (h : d.preprocess (d.context sender true) text = .ok ctx) (cursor : Nat) (memory : Memory) :
    d.complete sender text cursor memory = d.tree.complete d.limits ctx text cursor memory := by
  rw [complete, h]

/-- A line that a preprocessor stops has no suggestions, and nothing is remembered of it. -/
theorem complete_of_stopped {reason : String}
    (h : d.preprocess (d.context sender true) text = .error reason) (cursor : Nat)
    (memory : Memory) :
    d.complete sender text cursor memory =
      ({ input := text
         start := ((Line.ofString text).tokenBounds cursor).start
         stop := ((Line.ofString text).tokenBounds cursor).stop
         list := [] }, memory) := by
  rw [complete, h]
  rfl

/-- The settings of a dispatcher limit what it suggests and nothing else. Without them no text is
    suggested twice, and all continue what was typed; with them the first of these suggestions are
    given, or the empty text where there are none, one is forced and no preprocessor has stopped the
    line. -/
theorem complete_limited (d : Dispatcher) (sender : Sender) (text : String) (cursor : Nat)
    (memory : Memory) :
    let unlimited : Dispatcher :=
      { d with settings.maxSuggestions := none, settings.forceSuggestion := false }
    let all := unlimited.complete sender text cursor memory
    let first := d.limits.cap all.1.list
    (all.1.list.map (·.value)).Nodup ∧
    (∀ s ∈ all.1.list,
      (lowercase (Line.typed text cursor)).toList <+: (lowercase s.value).toList) ∧
    d.complete sender text cursor memory =
      ({ all.1 with
          list :=
            if first = [] ∧ d.settings.forceSuggestion = true ∧
                (d.preprocess (d.context sender true) text).isOk = true then [.ofText ""]
            else first },
        all.2) := by
  intro unlimited all first
  cases hline : d.preprocess (d.context sender true) text with
  | error reason =>
      -- what the preprocessors make of the line does not depend on the settings
      have hall : all = _ := complete_of_stopped (d := unlimited) hline cursor memory
      have hfirst : first = [] := by
        have hsublist : first.Sublist all.1.list := d.limits.cap_sublist _
        rw [hall] at hsublist
        exact List.sublist_nil.mp hsublist
      have hstopped : (Except.error reason : Except String Context).isOk = false := rfl
      rw [hfirst, hstopped, complete_of_stopped hline, hall]
      simp
  | ok ctx =>
      have hall : all = d.tree.complete {} ctx text cursor memory :=
        complete_of_passed (d := unlimited) hline cursor memory
      refine ⟨?_, ?_, ?_⟩
      · rw [hall]
        exact d.tree.nodup_values_complete none ctx text cursor memory
      · rw [hall]
        exact fun s hs => Tree.continues_of_mem_complete hs
      · have hfirst : first = d.limits.cap (Limits.choose {} (Line.typed text cursor)
            ((d.tree.focus ctx (.upTo text cursor)).suggest memory).1) := by
          rw [← Tree.list_complete, ← hall]
        have hpassed : (Except.ok ctx : Except String Context).isOk = true := rfl
        rw [complete_of_passed hline, Tree.complete_limits, Limits.choose_eq_cap, ← hfirst,
          hpassed, hall]
        simp only [and_true]
        rfl

end Dispatcher

end CommandLine
