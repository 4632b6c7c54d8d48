import CommandLine.Proofs.Text.Lowercase
import CommandLine.Suggestion
import Mathlib.Data.List.TakeWhile

/-! # Texts that are typed on

    Who types on should see fewer suggestions and never a new one. What counts is the lowercase
    form, and nearly every character has one of its own: when more is typed, the form of what was
    there stays as it was. Only a capital sigma looks around. At the end of a word it becomes a
    final sigma, and another letter behind it makes it an inner one again.

    This is the one way in which the form of a text fails to be a start of the form of what the text
    goes on to (`lowerAfter_prefix_append_iff`). Then no suggestion for the longer text is one for
    the shorter text, and in all other cases every one is (`Suggestion.matching_typed_on`). -/

namespace CommandLine

namespace Text

/-! ## Lowercase forms between others -/

/-- The lowercase form of one character between others, the nearest first. -/
def lowerAmid (seen : List Char) (c : Char) (ahead : List Char) : List Char :=
  if c = 'Σ' then [if meetsCased seen && !meetsCased ahead then 'ς' else 'σ'] else lowerChar c

/-- The lowercase form of a text that stands between the characters of `seen` and `ahead`, the
    nearest first. -/
def lowerBetween : List Char → List Char → List Char → List Char
  | _, [], _ => []
  | seen, c :: rest, ahead => lowerAmid seen c (rest ++ ahead) ++ lowerBetween (c :: seen) rest ahead

theorem lowerAfter_cons (seen : List Char) (c : Char) (rest : List Char) :
    lowerAfter seen (c :: rest) = lowerAmid seen c rest ++ lowerAfter (c :: seen) rest :=
  rfl

/-- The lowercase form of a text that goes on is made of two parts, each of which sees the other. -/
theorem lowerAfter_append (seen text more : List Char) :
    lowerAfter seen (text ++ more) =
      lowerBetween seen text more ++ lowerAfter (text.reverse ++ seen) more := by
  induction text generalizing seen with
  | nil => rfl
  | cons c rest ih =>
      rw [List.cons_append, lowerAfter_cons, ih, lowerBetween, List.append_assoc,
        List.reverse_cons, List.append_assoc]
      rfl

/-- How long the form of a character is does not depend on what is around it. -/
theorem length_lowerAmid (seen : List Char) (c : Char) (ahead more : List Char) :
    (lowerAmid seen c (ahead ++ more)).length = (lowerAmid seen c ahead).length := by
  rw [lowerAmid, lowerAmid]
  split <;> rfl

theorem length_lowerBetween (seen text more : List Char) :
    (lowerBetween seen text more).length = (lowerAfter seen text).length := by
  induction text generalizing seen with
  | nil => rfl
  | cons c rest ih =>
      rw [lowerBetween, lowerAfter_cons, List.length_append, List.length_append, ih,
        length_lowerAmid]

/-! ## Sigmas at the end -/

/-- A text, behind the characters of `seen`, whose last word ends in a capital sigma; characters
    that are looked through may follow. -/
inductive EndsInSigma : List Char → List Char → Prop where
  | here {seen back : List Char} (inWord : meetsCased seen = true)
      (last : ∀ c ∈ back, isCaseIgnorable c = true) : EndsInSigma seen ('Σ' :: back)
  | later {seen rest : List Char} {c : Char} (below : EndsInSigma (c :: seen) rest) :
      EndsInSigma seen (c :: rest)

/-- A text goes on with the word that it ends in, if that ends in a sigma, so that the sigma is no
    final one any more. -/
def Reopens (text more : List Char) : Prop :=
  EndsInSigma [] text ∧ meetsCased more = true

theorem meetsCased_append_of_forall {back : List Char} (h : ∀ c ∈ back, isCaseIgnorable c = true)
    (more : List Char) : meetsCased (back ++ more) = meetsCased more := by
  rw [meetsCased, meetsCased, List.dropWhile_append_of_pos h]

theorem meetsCased_eq_false_of_forall {back : List Char}
    (h : ∀ c ∈ back, isCaseIgnorable c = true) : meetsCased back = false := by
  have hnil := meetsCased_append_of_forall h []
  rwa [List.append_nil] at hnil

/-- What stops the look for a case stops it before anything that follows. -/
theorem meetsCased_append_of_exists {back : List Char}
    (h : ¬∀ c ∈ back, isCaseIgnorable c = true) (more : List Char) :
    meetsCased (back ++ more) = meetsCased back := by
  obtain ⟨c, tail, hstop⟩ : ∃ c tail, back.dropWhile isCaseIgnorable = c :: tail := by
    refine List.exists_cons_of_ne_nil fun hnil => h ?_
    exact List.dropWhile_eq_nil_iff.mp hnil
  have hgoesOn : (back ++ more).dropWhile isCaseIgnorable = c :: (tail ++ more) := by
    rw [List.dropWhile_append, hstop]
    rfl
  rw [meetsCased, meetsCased, hgoesOn, hstop]
  rfl

/-- What follows changes the form of a character only where this is a sigma that was the last of a
    word and is so no longer. -/
theorem lowerAmid_append_iff (seen : List Char) (c : Char) (rest more : List Char) :
    lowerAmid seen c rest = lowerAmid seen c (rest ++ more) ↔
      ¬(c = 'Σ' ∧ meetsCased seen = true ∧ (∀ x ∈ rest, isCaseIgnorable x = true) ∧
        meetsCased more = true) := by
  by_cases hc : c = 'Σ'
  · rw [lowerAmid, lowerAmid, if_pos hc, if_pos hc]
    by_cases hrest : ∀ x ∈ rest, isCaseIgnorable x = true
    · rw [meetsCased_append_of_forall hrest, meetsCased_eq_false_of_forall hrest,
        and_iff_right hc, and_iff_right hrest]
      cases meetsCased seen <;> cases meetsCased more <;> simp
    · rw [meetsCased_append_of_exists hrest]
      exact iff_of_true rfl fun h => hrest h.2.2.1
  · rw [lowerAmid, lowerAmid, if_neg hc, if_neg hc]
    exact iff_of_true rfl fun h => hc h.1

theorem endsInSigma_cons_iff {seen rest : List Char} {c : Char} :
    EndsInSigma seen (c :: rest) ↔
      (c = 'Σ' ∧ meetsCased seen = true ∧ ∀ x ∈ rest, isCaseIgnorable x = true) ∨
        EndsInSigma (c :: seen) rest := by
  constructor
  · rintro (⟨inWord, last⟩ | below)
    · exact Or.inl ⟨rfl, inWord, last⟩
    · exact Or.inr below
  · rintro (⟨rfl, inWord, last⟩ | below)
    · exact .here inWord last
    · exact .later below

/-- The form of a text stays as it was, whatever it goes on with, but for a sigma at its end. -/
theorem lowerBetween_eq_iff (seen text more : List Char) :
    lowerAfter seen text = lowerBetween seen text more ↔
      ¬(EndsInSigma seen text ∧ meetsCased more = true) := by
  induction text generalizing seen with
  | nil => exact iff_of_true rfl fun h => nomatch h.1
  | cons c rest ih =>
      rw [lowerAfter_cons, lowerBetween, endsInSigma_cons_iff]
      have hsplit : lowerAmid seen c rest ++ lowerAfter (c :: seen) rest =
            lowerAmid seen c (rest ++ more) ++ lowerBetween (c :: seen) rest more ↔
          lowerAmid seen c rest = lowerAmid seen c (rest ++ more) ∧
            lowerAfter (c :: seen) rest = lowerBetween (c :: seen) rest more := by
        constructor
        · exact fun h => List.append_inj h (length_lowerAmid seen c rest more).symm
        · rintro ⟨hhead, htail⟩
          rw [hhead, htail]
      rw [hsplit, lowerAmid_append_iff, ih, or_and_right, not_or]
      simp only [and_assoc]

/-- The form of a text is a start of the form of what the text goes on to, but for a sigma at its
    end. -/
theorem lowerAfter_prefix_append_iff (text more : List Char) :
    lowerAfter [] text <+: lowerAfter [] (text ++ more) ↔ ¬Reopens text more := by
  rw [Reopens, ← lowerBetween_eq_iff, lowerAfter_append]
  have hlength := length_lowerBetween [] text more
  constructor
  · intro hprefix
    exact (List.prefix_of_prefix_length_le hprefix (List.prefix_append _ _)
      (Nat.le_of_eq hlength.symm)).eq_of_length hlength.symm
  · intro hsame
    rw [hsame]
    exact List.prefix_append _ _

end Text

namespace Suggestion

open Text

theorem continues_iff (s : Suggestion) (typed : String) :
    s.continues typed = true ↔ lowerAfter [] typed.toList <+: lowerAfter [] s.value.toList := by
  rw [continues, lowercase, lowercase, String.toList_ofList, String.toList_ofList,
    List.isPrefixOf_iff_prefix]

/-- A suggestion for a longer text is one for the shorter text exactly where that is not a word in
    capitals that ends in a sigma and goes on. -/
theorem continues_typed_on {s : Suggestion} {typed more : String}
    (h : s.continues (typed ++ more) = true) :
    s.continues typed = true ↔ ¬Reopens typed.toList more.toList := by
  rw [continues_iff, String.toList_append] at h
  rw [continues_iff, ← lowerAfter_prefix_append_iff]
  constructor
  · intro hprefix
    -- both are starts of the form of the suggestion, and the typed one is not longer
    refine List.prefix_of_prefix_length_le hprefix h ?_
    rw [lowerAfter_append, List.length_append, length_lowerBetween]
    exact Nat.le_add_right _ _
  · exact fun hprefix => hprefix.trans h

/-- Typing on brings no suggestion back, and a suggestion is kept while it is typed, unless the
    typed text ends in a capital sigma, as the last letter of a word, and what follows goes on with
    the word. There none of the suggestions for the longer text was one for the shorter text. -/
theorem matching_typed_on (typed more : String) (list : List Suggestion) :
    (∀ s ∈ matching (typed ++ more) list,
      s ∈ matching typed list ↔ ¬Reopens typed.toList more.toList) ∧
    ∀ s ∈ list, s.value = typed ++ more →
      (s ∈ matching typed list ↔ ¬Reopens typed.toList more.toList) := by
  have hkept : ∀ s ∈ list, s.continues (typed ++ more) = true →
      (s ∈ matching typed list ↔ ¬Reopens typed.toList more.toList) := by
    intro s hs hcontinues
    rw [matching, List.mem_filter, ← continues_typed_on hcontinues]
    exact and_iff_right hs
  refine ⟨fun s hs => ?_, fun s hs hvalue => hkept s hs ?_⟩
  · obtain ⟨hmem, hcontinues⟩ := List.mem_filter.mp hs
    exact hkept s hmem hcontinues
  · refine (continues_iff s _).mpr ?_
    exact hvalue ▸ List.prefix_refl _

/-- A word in capitals that ends in a sigma is typed, and a number follows it. -/
theorem matching_typed_on_road :
    let roads : List Suggestion := [.ofText "Οδος 5", .ofText "ΟΔΟΣ 5"]
    ¬Reopens "ΟΔΟΣ".toList " 5".toList ∧
      .ofText "Οδος 5" ∈ matching ("ΟΔΟΣ" ++ " 5") roads ∧
      .ofText "Οδος 5" ∈ matching "ΟΔΟΣ" roads ∧ .ofText "ΟΔΟΣ 5" ∈ matching "ΟΔΟΣ" roads := by
  intro roads
  have hends : ¬Reopens "ΟΔΟΣ".toList " 5".toList := by
    rintro ⟨-, hgoesOn⟩
    exact absurd hgoesOn (by decide +kernel)
  have hkept : .ofText "Οδος 5" ∈ matching ("ΟΔΟΣ" ++ " 5") roads := by decide +kernel
  obtain ⟨hshorter, hliteral⟩ := matching_typed_on "ΟΔΟΣ" " 5" roads
  refine ⟨hends, hkept, (hshorter _ hkept).mpr hends, (hliteral (.ofText "ΟΔΟΣ 5") ?_ rfl).mpr hends⟩
  exact List.mem_cons_of_mem _ List.mem_cons_self

/-- The start of a word in capitals that breaks off behind a sigma does not keep the word as a
    suggestion; with the next letter it is suggested again. -/
theorem typing_on_brings_back :
    let sign : Suggestion := .ofText "ΟΔΟΣΗΜΑ"
    "ΟΔΟΣ".toList <+: "ΟΔΟΣΗ".toList ∧ "ΟΔΟΣ".toList <+: sign.value.toList ∧
      matching "ΟΔΟΣ" [sign] = [] ∧ matching "ΟΔΟΣΗ" [sign] = [sign] := by
  decide +kernel

end Suggestion

end CommandLine
