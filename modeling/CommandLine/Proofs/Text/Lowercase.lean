import CommandLine.Text.Bytes
import CommandLine.Text.Lowercase

/-! # Lowercase forms ignore the case of ASCII letters

    Names are told apart by their full lowercase forms and matched up to the case of ASCII letters.
    The two agree in one direction: texts that are equal up to the case of ASCII letters have the
    same lowercase form (`lowercase_eq_of_sameUpToCase`). An ASCII letter has a case in both forms
    and is looked through in neither, so it decides alike how a sigma after it ends.

    A lowercase form may have more characters than its text, but not more than the text has bytes
    (`length_lowerAfter_le`). For an ASCII text all three are the same. -/

namespace CommandLine.Text

/-- A character is an ASCII capital, which its small letter follows by 32 places, or it is its own
    small letter. -/
theorem toLower_cases (c : Char) :
    (65 ≤ c.toNat ∧ c.toNat ≤ 90 ∧ c.toLower.toNat = c.toNat + 32) ∨ c.toLower = c := by
  unfold Char.toLower
  split
  · next h =>
      refine Or.inl ⟨UInt32.le_iff_toNat_le.mp h.1, UInt32.le_iff_toNat_le.mp h.2, ?_⟩
      have hle : c.val.toNat ≤ 90 := UInt32.le_iff_toNat_le.mp h.2
      show (c.val + ('a'.val - 'A'.val)).toNat = c.val.toNat + 32
      rw [UInt32.toNat_add]
      show (c.val.toNat + 32) % 2 ^ 32 = c.val.toNat + 32
      omega
  · exact Or.inr rfl

/-- A table whose ranges meet no code point from `low` to `high` holds no character of those. -/
theorem inRanges_eq_false {table : List (Nat × Nat)} {c : Char} (low high : Nat)
    (htable : ∀ r ∈ table, r.2 < low ∨ high < r.1) (hlow : low ≤ c.toNat)
    (hhigh : c.toNat ≤ high) : inRanges table c = false := by
  rw [Bool.eq_false_iff]
  intro h
  obtain ⟨r, hr, h1, h2⟩ := inRanges_iff.mp h
  rcases htable r hr with h3 | h3 <;> omega

theorem isCased_toLower (c : Char) : isCased c.toLower = isCased c := by
  rcases toLower_cases c with ⟨h1, h2, h3⟩ | h
  · -- the capitals and the small letters are two ranges of the table
    have hsmall : isCased c.toLower = true :=
      inRanges_iff.mpr ⟨(0x61, 0x7a), by simp [casedRanges], by simp only; omega⟩
    have hcapital : isCased c = true :=
      inRanges_iff.mpr ⟨(0x41, 0x5a), by simp [casedRanges], by simp only; omega⟩
    rw [hsmall, hcapital]
  · rw [h]

theorem isCaseIgnorable_toLower (c : Char) : isCaseIgnorable c.toLower = isCaseIgnorable c := by
  rcases toLower_cases c with ⟨h1, h2, h3⟩ | h
  · have hsmall : isCaseIgnorable c.toLower = false :=
      inRanges_eq_false 97 122 (by decide +kernel) (by omega) (by omega)
    have hcapital : isCaseIgnorable c = false :=
      inRanges_eq_false 65 90 (by decide +kernel) h1 h2
    rw [hsmall, hcapital]
  · rw [h]

/-- The small letter of a character has the same lowercase form. -/
theorem lowerChar_toLower (c : Char) : lowerChar c.toLower = lowerChar c := by
  rcases toLower_cases c with ⟨h1, h2, h3⟩ | h
  · have hfix : c.toLower.toLower = c.toLower := by
      rcases toLower_cases c.toLower with ⟨_, h4, _⟩ | h4
      · omega
      · exact h4
    rw [lowerChar, if_pos (by omega), lowerChar, if_pos (by omega), hfix]
  · rw [h]

/-- No other character has the capital sigma as its small letter. -/
theorem toLower_eq_sigma_iff (c : Char) : c.toLower = 'Σ' ↔ c = 'Σ' := by
  constructor
  · intro h
    rcases toLower_cases c with ⟨_, h2, h3⟩ | h4
    · rw [h] at h3
      have : 'Σ'.toNat = 931 := rfl
      omega
    · rw [← h4, h]
  · rintro rfl
    rfl

theorem meetsCased_map_toLower (text : List Char) :
    meetsCased (text.map Char.toLower) = meetsCased text := by
  have hlook : (isCaseIgnorable ∘ Char.toLower) = isCaseIgnorable :=
    funext isCaseIgnorable_toLower
  have hcase : (isCased ∘ Char.toLower) = isCased := funext isCased_toLower
  unfold meetsCased
  rw [List.dropWhile_map, hlook, List.head?_map, Option.map_map, hcase]

theorem lowerAfter_map_toLower (seen text : List Char) :
    lowerAfter (seen.map Char.toLower) (text.map Char.toLower) = lowerAfter seen text := by
  induction text generalizing seen with
  | nil => rfl
  | cons c text ih =>
      have htail := ih (c :: seen)
      rw [List.map_cons] at htail
      simp only [List.map_cons, lowerAfter, toLower_eq_sigma_iff, meetsCased_map_toLower,
        lowerChar_toLower, htail]

/-- Texts that are equal up to the case of ASCII letters have the same lowercase form. -/
theorem lowercase_eq_of_sameUpToCase {a b : String} (h : sameUpToCase a b = true) :
    lowercase a = lowercase b := by
  have hmap : a.toList.map Char.toLower = b.toList.map Char.toLower := by
    simpa only [sameUpToCase, beq_iff_eq] using h
  -- the lowercase form of a text can be read off its small letters
  have hlower (s : String) :
      lowercase s = String.ofList (lowerAfter [] (s.toList.map Char.toLower)) := by
    rw [lowercase, ← lowerAfter_map_toLower []]
    rfl
  rw [hlower a, hlower b, hmap]

/-! ## The length of a lowercase form -/

/-- The form of a character that has two characters in it has no more than the character has
    bytes. -/
theorem length_lowerChar_le (c : Char) : (lowerChar c).length ≤ c.utf8Size := by
  have hpos : 1 ≤ c.utf8Size := c.utf8Size_pos
  rw [lowerChar]
  split
  · exact hpos
  · split
    · next hdotted =>
        subst hdotted
        decide
    · split <;> exact hpos

/-- A lowercase form has no more characters than the text has bytes. -/
theorem length_lowerAfter_le (seen text : List Char) :
    (lowerAfter seen text).length ≤ byteLength text := by
  induction text generalizing seen with
  | nil => exact Nat.le_refl 0
  | cons c text ih =>
      have hhead : (if c = 'Σ' then [if meetsCased seen && !meetsCased text then 'ς' else 'σ']
          else lowerChar c).length ≤ c.utf8Size := by
        split
        · exact c.utf8Size_pos
        · exact length_lowerChar_le c
      rw [lowerAfter, List.length_append, byteLength]
      exact Nat.add_le_add hhead (ih (c :: seen))

/-! ## Texts of ASCII characters -/

/-- A text of ASCII characters. -/
def IsAscii (text : List Char) : Prop :=
  ∀ c ∈ text, c.toNat < 0x80

instance (text : List Char) : Decidable (IsAscii text) :=
  decidable_of_iff ((text.all fun c => c.toNat < 0x80) = true) <| by
    simp only [List.all_eq_true, decide_eq_true_eq, IsAscii]

theorem byteLength_ascii {text : List Char} (h : IsAscii text) :
    byteLength text = text.length := by
  induction text with
  | nil => rfl
  | cons c text ih =>
      obtain ⟨hc, htext⟩ := List.forall_mem_cons.mp h
      have hsize : c.utf8Size = 1 :=
        Char.utf8Size_eq_one_iff.mpr (UInt32.le_iff_toNat_le.mpr (Nat.le_of_lt_succ hc))
      rw [byteLength, hsize, ih htext, List.length_cons, Nat.add_comm]

/-- The lowercase form of an ASCII text is made character by character. -/
theorem lowerAfter_ascii (seen : List Char) {text : List Char} (h : IsAscii text) :
    lowerAfter seen text = text.map Char.toLower := by
  induction text generalizing seen with
  | nil => rfl
  | cons c text ih =>
      obtain ⟨hc, htext⟩ := List.forall_mem_cons.mp h
      have hsigma : c ≠ 'Σ' := by
        rintro rfl
        exact absurd hc (by decide)
      rw [lowerAfter, if_neg hsigma, lowerChar, if_pos hc, ih _ htext]
      rfl

/-- A text all of whose characters come before the letters, such as signs and digits. -/
def Uncased (text : List Char) : Prop :=
  ∀ c ∈ text, c.toNat < 0x41

/-- A text without letters is its own lowercase form. -/
theorem lowerAfter_uncased (seen : List Char) {text : List Char} (h : Uncased text) :
    lowerAfter seen text = text := by
  have hascii : IsAscii text := fun c hc => Nat.lt_trans (h c hc) (by decide)
  have hsmall : ∀ c ∈ text, c.toLower = c := by
    intro c hc
    have hbefore := h c hc
    rcases toLower_cases c with ⟨hcapital, -, -⟩ | hsame
    · omega
    · exact hsame
  rw [lowerAfter_ascii seen hascii, List.map_congr_left hsmall, List.map_id']

end CommandLine.Text
