import CommandLine.Proofs.Line.Tokenizing
import CommandLine.Proofs.Number.Starts
import CommandLine.Proofs.Parser.Interpret

/-! # Integers that are suggested

    For a typed text, an integer parser suggests the integers between its bounds whose text is the
    typed one, or the typed one with one digit more (`Number.nextTexts`). A typed text need not be
    the text of an integer, and other integers are then looked at as well, but their texts do not
    continue it (`eq_showInt_of_continues`). What is left when suggestions are matched with the
    typed text is exactly those integers, in the order of their texts (`matching_suggestIntegers`).

    Suggestions are within the bounds themselves. So an integer is reached by completing its text
    character by character only as long as its starts are integers within the bounds
    (`suggests_onward_iff`). -/

namespace CommandLine

open Text Number

/-! ## One digit more -/

namespace Number

/-- What is typed, at once or after one digit more. -/
def nextTexts (typed : String) : List String :=
  typed :: (List.range 10).map fun d => typed ++ showNat d

theorem mem_nextTexts {typed text : String} :
    text ∈ nextTexts typed ↔ text = typed ∨ ∃ d < 10, text = typed ++ showNat d := by
  simp only [nextTexts, List.mem_cons, List.mem_map, List.mem_range, eq_comm (a := text)]

theorem toList_append_showNat {typed : String} {d : Nat} (hd : d < 10) :
    (typed ++ showNat d).toList = typed.toList ++ [digitChar d] := by
  rw [String.toList_append, showNat, String.toList_ofList, digits_of_lt hd]

theorem nodup_nextTexts (typed : String) : (nextTexts typed).Nodup := by
  rw [nextTexts, List.nodup_cons]
  constructor
  · intro hmem
    obtain ⟨d, hd, hsame⟩ := List.mem_map.mp hmem
    have hlength := congrArg (fun text : String => text.toList.length) hsame
    simp only [toList_append_showNat (List.mem_range.mp hd), List.length_append,
      List.length_singleton] at hlength
    omega
  · refine List.pairwise_map.mpr (List.nodup_range.imp fun hne hsame => hne ?_)
    exact showNat_injective (String.append_right_inj typed |>.mp hsame)

theorem toList_showInt (n : Int) : (showInt n).toList = intDigits n :=
  String.toList_ofList

/-- Behind the text of an integer other than zero, a digit makes the text of another. -/
theorem showInt_withDigit {n : Int} {d : Nat} (hn : n ≠ 0) (hd : d < 10) :
    showInt (withDigit n d) = showInt n ++ showNat d := by
  rw [showInt, intDigits_withDigit hn hd, showInt, showNat, digits_of_lt hd, String.ofList_append]

end Number

namespace Parser

variable {min max n v : Int} {typed : String}

/-! ## What continues a typed text -/

/-- On texts without letters, a suggestion continues what it starts with. -/
theorem continues_iff_starts {s : Suggestion} (htyped : Uncased typed.toList)
    (hs : Uncased s.value.toList) : s.continues typed = true ↔ typed.toList <+: s.value.toList := by
  simp only [Suggestion.continues, lowercase, String.toList_ofList, lowerAfter_uncased [] htyped,
    lowerAfter_uncased [] hs, List.isPrefixOf_iff_prefix]

theorem uncased_showInt (n : Int) : Uncased (Suggestion.ofText (showInt n)).value.toList := by
  rw [Suggestion.ofText, toList_showInt]
  exact uncased_intDigits n

theorem readSigned_of_readInt (h : readInt typed = some n) : readSigned typed.toList = some n :=
  (Option.filter_eq_some_iff.mp h).1

/-- If the text of an integer starts with a text that is read as an integer, then that is the text
    of what is read. Zero has no digits behind it. -/
theorem eq_showInt_of_continues (hread : readInt typed = some n)
    (h : (Suggestion.ofText (showInt v)).continues typed = true) :
    typed = showInt n ∧ (n = 0 → v = 0) := by
  have hsigned := readSigned_of_readInt hread
  have hstart : typed.toList <+: intDigits v := by
    have hprefix := (continues_iff_starts (uncased_of_readSigned hsigned) (uncased_showInt v)).mp h
    rwa [Suggestion.ofText, toList_showInt] at hprefix
  have hsome : typed.toList ≠ [] := by
    intro hnil
    rw [hnil] at hsigned
    cases hsigned
  have hsign : typed.toList ≠ ['-'] := by
    intro hlone
    rw [hlone] at hsigned
    cases hsigned
  obtain ⟨m, hm, -, hzero⟩ := exists_intDigits_of_prefix hstart hsome hsign
  rw [hm, readSigned_intDigits] at hsigned
  cases hsigned
  exact ⟨by rw [showInt, ← hm, String.ofList_toList], hzero⟩

/-! ## Integers in the order of their texts -/

/-- The suggested integers whose texts continue what was typed. -/
def continuing (min max : Int) (typed : String) : List Int :=
  (nextIntegers min max typed).filter fun n => (Suggestion.ofText (showInt n)).continues typed

theorem matching_eq (min max : Int) (typed : String) :
    Suggestion.matching typed (suggestIntegers min max typed) =
      (continuing min max typed).map fun n => .ofText (showInt n) :=
  List.filter_map

/-- The integer that a typed integer and one digit are looked at as. The sign is the typed one. -/
def typedDigit (typed : String) (n : Int) (d : Nat) : Int :=
  if typed.toList.head? == some '-' then 10 * n - d else 10 * n + d

theorem typedDigit_showInt (n : Int) (d : Nat) : typedDigit (showInt n) n d = withDigit n d := by
  rw [typedDigit, withDigit, toList_showInt]
  by_cases h : n < 0
  · rw [if_pos h, if_pos (beq_iff_eq.mpr ((head?_intDigits n).mpr h))]
  · rw [if_neg h, if_neg fun hsign => h ((head?_intDigits n).mp (beq_iff_eq.mp hsign))]

theorem nextIntegers_of_readInt (hread : readInt typed = some n) :
    nextIntegers min max typed =
      [n].filter (fun m => decide (min ≤ m) && decide (m ≤ max)) ++
        ((List.range 10).map (typedDigit typed n)).filter fun m =>
          fitsInt64 (10 * n) && fitsInt64 m && (decide (min ≤ m) && decide (m ≤ max)) && m != n := by
  have hempty : typed ≠ "" := by
    rintro rfl
    cases hread
  have hsign : typed ≠ "-" := by
    rintro rfl
    cases hread
  rw [nextIntegers, if_neg hempty, if_neg hsign, hread]
  rfl

theorem nextIntegers_of_unread (hread : readInt typed = none) (hempty : typed ≠ "")
    (hsign : typed ≠ "-") : nextIntegers min max typed = [] := by
  rw [nextIntegers, if_neg hempty, if_neg hsign, hread]

theorem nextIntegers_empty (min max : Int) :
    nextIntegers min max "" =
      ((List.range 10).map fun d : Nat => (d : Int)).filter
        fun m => decide (min ≤ m) && decide (m ≤ max) :=
  rfl

theorem nextIntegers_sign (min max : Int) :
    nextIntegers min max "-" =
      ((List.range 10).map fun d : Nat => -(d : Int)).filter
        fun m => (decide (min ≤ m) && decide (m ≤ max)) && m != 0 :=
  rfl

theorem showInt_natCast (d : Nat) : showInt d = showNat d :=
  rfl

theorem showInt_neg {d : Nat} (hd : d ≠ 0) : showInt (-(d : Int)) = "-" ++ showNat d := by
  have habs : (-(d : Int)).natAbs = d := by omega
  rw [showInt, intDigits_of_neg (by omega), habs, String.ofList_cons]
  rfl

/-- A sign and a digit are the text of an integer below zero. -/
theorem eq_neg_of_showInt {d : Nat} (h : showInt v = "-" ++ showNat d) : d ≠ 0 ∧ v = -(d : Int) := by
  have htext : intDigits v = '-' :: digits d := by
    rw [← toList_showInt, h, String.toList_append]
    exact congrArg ('-' :: ·) String.toList_ofList
  have hneg : v < 0 := (head?_intDigits v).mp (by rw [htext]; rfl)
  rw [intDigits_of_neg hneg] at htext
  have habs : v.natAbs = d := digits_injective (List.cons.inj htext).2
  omega

/-- Of values that are made of some keys, those that are kept come in the order of the texts that
    are made of the keys, if they have those texts. -/
theorem map_filter_sublist {κ α β : Type} {f : α → β} {p : α → Bool} (value : κ → α) (text : κ → β)
    (keys : List κ) (h : ∀ k ∈ keys, p (value k) = true → f (value k) = text k) :
    List.Sublist (((keys.map value).filter p).map f) (keys.map text) := by
  induction keys with
  | nil => exact .slnil
  | cons k keys ih =>
      obtain ⟨hk, hkeys⟩ := List.forall_mem_cons.mp h
      rw [List.map_cons, List.map_cons, List.filter_cons]
      split
      · next hkept =>
          rw [List.map_cons, hk hkept]
          exact (ih hkeys).cons_cons _
      · exact (ih hkeys).cons _

/-- The integers come in the order of their texts, each once. -/
theorem continuing_sublist (min max : Int) (typed : String) :
    List.Sublist ((continuing min max typed).map showInt) (nextTexts typed) := by
  rw [continuing, nextTexts]
  by_cases hempty : typed = ""
  · subst hempty
    rw [nextIntegers_empty, List.filter_filter]
    refine (map_filter_sublist _ _ _ fun d hd _ => ?_).cons _
    rw [showInt_natCast, String.empty_append]
  by_cases hsign : typed = "-"
  · subst hsign
    rw [nextIntegers_sign, List.filter_filter]
    refine (map_filter_sublist _ _ _ fun d hd hkept => ?_).cons _
    simp only [Bool.and_eq_true, bne_iff_ne] at hkept
    exact showInt_neg (by omega)
  cases hread : readInt typed with
  | none =>
      rw [nextIntegers_of_unread hread hempty hsign]
      exact List.nil_sublist _
  | some n =>
      rw [nextIntegers_of_readInt hread, List.filter_append, List.map_append, List.filter_filter,
        List.filter_filter]
      show List.Sublist (_ ++ _) ([typed] ++ (List.range 10).map fun d => typed ++ showNat d)
      refine List.Sublist.append ?_ ?_
      · refine map_filter_sublist id (fun _ => typed) [n] fun m hm hkept => ?_
        obtain rfl : m = n := List.mem_singleton.mp hm
        rw [Bool.and_eq_true] at hkept
        exact (eq_showInt_of_continues hread hkept.1).1.symm
      · refine map_filter_sublist _ _ _ fun d hd hkept => ?_
        simp only [Bool.and_eq_true, bne_iff_ne] at hkept
        obtain ⟨rfl, hzero⟩ := eq_showInt_of_continues hread hkept.1
        have hn : n ≠ 0 := fun h0 => hkept.2.2 ((hzero h0).trans h0.symm)
        rw [typedDigit_showInt, showInt_withDigit hn (List.mem_range.mp hd)]

/-! ## All integers with those texts -/

theorem prefix_of_mem_nextTexts {text : String} (h : text ∈ nextTexts typed) :
    typed.toList <+: text.toList := by
  rcases mem_nextTexts.mp h with rfl | ⟨d, hd, rfl⟩
  · exact List.prefix_rfl
  · rw [toList_append_showNat hd]
    exact List.prefix_append _ _

/-- An integer whose text continues the typed one continues it as a suggestion. -/
theorem continues_of_mem_nextTexts (h : showInt v ∈ nextTexts typed) :
    (Suggestion.ofText (showInt v)).continues typed = true := by
  have hprefix := prefix_of_mem_nextTexts h
  have htyped : Uncased typed.toList := by
    intro c hc
    have hmem := hprefix.subset hc
    rw [toList_showInt] at hmem
    exact uncased_intDigits v c hmem
  exact (continues_iff_starts htyped (uncased_showInt v)).mpr hprefix

/-- Where the text of an integer is the typed one and one digit, and something other than a sign was
    typed, that is an integer other than zero, and it is read as such. -/
theorem exists_withDigit {d : Nat} (hfits : fitsInt64 v = true) (hempty : typed ≠ "")
    (hsign : typed ≠ "-") (hd : d < 10) (h : showInt v = typed ++ showNat d) :
    ∃ n, typed = showInt n ∧ n ≠ 0 ∧ v = withDigit n d ∧ readInt typed = some n ∧
      fitsInt64 (10 * n) = true := by
  have htext : intDigits v = typed.toList ++ [digitChar d] := by
    rw [← toList_showInt, h, toList_append_showNat hd]
  obtain ⟨n, hn, hbetween, hzero⟩ := exists_intDigits_of_prefix
    (htext ▸ List.prefix_append _ _) (fun hnil => hempty (String.toList_eq_nil_iff.mp hnil))
    (fun hlone => hsign (String.toList_inj.mp hlone))
  have hsome : n ≠ 0 := by
    -- zero is one digit
    rintro rfl
    rw [hzero rfl, hn] at htext
    exact List.cons_ne_nil _ _ (List.self_eq_append_right.mp htext)
  have hv : v = withDigit n d := by
    refine intDigits_injective ?_
    rw [htext, hn, intDigits_withDigit hsome hd]
  have htyped : typed = showInt n := by rw [showInt, ← hn, String.ofList_toList]
  refine ⟨n, htyped, hsome, hv, ?_, ?_⟩
  · rw [htyped]
    exact readInt_showInt (fitsInt64_of_between hfits hbetween)
  · refine fitsInt64_of_between hfits ?_
    rw [hv, withDigit]
    split <;> omega

/-- No integer is overlooked. -/
theorem mem_nextIntegers_of_nextTexts (hfits : fitsInt64 v = true) (hmin : min ≤ v) (hmax : v ≤ max)
    (h : showInt v ∈ nextTexts typed) : v ∈ nextIntegers min max typed := by
  have hwithin : (decide (min ≤ v) && decide (v ≤ max)) = true := by
    rw [Bool.and_eq_true]
    exact ⟨decide_eq_true hmin, decide_eq_true hmax⟩
  rcases mem_nextTexts.mp h with hsame | ⟨d, hd, hlonger⟩
  · rw [nextIntegers_of_readInt (hsame ▸ readInt_showInt hfits)]
    exact List.mem_append_left _ (List.mem_filter.mpr ⟨List.mem_singleton.mpr rfl, hwithin⟩)
  by_cases hempty : typed = ""
  · subst hempty
    rw [String.empty_append, ← showInt_natCast] at hlonger
    obtain rfl := showInt_injective hlonger
    rw [nextIntegers_empty]
    exact List.mem_filter.mpr ⟨List.mem_map_of_mem (List.mem_range.mpr hd), hwithin⟩
  by_cases hsign : typed = "-"
  · subst hsign
    obtain ⟨hsome, rfl⟩ := eq_neg_of_showInt hlonger
    rw [nextIntegers_sign]
    refine List.mem_filter.mpr ⟨List.mem_map_of_mem (List.mem_range.mpr hd), ?_⟩
    rw [hwithin, Bool.true_and, bne_iff_ne]
    omega
  obtain ⟨n, htyped, hsome, hv, hread, hten⟩ := exists_withDigit hfits hempty hsign hd hlonger
  rw [nextIntegers_of_readInt hread]
  refine List.mem_append_right _ (List.mem_filter.mpr ⟨?_, ?_⟩)
  · rw [hv, ← typedDigit_showInt, ← htyped]
    exact List.mem_map_of_mem (List.mem_range.mpr hd)
  · have hother : v ≠ n := by
      rw [hv, withDigit]
      split <;> omega
    rw [hten, hfits, hwithin, bne_iff_ne.mpr hother]
    rfl

theorem mem_continuing_iff :
    v ∈ continuing min max typed ↔
      min ≤ v ∧ v ≤ max ∧ fitsInt64 v = true ∧ showInt v ∈ nextTexts typed := by
  constructor
  · intro h
    obtain ⟨hfits, hmin, hmax⟩ := mem_nextIntegers (List.mem_filter.mp h).1
    have htext := (continuing_sublist min max typed).subset (List.mem_map_of_mem h)
    exact ⟨hmin, hmax, hfits, htext⟩
  · rintro ⟨hmin, hmax, hfits, htext⟩
    exact List.mem_filter.mpr
      ⟨mem_nextIntegers_of_nextTexts hfits hmin hmax htext, continues_of_mem_nextTexts htext⟩

/-- The text of an integer is a plain word. -/
theorem plain_showInt (n : Int) : Token.Plain (showInt n).toList := by
  have hbounds {c : Char} (hc : c ∈ (showInt n).toList) : 45 ≤ c.toNat ∧ c.toNat ≤ 57 :=
    toNat_of_mem_intDigits (toList_showInt n ▸ hc)
  constructor
  · intro hnil
    have hread := readSigned_intDigits n
    rw [← toList_showInt, hnil] at hread
    cases hread
  · intro c hc
    exact inRanges_eq_false 45 57 (by decide) (hbounds hc).1 (hbounds hc).2
  · intro c hc
    have hlow := (hbounds (List.mem_of_mem_head? hc)).1
    rw [Bool.eq_false_iff]
    intro hquote
    simp only [Token.isQuote, Bool.or_eq_true, beq_iff_eq] at hquote
    rcases hquote with rfl | rfl
    · exact absurd hlow (by decide)
    · exact absurd hlow (by decide)

/-- Wherever it stands, in front of white space or at the end, the text of an integer is read as the
    integer. -/
theorem read_showInt (hfits : fitsInt64 n = true) (hmin : min ≤ n) (hmax : n ≤ max)
    {more : List Char} (hmore : Token.Apart more) (ctx : Context) (before : List Char) :
    (Parser.integer min max).read ctx ⟨before, (showInt n).toList ++ more⟩ =
      ⟨.ok (.plain (.integer n)), ctx, ⟨before ++ (showInt n).toList, more⟩⟩ := by
  have hstands := (plain_showInt n).stands hmore
  obtain ⟨htoken, hline⟩ := Prod.mk.inj (Line.readToken_of_stands hstands before)
  rw [read_token rfl ctx (Line.isBlank_of_stands hstands before), htoken, hline,
    interpretInteger_showInt hfits hmin hmax]

/-- For any two bounds and any typed text, the suggestions that are left for it are the texts of
    exactly those integers of 64 bits between the bounds whose text is the typed one, or the typed
    one with one digit more: the typed text first, then by digit, and none twice. In front of white
    space or at the end of a line, wherever it stands, each of them is read as its integer. -/
theorem matching_suggestIntegers (min max : Int) (typed : String) :
    ∃ ns : List Int,
      Suggestion.matching typed (suggestIntegers min max typed) =
          ns.map (fun n => .ofText (showInt n)) ∧
        (∀ n, n ∈ ns ↔
          min ≤ n ∧ n ≤ max ∧ fitsInt64 n = true ∧ showInt n ∈ nextTexts typed) ∧
        List.Sublist (ns.map showInt) (nextTexts typed) ∧ (nextTexts typed).Nodup ∧ ns.Nodup ∧
        ∀ n ∈ ns, ∀ ctx before more, Token.Apart more →
          (Parser.integer min max).read ctx ⟨before, (showInt n).toList ++ more⟩ =
            ⟨.ok (.plain (.integer n)), ctx, ⟨before ++ (showInt n).toList, more⟩⟩ := by
  have hsublist := continuing_sublist min max typed
  refine ⟨continuing min max typed, matching_eq min max typed, fun n => mem_continuing_iff,
    hsublist, nodup_nextTexts typed, ?_, ?_⟩
  · have hnodup := hsublist.nodup (nodup_nextTexts typed)
    exact (List.pairwise_map.mp hnodup).imp fun hne hsame => hne (congrArg showInt hsame)
  · intro n hn ctx before more hmore
    obtain ⟨hmin, hmax, hfits, -⟩ := mem_continuing_iff.mp hn
    exact read_showInt hfits hmin hmax hmore ctx before

/-- Next to the least integer of 64 bits, one digit of ten does not fit. -/
example :
    nextIntegers minInt64 maxInt64 "-922337203685477580" =
      [-922337203685477580, -9223372036854775800, -9223372036854775801, -9223372036854775802,
       -9223372036854775803, -9223372036854775804, -9223372036854775805, -9223372036854775806,
       -9223372036854775807, -9223372036854775808] := by
  decide +kernel

/-! ## Completing a text step by step -/

/-- A start of the text of an integer is the next token of a line that holds nothing else. -/
theorem peekToken_start {start : List Char} (h : start <+: intDigits v) :
    (Line.ofString (String.ofList start)).peekToken = String.ofList start := by
  by_cases hsome : start = []
  · subst hsome
    rfl
  · have hplain := Token.Plain.of_prefix (plain_showInt v) ((toList_showInt v).symm ▸ h) hsome
    rw [Line.peekToken, Line.ofString, String.toList_ofList, hplain.cut_eq]

theorem run_suggest_integer (min max : Int) (ctx : Context) (line : Line) (m : Memory) :
    ((Parser.integer min max).suggest ctx line).run m =
      (suggestIntegers min max line.peekToken, m) :=
  rfl

/-- What is suggested for the start of a text and goes on with the text has one character more. -/
theorem suggests_onward {start rest : List Char} {c : Char} {k : Int}
    (htext : intDigits v = start ++ c :: rest)
    (hk : k ∈ nextIntegers min max (String.ofList start)) (hstart : start <+: intDigits k)
    (hlonger : start.length < (intDigits k).length) (honward : intDigits k <+: intDigits v) :
    min ≤ k ∧ k ≤ max ∧ intDigits k = start ++ [c] := by
  have hcontinues : (Suggestion.ofText (showInt k)).continues (String.ofList start) = true := by
    have huncased : Uncased (String.ofList start).toList := by
      rw [String.toList_ofList]
      exact fun d hd => uncased_intDigits k d (hstart.subset hd)
    refine (continues_iff_starts huncased (uncased_showInt k)).mpr ?_
    rwa [String.toList_ofList, Suggestion.ofText, toList_showInt]
  obtain ⟨hmin, hmax, -, hnext⟩ := mem_continuing_iff.mp (List.mem_filter.mpr ⟨hk, hcontinues⟩)
  refine ⟨hmin, hmax, ?_⟩
  rcases mem_nextTexts.mp hnext with hsame | ⟨d, hd, hdigit⟩
  · rw [String.ofList_injective hsame] at hlonger
    exact absurd hlonger (Nat.lt_irrefl _)
  · have hdigits : intDigits k = start ++ [digitChar d] := by
      rw [← toList_showInt, hdigit, toList_append_showNat hd, String.toList_ofList]
    rw [hdigits, htext, List.prefix_append_right_inj] at honward
    rw [hdigits, (List.cons_prefix_cons.mp honward).1]

/-- A start of the text of an integer that is the text of an integer between the bounds is suggested
    for what is in front of its last character. -/
theorem mem_nextIntegers_of_start {start : List Char} {c : Char} (hfits : fitsInt64 v = true)
    (hstart : start ++ [c] <+: intDigits v) (hmin : min ≤ n) (hmax : n ≤ max)
    (hn : intDigits n = start ++ [c]) : n ∈ nextIntegers min max (String.ofList start) := by
  obtain ⟨k, hk, hbetween, -⟩ := exists_intDigits_of_prefix hstart (by simp)
    (hn ▸ intDigits_ne_sign n)
  obtain rfl : n = k := intDigits_injective (hn.trans hk)
  obtain ⟨front, d, hd, hlast⟩ := exists_intDigits_concat n
  have hc : c = digitChar d := by
    have hchars := hn.symm.trans hlast
    simpa using (List.append_inj' hchars rfl).2
  refine mem_nextIntegers_of_nextTexts (fitsInt64_of_between hfits hbetween) hmin hmax ?_
  refine mem_nextTexts.mpr (Or.inr ⟨d, hd, String.toList_inj.mp ?_⟩)
  rw [toList_showInt, toList_append_showNat hd, String.toList_ofList, hn, hc]

/-- Behind a start of the text of an integer of 64 bits, where `c` comes next in the text, something
    is suggested that goes on with the text if and only if the start and `c` make the text of an
    integer between the bounds. They do for every integer between the bounds if the lower one is at
    most 1 and the upper one at least -1, unless `c` is the sign: a sign alone is no integer. -/
theorem suggests_onward_iff {start rest : List Char} {c : Char} (hfits : fitsInt64 v = true)
    (htext : intDigits v = start ++ c :: rest) (min max : Int) (ctx : Context) (m : Memory) :
    ((∃ s ∈ (((Parser.integer min max).suggest ctx (Line.ofString (String.ofList start))).run m).1,
        start <+: s.value.toList ∧ start.length < s.value.toList.length ∧
          s.value.toList <+: intDigits v) ↔
      ∃ n, min ≤ n ∧ n ≤ max ∧ intDigits n = start ++ [c]) ∧
    (min ≤ 1 → -1 ≤ max → min ≤ v → v ≤ max → c ≠ '-' →
      ∃ n, min ≤ n ∧ n ≤ max ∧ intDigits n = start ++ [c]) := by
  have hnext : start ++ [c] <+: intDigits v := by
    rw [htext, List.prefix_append_right_inj]
    exact List.cons_prefix_cons.mpr ⟨rfl, List.nil_prefix⟩
  have hstart : start <+: intDigits v := (List.prefix_append start [c]).trans hnext
  rw [run_suggest_integer, peekToken_start hstart]
  constructor
  · constructor
    · rintro ⟨s, hs, hstart, hlonger, honward⟩
      obtain ⟨k, hk, rfl⟩ := List.mem_map.mp hs
      rw [Suggestion.ofText, toList_showInt] at hstart hlonger honward
      exact ⟨k, suggests_onward htext hk hstart hlonger honward⟩
    · rintro ⟨n, hmin, hmax, hn⟩
      refine ⟨.ofText (showInt n),
        List.mem_map_of_mem (mem_nextIntegers_of_start hfits hnext hmin hmax hn), ?_⟩
      rw [Suggestion.ofText, toList_showInt, hn]
      exact ⟨List.prefix_append _ _, by simp, hnext⟩
  · intro hone hminusOne hmin hmax hsign
    have hlone : start ++ [c] ≠ ['-'] := by
      intro hlone
      have hlast := congrArg List.getLast? hlone
      rw [List.getLast?_concat] at hlast
      exact hsign (Option.some.inj hlast)
    obtain ⟨n, hn, hbetween, hzero⟩ := exists_intDigits_of_prefix hnext (by simp) hlone
    exact ⟨n, by omega, by omega, hn.symm⟩

/-- For a depth from -64 to 320 with the sign typed, the first digit of -42 is suggested. -/
theorem suggests_onward_depth :
    let offered := (((Parser.integer (-64) 320).suggest { sender := ⟨"steve", "player", 0, []⟩ }
      (Line.ofString (String.ofList ['-']))).run {}).1
    fitsInt64 (-42) = true ∧ intDigits (-42) = ['-'] ++ '4' :: ['2'] ∧
      ∃ s ∈ offered, ['-'] <+: s.value.toList ∧ ['-'].length < s.value.toList.length ∧
        s.value.toList <+: intDigits (-42) := by
  intro offered
  have hfits : fitsInt64 (-42) = true := by decide
  have htext : intDigits (-42) = ['-'] ++ '4' :: ['2'] := by decide +kernel
  obtain ⟨hiff, halways⟩ := suggests_onward_iff hfits htext (-64) 320
    { sender := ⟨"steve", "player", 0, []⟩ } {}
  refine ⟨hfits, htext, hiff.mpr ?_⟩
  exact halways (by decide) (by decide) (by decide) (by decide) (by decide)

/-- From 10 to 19, nothing is suggested before the first digit is typed, since 1 is not between the
    bounds. So no suggestion goes on with 15, although 15 is accepted. -/
theorem suggests_nothing_from_ten :
    let offered := (((Parser.integer 10 19).suggest { sender := ⟨"steve", "player", 0, []⟩ }
      (Line.ofString "")).run {}).1
    interpretInteger 10 19 (showInt 15) = .ok (.plain (.integer 15)) ∧
      "".toList <+: intDigits 15 ∧ "".toList ≠ intDigits 15 ∧ offered = [] ∧
      ¬∃ s ∈ offered, "".toList <+: s.value.toList ∧ "".toList.length < s.value.toList.length ∧
        s.value.toList <+: intDigits 15 := by
  intro offered
  have hnone : offered = [] := by decide +kernel
  have hproper : "".toList ≠ intDigits 15 := by decide +kernel
  refine ⟨interpretInteger_showInt ?_ ?_ ?_, List.nil_prefix, hproper, hnone, ?_⟩
  · decide
  · decide
  · decide
  · rw [hnone]
    rintro ⟨s, hs, -⟩
    cases hs

end Parser

end CommandLine
