import CommandLine.Proofs.Line.Agree

/-! # Lines made of words

    A line can be put together from words with one space in front of each. It is read as the list of
    its words (`Line.Holds`) as long as every word ends where it should: `Token.Stands` says that a
    word in front of other text is cut off as one token, and for which text it stands. A plain word
    stands for itself, any text can be quoted, and a token that was cut out of one line stands for
    the same text in another, unless it is a quote that was left open and more follows it now. -/

namespace CommandLine

open Text

namespace Token

/-- A text that is empty or starts with white space, so that a word in front of it ends there. -/
def Apart (more : List Char) : Prop :=
  ∀ c ∈ more.head?, isBlank c = true

/-- A word is the first token of the text that it is followed by, and stands for a text. -/
structure Stands (word : List Char) (token : String) (more : List Char) : Prop where
  starts : ∃ c tail, word = c :: tail ∧ isBlank c = false
  cut_eq : cut (word ++ more) = ⟨[], word, token.toList, more⟩

/-- What starts with no white space has none in front. -/
theorem Stands.of_head {c : Char} {tail more : List Char} {token : String}
    (hc : isBlank c = false)
    (h : head (c :: tail ++ more) = ⟨[], c :: tail, token.toList, more⟩) :
    Stands (c :: tail) token more := by
  refine ⟨⟨c, tail, rfl, hc⟩, ?_⟩
  rw [List.cons_append, cut_cons hc, ← List.cons_append, h]

theorem Stands.trimStart_eq {word more : List Char} {token : String} (h : Stands word token more) :
    trimStart (word ++ more) = word ++ more := by
  obtain ⟨c, tail, rfl, hc⟩ := h.starts
  rw [List.cons_append, trimStart, List.dropWhile_cons_of_neg (by simp [hc])]

/-! ## Plain words -/

/-- Characters that need no quotes. -/
structure Plain (word : List Char) : Prop where
  written : word ≠ []
  unbroken : ∀ c ∈ word, isBlank c = false
  unquoted : ∀ c ∈ word.head?, isQuote c = false

theorem plain_iff {word : List Char} :
    Plain word ↔ (!word.isEmpty && word.all (!isBlank ·) && word.head?.all (!isQuote ·)) = true := by
  simp only [Bool.and_eq_true, Bool.not_eq_true', List.isEmpty_eq_false_iff, List.all_eq_true,
    Option.all_eq_true]
  constructor
  · intro h
    exact ⟨⟨h.written, h.unbroken⟩, h.unquoted⟩
  · intro h
    exact ⟨h.1.1, h.1.2, h.2⟩

instance (word : List Char) : Decidable (Plain word) :=
  decidable_of_iff _ plain_iff.symm

/-- The run of characters at the start of a text, up to its white space. -/
theorem head_unquoted {c : Char} {text : List Char} (hc : isQuote c = false) :
    head (c :: text) =
      ⟨[], (c :: text).takeWhile (!isBlank ·), (c :: text).takeWhile (!isBlank ·),
        (c :: text).dropWhile (!isBlank ·)⟩ := by
  simp only [head, hc, Bool.false_eq_true, if_false]

/-- A run of characters ends where white space comes. -/
theorem span_of_apart {word more : List Char} (hword : ∀ c ∈ word, isBlank c = false)
    (hmore : Apart more) :
    (word ++ more).takeWhile (!isBlank ·) = word ∧ (word ++ more).dropWhile (!isBlank ·) = more := by
  have hword' : ∀ c ∈ word, (!isBlank c) = true := by simpa using hword
  rw [List.takeWhile_append_of_pos hword', List.dropWhile_append_of_pos hword']
  cases more with
  | nil => simp
  | cons c more =>
      have hc : isBlank c = true := hmore c rfl
      simp [hc]

theorem apart_iff {more : List Char} : Apart more ↔ more.takeWhile (!isBlank ·) = [] := by
  cases more with
  | nil => simp [Apart]
  | cons c more => simp [Apart]

/-- Behind a run of characters up to white space comes white space, or nothing. -/
theorem apart_dropWhile (text : List Char) : Apart (text.dropWhile (!isBlank ·)) := by
  intro c hc
  have hfirst := List.head?_dropWhile_not (!isBlank ·) text
  rw [hc] at hfirst
  simpa using hfirst

theorem Plain.stands {word : String} {more : List Char} (h : Plain word.toList)
    (hmore : Apart more) : Stands word.toList word more := by
  obtain ⟨c, tail, hword⟩ := List.exists_cons_of_ne_nil h.written
  rw [hword]
  have hc : isBlank c = false := h.unbroken c (by simp [hword])
  have hquote : isQuote c = false := h.unquoted c (by simp [hword])
  obtain ⟨htake, hdrop⟩ := span_of_apart h.unbroken hmore
  rw [hword] at htake hdrop
  refine .of_head hc ?_
  rw [List.cons_append, head_unquoted hquote, ← List.cons_append, htake, hdrop, hword]

/-- A plain word takes up the characters behind it, up to white space. -/
theorem Plain.append_run {word : List Char} (h : Plain word) (more : List Char) :
    Plain (word ++ more.takeWhile (!isBlank ·)) where
  written := List.append_ne_nil_of_left_ne_nil h.written _
  unbroken := by
    intro c hc
    rcases List.mem_append.mp hc with hword | hrun
    · exact h.unbroken c hword
    · simpa using List.mem_takeWhile_imp hrun
  unquoted := by
    obtain ⟨c, tail, rfl⟩ := List.exists_cons_of_ne_nil h.written
    exact h.unquoted

/-- A plain word is all of its only token. -/
theorem Plain.cut_eq {word : List Char} (h : Plain word) : cut word = ⟨[], word, word, []⟩ := by
  have hplain : Plain (String.ofList word).toList := by rwa [String.toList_ofList]
  have hnothing : Apart [] := by rintro c ⟨⟩
  have hcut := (hplain.stands hnothing).cut_eq
  rwa [String.toList_ofList, List.append_nil] at hcut

/-- What a plain word starts with is a plain word. -/
theorem Plain.of_prefix {start word : List Char} (h : Plain word) (hstart : start <+: word)
    (hsome : start ≠ []) : Plain start where
  written := hsome
  unbroken := fun c hc => h.unbroken c (hstart.subset hc)
  unquoted := by
    obtain ⟨c, tail, rfl⟩ := List.exists_cons_of_ne_nil hsome
    obtain ⟨rest, rfl⟩ := hstart
    exact h.unquoted

/-! ## Quoted words -/

theorem isBlank_of_isQuote {quote : Char} (h : isQuote quote = true) : isBlank quote = false := by
  simp only [isQuote, Bool.or_eq_true, beq_iff_eq] at h
  rcases h with rfl | rfl
  · exact isBlank_quote.1
  · exact isBlank_quote.2

theorem ne_backslash_of_isQuote {quote : Char} (h : isQuote quote = true) : quote ≠ '\\' := by
  rintro rfl
  cases h

/-- A character between quotes of a kind: every such quote and every backslash has a backslash in
    front. -/
def escapeFor (quote c : Char) : List Char :=
  if c = quote ∨ c = '\\' then ['\\', c] else [c]

/-- A text between quotes of a kind, as one token that stands for it. -/
def enclose (quote : Char) (text : List Char) : List Char :=
  quote :: (text.flatMap (escapeFor quote) ++ [quote])

/-- What is escaped between quotes is read as it was, and the closing quote is the last character
    that is read. -/
theorem quoted_escapeFor {quote : Char} (hquote : quote ≠ '\\') (text more : List Char) :
    quoted quote false (text.flatMap (escapeFor quote) ++ quote :: more) =
      ⟨[], text.flatMap (escapeFor quote) ++ [quote], text, more⟩ := by
  induction text with
  | nil => simp only [List.flatMap_nil, List.nil_append, quoted, if_neg hquote, if_pos]
  | cons c text ih =>
      rw [List.flatMap_cons, List.append_assoc, escapeFor]
      split
      · -- the backslash in front makes the character stand for itself
        simp only [List.cons_append, List.nil_append, quoted, if_pos, ih, push, mark]
      · next hplain =>
          obtain ⟨hother, hescape⟩ := not_or.mp hplain
          simp only [List.cons_append, List.nil_append, quoted, if_neg hescape, if_neg hother, ih,
            push]

/-- A text between quotes stands for the text, whatever comes behind it. -/
theorem stands_enclose {quote : Char} (hquote : isQuote quote = true) (token : String)
    (more : List Char) : Stands (enclose quote token.toList) token more := by
  refine .of_head (isBlank_of_isQuote hquote) ?_
  rw [List.cons_append, head, if_pos hquote, List.append_assoc, List.singleton_append,
    quoted_escapeFor (ne_backslash_of_isQuote hquote)]
  rfl

/-- A character between double quotes. -/
def escape (c : Char) : List Char :=
  if c = '"' ∨ c = '\\' then ['\\', c] else [c]

/-- A text between double quotes, as one token that stands for it. -/
def quote (token : String) : String :=
  String.ofList ('"' :: token.toList.flatMap escape ++ ['"'])

/-- A quoted text stands for the text, whatever comes behind it. -/
theorem stands_quote (token : String) (more : List Char) :
    Stands (quote token).toList token more := by
  have hdouble : (quote token).toList = enclose '"' token.toList := String.toList_ofList
  rw [hdouble]
  exact stands_enclose rfl token more

/-! ## Tokens of other lines -/

theorem quoted_resume {quote : Char} {escaped : Bool} {text : List Char} (more : List Char)
    (hrest : (quoted quote escaped text).rest ≠ []) :
    quoted quote escaped ((quoted quote escaped text).raw ++ more) =
      { quoted quote escaped text with rest := more } := by
  fun_induction quoted quote escaped text with
  | case1 escaped => exact absurd rfl hrest
  | case2 c text ih => simp only [push, List.cons_append, quoted, ih hrest]
  | case3 text ih => simp only [mark, List.cons_append, quoted, if_pos, ih hrest]
  | case4 text hquote =>
      simp only [List.cons_append, quoted, if_neg hquote, if_pos, List.nil_append]
  | case5 c text hescape hquote ih =>
      simp only [push, List.cons_append, quoted, if_neg hescape, if_neg hquote, ih hrest]

/-- A quoted token that ended before the end of its text ends in the same place, whatever comes
    behind it. -/
theorem head_resume_quoted {c : Char} {text : List Char} (hquote : isQuote c = true)
    (hrest : (head (c :: text)).rest ≠ []) (more : List Char) :
    head ((head (c :: text)).raw ++ more) = { head (c :: text) with rest := more } := by
  simp only [head, hquote, if_true] at hrest ⊢
  simp only [mark, List.cons_append, hquote, if_true, quoted_resume more hrest]

/-- What is left behind a token without quotes starts with white space. -/
theorem apart_rest_head {c : Char} {text : List Char} (hquote : isQuote c = false) :
    Apart (head (c :: text)).rest := by
  rw [head_unquoted hquote]
  exact apart_dropWhile (c :: text)

/-- Only behind a word in quotes comes other text directly. -/
theorem Stands.exists_quote {word more : List Char} {token : String} (h : Stands word token more)
    (hmore : ¬Apart more) : ∃ quote tail, word = quote :: tail ∧ isQuote quote = true := by
  obtain ⟨c, tail, rfl, hc⟩ := h.starts
  refine ⟨c, tail, rfl, ?_⟩
  by_contra hquote
  rw [Bool.not_eq_true] at hquote
  have hrest : (head (c :: (tail ++ more))).rest = more := by
    have hcut := h.cut_eq
    rw [List.cons_append, cut_cons hc] at hcut
    exact congrArg Token.rest hcut
  exact hmore (hrest ▸ apart_rest_head hquote)

/-- A token that ended before the end of its text ends in the same place in front of other text. -/
theorem head_resume {c : Char} {text more : List Char} (hc : isBlank c = false)
    (hrest : (head (c :: text)).rest ≠ [])
    (hmore : Apart more ∨ more.head? = (head (c :: text)).rest.head?) :
    head ((head (c :: text)).raw ++ more) = { head (c :: text) with rest := more } := by
  cases hquote : isQuote c with
  | true => exact head_resume_quoted hquote hrest more
  | false =>
      have hapart : Apart more := by
        rcases hmore with hmore | hmore
        · exact hmore
        · intro x hx
          exact apart_rest_head hquote x (hmore ▸ hx)
      rw [head_unquoted hquote]
      have hrun : ∀ x ∈ (c :: text).takeWhile (!isBlank ·), isBlank x = false := by
        intro x hx
        simpa using List.mem_takeWhile_imp hx
      obtain ⟨htake, hdrop⟩ := span_of_apart hrun hapart
      rw [List.takeWhile_cons_of_pos (by simp [hc])] at htake hdrop ⊢
      rw [List.cons_append, head_unquoted hquote, ← List.cons_append, htake, hdrop]

theorem blank_head (text : List Char) : (head text).blank = [] := by
  unfold head
  split
  · rfl
  · split
    · exact blank_quoted ..
    · rfl

/-- A token starts with the first character of its text. -/
theorem exists_raw_head {c : Char} (hc : isBlank c = false) (text : List Char) :
    ∃ tail, (head (c :: text)).raw = c :: tail := by
  have hwritten : (head (c :: text)).raw ≠ [] := head_raw_ne_nil hc
  obtain ⟨first, tail, hraw⟩ := List.exists_cons_of_ne_nil hwritten
  have happend := head_append (c :: text)
  rw [hraw] at happend
  exact ⟨tail, hraw.trans (by rw [(List.cons.inj happend).1])⟩

/-- A token stands for the same text wherever it ends, or at the end of a text. -/
theorem stands_head {c : Char} {text more : List Char} (hc : isBlank c = false)
    (h : (head (c :: text)).rest ≠ [] ∧ Apart more ∨ more = []) :
    Stands (head (c :: text)).raw (String.ofList (head (c :: text)).value) more := by
  obtain ⟨tail, hraw⟩ := exists_raw_head hc text
  have hhead : head ((head (c :: text)).raw ++ more) =
      ⟨[], (head (c :: text)).raw, (head (c :: text)).value, more⟩ := by
    rcases h with ⟨hrest, hmore⟩ | rfl
    · rw [head_resume hc hrest (Or.inl hmore), ← blank_head (c :: text)]
    · rw [List.append_nil, head_raw hc]
  rw [hraw] at hhead ⊢
  refine .of_head hc ?_
  rw [hhead, String.toList_ofList]

end Token

/-! ## Texts without the white space at their ends -/

theorem Text.trimEnd_append {a b : List Char} (ha : trimEnd a = a) :
    trimEnd (a ++ b) = a ++ trimEnd b := by
  unfold trimEnd at ha ⊢
  rw [List.reverse_append, List.dropWhile_append]
  split
  · next hnil => rw [ha, List.isEmpty_iff.mp hnil, List.reverse_nil, List.append_nil]
  · rw [List.reverse_append, List.reverse_reverse]

/-- White space at the end of a text does not count where it is dropped. -/
theorem Text.trimEnd_append_blank {text blank : List Char}
    (hblank : ∀ c ∈ blank, isBlank c = true) : trimEnd (text ++ blank) = trimEnd text := by
  have hreverse : ∀ c ∈ blank.reverse, isBlank c = true :=
    fun c hc => hblank c (List.mem_reverse.mp hc)
  rw [trimEnd, trimEnd, List.reverse_append, List.dropWhile_append_of_pos hreverse]

/-- A text has no white space at its end if its last character is none. -/
theorem Text.trimEnd_eq_self_iff {text : List Char} :
    trimEnd text = text ↔ ∀ c ∈ text.getLast?, isBlank c = false := by
  rw [trimEnd, List.reverse_eq_iff, List.dropWhile_eq_self_iff, ← List.head?_reverse]
  cases text.reverse with
  | nil => simp
  | cons c rest => simp

theorem Text.trimEnd_of_append {a b : List Char} (h : trimEnd (a ++ b) = a ++ b) :
    trimEnd b = b := by
  rw [trimEnd_eq_self_iff] at h ⊢
  intro c hc
  refine h c ?_
  rw [List.getLast?_append, hc]
  rfl

theorem Text.trimEnd_trimEnd (a : List Char) : trimEnd (trimEnd a) = trimEnd a := by
  unfold trimEnd
  rw [List.reverse_reverse, List.dropWhile_eq_self_iff.mpr (List.dropWhile_get_zero_not _ _)]

theorem Text.trimEnd_cons {c : Char} (hc : isBlank c = false) (text : List Char) :
    trimEnd (c :: text) = c :: trimEnd text := by
  have hone : trimEnd [c] = [c] := by simp [trimEnd, hc]
  exact trimEnd_append hone

theorem Text.trim_cons {c : Char} (hc : isBlank c = false) (text : List Char) :
    trim (c :: text) = c :: trimEnd text := by
  rw [trim, trimStart, List.dropWhile_cons_of_neg (by simp [hc]), trimEnd_cons hc]

/-- What is left at the end of a text starts as the text does, or nothing is. -/
theorem Text.head?_trimEnd (text : List Char) :
    trimEnd text = [] ∨ (trimEnd text).head? = text.head? := by
  cases text with
  | nil => exact Or.inl rfl
  | cons c text =>
      by_cases h : trimEnd (c :: text) = []
      · exact Or.inl h
      · refine Or.inr ?_
        obtain ⟨dropped, hdropped⟩ : trimEnd (c :: text) <+: c :: text := by
          rw [trimEnd, ← List.reverse_suffix, List.reverse_reverse]
          exact List.dropWhile_suffix _
        obtain ⟨first, tail, hfirst⟩ := List.exists_cons_of_ne_nil h
        rw [hfirst] at hdropped ⊢
        rw [(List.cons.inj hdropped).1]
        rfl

namespace Token

/-- Nothing of a token as it is written is lost with the white space around it. Only a quote that
    was left open may end in white space. -/
def Trimmed (token : Token) : Prop :=
  trimEnd token.raw = token.raw

theorem trim_raw_head {c : Char} {text : List Char} (hc : isBlank c = false)
    (h : (head (c :: text)).Trimmed) : trim (head (c :: text)).raw = (head (c :: text)).raw := by
  obtain ⟨tail, hraw⟩ := exists_raw_head hc text
  rw [Trimmed, hraw] at h
  rw [hraw, trim, trimStart, List.dropWhile_cons_of_neg (by simp [hc]), h]

/-- A quoted token that ends before the end of its text ends in a quote. -/
theorem quoted_closed {quote : Char} {escaped : Bool} {text : List Char}
    (hrest : (quoted quote escaped text).rest ≠ []) :
    ∃ inner, (quoted quote escaped text).raw = inner ++ [quote] := by
  fun_induction quoted quote escaped text with
  | case1 escaped => exact absurd rfl hrest
  | case2 c text ih =>
      obtain ⟨inner, hinner⟩ := ih hrest
      exact ⟨c :: inner, by rw [push, hinner, List.cons_append]⟩
  | case3 text ih =>
      obtain ⟨inner, hinner⟩ := ih hrest
      exact ⟨'\\' :: inner, by rw [mark, hinner, List.cons_append]⟩
  | case4 text hquote => exact ⟨[], rfl⟩
  | case5 c text hescape hquote ih =>
      obtain ⟨inner, hinner⟩ := ih hrest
      exact ⟨c :: inner, by rw [push, hinner, List.cons_append]⟩

/-- A token ends in white space only where its text does. -/
theorem trimmed_cut {text : List Char} (h : trimEnd text = text) : (cut text).Trimmed := by
  have happend := cut_append text
  by_cases hrest : (cut text).rest = []
  · rw [hrest, List.append_nil] at happend
    rw [← happend] at h
    exact trimEnd_of_append h
  · obtain ⟨c, tail, htext⟩ : ∃ c tail, trimStart text = c :: tail :=
      List.exists_cons_of_ne_nil fun hnil => hrest (by simp only [cut, hnil, head])
    have hcut : cut text = { head (c :: tail) with blank := text.takeWhile isBlank } := by
      rw [cut, htext]
    rw [hcut] at hrest ⊢
    cases hquote : isQuote c with
    | true =>
        simp only [head, hquote, if_true, mark] at hrest
        obtain ⟨inner, hinner⟩ := quoted_closed hrest
        have hc : isBlank c = false := isBlank_of_trimStart htext
        simp only [Trimmed, head, hquote, if_true, mark, hinner]
        rw [trimEnd_eq_self_iff, ← List.cons_append, List.getLast?_concat]
        rintro _ ⟨⟩
        exact hc
    | false =>
        rw [head_unquoted hquote, Trimmed, trimEnd_eq_self_iff]
        intro x hx
        simpa using List.mem_takeWhile_imp (List.mem_of_getLast? hx)

/-- Without the white space at its end, a text starts with the same token. -/
theorem value_head_trimEnd {c : Char} {text : List Char} (hc : isBlank c = false)
    (h : (head (c :: text)).Trimmed) :
    (head (trimEnd (c :: text))).value = (head (c :: text)).value := by
  have happend := head_append (c :: text)
  by_cases hrest : (head (c :: text)).rest = []
  · rw [hrest, List.append_nil] at happend
    rw [Trimmed, happend] at h
    rw [h]
  · have hmore : Apart (trimEnd (head (c :: text)).rest) ∨
        (trimEnd (head (c :: text)).rest).head? = (head (c :: text)).rest.head? := by
      rcases head?_trimEnd (head (c :: text)).rest with hnil | hsame
      · rw [hnil]
        exact Or.inl (by rintro x ⟨⟩)
      · exact Or.inr hsame
    have hresume := head_resume hc hrest hmore
    rw [← trimEnd_append h, happend] at hresume
    rw [hresume]

end Token

/-! ## Lists of words -/

/-- Words with a space in front of each. -/
def Text.spaced (words : List String) : List Char :=
  words.flatMap fun word => ' ' :: word.toList

theorem Token.apart_spaced (words : List String) : Apart (spaced words) := by
  cases words with
  | nil => rintro c ⟨⟩
  | cons word words =>
      rintro c ⟨⟩
      rfl

theorem Text.toList_joined (word : String) (words : List String) :
    (joined " " (word :: words)).toList = word.toList ++ spaced words := by
  induction words generalizing word with
  | nil => simp [joined, spaced]
  | cons next words ih =>
      have hjoined : joined " " (word :: next :: words) = word ++ " " ++ joined " " (next :: words) :=
        String.intercalate_cons_cons
      rw [hjoined, String.toList_append, String.toList_append, ih next, List.append_assoc]
      rfl

namespace Line

/-- What is left of a line are some words, with white space in front of the first and one space in
    front of every other. -/
def Holds (line : Line) (words : List String) : Prop :=
  trimStart line.rest = trimStart (spaced words)

variable {line : Line} {word token : String} {words : List String}

theorem holds_joined (words : List String) : (ofString (joined " " words)).Holds words := by
  cases words with
  | nil => rfl
  | cons word words => rw [Holds, ofString, toList_joined]; rfl

theorem Holds.skipBlank (h : line.Holds words) : line.skipBlank.Holds words := by
  rw [Holds, ← h]
  exact congrArg Line.rest line.skipBlank_skipBlank

theorem holds_nil (h : line.isBlank = true) : line.Holds [] :=
  List.isEmpty_iff.mp h

theorem Holds.isBlank_nil (h : line.Holds []) : line.isBlank = true := by
  rw [isBlank, h]
  rfl

theorem Holds.rest_eq (h : line.Holds (word :: words))
    (hword : Token.Stands word.toList token (spaced words)) :
    line.skipBlank.rest = word.toList ++ spaced words := by
  have hspace : spaced (word :: words) = ' ' :: (word.toList ++ spaced words) := rfl
  show trimStart line.rest = _
  rw [h, hspace, trimStart, List.dropWhile_cons_of_pos rfl]
  exact hword.trimStart_eq

theorem Holds.isBlank_cons (h : line.Holds (word :: words))
    (hword : Token.Stands word.toList token (spaced words)) : line.isBlank = false := by
  obtain ⟨c, tail, hstarts, -⟩ := hword.starts
  rw [isBlank_eq_skipBlank, h.rest_eq hword, hstarts]
  rfl

/-- The first word is the next token. -/
theorem Holds.peekToken (h : line.Holds (word :: words))
    (hword : Token.Stands word.toList token (spaced words)) :
    line.skipBlank.peekToken = token := by
  rw [Line.peekToken, h.rest_eq hword, hword.cut_eq, String.ofList_toList]

theorem Holds.reads (h : line.Holds (word :: words))
    (hword : Token.Stands word.toList token (spaced words)) :
    line.skipBlank.Reads word.toList line.skipBlank.skipToken := by
  have hreads := line.skipBlank.reads_skipToken
  rw [h.rest_eq hword, hword.cut_eq] at hreads
  exact hreads

/-- Behind the first word the others are left. -/
theorem Holds.skipToken (h : line.Holds (word :: words))
    (hword : Token.Stands word.toList token (spaced words)) :
    line.skipBlank.skipToken.Holds words := by
  have hrest := (h.reads hword).rest
  rw [h.rest_eq hword] at hrest
  rw [Holds, ← List.append_cancel_left hrest]

end Line

end CommandLine
