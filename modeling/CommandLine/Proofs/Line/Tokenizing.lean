import CommandLine.Proofs.Line.Boundary

/-! # Cutting a line into tokens

    Nothing of a line is lost when it is cut into tokens: what is left of it is the tokens as they
    are written, with white space in front of each and behind the last (`Token.Partition`). How a
    token may be written is said without the reader: it is a run of characters other than white
    space, up to white space or to the end, or it is a quote with what follows it, up to the first
    quote of the same kind that is not escaped, or to the end (`Token.Written`). A character is
    escaped if an odd number of backslashes stands in front of it (`Text.escapes`), which is what
    the mark that the reader carries from one character to the next comes to.

    A text can be parted into tokens in one way only (`Token.Partition.unique`), and the loop that
    reads tokens until nothing but white space is left comes to its end and finds that way
    (`Line.tokens_lossless`). -/

namespace CommandLine

open Text

/-! ## Escaped characters -/

/-- Whether a character is escaped that comes behind a text: the text ends in an odd number of
    backslashes. -/
def Text.escapes (front : List Char) : Bool :=
  (front.reverse.takeWhile (· == '\\')).length % 2 == 1

/-- A backslash that is not escaped escapes the next character, and nothing else does. -/
theorem Text.escapes_concat (front : List Char) (c : Char) :
    escapes (front ++ [c]) = (c == '\\' && !escapes front) := by
  rw [escapes, escapes, List.reverse_append, List.reverse_singleton, List.singleton_append,
    List.takeWhile_cons]
  by_cases hc : c = '\\'
  · subst hc
    have hparity (n : Nat) : ((n + 1) % 2 == 1) = !(n % 2 == 1) := by
      rcases Nat.mod_two_eq_zero_or_one n with h | h <;> simp [Nat.add_mod, h]
    simp only [beq_self_eq_true, if_true, List.length_cons, hparity, Bool.true_and]
  · simp only [beq_false_of_ne hc, Bool.false_eq_true, if_false, List.length_nil, Bool.false_and]
    rfl

namespace Token

variable {quote c : Char} {front body raw rest text : List Char}

/-! ## How tokens are written -/

/-- Behind `front`, every quote of a kind in a text is escaped. -/
def Unclosed (quote : Char) (front body : List Char) : Prop :=
  ∀ start, start ++ [quote] <+: body → escapes (front ++ start) = true

/-- A quoted text goes on behind `front` up to the first quote of its kind that is not escaped, or
    up to the end. -/
inductive Ends (quote : Char) (front : List Char) : List Char → List Char → Prop where
  | closed {inner rest : List Char} (inside : Unclosed quote front inner)
      (closes : escapes (front ++ inner) = false) : Ends quote front (inner ++ [quote]) rest
  | opened {inner : List Char} (inside : Unclosed quote front inner) : Ends quote front inner []

/-- How a token is written in front of other text: a run of characters that are not white space, up
    to white space or to the end; or a quote and a text up to the end of the quotation. -/
inductive Written : List Char → List Char → Prop where
  | plain {raw rest : List Char} (some : raw ≠ []) (unquoted : ∀ c ∈ raw.head?, isQuote c = false)
      (unbroken : ∀ c ∈ raw, isBlank c = false) (ends : Apart rest) : Written raw rest
  | quoted {quote : Char} {body rest : List Char} (opens : isQuote quote = true)
      (ends : Ends quote [] body rest) : Written (quote :: body) rest

theorem unclosed_nil (quote : Char) (front : List Char) : Unclosed quote front [] := by
  intro start hstart
  exact absurd (List.prefix_nil.mp hstart) (by simp)

theorem unclosed_cons_iff :
    Unclosed quote front (c :: body) ↔
      (c = quote → escapes front = true) ∧ Unclosed quote (front ++ [c]) body := by
  constructor
  · intro h
    constructor
    · rintro rfl
      simpa using h [] ⟨body, rfl⟩
    · intro start hstart
      rw [List.append_assoc]
      exact h (c :: start) (List.cons_prefix_cons.mpr ⟨rfl, hstart⟩)
  · rintro ⟨hfirst, hlater⟩ start hstart
    cases start with
    | nil =>
        rw [List.append_nil]
        exact hfirst (List.cons_prefix_cons.mp hstart).1.symm
    | cons d start =>
        obtain ⟨rfl, htail⟩ := List.cons_prefix_cons.mp hstart
        rw [← List.singleton_append, ← List.append_assoc]
        exact hlater start htail

/-- A quotation goes on behind a character that does not close it. -/
theorem Ends.cons (hc : c = quote → escapes front = true) (h : Ends quote (front ++ [c]) raw rest) :
    Ends quote front (c :: raw) rest := by
  cases h with
  | closed inside closes =>
      rw [List.append_assoc] at closes
      exact .closed (unclosed_cons_iff.mpr ⟨hc, inside⟩) closes
  | opened inside => exact .opened (unclosed_cons_iff.mpr ⟨hc, inside⟩)

/-- A quotation is closed by its first character, or goes on behind it. -/
theorem Ends.cases_cons (h : Ends quote front (c :: raw) rest) :
    (c = quote ∧ escapes front = false ∧ raw = []) ∨
      (c = quote → escapes front = true) ∧ Ends quote (front ++ [c]) raw rest := by
  generalize hwhole : c :: raw = whole at h
  cases h with
  | @closed inner _ inside closes =>
      cases inner with
      | nil =>
          obtain ⟨rfl, rfl⟩ := List.cons.inj hwhole
          rw [List.append_nil] at closes
          exact Or.inl ⟨rfl, closes, rfl⟩
      | cons d inner =>
          obtain ⟨rfl, rfl⟩ := List.cons.inj hwhole
          obtain ⟨hfirst, hlater⟩ := unclosed_cons_iff.mp inside
          rw [← List.singleton_append, ← List.append_assoc] at closes
          exact Or.inr ⟨hfirst, .closed hlater closes⟩
  | opened inside =>
      subst hwhole
      obtain ⟨hfirst, hlater⟩ := unclosed_cons_iff.mp inside
      exact Or.inr ⟨hfirst, .opened hlater⟩

/-! ## Tokens are cut off where they end -/

/-- A quoted text is read up to its end. The mark of the reader says whether what was read so far
    escapes the next character. -/
theorem ends_quoted (hquote : quote ≠ '\\') {escaped : Bool} (hfront : escapes front = escaped) :
    Ends quote front (quoted quote escaped text).raw (quoted quote escaped text).rest := by
  fun_induction quoted quote escaped text generalizing front with
  | case1 escaped => exact .opened (unclosed_nil quote front)
  | case2 c text ih =>
      refine .cons (fun _ => hfront) (ih ?_)
      rw [escapes_concat, hfront, Bool.not_true, Bool.and_false]
  | case3 text ih =>
      refine .cons (fun hc => absurd hc.symm hquote) (ih ?_)
      rw [escapes_concat, hfront]
      rfl
  | case4 text _ =>
      have hopen : escapes (front ++ []) = false := by rwa [List.append_nil]
      exact Ends.closed (unclosed_nil quote front) hopen
  | case5 c text hescape hother ih =>
      refine .cons (fun hc => absurd hc hother) (ih ?_)
      rw [escapes_concat, beq_false_of_ne hescape, Bool.false_and]

/-- What is written as a quotation up to its end is read as one. -/
theorem Ends.quoted_eq (hquote : quote ≠ '\\') {escaped : Bool} (hfront : escapes front = escaped)
    (h : Ends quote front body rest) :
    (quoted quote escaped (body ++ rest)).raw = body ∧
      (quoted quote escaped (body ++ rest)).rest = rest := by
  induction body generalizing front escaped with
  | nil =>
      -- an empty quotation was not closed, so it runs to the end
      generalize hnothing : ([] : List Char) = nothing at h
      cases h with
      | closed _ _ => simp at hnothing
      | opened _ => subst hnothing; cases escaped <;> exact ⟨rfl, rfl⟩
  | cons c body ih =>
      rcases h.cases_cons with ⟨rfl, hopen, rfl⟩ | ⟨hfirst, hlater⟩
      · rw [hfront] at hopen
        subst hopen
        simp only [List.cons_append, List.nil_append, quoted, if_neg hquote, if_pos, and_self]
      · cases escaped with
        | true =>
            have hnext : escapes (front ++ [c]) = false := by
              rw [escapes_concat, hfront, Bool.not_true, Bool.and_false]
            obtain ⟨hraw, hrest⟩ := ih hnext hlater
            exact ⟨congrArg (c :: ·) hraw, hrest⟩
        | false =>
            by_cases hescape : c = '\\'
            · subst hescape
              have hnext : escapes (front ++ ['\\']) = true := by
                rw [escapes_concat, hfront]
                rfl
              obtain ⟨hraw, hrest⟩ := ih hnext hlater
              simp only [List.cons_append, quoted, if_pos, mark, hraw, hrest, and_self]
            · have hother : c ≠ quote := fun hc => by
                rw [hfirst hc] at hfront
                cases hfront
              have hnext : escapes (front ++ [c]) = false := by
                rw [escapes_concat, beq_false_of_ne hescape, Bool.false_and]
              obtain ⟨hraw, hrest⟩ := ih hnext hlater
              simp only [List.cons_append, quoted, if_neg hescape, if_neg hother, push, hraw,
                hrest, and_self]

/-- The first token of a text is written as tokens are. -/
theorem written_cut (h : trimStart text ≠ []) : Written (cut text).raw (cut text).rest := by
  obtain ⟨c, text, htext⟩ := List.exists_cons_of_ne_nil h
  have hc : isBlank c = false := isBlank_of_trimStart htext
  rw [cut, htext]
  show Written (head (c :: text)).raw (head (c :: text)).rest
  cases hquote : isQuote c with
  | true =>
      simp only [head, hquote, if_true, mark]
      exact .quoted hquote (ends_quoted (ne_backslash_of_isQuote hquote) rfl)
  | false =>
      refine .plain (head_raw_ne_nil hc) ?_ ?_ (apart_rest_head hquote)
      · obtain ⟨tail, hraw⟩ := exists_raw_head hc text
        rw [hraw]
        rintro x ⟨⟩
        exact hquote
      · rw [head_unquoted hquote]
        intro x hx
        simpa using List.mem_takeWhile_imp hx

/-- A token starts with a character that is not white space. -/
theorem Written.exists_cons (h : Written raw rest) :
    ∃ c tail, raw = c :: tail ∧ isBlank c = false := by
  cases h with
  | plain some unquoted unbroken ends =>
      obtain ⟨c, tail, rfl⟩ := List.exists_cons_of_ne_nil some
      exact ⟨c, tail, rfl, unbroken c List.mem_cons_self⟩
  | @quoted quote body _ opens ends => exact ⟨quote, body, rfl, isBlank_of_isQuote opens⟩

/-- What is written as a token behind white space is the first token of the text. -/
theorem Written.cut_eq {blank : List Char} (hblank : ∀ c ∈ blank, isBlank c = true)
    (h : Written raw rest) :
    (cut (blank ++ (raw ++ rest))).raw = raw ∧ (cut (blank ++ (raw ++ rest))).rest = rest := by
  rw [cut_behind_blank hblank]
  obtain ⟨c, tail, rfl, hc⟩ := h.exists_cons
  rw [List.cons_append, cut_cons hc]
  cases h with
  | plain some unquoted unbroken ends =>
      have hquote : isQuote c = false := unquoted c rfl
      obtain ⟨htake, hdrop⟩ := span_of_apart unbroken ends
      rw [List.cons_append] at htake hdrop
      simp only [head_unquoted hquote, htake, hdrop, and_self]
  | quoted opens ends =>
      have hfront : Text.escapes [] = false := rfl
      obtain ⟨hraw, hrest⟩ := ends.quoted_eq (ne_backslash_of_isQuote opens) hfront
      simp only [head, opens, if_true, mark, hraw, hrest, and_self]

/-! ## Texts parted into tokens -/

/-- The white space in front of a token and the token, as they are written. -/
def span (token : Token) : List Char :=
  token.blank ++ token.raw

/-- A text is parted into tokens with white space in front of each, and white space at the end. -/
structure Partition (text : List Char) (tokens : List Token) (ending : List Char) : Prop where
  whole : tokens.flatMap span ++ ending = text
  blank : ∀ token ∈ tokens, ∀ c ∈ token.blank, isBlank c = true
  written : ∀ before token after, tokens = before ++ token :: after →
    Written token.raw (after.flatMap span ++ ending)
  ending : ∀ c ∈ ending, isBlank c = true

variable {token : Token} {tokens others : List Token} {ending last : List Char}

theorem Partition.nil (h : ∀ c ∈ text, isBlank c = true) : Partition text [] text := by
  refine ⟨rfl, by simp, ?_, h⟩
  intro before token after hsplit
  simp at hsplit

theorem Partition.cons (hblank : ∀ c ∈ token.blank, isBlank c = true)
    (hwritten : Written token.raw rest) (h : Partition rest tokens ending) :
    Partition (token.span ++ rest) (token :: tokens) ending := by
  refine ⟨?_, List.forall_mem_cons.mpr ⟨hblank, h.blank⟩, ?_, h.ending⟩
  · rw [List.flatMap_cons, List.append_assoc, h.whole]
  · intro before other after hsplit
    rcases List.cons_eq_append_iff.mp hsplit with ⟨rfl, hafter⟩ | ⟨before, rfl, hlater⟩
    · obtain ⟨rfl, rfl⟩ := List.cons.inj hafter
      rwa [h.whole]
    · exact h.written before other after hlater

theorem Partition.tail (h : Partition text (token :: tokens) ending) :
    Partition (tokens.flatMap span ++ ending) tokens ending := by
  refine ⟨rfl, fun other hother => h.blank other (List.mem_cons_of_mem _ hother), ?_, h.ending⟩
  rintro before other after rfl
  exact h.written (token :: before) other after rfl

/-- The first token of a parted text is the one that is cut off. -/
theorem Partition.cut_eq (h : Partition text (token :: tokens) ending) :
    (cut text).raw = token.raw ∧ (cut text).rest = tokens.flatMap span ++ ending := by
  rw [← h.whole, List.flatMap_cons, List.append_assoc, span, List.append_assoc]
  exact (h.written [] token tokens rfl).cut_eq (h.blank token List.mem_cons_self)

theorem Partition.trimStart_eq_nil (h : Partition text [] ending) : trimStart text = [] := by
  rw [← h.whole]
  exact List.dropWhile_eq_nil_iff.mpr h.ending

theorem Partition.trimStart_ne_nil (h : Partition text (token :: tokens) ending) :
    trimStart text ≠ [] := by
  intro hnil
  obtain ⟨c, tail, hraw, -⟩ := (h.written [] token tokens rfl).exists_cons
  have hnothing := cut_raw_eq_nil_iff.mpr hnil
  rw [h.cut_eq.1, hraw] at hnothing
  cases hnothing

/-- There is one way only to part a text into tokens. -/
theorem Partition.unique (h : Partition text tokens ending) (hother : Partition text others last) :
    tokens.map (·.raw) = others.map (·.raw) ∧ ending = last := by
  induction tokens generalizing text others with
  | nil =>
      cases others with
      | nil => exact ⟨rfl, h.whole.trans hother.whole.symm⟩
      | cons other others => exact absurd h.trimStart_eq_nil hother.trimStart_ne_nil
  | cons token tokens ih =>
      cases others with
      | nil => exact absurd hother.trimStart_eq_nil h.trimStart_ne_nil
      | cons other others =>
          have hraw : token.raw = other.raw := h.cut_eq.1.symm.trans hother.cut_eq.1
          have hrest : tokens.flatMap span ++ ending = others.flatMap span ++ last :=
            h.cut_eq.2.symm.trans hother.cut_eq.2
          obtain ⟨hraws, hending⟩ := ih h.tail (hrest ▸ hother.tail)
          exact ⟨by rw [List.map_cons, List.map_cons, hraw, hraws], hending⟩

theorem all_of_blank (h : trimStart text = []) : all text = [] := by
  rw [all, dif_pos h]

theorem all_of_written (h : trimStart text ≠ []) : all text = cut text :: all (cut text).rest := by
  rw [all, dif_neg h]

end Token

/-! ## The loop -/

namespace Line

open Token

/-- Tokens are read from a line until nothing but white space is left: the tokens, and the line
    after the last of them. -/
inductive Cuts : Line → List Token → Line → Prop where
  | done {line : Line} (blank : line.isBlank = true) : Cuts line [] line
  | token {line last : Line} {tokens : List Token} (further : line.isBlank = false)
      (more : Cuts line.skipToken tokens last) : Cuts line (cut line.rest :: tokens) last

variable {line last : Line} {tokens : List Token}

theorem trimStart_of_isBlank (h : line.isBlank = true) : trimStart line.rest = [] :=
  List.isEmpty_iff.mp h

theorem trimStart_of_further (h : line.isBlank = false) : trimStart line.rest ≠ [] :=
  List.isEmpty_eq_false_iff.mp h

theorem tokens_of_isBlank (h : line.isBlank = true) : line.tokens = [] := by
  rw [Line.tokens, all_of_blank (trimStart_of_isBlank h), List.map_nil]

theorem tokens_of_further (h : line.isBlank = false) :
    line.tokens = line.peekToken :: line.skipToken.tokens := by
  rw [Line.tokens, all_of_written (trimStart_of_further h), List.map_cons]
  rfl

/-- The loop ends, because every token makes what is left shorter. -/
theorem exists_cuts (line : Line) : ∃ tokens last, line.Cuts tokens last := by
  induction hlength : line.rest.length using Nat.strong_induction_on generalizing line with
  | h n ih =>
      cases hblank : line.isBlank with
      | true => exact ⟨[], line, .done hblank⟩
      | false =>
          have hshorter := length_rest_skipToken_lt hblank
          obtain ⟨tokens, last, hmore⟩ := ih _ (hlength ▸ hshorter) line.skipToken rfl
          exact ⟨_, last, .token hblank hmore⟩

/-- The loop reads all tokens that are left. -/
theorem Cuts.eq_all (h : line.Cuts tokens last) : tokens = Token.all line.rest := by
  induction h with
  | done blank => rw [all_of_blank (trimStart_of_isBlank blank)]
  | token further _ ih =>
      rw [all_of_written (trimStart_of_further further), ih]
      rfl

theorem Cuts.onward (h : line.Cuts tokens last) : line.Onward last := by
  induction h with
  | done _ => exact .refl _
  | token _ _ ih => exact (onward_skipToken _).trans ih

/-- The loop parts what is left of the line into tokens. -/
theorem Cuts.partition (h : line.Cuts tokens last) : Partition line.rest tokens last.rest := by
  induction h with
  | @done line blank => exact .nil (line.isBlank_iff.mp blank)
  | @token line last tokens further _ ih =>
      have hcons := Partition.cons (fun c hc => List.mem_takeWhile_imp hc)
        (written_cut (trimStart_of_further further)) ih
      rwa [span, cut_append] at hcons

/-- The last token is the only one that is left, with no white space behind it, or there is none. -/
theorem Cuts.isLastToken_iff (h : line.Cuts tokens last) :
    line.isLastToken = true ↔ tokens = [] ∨ (∃ token, tokens = [token]) ∧ last.rest = [] := by
  cases h with
  | done blank => exact iff_of_true (isLastToken_of_isBlank blank) (Or.inl rfl)
  | @token _ _ tokens further more =>
      rw [Line.isLastToken, isEmpty, List.isEmpty_iff]
      constructor
      · intro hrest
        have hblank : line.skipToken.isBlank = true := by
          rw [isBlank, hrest]
          rfl
        cases more with
        | done _ => exact Or.inr ⟨⟨_, rfl⟩, hrest⟩
        | token hfurther _ =>
            rw [hblank] at hfurther
            cases hfurther
      · rintro (hnil | ⟨⟨token, hone⟩, hrest⟩)
        · cases hnil
        · obtain ⟨-, rfl⟩ := List.cons.inj hone
          cases more with
          | done _ => exact hrest

/-- On every line, that is in every text and at every place of it (`existsUnique_at`), reading a
    token goes ahead, and by at least one byte where a token is left. Reading tokens as long as
    there are any comes to an end: it parts what is left into the tokens as they are written and the
    white space around them, which can be done in one way only, and it gives all tokens of the line.
    The last token is the only one, with nothing behind it, or there is none. -/
theorem tokens_lossless (line : Line) :
    line.Ahead line.skipToken ∧ (line.isBlank = true ∨ line.cursor < line.skipToken.cursor) ∧
      ∃ tokens last, line.Cuts tokens last ∧ line.Ahead last ∧
        line.tokens = tokens.map (fun token => String.ofList token.value) ∧
        Partition line.rest tokens last.rest ∧
        (∀ others ending, Partition line.rest others ending →
          others.map (·.raw) = tokens.map (·.raw)) ∧
        (line.isLastToken = true ↔ tokens = [] ∨ (∃ token, tokens = [token]) ∧ last.rest = []) := by
  refine ⟨line.onward_skipToken.ahead, ?_, ?_⟩
  · cases hblank : line.isBlank with
    | true => exact Or.inl rfl
    | false => exact Or.inr (cursor_lt_skipToken hblank)
  · obtain ⟨tokens, last, hcuts⟩ := line.exists_cuts
    refine ⟨tokens, last, hcuts, hcuts.onward.ahead, ?_, hcuts.partition, ?_, hcuts.isLastToken_iff⟩
    · rw [Line.tokens, hcuts.eq_all]
    · intro others ending hother
      exact (hother.unique hcuts.partition).1

/-! ## Texts as tokens -/

/-- What stands for a text at the place of a line is read as the text, and nothing behind it is. -/
theorem readToken_of_stands {word more : List Char} {token : String}
    (h : Stands word token more) (before : List Char) :
    (Line.mk before (word ++ more)).readToken = (token, ⟨before ++ word, more⟩) := by
  simp only [readToken, peekToken, skipToken, h.cut_eq, String.ofList_toList, List.nil_append]

theorem isBlank_of_stands {word more : List Char} {token : String} (h : Stands word token more)
    (before : List Char) : (Line.mk before (word ++ more)).isBlank = false := by
  obtain ⟨c, tail, hword, -⟩ := h.starts
  rw [isBlank, h.trimStart_eq, hword]
  rfl

/-- What stands for a text is the first of the tokens that are left. -/
theorem tokens_of_stands {word more : List Char} {token : String} (h : Stands word token more)
    (before : List Char) :
    (Line.mk before (word ++ more)).tokens = token :: (Line.mk (before ++ word) more).tokens := by
  rw [tokens_of_further (isBlank_of_stands h before)]
  exact congrArg (fun read : String × Line => read.1 :: read.2.tokens)
    (readToken_of_stands h before)

/-- Every text can be given as one token. Between quotes of either kind, with a backslash in front
    of every such quote and every backslash in it, it is read as it is, up to the closing quote and
    no further, whatever was read before and whatever comes behind. It is the first of the tokens
    that are left, and the others are those behind it. -/
theorem readToken_enclosed {quote : Char} (hquote : isQuote quote = true) (token : String)
    (before more : List Char) :
    (Line.mk before (enclose quote token.toList ++ more)).readToken =
        (token, ⟨before ++ enclose quote token.toList, more⟩) ∧
      (Line.mk before (enclose quote token.toList ++ more)).tokens =
        token :: (Line.mk (before ++ enclose quote token.toList) more).tokens := by
  have hstands := stands_enclose hquote token more
  exact ⟨readToken_of_stands hstands before, tokens_of_stands hstands before⟩

/-- Between single quotes, a text with both quotes, a backslash at its end, white space and a letter
    of two bytes is one token, and the letter that adjoins the closing quote is the next. -/
theorem readToken_enclosed_saying :
    isQuote '\'' = true ∧
      (Line.ofString "'it\\'s \"é\\\\'x").readToken =
        ("it's \"é\\", ⟨"'it\\'s \"é\\\\'".toList, ['x']⟩) ∧
      (Line.ofString "'it\\'s \"é\\\\'x").tokens = ["it's \"é\\", "x"] := by
  obtain ⟨hread, htokens⟩ := readToken_enclosed (rfl : isQuote '\'' = true) "it's \"é\\" [] ['x']
  refine ⟨rfl, hread, htokens.trans ?_⟩
  rw [tokens_of_further rfl, tokens_of_isBlank rfl]
  rfl

end Line

end CommandLine
