import CommandLine.Parser.Read
import CommandLine.Proofs.Line.Tokenizing
import CommandLine.Proofs.Parser.Interpret

/-! # Texts up to a flag

    A text that gives way to flags is read token by token, and two views of the line meet in it.
    Whether a token looks like a flag is seen from what it stands for, without its quotes, but the
    text that is read is what is written, with the quotes and with the white space between the
    tokens. `reads_skipToFlag` says where the two meet: the place that is reached is the end of a
    token, and what was read on the way is the tokens in front of the first one that looks like a
    flag, as they are written. So the text is never empty once a token was read
    (`trim_span_ne_nil`), and without a flag it is the text that is left
    (`Partition.trim_spans`). -/

namespace CommandLine

open Text

namespace Token

/-- Whether the text that a token stands for looks like a flag. -/
def isFlag (token : Token) : Bool :=
  looksLikeFlag (String.ofList token.value)

/-- The tokens in front of the first one that looks like a flag. -/
def beforeFlag (tokens : List Token) : List Token :=
  tokens.takeWhile (!isFlag ·)

/-- The tokens from the first one on that looks like a flag. -/
def fromFlag (tokens : List Token) : List Token :=
  tokens.dropWhile (!isFlag ·)

variable {token : Token} {tokens : List Token} {text ending : List Char}

theorem beforeFlag_of_isFlag (h : token.isFlag = true) : beforeFlag (token :: tokens) = [] :=
  List.takeWhile_cons_of_neg (by simp [h])

theorem fromFlag_of_isFlag (h : token.isFlag = true) :
    fromFlag (token :: tokens) = token :: tokens :=
  List.dropWhile_cons_of_neg (by simp [h])

theorem beforeFlag_cons (h : token.isFlag = false) :
    beforeFlag (token :: tokens) = token :: beforeFlag tokens :=
  List.takeWhile_cons_of_pos (by simp [h])

theorem fromFlag_cons (h : token.isFlag = false) :
    fromFlag (token :: tokens) = fromFlag tokens :=
  List.dropWhile_cons_of_pos (by simp [h])

/-- Without a flag all tokens are in front of one. -/
theorem beforeFlag_eq_self (h : ∀ token ∈ tokens, token.isFlag = false) :
    beforeFlag tokens = tokens :=
  List.takeWhile_eq_self_iff.mpr fun token htoken => by simp [h token htoken]

theorem fromFlag_eq_nil (h : ∀ token ∈ tokens, token.isFlag = false) : fromFlag tokens = [] :=
  List.dropWhile_eq_nil_iff.mpr fun token htoken => by simp [h token htoken]

/-- A written token with what follows it is more than white space. -/
theorem trim_span_ne_nil (h : trimStart text ≠ []) (more : List Char) :
    trim ((cut text).span ++ more) ≠ [] := by
  obtain ⟨c, tail, hraw, hc⟩ := (written_cut h).exists_cons
  have hblank : ∀ x ∈ (cut text).blank, isBlank x = true := fun x hx => List.mem_takeWhile_imp hx
  rw [span, List.append_assoc, trim_append_blank hblank, hraw, List.cons_append, trim_cons hc]
  exact List.cons_ne_nil _ _

/-- The tokens of a text as they are written are the text, but for white space around them. -/
theorem Partition.trim_spans (h : Partition text (token :: tokens) ending) :
    trim ((token :: tokens).flatMap span) = trim text := by
  obtain ⟨c, tail, hraw, hc⟩ := (h.written [] token tokens rfl).exists_cons
  have hspans : (token :: tokens).flatMap span =
      token.blank ++ (c :: (tail ++ tokens.flatMap span)) := by
    rw [List.flatMap_cons, span, hraw, List.append_assoc, List.cons_append]
  rw [← h.whole, hspans, List.append_assoc, List.cons_append,
    trim_append_blank (h.blank token List.mem_cons_self),
    trim_append_blank (h.blank token List.mem_cons_self), trim_cons hc, trim_cons hc,
    trimEnd_append_blank h.ending]

end Token

namespace Line

open Token

variable {line : Line}

/-- Up to a flag, what is read is the tokens in front of it as they are written, and the tokens
    that are left are those from the flag on. -/
theorem reads_skipToFlag (line : Line) :
    line.Reads ((beforeFlag (all line.rest)).flatMap span) line.skipToFlag ∧
      all line.skipToFlag.rest = fromFlag (all line.rest) := by
  -- the loop ends at the end of the line and at a flag, and reads a token otherwise
  fun_induction skipToFlag line with
  | case1 line hblank =>
      rw [all_of_blank (trimStart_of_isBlank hblank)]
      exact ⟨.nothing line, rfl⟩
  | case2 line hblank hflag =>
      rw [all_of_written (trimStart_of_further (by simpa using hblank))]
      have hcut : (cut line.rest).isFlag = true := hflag
      rw [beforeFlag_of_isFlag hcut, fromFlag_of_isFlag hcut]
      exact ⟨.nothing line, rfl⟩
  | case3 line hblank hflag ih =>
      obtain ⟨hreads, hleft⟩ := ih
      rw [all_of_written (trimStart_of_further (by simpa using hblank))]
      have hcut : (cut line.rest).isFlag = false := Bool.eq_false_iff.mpr hflag
      rw [beforeFlag_cons hcut, fromFlag_cons hcut, List.flatMap_cons]
      exact ⟨line.reads_skipToken.trans hreads, hleft⟩

/-- Where the first token is no flag, the text up to the first flag is not empty. -/
theorem readSince_skipToFlag_ne (hblank : line.isBlank = false)
    (hflag : looksLikeFlag line.peekToken = false) : line.skipToFlag.readSince line ≠ "" := by
  have hwritten := trimStart_of_further hblank
  have hcut : (cut line.rest).isFlag = false := hflag
  rw [line.reads_skipToFlag.1.readSince, all_of_written hwritten, beforeFlag_cons hcut,
    List.flatMap_cons]
  intro hempty
  exact trim_span_ne_nil hwritten _ (String.ofList_eq_empty_iff.mp hempty)

/-- No token of a line looks like a flag if none of the texts does that they stand for. -/
theorem isFlag_of_tokens (h : ∀ token ∈ line.tokens, looksLikeFlag token = false) :
    ∀ token ∈ all line.rest, token.isFlag = false :=
  fun _ htoken => h _ (List.mem_map_of_mem htoken)

/-- Without a flag, the text up to a flag is all that is left. -/
theorem readSince_skipToFlag_eq (hblank : line.isBlank = false)
    (h : ∀ token ∈ line.tokens, looksLikeFlag token = false) :
    line.skipToFlag.readSince line = line.readRest.1 := by
  obtain ⟨tokens, last, hcuts⟩ := line.exists_cuts
  have hpartition := hcuts.partition
  rw [line.reads_skipToFlag.1.readSince, beforeFlag_eq_self (isFlag_of_tokens h), ← hcuts.eq_all,
    readRest]
  cases hcuts with
  | done hnothing =>
      rw [hblank] at hnothing
      cases hnothing
  | token _ _ => rw [hpartition.trim_spans]

/-- Without a flag, no token is left behind the text up to a flag, as behind all that is left. -/
theorem tokens_skipToFlag_eq (h : ∀ token ∈ line.tokens, looksLikeFlag token = false) :
    line.skipToFlag.tokens = line.readRest.2.tokens := by
  have hfinish : line.readRest.2.tokens = [] := tokens_of_isBlank rfl
  rw [hfinish, Line.tokens, line.reads_skipToFlag.2, fromFlag_eq_nil (isFlag_of_tokens h),
    List.map_nil]

end Line

namespace Parser

open Token

variable {ctx : Context} {line : Line}

/-- Without a token, and where the first one looks like a flag, no text is given. -/
theorem readText_untilFlag_none (h : line.isBlank = true ∨ looksLikeFlag line.peekToken = true) :
    readText .untilFlag ctx line = ⟨.error (.noInput (textName .untilFlag)), ctx, line⟩ := by
  cases hblank : line.isBlank with
  | true => rw [readText, if_pos hblank]
  | false =>
      have hflag := h.resolve_left (by simp [hblank])
      simp only [readText, hblank, Line.skipToFlag_self hblank hflag, Line.readSince_self,
        Bool.false_eq_true, if_false, if_pos]

theorem readText_untilFlag_some (hblank : line.isBlank = false)
    (hflag : looksLikeFlag line.peekToken = false) :
    readText .untilFlag ctx line =
      ⟨.ok (.plain (.text (line.skipToFlag.readSince line))), ctx, line.skipToFlag⟩ := by
  simp only [readText, hblank, Bool.false_eq_true, if_false,
    if_neg (Line.readSince_skipToFlag_ne hblank hflag)]

/-- A text that gives way to flags, in every context and on every line. On white space, and where
    the first token looks like a flag, no text is given and the line stays where it was. Elsewhere
    the text is what is written from the first token to the end of the last one in front of the
    first flag, without the white space around it, the context stays as it was, and exactly the
    tokens from the flag on are left. On lines without a flag, value and tokens left are those of
    the parser that reads all that is left. -/
theorem read_untilFlag (ctx : Context) (line : Line) :
    (line.isBlank = true ∨ looksLikeFlag line.readToken.1 = true →
      (text .untilFlag).read ctx line =
        ⟨.error (.noInput "greedy_flag_yielding_string"), ctx, line⟩) ∧
    (¬(line.isBlank = true ∨ looksLikeFlag line.readToken.1 = true) →
      ∃ after,
        (text .untilFlag).read ctx line =
          ⟨.ok (.plain (.text (String.ofList
            (trim ((beforeFlag (all line.rest)).flatMap span))))), ctx, after⟩ ∧
        line.Reads ((beforeFlag (all line.rest)).flatMap span) after ∧
        all after.rest = fromFlag (all line.rest)) ∧
    ((∀ token ∈ line.tokens, looksLikeFlag token = false) →
      ((text .untilFlag).read ctx line).value? = ((text .rest).read ctx line).value? ∧
        ((text .untilFlag).read ctx line).line.tokens =
          ((text .rest).read ctx line).line.tokens) := by
  obtain ⟨hreads, hleft⟩ := line.reads_skipToFlag
  refine ⟨readText_untilFlag_none, ?_, ?_⟩
  · intro hsome
    obtain ⟨hblank, hflag⟩ := not_or.mp hsome
    refine ⟨line.skipToFlag, ?_, hreads, hleft⟩
    rw [← hreads.readSince]
    exact readText_untilFlag_some (Bool.eq_false_iff.mpr hblank) (Bool.eq_false_iff.mpr hflag)
  · intro hnone
    show (readText .untilFlag ctx line).value? = (readText .rest ctx line).value? ∧
      (readText .untilFlag ctx line).line.tokens = (readText .rest ctx line).line.tokens
    cases hblank : line.isBlank with
    | true =>
        rw [readText_untilFlag_none (Or.inl hblank), readText, if_pos hblank]
        exact ⟨rfl, rfl⟩
    | false =>
        have hflag : looksLikeFlag line.peekToken = false :=
          hnone _ (by rw [Line.tokens_of_further hblank]; exact List.mem_cons_self)
        have hrest : readText .rest ctx line =
            ⟨.ok (.plain (.text line.readRest.1)), ctx, line.readRest.2⟩ := by
          simp only [readText, hblank, Bool.false_eq_true, if_false]
        rw [readText_untilFlag_some hblank hflag, hrest, Line.readSince_skipToFlag_eq hblank hnone]
        exact ⟨rfl, Line.tokens_skipToFlag_eq hnone⟩

/-- A context in which nothing has been read. -/
def announcer : Context :=
  { sender := ⟨"Steve", "player", 0, []⟩ }

/-- A flag between quotes is a flag. Read as text are a quoted token with a hyphen in it, a word
    right behind its closing quote and a negative number, with the white space between them; and
    without a flag, an open quote with what follows it. -/
theorem read_untilFlag_saying :
    looksLikeFlag (Line.ofString " \"--x\" y").readToken.1 = true ∧
      (text .untilFlag).read announcer (.ofString " \"--x\" y") =
        ⟨.error (.noInput "greedy_flag_yielding_string"), announcer, .ofString " \"--x\" y"⟩ ∧
    ¬((Line.ofString "  'a --b'c  -5  --loud x").isBlank = true ∨
        looksLikeFlag (Line.ofString "  'a --b'c  -5  --loud x").readToken.1 = true) ∧
      ((text .untilFlag).read announcer (.ofString "  'a --b'c  -5  --loud x")).value? =
        some (.plain (.text "'a --b'c  -5")) ∧
      ((text .untilFlag).read announcer (.ofString "  'a --b'c  -5  --loud x")).line.tokens =
        ["--loud", "x"] ∧
    (∀ token ∈ (Line.ofString "a  'b --c ").tokens, looksLikeFlag token = false) ∧
      ((text .untilFlag).read announcer (.ofString "a  'b --c ")).value? =
        some (.plain (.text "a  'b --c")) := by
  have hquoted : looksLikeFlag (Line.ofString " \"--x\" y").readToken.1 = true := by decide
  have hsome : ¬((Line.ofString "  'a --b'c  -5  --loud x").isBlank = true ∨
      looksLikeFlag (Line.ofString "  'a --b'c  -5  --loud x").readToken.1 = true) := by decide
  have hnone : ∀ token ∈ (Line.ofString "a  'b --c ").tokens, looksLikeFlag token = false := by
    decide +kernel
  obtain ⟨after, hread, -, hleft⟩ := (read_untilFlag announcer _).2.1 hsome
  have htaken : (beforeFlag (all (Line.ofString "  'a --b'c  -5  --loud x").rest)).flatMap span =
      "  'a --b'c  -5".toList := by decide +kernel
  have htokens : (fromFlag (all (Line.ofString "  'a --b'c  -5  --loud x").rest)).map
      (fun token => String.ofList token.value) = ["--loud", "x"] := by decide +kernel
  refine ⟨hquoted, (read_untilFlag announcer _).1 (Or.inr hquoted), hsome, ?_, ?_, hnone,
    ((read_untilFlag announcer _).2.2 hnone).1⟩
  · rw [hread, htaken]
    rfl
  · rw [hread, Line.tokens, hleft, htokens]

end Parser

end CommandLine
