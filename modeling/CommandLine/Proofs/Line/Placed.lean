import CommandLine.Proofs.Line.Tokenizing

/-! # Where the tokens of a text stand

    Every token of a text is written at a range of bytes (`Token.placed`). The ranges follow one
    another inside the text. In a text that is parted around the touched token (`Token.Around`) the
    tokens in front end in front of the cursor, and those behind start behind the token, so that the
    parts are told by the ranges alone: the touched token is the first whose range holds the cursor
    (`Token.Around.touched_eq`), the others end where it starts, or start where it ends. -/

namespace CommandLine

open Text

/-- Whether a position is inside a range, or at one of its ends. -/
def Span.touches (span : Span) (position : Nat) : Bool :=
  decide (span.start ≤ position) && decide (position ≤ span.stop)

namespace Token

/-- A token of a text: the bytes at which it is written, and the text that it stands for. -/
structure Placed where
  span : Span
  token : String
deriving DecidableEq, Repr

/-- The places of tokens that are written one after the other, from the byte `offset` on. -/
def placedFrom (offset : Nat) : List Token → List Placed
  | [] => []
  | token :: tokens =>
    let start := offset + byteLength token.blank
    let stop := start + byteLength token.raw
    ⟨⟨start, stop⟩, String.ofList token.value⟩ :: placedFrom stop tokens

/-- The tokens of a text that starts at the byte `offset`. -/
def placed (offset : Nat) (text : List Char) : List Placed :=
  placedFrom offset (all text)

variable {text front piece written behind : List Char} {offset : Nat} {p : Placed}

theorem placed_of_blank (h : trimStart text = []) (offset : Nat) : placed offset text = [] := by
  rw [placed, all_of_blank h, placedFrom]

theorem placed_of_written (h : trimStart text ≠ []) (offset : Nat) :
    placed offset text =
      ⟨⟨offset + byteLength (cut text).blank,
          offset + byteLength (cut text).blank + byteLength (cut text).raw⟩,
        String.ofList (cut text).value⟩ ::
      placed (offset + byteLength (cut text).blank + byteLength (cut text).raw) (cut text).rest := by
  rw [placed, all_of_written h]
  rfl

theorem map_placedFrom (offset : Nat) (tokens : List Token) :
    (placedFrom offset tokens).map (·.token) = tokens.map (String.ofList ·.value) := by
  induction tokens generalizing offset with
  | nil => rfl
  | cons token tokens ih => rw [placedFrom, List.map_cons, List.map_cons, ih]

/-- Tokens stand for the same texts wherever they are written. -/
theorem map_placed (offset : Nat) (text : List Char) :
    (placed offset text).map (·.token) = (Line.mk [] text).tokens :=
  map_placedFrom offset (all text)

/-- Tokens are written inside their text, with at least one byte each. -/
theorem bounds_of_placed (hp : p ∈ placed offset text) :
    offset ≤ p.span.start ∧ p.span.start < p.span.stop ∧
      p.span.stop ≤ offset + byteLength text := by
  induction hlength : text.length using Nat.strong_induction_on generalizing text offset with
  | h n ih =>
      by_cases hsome : trimStart text = []
      · rw [placed_of_blank hsome] at hp
        cases hp
      · have hbytes := congrArg byteLength (cut_append text)
        rw [byteLength_append, byteLength_append] at hbytes
        have hraw := byteLength_pos fun hnil => hsome (cut_raw_eq_nil_iff.mp hnil)
        rw [placed_of_written hsome] at hp
        rcases List.mem_cons.mp hp with rfl | hp
        · refine ⟨Nat.le_add_right _ _, Nat.lt_add_of_pos_right hraw, ?_⟩
          show offset + byteLength (cut text).blank + byteLength (cut text).raw ≤ _
          omega
        · obtain ⟨hstart, hlt, hstop⟩ := ih _ (hlength ▸ length_rest_lt hsome) hp rfl
          omega

/-- White space in front of a text moves its tokens. -/
theorem placed_behind_blank (hblank : ∀ c ∈ front, isBlank c = true) (offset : Nat)
    (text : List Char) : placed offset (front ++ text) = placed (offset + byteLength front) text := by
  have htrim : trimStart (front ++ text) = trimStart text := by
    rw [trimStart, List.dropWhile_append_of_pos hblank, trimStart]
  by_cases hsome : trimStart text = []
  · rw [placed_of_blank hsome, placed_of_blank (htrim.trans hsome)]
  · have hsome' : trimStart (front ++ text) ≠ [] := fun hnil => hsome (htrim.symm.trans hnil)
    rw [placed_of_written hsome, placed_of_written hsome', cut_behind_blank hblank]
    simp only [byteLength_append, Nat.add_assoc]

/-- Behind white space the tokens of a text start behind its start. -/
theorem start_of_apart (hapart : Apart text) (hp : p ∈ placed offset text) :
    offset < p.span.start := by
  cases text with
  | nil =>
      rw [placed_of_blank rfl] at hp
      cases hp
  | cons c text =>
      have hblank : ∀ x ∈ [c], isBlank x = true := List.forall_mem_singleton.mpr (hapart c rfl)
      rw [← List.singleton_append, placed_behind_blank hblank] at hp
      have hpos := byteLength_pos (List.cons_ne_nil c [])
      have hstart := (bounds_of_placed hp).1
      omega

/-! ## Settled texts -/

/-- The tokens of a settled text are where they are, whatever comes behind it. -/
theorem Settled.placed_append (h : Settled piece front) (offset : Nat) (more : List Char) :
    placed offset (front ++ more) =
      placed offset front ++ placed (offset + byteLength front) more := by
  induction h generalizing offset with
  | @blank front hblank =>
      have hnothing : placed offset front = [] :=
        placed_of_blank (List.dropWhile_eq_nil_iff.mpr hblank) offset
      rw [placed_behind_blank hblank, hnothing, List.nil_append]
  | @token front rest token hwritten hcuts _ _ ih =>
      have hsome (more : List Char) : trimStart (front ++ more) ≠ [] := by
        intro hnil
        have hraw := cut_raw_eq_nil_iff.mpr hnil
        rw [hcuts] at hraw
        exact hwritten hraw
      have hfront := hcuts []
      rw [List.append_nil, List.append_nil] at hfront
      have hbytes := congrArg byteLength (cut_append front)
      simp only [hfront, byteLength_append] at hbytes
      have hsomeFront := hsome []
      rw [List.append_nil] at hsomeFront
      rw [placed_of_written (hsome more), placed_of_written hsomeFront, hcuts, hfront]
      simp only [List.cons_append, ih]
      rw [← hbytes, ← Nat.add_assoc, ← Nat.add_assoc]

/-- The tokens of a settled text end in front of the end of the piece. -/
theorem Settled.stop_lt (h : Settled piece front) (hp : p ∈ placed offset front) :
    p.span.stop < offset + byteLength (front ++ piece) := by
  induction h generalizing offset with
  | @blank front hblank =>
      rw [placed_of_blank (List.dropWhile_eq_nil_iff.mpr hblank)] at hp
      cases hp
  | @token front rest token hwritten hcuts hfurther _ ih =>
      have hfront := hcuts []
      rw [List.append_nil, List.append_nil] at hfront
      have hsome : trimStart front ≠ [] := by
        intro hnil
        have hraw := cut_raw_eq_nil_iff.mpr hnil
        rw [hfront] at hraw
        exact hwritten hraw
      have hbytes := congrArg byteLength (cut_append front)
      simp only [hfront, byteLength_append] at hbytes
      have hbehind := byteLength_pos hfurther
      rw [byteLength_append] at hbehind ⊢
      simp only [placed_of_written hsome, hfront] at hp
      rcases List.mem_cons.mp hp with rfl | hp
      · show offset + byteLength token.blank + byteLength token.raw < _
        omega
      · have hstop := ih hp
        rw [byteLength_append] at hstop
        omega

theorem Settled.tokens_append (h : Settled piece front) (more : List Char) :
    (Line.mk [] (front ++ more)).tokens =
      (Line.mk [] front).tokens ++ (Line.mk [] more).tokens := by
  rw [← map_placed 0, h.placed_append, List.map_append, map_placed, map_placed]

/-! ## Parted texts -/

/-- The token that is touched, as one of the tokens of the text, if there is one. -/
def here (offset : Nat) (written behind : List Char) : List Placed :=
  if written = [] then []
  else [⟨⟨offset, offset + byteLength written⟩, String.ofList (cut (written ++ behind)).value⟩]

theorem here_nil (offset : Nat) (behind : List Char) : here offset [] behind = [] :=
  rfl

theorem here_of_written (h : written ≠ []) (offset : Nat) (behind : List Char) :
    here offset written behind =
      [⟨⟨offset, offset + byteLength written⟩, String.ofList (cut (written ++ behind)).value⟩] :=
  if_neg h

/-- At most one token is touched. -/
theorem toList_head?_here (offset : Nat) (written behind : List Char) :
    (here offset written behind).head?.toList = here offset written behind := by
  unfold here
  split <;> rfl

theorem bounds_of_here (hp : p ∈ here offset written behind) :
    p.span = ⟨offset, offset + byteLength written⟩ ∧ 0 < byteLength written := by
  by_cases hwritten : written = []
  · rw [hwritten, here_nil] at hp
    cases hp
  · rw [here_of_written hwritten, List.mem_singleton] at hp
    exact ⟨by rw [hp], byteLength_pos hwritten⟩

/-- The tokens of a parted text are those of its parts. -/
theorem Around.placed_eq (h : Around text front piece written behind) (offset : Nat) :
    placed offset text =
      placed offset front ++ (here (offset + byteLength front) written behind ++
        placed (offset + byteLength front + byteLength written) behind) := by
  rw [h.whole, h.settled.placed_append]
  congr 1
  rcases h.token with ⟨rfl, -⟩ | ⟨hwritten, -, -⟩
  · rfl
  · have hstands := h.stands hwritten
    have hsome : trimStart (written ++ behind) ≠ [] := by
      rw [hstands.trimStart_eq]
      exact List.append_ne_nil_of_left_ne_nil hwritten behind
    rw [here_of_written hwritten, placed_of_written hsome, hstands.cut_eq, String.toList_ofList]
    rfl

variable (h : Around text front piece written behind)

include h

/-- The tokens in front of the touched one are those that end where it starts, at the latest. -/
theorem Around.filter_front :
    (placed 0 text).filter (·.span.stop ≤ byteLength front) = placed 0 front := by
  have hfront : (placed 0 front).filter (·.span.stop ≤ byteLength front) = placed 0 front := by
    refine List.filter_eq_self.mpr fun p hp => decide_eq_true ?_
    have hbounds := bounds_of_placed hp
    omega
  have hhere : (here (0 + byteLength front) written behind).filter
      (·.span.stop ≤ byteLength front) = [] := by
    refine List.filter_eq_nil_iff.mpr fun p hp => ?_
    obtain ⟨hspan, hpos⟩ := bounds_of_here hp
    simp only [hspan, decide_eq_true_eq]
    omega
  have hbehind : (placed (0 + byteLength front + byteLength written) behind).filter
      (·.span.stop ≤ byteLength front) = [] := by
    refine List.filter_eq_nil_iff.mpr fun p hp => ?_
    have hbounds := bounds_of_placed hp
    simp only [decide_eq_true_eq]
    omega
  rw [h.placed_eq, List.filter_append, List.filter_append, hfront, hhere, hbehind, List.append_nil,
    List.append_nil]

/-- The tokens behind the touched one are those that start where it ends, at the earliest. -/
theorem Around.filter_behind :
    (placed 0 text).filter (byteLength front + byteLength written ≤ ·.span.start) =
      placed (byteLength front + byteLength written) behind := by
  have hfront : (placed 0 front).filter
      (byteLength front + byteLength written ≤ ·.span.start) = [] := by
    refine List.filter_eq_nil_iff.mpr fun p hp => ?_
    have hbounds := bounds_of_placed hp
    simp only [decide_eq_true_eq]
    omega
  have hhere : (here (0 + byteLength front) written behind).filter
      (byteLength front + byteLength written ≤ ·.span.start) = [] := by
    refine List.filter_eq_nil_iff.mpr fun p hp => ?_
    obtain ⟨hspan, hpos⟩ := bounds_of_here hp
    simp only [hspan, decide_eq_true_eq]
    omega
  have hbehind : (placed (0 + byteLength front + byteLength written) behind).filter
      (byteLength front + byteLength written ≤ ·.span.start) =
        placed (0 + byteLength front + byteLength written) behind := by
    refine List.filter_eq_self.mpr fun p hp => decide_eq_true ?_
    have hbounds := bounds_of_placed hp
    omega
  rw [h.placed_eq, List.filter_append, List.filter_append, hfront, hhere, hbehind, List.nil_append,
    List.nil_append, Nat.zero_add]

/-- The touched token is the first whose range holds the cursor. -/
theorem Around.touched_eq :
    (placed 0 text).find? (·.span.touches (byteLength (front ++ piece))) =
      (here (byteLength front) written behind).head? := by
  have hfront : (placed 0 front).find? (·.span.touches (byteLength (front ++ piece))) = none := by
    refine List.find?_eq_none.mpr fun p hp => ?_
    have hstop := h.settled.stop_lt hp
    simp only [Span.touches, Bool.and_eq_true, decide_eq_true_eq]
    omega
  rw [h.placed_eq, List.find?_append, hfront, Option.none_or, Nat.zero_add]
  rcases h.token with ⟨rfl, hapart⟩ | ⟨hwritten, -, -⟩
  · -- no token is touched: those behind start behind the cursor
    obtain rfl : piece = [] := List.prefix_nil.mp h.piece
    refine List.find?_eq_none.mpr fun p hp => ?_
    have hstart := start_of_apart hapart hp
    rw [List.append_nil]
    simp only [Span.touches, Bool.and_eq_true, decide_eq_true_eq]
    simp only [byteLength] at hstart
    omega
  · obtain ⟨missing, hmissing⟩ := h.piece
    have hbytes := congrArg byteLength hmissing
    rw [byteLength_append] at hbytes
    rw [here_of_written hwritten, List.singleton_append, List.find?_cons_of_pos, List.head?_cons]
    simp only [Span.touches, Bool.and_eq_true, decide_eq_true_eq, byteLength_append]
    omega

end Token

namespace Line

/-- The tokens of the text of a line that end at a position or in front of it. -/
def tokensUpTo (line : Line) (position : Nat) : List String :=
  ((Token.placed 0 line.text).filter (·.span.stop ≤ position)).map (·.token)

/-- The tokens of the text of a line that start at a position or behind it. -/
def tokensFrom (line : Line) (position : Nat) : List String :=
  ((Token.placed 0 line.text).filter (position ≤ ·.span.start)).map (·.token)

/-- The first token of the text of a line whose range holds a position. -/
def touched? (line : Line) (position : Nat) : Option Token.Placed :=
  (Token.placed 0 line.text).find? (·.span.touches position)

end Line

end CommandLine
