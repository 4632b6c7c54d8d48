import CommandLine.Line.Bounds
import CommandLine.Proofs.Line.Words

/-! # The text around a touched token

    A completion replaces the token that the cursor touches. The text in front of it is made of
    whole tokens: whatever is put in the place of the touched token, the tokens in front are read as
    before (`Token.Settled`). White space sees to it, and where there is none, the quotes at the end
    of the token in front. `Span.exists_around` parts every text so at every cursor, and the bounds
    of the touched token are read off the parts. A plain word that is put there at the end of a text
    is the touched token in its turn (`Span.touched_start_settled`). -/

namespace CommandLine

open Text

/-! ## Prefixes by their bytes -/

theorem Text.byteLength_pos {text : List Char} (h : text ≠ []) : 0 < byteLength text := by
  obtain ⟨c, rest, rfl⟩ := List.exists_cons_of_ne_nil h
  have hpos := c.utf8Size_pos
  simp only [byteLength]
  omega

/-- Of two prefixes of a text the one with fewer bytes is a prefix of the other. -/
theorem Text.prefix_of_byteLength_le {a b text : List Char} (ha : a <+: text) (hb : b <+: text)
    (h : byteLength a ≤ byteLength b) : a <+: b := by
  rcases List.prefix_or_prefix_of_prefix ha hb with hab | ⟨d, rfl⟩
  · exact hab
  · rw [byteLength_append] at h
    have hd : d = [] := by
      by_contra hd
      have hpos := byteLength_pos hd
      omega
    simp only [hd, List.append_nil, List.prefix_rfl]

/-- At the end of a text nothing is cut off. -/
theorem Text.splitAtByte_all (text : List Char) :
    splitAtByte (byteLength text) text = (text, []) := by
  simpa only [List.append_nil] using splitAtByte_byteLength text []

namespace Token

/-! ## What tokens are written with -/

/-- A quoted text stands for no more bytes than it is written with. -/
theorem byteLength_quoted_le (quote : Char) (escaped : Bool) (text : List Char) :
    byteLength (quoted quote escaped text).value ≤ byteLength (quoted quote escaped text).raw := by
  fun_induction quoted quote escaped text with
  | case1 escaped => exact Nat.le_refl 0
  | case2 c text ih => exact Nat.add_le_add_left ih _
  | case3 text ih => exact Nat.le_trans ih (Nat.le_add_left _ _)
  | case4 text hquote => exact Nat.zero_le _
  | case5 c text hescape hquote ih => exact Nat.add_le_add_left ih _

theorem byteLength_value_le (text : List Char) :
    byteLength (cut text).value ≤ byteLength (cut text).raw := by
  show byteLength (head (trimStart text)).value ≤ byteLength (head (trimStart text)).raw
  cases trimStart text with
  | nil => exact Nat.le_refl 0
  | cons c text =>
      cases hquote : isQuote c with
      | true =>
          simp only [head, hquote, if_true]
          exact Nat.le_trans (byteLength_quoted_le c false text) (Nat.le_add_left _ _)
      | false => rw [head_unquoted hquote]

/-- White space in front of a text belongs to the first token. -/
theorem cut_behind_blank {blank : List Char} (hblank : ∀ c ∈ blank, isBlank c = true)
    (text : List Char) :
    cut (blank ++ text) = { cut text with blank := blank ++ (cut text).blank } := by
  simp only [cut, trimStart, List.dropWhile_append_of_pos hblank,
    List.takeWhile_append_of_pos hblank]

/-! ## Pieces of tokens -/

theorem written_prefix_text (text : List Char) : (cut text).blank ++ (cut text).raw <+: text :=
  ⟨(cut text).rest, cut_append text⟩

theorem blank_prefix_text (text : List Char) : (cut text).blank <+: text :=
  (List.prefix_append _ _).trans (written_prefix_text text)

/-- A text starts with its next token if there is no white space in front of the token. -/
theorem not_apart_of_cut {text : List Char} (hsome : trimStart text ≠ [])
    (hblank : (cut text).blank = []) : ¬Apart text := by
  intro hapart
  rcases text with - | ⟨c, text⟩
  · exact hsome rfl
  · have hc : isBlank c = true := hapart c rfl
    rw [cut, List.takeWhile_cons_of_pos hc] at hblank
    cases hblank

/-- A piece of a quoted text from its start is quoted up to its end. -/
theorem rest_quoted_of_prefix {quote : Char} {escaped : Bool} {text piece : List Char}
    (h : piece <+: (quoted quote escaped text).raw) : (quoted quote escaped piece).rest = [] := by
  fun_induction quoted quote escaped text generalizing piece with
  | case1 escaped =>
      obtain rfl := List.prefix_nil.mp h
      rfl
  | case2 c text ih =>
      rcases piece with - | ⟨d, piece⟩
      · rfl
      · obtain ⟨rfl, hpiece⟩ := List.cons_prefix_cons.mp h
        exact ih hpiece
  | case3 text ih =>
      rcases piece with - | ⟨d, piece⟩
      · rfl
      · obtain ⟨rfl, hpiece⟩ := List.cons_prefix_cons.mp h
        simp only [quoted, if_pos, mark]
        exact ih hpiece
  | case4 text hquote =>
      rcases piece with - | ⟨d, piece⟩
      · rfl
      · obtain ⟨rfl, hpiece⟩ := List.cons_prefix_cons.mp h
        obtain rfl := List.prefix_nil.mp hpiece
        simp only [quoted, if_neg hquote, if_pos]
  | case5 c text hescape hquote ih =>
      rcases piece with - | ⟨d, piece⟩
      · rfl
      · obtain ⟨rfl, hpiece⟩ := List.cons_prefix_cons.mp h
        simp only [quoted, if_neg hescape, if_neg hquote, push]
        exact ih hpiece

/-- A piece of a token from its start is at most one token. -/
theorem rest_cut_of_prefix {text piece : List Char} (hsome : trimStart text ≠ [])
    (h : piece <+: (cut text).raw) : (cut piece).rest = [] := by
  obtain ⟨c, text, htext⟩ := List.exists_cons_of_ne_nil hsome
  have hc : isBlank c = false := isBlank_of_trimStart htext
  rw [cut, htext] at h
  obtain ⟨tail, hraw⟩ := exists_raw_head hc text
  rcases piece with - | ⟨d, piece⟩
  · rfl
  · obtain ⟨rfl, -⟩ := List.cons_prefix_cons.mp (hraw ▸ h)
    rw [cut_cons hc]
    cases hquote : isQuote d with
    | true =>
        simp only [head, hquote, if_true, mark] at h ⊢
        exact rest_quoted_of_prefix (List.cons_prefix_cons.mp h).2
    | false =>
        rw [head_unquoted hquote] at h
        simp only [head_unquoted hquote]
        refine List.dropWhile_eq_nil_iff.mpr fun x hx => ?_
        exact List.mem_takeWhile_imp (p := (!isBlank ·)) (h.subset hx)

/-- A token that ended before the end of its text is cut off in front of other text too, if that
    text starts like the one that is left, or if something adjoins the token. -/
theorem cut_resume {text more : List Char} (hrest : (cut text).rest ≠ [])
    (hmore : more.head? = (cut text).rest.head? ∨ ¬Apart (cut text).rest) :
    cut ((cut text).blank ++ ((cut text).raw ++ more)) = { cut text with rest := more } := by
  obtain ⟨c, tail, htext⟩ : ∃ c tail, trimStart text = c :: tail :=
    List.exists_cons_of_ne_nil fun hnil => hrest (by simp only [cut, hnil, head])
  have hc : isBlank c = false := isBlank_of_trimStart htext
  have hcut : cut text = { head (c :: tail) with blank := text.takeWhile isBlank } := by
    rw [cut, htext]
  obtain ⟨inner, hraw⟩ := exists_raw_head hc tail
  have hresume :
      head ((head (c :: tail)).raw ++ more) = { head (c :: tail) with rest := more } := by
    rw [hcut] at hrest hmore
    rcases hmore with hmore | hmore
    · exact head_resume hc hrest (Or.inr hmore)
    · have hquote : isQuote c = true := by
        by_contra hquote
        exact hmore (apart_rest_head (by simpa using hquote))
      exact head_resume_quoted hquote hrest more
  have hblank : ∀ x ∈ text.takeWhile isBlank, isBlank x = true := fun x => List.mem_takeWhile_imp
  rw [hcut]
  simp only [cut, trimStart, List.dropWhile_append_of_pos hblank,
    List.takeWhile_append_of_pos hblank]
  rw [hraw, List.cons_append] at hresume ⊢
  rw [List.dropWhile_cons_of_neg (by simp [hc]), List.takeWhile_cons_of_neg (by simp [hc]), hresume,
    List.append_nil, hraw]

/-! ## Settled texts -/

/-- A text of whole tokens: they are read whatever comes behind the text. In front of `piece`, none
    of them is the last. -/
inductive Settled (piece : List Char) : List Char → Prop where
  | blank {front : List Char} (blank : ∀ c ∈ front, isBlank c = true) : Settled piece front
  | token {front rest : List Char} {token : Token} (written : token.raw ≠ [])
      (cuts : ∀ more, cut (front ++ more) = { token with rest := rest ++ more })
      (further : rest ++ piece ≠ []) (behind : Settled piece rest) : Settled piece front

/-- A token in front of a settled text is settled with it. What comes behind the token starts as
    before, or the piece adjoins the token. -/
theorem Settled.behind_token {text front piece back : List Char} (hsome : trimStart text ≠ [])
    (hrest : (cut text).rest = front ++ piece ++ back) (hfurther : front ++ piece ≠ [])
    (hadjoins : front ≠ [] ∨ piece = [] ∨ ¬Apart (cut text).rest) (h : Settled piece front) :
    Settled piece ((cut text).blank ++ (cut text).raw ++ front) := by
  have hwritten : (cut text).raw ≠ [] := fun hnil => hsome (cut_raw_eq_nil_iff.mp hnil)
  have hleft : (cut text).rest ≠ [] := by
    rw [hrest]
    exact List.append_ne_nil_of_left_ne_nil hfurther back
  refine .token hwritten (fun more => ?_) hfurther h
  rw [List.append_assoc, List.append_assoc]
  refine cut_resume hleft ?_
  cases front with
  | nil => exact Or.inr ((hadjoins.resolve_left (absurd rfl)).resolve_left hfurther)
  | cons c front =>
      rw [hrest]
      exact Or.inl rfl

/-! ## The parts of a text -/

/-- A text around the token that a cursor touches: the text in front of the token, the token as it
    is written, `piece` of which is in front of the cursor, and the text behind it. Where no token
    is touched nothing is written, and there is white space behind, or nothing. -/
structure Around (text front piece written behind : List Char) : Prop where
  whole : text = front ++ (written ++ behind)
  settled : Settled piece front
  piece : piece <+: written
  token : written = [] ∧ Apart behind ∨
    written ≠ [] ∧ (cut (written ++ behind)).blank = [] ∧ (cut (written ++ behind)).raw = written

variable {text front piece written behind : List Char}

/-- Where nothing but white space is in front of the cursor, no token is touched. -/
theorem Around.of_blank {upTo back : List Char} (htext : text = upTo ++ back)
    (hblank : ∀ c ∈ upTo, isBlank c = true) (hback : Apart back) : Around text upTo [] [] back where
  whole := htext
  settled := .blank hblank
  piece := List.prefix_rfl
  token := Or.inl ⟨rfl, hback⟩

/-- What is touched is the first token of a text without the white space in front of it. -/
theorem cut_unblank (text : List Char) :
    cut ((cut text).raw ++ (cut text).rest) = { cut text with blank := [] } := by
  have hblank : ∀ c ∈ (cut text).blank, isBlank c = true := fun c hc => List.mem_takeWhile_imp hc
  have hbehind := cut_behind_blank hblank ((cut text).raw ++ (cut text).rest)
  rw [← List.append_assoc, cut_append] at hbehind
  generalize cut ((cut text).raw ++ (cut text).rest) = token at hbehind ⊢
  have hnone : (cut text).blank ++ token.blank = (cut text).blank ++ [] := by
    rw [List.append_nil]
    exact (congrArg Token.blank hbehind).symm
  rw [hbehind, ← List.append_cancel_left hnone]

/-- The first token of a text is touched by a piece of it. -/
theorem Around.of_touched (hsome : trimStart text ≠ []) (hpiece : piece <+: (cut text).raw) :
    Around text (cut text).blank piece (cut text).raw (cut text).rest where
  whole := by rw [← List.append_assoc, cut_append]
  settled := .blank fun c hc => List.mem_takeWhile_imp hc
  piece := hpiece
  token := by
    rw [cut_unblank]
    exact Or.inr ⟨fun hnil => hsome (cut_raw_eq_nil_iff.mp hnil), rfl, rfl⟩

/-- The touched token is the first of the text that starts with it. -/
theorem Around.stands (h : Around text front piece written behind) (hwritten : written ≠ []) :
    Stands written (String.ofList (cut (written ++ behind)).value) behind := by
  rcases h.token with ⟨hnothing, -⟩ | ⟨-, hblank, hraw⟩
  · exact absurd hnothing hwritten
  · have hrest : (cut (written ++ behind)).rest = behind := by
      have happend := cut_append (written ++ behind)
      rw [hblank, hraw, List.nil_append] at happend
      exact List.append_cancel_left happend
    constructor
    · obtain ⟨c, tail, rfl⟩ := List.exists_cons_of_ne_nil hwritten
      refine ⟨c, tail, rfl, ?_⟩
      by_contra hc
      rw [Bool.not_eq_false] at hc
      rw [List.cons_append, cut, List.takeWhile_cons_of_pos hc] at hblank
      cases hblank
    · rw [String.toList_ofList]
      generalize cut (written ++ behind) = token at hblank hraw hrest ⊢
      rw [← hblank, ← hraw, ← hrest]

/-- If a piece is all that is in front of the cursor, the text starts with the token. -/
theorem Around.adjoins (h : Around text front piece written behind) :
    front ≠ [] ∨ piece = [] ∨ ¬Apart text := by
  by_cases hfront : front = []
  · subst hfront
    rcases h.token with ⟨hnothing, -⟩ | ⟨hwritten, hblank, hraw⟩
    · exact Or.inr (Or.inl (List.prefix_nil.mp (hnothing ▸ h.piece)))
    · refine Or.inr (Or.inr ?_)
      rw [h.whole, List.nil_append]
      refine not_apart_of_cut (fun hnil => ?_) hblank
      rw [cut_raw_eq_nil_iff.mpr hnil] at hraw
      exact hwritten hraw.symm
  · exact Or.inl hfront

/-- A token in front of a text that is parted is in front of the cursor, with something behind. -/
theorem Around.behind_token (hsome : trimStart text ≠ [])
    (h : Around (cut text).rest front piece written behind) (hfurther : front ++ piece ≠ []) :
    Around text ((cut text).blank ++ (cut text).raw ++ front) piece written behind where
  whole := by
    rw [List.append_assoc, ← h.whole, cut_append]
  settled := by
    obtain ⟨missing, hmissing⟩ := h.piece
    have hrest : (cut text).rest = front ++ piece ++ (missing ++ behind) := by
      rw [h.whole, ← hmissing, List.append_assoc, List.append_assoc]
    exact h.settled.behind_token hsome hrest hfurther h.adjoins
  piece := h.piece
  token := h.token

/-- A piece of the touched token is at most one token. -/
theorem Around.rest_cut_piece (h : Around text front piece written behind) :
    (cut piece).rest = [] := by
  rcases h.token with ⟨hnothing, -⟩ | ⟨hwritten, -, hraw⟩
  · have hpiece : piece = [] := List.prefix_nil.mp (hnothing ▸ h.piece)
    rw [hpiece]
    rfl
  · have hpiece : piece <+: (cut (written ++ behind)).raw := hraw.symm ▸ h.piece
    refine rest_cut_of_prefix (fun hnil => ?_) hpiece
    rw [cut_raw_eq_nil_iff.mpr hnil] at hraw
    exact hwritten hraw.symm

end Token

namespace Span

open Token

/-- Every text is parted at every cursor around the token that the cursor touches, and the touched
    span is that token. -/
theorem exists_around {cursor offset : Nat} {text upTo back : List Char}
    (htext : text = upTo ++ back) (hcursor : cursor = offset + byteLength upTo) :
    ∃ front piece written behind, Around text front piece written behind ∧ upTo = front ++ piece ∧
      touched cursor offset text =
        ⟨offset + byteLength front, offset + byteLength front + byteLength written⟩ := by
  fun_induction touched cursor offset text generalizing upTo with
  | case1 offset text hnothing =>
      -- nothing but white space is left
      have hblank : ∀ c ∈ upTo ++ back, isBlank c = true :=
        htext ▸ List.dropWhile_eq_nil_iff.mp hnothing
      have hback : Apart back := fun c hc =>
        hblank c (List.mem_append_right upTo (List.mem_of_mem_head? hc))
      refine ⟨upTo, [], [], back, .of_blank htext ?_ hback, (List.append_nil _).symm, ?_⟩
      · exact fun c hc => hblank c (List.mem_append_left back hc)
      · rw [hcursor]
        rfl
  | case2 offset text token start hsome =>
      rename_i hbefore
      -- the cursor stands in the white space before the next token
      have hbefore : cursor < offset + byteLength token.blank := hbefore
      obtain ⟨more, hmore⟩ : upTo <+: token.blank :=
        prefix_of_byteLength_le (htext ▸ List.prefix_append upTo back) (blank_prefix_text text)
          (by omega)
      have hblank : ∀ c ∈ upTo ++ more, isBlank c = true := fun c hc =>
        List.mem_takeWhile_imp (hmore ▸ hc : c ∈ token.blank)
      have hback : back = more ++ (token.raw ++ token.rest) := by
        have hwhole : upTo ++ back = upTo ++ (more ++ (token.raw ++ token.rest)) := by
          rw [← htext, ← List.append_assoc, hmore, ← List.append_assoc]
          exact (cut_append text).symm
        exact List.append_cancel_left hwhole
      have hapart : Apart back := by
        rw [hback]
        cases more with
        | nil =>
            rw [← hmore, List.append_nil] at hbefore
            omega
        | cons c more =>
            rintro _ ⟨⟩
            exact hblank c (List.mem_append_right upTo List.mem_cons_self)
      refine ⟨upTo, [], [], back, .of_blank htext ?_ hapart, (List.append_nil _).symm, ?_⟩
      · exact fun c hc => hblank c (List.mem_append_left more hc)
      · rw [hcursor]
        rfl
  | case3 offset text token start stop hsome hbehind =>
      rename_i hwithin
      -- the cursor touches the next token
      have hupTo : upTo <+: text := htext ▸ List.prefix_append upTo back
      obtain ⟨piece, rfl⟩ : token.blank <+: upTo :=
        prefix_of_byteLength_le (blank_prefix_text text) hupTo (by omega)
      have hpiece : piece <+: token.raw := by
        refine (List.prefix_append_right_inj token.blank).mp ?_
        refine prefix_of_byteLength_le hupTo (written_prefix_text text) ?_
        rw [byteLength_append, byteLength_append] at *
        omega
      exact ⟨_, piece, _, _, .of_touched hsome hpiece, rfl, rfl⟩
  | case4 offset text token start stop hsome hbehind hafter =>
      rename_i ih
      -- the next token is in front of the cursor, with something behind it
      obtain ⟨upTo, rfl⟩ : token.blank ++ token.raw <+: upTo := by
        refine prefix_of_byteLength_le (written_prefix_text text)
          (htext ▸ List.prefix_append upTo back) ?_
        rw [byteLength_append]
        omega
      have hrest : token.rest = upTo ++ back := List.append_cancel_left <|
        (cut_append text).trans (htext.trans (List.append_assoc _ upTo back))
      rw [byteLength_append, byteLength_append] at hcursor
      obtain ⟨front, piece, written, behind, haround, rfl, htouched⟩ := ih hrest (by omega)
      have hfurther : front ++ piece ≠ [] := by
        intro hnil
        rw [hnil] at hcursor
        simp only [byteLength] at hcursor
        omega
      refine ⟨token.blank ++ token.raw ++ front, piece, written, behind,
        haround.behind_token hsome hfurther, ?_, ?_⟩
      · rw [List.append_assoc _ front]
      · have hstop : stop = offset + byteLength token.blank + byteLength token.raw := rfl
        rw [htouched, hstop, byteLength_append, byteLength_append]
        simp only [Span.mk.injEq]
        omega

/-- Up to the cursor, a text is a settled text and a piece of the token that the cursor touches,
    which is where the touched span begins. If the piece adjoins what was read before the text, so
    does the text. -/
theorem touched_front {cursor offset : Nat} {text upTo back : List Char}
    (htext : text = upTo ++ back) (hcursor : cursor = offset + byteLength upTo) :
    ∃ front piece, upTo = front ++ piece ∧
      (touched cursor offset text).start = offset + byteLength front ∧
      (cut piece).rest = [] ∧ Settled piece front ∧
      (front ≠ [] ∨ piece = [] ∨ ¬Apart text) := by
  obtain ⟨front, piece, written, behind, haround, hupTo, htouched⟩ := exists_around htext hcursor
  exact ⟨front, piece, hupTo, by rw [htouched], haround.rest_cut_piece, haround.settled,
    haround.adjoins⟩

/-! ## At the end of a text -/

/-- At the end of a text, the touched span ends where the text does. -/
theorem touched_stop {cursor offset : Nat} {text : List Char}
    (hcursor : cursor = offset + byteLength text) : (touched cursor offset text).stop = cursor := by
  obtain ⟨front, piece, written, behind, haround, htext, htouched⟩ :=
    exists_around (List.append_nil text).symm hcursor
  -- the piece is all of the token, and nothing is behind it
  have hpiece : piece = written ++ behind :=
    List.append_cancel_left (htext.symm.trans haround.whole)
  have hbytes := haround.piece.length_le
  rw [hpiece, List.length_append] at hbytes
  have hbehind : behind = [] := List.length_eq_zero_iff.mp (by omega)
  rw [htouched, hcursor, htext, hpiece, hbehind, List.append_nil, byteLength_append, Nat.add_assoc]

/-- Behind a settled text, a plain word at the end is the touched token. -/
theorem touched_start_settled {piece front word : List Char} (hsettled : Settled piece front)
    (hword : Plain word) (offset : Nat) :
    (touched (offset + byteLength (front ++ word)) offset (front ++ word)).start =
      offset + byteLength front := by
  induction hsettled generalizing offset with
  | @blank front hblank =>
      have hcut : cut (front ++ word) = ⟨front, word, word, []⟩ := by
        rw [cut_behind_blank hblank, hword.cut_eq, List.append_nil]
      have hsome : trimStart (front ++ word) ≠ [] := by
        intro hnil
        have hraw := cut_raw_eq_nil_iff.mpr hnil
        rw [hcut] at hraw
        exact hword.written hraw
      have hbytes := byteLength_append front word
      rw [touched, dif_neg hsome]
      simp only [hcut]
      rw [if_neg (by omega), if_pos (by omega)]
  | @token front rest token written cuts further behind ih =>
      have hcut : cut (front ++ word) = { token with rest := rest ++ word } := cuts word
      have hsome : trimStart (front ++ word) ≠ [] := by
        intro hnil
        have hraw := cut_raw_eq_nil_iff.mpr hnil
        rw [hcut] at hraw
        exact written hraw
      have hbytes := congrArg byteLength (cut_append (front ++ word))
      rw [hcut] at hbytes
      simp only [byteLength_append] at hbytes
      have hpos := byteLength_pos hword.written
      rw [touched, dif_neg hsome]
      simp only [hcut, byteLength_append]
      rw [if_neg (by omega), if_neg (by omega)]
      have hstart := ih (offset + byteLength token.blank + byteLength token.raw)
      rw [byteLength_append] at hstart
      have hcursor : offset + (byteLength front + byteLength word) =
          offset + byteLength token.blank + byteLength token.raw +
            (byteLength rest + byteLength word) := by
        omega
      rw [hcursor, hstart]
      omega

end Span

end CommandLine
