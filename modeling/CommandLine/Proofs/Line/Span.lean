import CommandLine.Parser.Standard
import Mathlib.Data.List.TakeWhile

/-! # What is read between two places of a line

    Reading only ever moves characters from the front of what is left to the end of what has been
    read. `Line.Reads` names the characters that were moved, so that what was read in two steps is
    the one span after the other, and the text of `Line.readSince` is the span without the white
    space around it (`Reads.readSince`). A token that is cut out of a line is a token again when it
    is read on its own (`Token.head_raw`), which is how `Token.Spells` says that a span is one. -/

namespace CommandLine

open Text

/-- A text starts with no white space once its white space was dropped. -/
theorem Text.isBlank_of_trimStart {c : Char} {text rest : List Char}
    (h : trimStart text = c :: rest) : isBlank c = false := by
  have hfirst := List.head?_dropWhile_not isBlank text
  rw [show text.dropWhile isBlank = c :: rest from h] at hfirst
  simpa using hfirst

namespace Token

/-- What was read of a quoted text is all of it when it is read on its own. -/
theorem quoted_raw (quote : Char) (escaped : Bool) (text : List Char) :
    quoted quote escaped (quoted quote escaped text).raw =
      { quoted quote escaped text with rest := [] } := by
  fun_induction quoted quote escaped text with
  | case1 escaped => cases escaped <;> rfl
  | case2 c text ih => simp only [push, quoted, ih]
  | case3 text ih => simp only [mark, quoted, if_pos, ih]
  | case4 text hquote => simp only [quoted, if_neg hquote, if_pos]
  | case5 c text hescape hquote ih => simp only [push, quoted, if_neg hescape, if_neg hquote, ih]

theorem blank_quoted (quote : Char) (escaped : Bool) (text : List Char) :
    (quoted quote escaped text).blank = [] := by
  fun_induction quoted quote escaped text with
  | case1 _ => rfl
  | case2 _ _ ih => exact ih
  | case3 _ ih => exact ih
  | case4 _ _ => rfl
  | case5 _ _ _ _ ih => exact ih

/-- A token at the start of a text is all of it when it is read on its own. -/
theorem head_raw {c : Char} {text : List Char} (hc : isBlank c = false) :
    head (head (c :: text)).raw =
      ⟨[], (head (c :: text)).raw, (head (c :: text)).value, []⟩ := by
  cases hquote : isQuote c with
  | true => simp only [head, hquote, if_true, mark, quoted_raw, blank_quoted]
  | false =>
      -- a run of characters that are not white space is its own such run
      have hhead : head (c :: text) =
          ⟨[], (c :: text).takeWhile (!isBlank ·), (c :: text).takeWhile (!isBlank ·),
            (c :: text).dropWhile (!isBlank ·)⟩ := by
        simp only [head, hquote, Bool.false_eq_true, if_false]
      have hrun : ∀ x ∈ (c :: text).takeWhile (!isBlank ·), (!isBlank x) = true :=
        fun _ => List.mem_takeWhile_imp
      have htake := List.takeWhile_eq_self_iff.mpr hrun
      have hdrop := List.dropWhile_eq_nil_iff.mpr hrun
      rw [hhead]
      rw [List.takeWhile_cons_of_pos (by simp [hc])] at htake hdrop ⊢
      simp only [head, hquote, Bool.false_eq_true, if_false, htake, hdrop]

/-- A span is one token in full, and the token stands for a text. -/
structure Spells (span : List Char) (token : String) : Prop where
  written : span ≠ []
  whole : cut span = ⟨[], span, token.toList, []⟩

/-- A text that starts with no white space is cut where its token ends. -/
theorem cut_cons {c : Char} {text : List Char} (hc : isBlank c = false) :
    Token.cut (c :: text) = { head (c :: text) with blank := [] } := by
  have hfirst : ¬isBlank c = true := by simp [hc]
  rw [Token.cut, trimStart, List.dropWhile_cons_of_neg hfirst, List.takeWhile_cons_of_neg hfirst]

theorem spells_head {c : Char} {text : List Char} (hc : isBlank c = false) :
    Spells (head (c :: text)).raw (String.ofList (head (c :: text)).value) := by
  have hwritten : (head (c :: text)).raw ≠ [] := head_raw_ne_nil hc
  have hraw : head (head (c :: text)).raw = _ := head_raw hc
  have happend := head_append (c :: text)
  refine ⟨hwritten, ?_⟩
  generalize (head (c :: text)).raw = raw at hwritten hraw happend ⊢
  -- the token starts with the character that the text starts with
  obtain ⟨first, tail, rfl⟩ := List.exists_cons_of_ne_nil hwritten
  obtain ⟨rfl, -⟩ := List.cons.inj happend
  rw [cut_cons hc, hraw, String.toList_ofList]

end Token

namespace Line

/-- The characters that are read between two places of a line. -/
structure Reads (a : Line) (span : List Char) (b : Line) : Prop where
  before : b.before = a.before ++ span
  rest : a.rest = span ++ b.rest

variable {a b c : Line} {span more : List Char}

theorem Reads.nothing (a : Line) : a.Reads [] a :=
  ⟨(List.append_nil _).symm, rfl⟩

theorem Reads.trans (hab : a.Reads span b) (hbc : b.Reads more c) : a.Reads (span ++ more) c := by
  constructor
  · rw [hbc.before, hab.before, List.append_assoc]
  · rw [hab.rest, hbc.rest, List.append_assoc]

/-- The text that was read is the span without the white space around it. -/
theorem Reads.readSince (h : a.Reads span b) : b.readSince a = String.ofList (trim span) := by
  rw [Line.readSince, h.before, List.drop_left]

theorem Reads.length_le (h : a.Reads span b) : b.rest.length ≤ a.rest.length := by
  rw [h.rest, List.length_append]
  exact Nat.le_add_left _ _

theorem reads_skipBlank (a : Line) : a.Reads (a.rest.takeWhile Text.isBlank) a.skipBlank :=
  ⟨rfl, (List.takeWhile_append_dropWhile).symm⟩

theorem reads_skipToken (a : Line) :
    a.Reads ((Token.cut a.rest).blank ++ (Token.cut a.rest).raw) a.skipToken :=
  ⟨rfl, (Token.cut_append a.rest).symm⟩

theorem reads_finish (a : Line) : a.Reads a.rest a.finish :=
  ⟨rfl, (List.append_nil _).symm⟩

/-- A line is blank if nothing but white space is left. -/
theorem isBlank_iff (a : Line) :
    a.isBlank = true ↔ ∀ c ∈ a.rest, Text.isBlank c = true := by
  rw [isBlank, List.isEmpty_iff, trimStart, List.dropWhile_eq_nil_iff]

theorem isBlank_of_length (h : a.rest.length ≤ 0) : a.isBlank = true := by
  rw [isBlank, List.length_eq_zero_iff.mp (Nat.le_zero.mp h)]
  rfl

/-- Behind its white space a line that is not blank has a token, and the token is what is read. -/
theorem reads_token (h : a.isBlank = false) :
    ∃ span, Token.Spells span a.skipBlank.peekToken ∧
      a.skipBlank.Reads span a.skipBlank.skipToken := by
  obtain ⟨first, text, hrest⟩ : ∃ first text, trimStart a.rest = first :: text :=
    List.exists_cons_of_ne_nil fun hnil => by simp [Line.isBlank, hnil] at h
  have hfirst := isBlank_of_trimStart hrest
  have hcut : Token.cut a.skipBlank.rest = { Token.head (first :: text) with blank := [] } := by
    rw [show a.skipBlank.rest = first :: text from hrest, Token.cut_cons hfirst]
  refine ⟨(Token.head (first :: text)).raw, ?_, ?_⟩
  · rw [peekToken, hcut]
    exact Token.spells_head hfirst
  · have hreads := a.skipBlank.reads_skipToken
    rw [hcut, List.nil_append] at hreads
    exact hreads

/-! ## Ways onward -/

/-- One place of a line comes after another, or is the same. -/
def Onward (a b : Line) : Prop :=
  ∃ span, a.Reads span b

theorem Onward.refl (a : Line) : a.Onward a :=
  ⟨[], .nothing a⟩

theorem Onward.trans (hab : a.Onward b) (hbc : b.Onward c) : a.Onward c := by
  obtain ⟨span, hspan⟩ := hab
  obtain ⟨more, hmore⟩ := hbc
  exact ⟨span ++ more, hspan.trans hmore⟩

/-- What was read before stays at the front of what has been read. -/
theorem Onward.before (h : a.Onward b) : a.before <+: b.before := by
  obtain ⟨span, hspan⟩ := h
  rw [hspan.before]
  exact List.prefix_append _ _

theorem Onward.length_le (h : a.Onward b) : b.rest.length ≤ a.rest.length := by
  obtain ⟨span, hspan⟩ := h
  exact hspan.length_le

theorem onward_skipToken (a : Line) : a.Onward a.skipToken :=
  ⟨_, a.reads_skipToken⟩

theorem onward_finish (a : Line) : a.Onward a.finish :=
  ⟨_, a.reads_finish⟩

theorem onward_skipToFlag (a : Line) : a.Onward a.skipToFlag := by
  fun_induction skipToFlag a with
  | case1 a _ => exact .refl a
  | case2 a _ _ => exact .refl a
  | case3 a _ _ ih => exact a.onward_skipToken.trans ih

end Line

end CommandLine
