import CommandLine.Proofs.Route.Directions

/-! # Words that simple arguments take

    Texts, and integers among which is zero, can be written with the digit zero alone. Any number of
    digits will do, so that some token of digits is selected by no literal of a node
    (`Node.exists_ignores`). -/

namespace CommandLine

open Text

variable {ctx c : Context} {ignoreCase : Bool} {a : Argument} {more : List String}

/-! ## Digits that every argument takes -/

/-- The number zero, with some digits too many. -/
def Token.zeros (k : Nat) : String :=
  String.ofList (List.replicate (k + 1) '0')

namespace Token

theorem toList_zeros (k : Nat) : (zeros k).toList = '0' :: List.replicate k '0' := by
  rw [zeros, String.toList_ofList, List.replicate_succ]

theorem plain_zeros (k : Nat) : Plain (zeros k).toList := by
  rw [toList_zeros]
  refine ⟨List.cons_ne_nil _ _, ?_, ?_⟩
  · intro c hc
    rw [← List.replicate_succ, List.mem_replicate] at hc
    rw [hc.2]
    rfl
  · rintro c ⟨⟩
    rfl

theorem stands_zeros (k : Nat) (more : List String) :
    Stands (zeros k).toList (zeros k) (spaced more) :=
  (plain_zeros k).stands (apart_spaced more)

theorem looksLikeFlag_zeros (k : Nat) : looksLikeFlag (zeros k) = false := by
  simp [looksLikeFlag, toList_zeros]

theorem trim_zeros (k : Nat) : String.ofList (trim (zeros k).toList) ≠ "" := by
  rw [toList_zeros, trim_cons rfl]
  intro hnil
  simpa using congrArg String.toList hnil

theorem readInt_zeros (k : Nat) : Number.readInt (zeros k) = some 0 := by
  have hzero : Number.ofDigits (List.replicate (k + 1) '0') = 0 := by
    induction k with
    | zero => rfl
    | succ k ih => rw [List.replicate_succ', Number.ofDigits_append_singleton, ih]; rfl
  have hdigits : ((List.replicate (k + 1) '0').all Char.isDigit) = true := by
    rw [List.all_eq_true]
    intro c hc
    rw [(List.mem_replicate.mp hc).2]
    rfl
  have hread : Number.readDigits (List.replicate (k + 1) '0') = some 0 := by
    simp [Number.readDigits, hdigits, hzero]
  rw [Number.readInt, toList_zeros, Number.readSigned_of_isDigit _ rfl, ← List.replicate_succ,
    hread]
  rfl

end Token

/-- A name that a token selects is as long as the token. -/
theorem Literal.length_of_answers {l : Literal} {token : String}
    (h : l.answers ignoreCase token = true) :
    ∃ name ∈ l.names, name.toList.length = token.toList.length := by
  obtain ⟨name, hname, hselects⟩ := List.any_eq_true.mp h
  refine ⟨name, hname, ?_⟩
  split at hselects
  · simpa using congrArg List.length (eq_of_beq hselects)
  · rw [eq_of_beq hselects]

theorem Node.answers_of_findLiteral {n child : Node} {l : Literal} {token : String}
    (h : n.findLiteral ignoreCase token = some (l, child)) :
    l.answers ignoreCase token = true := by
  have hanswers := List.find?_some h
  exact hanswers

/-- Some number of digits is selected by no literal of a node. -/
theorem Node.exists_ignores (n : Node) (ignoreCase : Bool) (ctx : Context) :
    ∃ k, n.Ignores ignoreCase ctx (Token.zeros k) := by
  -- a token that is longer than all names together is none of them
  let names := (n.literals.flatMap fun edge => edge.1.names).map String.toList
  refine ⟨names.flatten.length, fun l child hfound => ?_⟩
  obtain ⟨name, hname, hlength⟩ := Literal.length_of_answers (answers_of_findLiteral hfound)
  have hmem : name.toList ∈ names :=
    List.mem_map_of_mem (List.mem_flatMap.mpr ⟨_, List.mem_of_find?_eq_some hfound, hname⟩)
  have hle := (List.sublist_flatten_of_mem hmem).length_le
  rw [hlength, Token.toList_zeros, List.length_cons, List.length_replicate] at hle
  exact absurd hle (Nat.not_succ_le_self _)

/-! ## Components that take digits -/

/-- A parser of texts, or of integers among which is zero. -/
inductive Parser.Simple : Parser → Prop where
  | text (mode : TextMode) : Simple (.text mode)
  | integer {min max : Int} (least : min ≤ 0) (greatest : 0 ≤ max) : Simple (.integer min max)

/-- An argument with a simple parser that no check refuses. -/
structure Argument.Simple (a : Argument) : Prop where
  parser : a.parser.Simple
  checks : ∀ check ∈ a.extras.checks, ∀ ctx line, check ctx line = none

/-- A component all of whose parsers are simple. -/
def Component.Simple : Component → Prop
  | .literal _ => True
  | .argument a => a.Simple
  | .flags g => ∀ flag ∈ g.flags, ∀ p, flag.value = some p → p.Simple

/-- Nothing, or a token that looks like a flag and what comes behind it. -/
def Token.OnlyFlags (words : List String) : Prop :=
  words = [] ∨ ∃ token, Token.Begins words token ∧ looksLikeFlag token = true

/-- Where all that is left was read, nothing is left. -/
theorem Parser.isBlank_readRest (c : Context) (line : Line) :
    ((Parser.text .rest).read c line).line.isBlank = true := by
  simp only [read, readText]
  split
  · next hblank => exact hblank
  · rfl

namespace Parser.Simple

variable {p : Parser}

theorem within (hp : p.Simple) : p.Within .library := by
  cases hp with
  | text mode => exact .text mode
  | integer _ _ => exact .integer _ _

theorem keeps (hp : p.Simple) : Reader.Keeps SameStanding p.read := by
  intro c line
  rw [hp.within.context_eq]
  exact SameStanding.chains.refl c

/-- The context makes no difference. -/
theorem result_eq (hp : p.Simple) (c c' : Context) (line : Line) :
    (p.read c line).result = (p.read c' line).result := by
  cases hp with
  | text mode =>
      simp only [read, readText]
      split
      · rfl
      · cases mode with
        | word => rfl
        | rest => rfl
        | untilFlag =>
            simp only
            split <;> rfl
  | integer _ _ =>
      simp only [read, Reader.ofToken]
      split <;> rfl

/-- A simple parser takes digits off a line. If it may read all that is left, only flags may follow,
    and if it reads all that is left, nothing may. -/
theorem takes_zeros (hp : p.Simple) (k : Nat)
    (hgreedy : p.greedy = true → Token.OnlyFlags more) (hrest : p = .text .rest → more = []) :
    Reader.Takes p.read ctx [Token.zeros k] more := by
  intro c line hc hline
  have hstands := Token.stands_zeros k more
  have hleft : line.isBlank = false := hline.isBlank_cons hstands
  have htoken : line.peekToken = Token.zeros k :=
    line.skipBlank_agrees.peekToken.symm.trans (hline.peekToken hstands)
  have hafter : line.skipToken.Holds more := by
    rw [← line.skipBlank_agrees.skipToken]
    exact hline.skipToken hstands
  cases hp with
  | text mode =>
      simp only [read, readText, hleft, Bool.false_eq_true, if_false]
      cases mode with
      | word => exact ⟨_, rfl, hc, hafter⟩
      | rest =>
          obtain rfl := hrest rfl
          exact ⟨_, rfl, hc, rfl⟩
      | untilFlag =>
          have hskip : line.skipToFlag = line.skipToken := by
            rw [Line.skipToFlag.eq_def]
            simp only [hleft, htoken, Token.looksLikeFlag_zeros, Bool.false_eq_true, dite_false,
              if_false]
            rcases hgreedy rfl with rfl | ⟨token, hbegins, hflag⟩
            · rw [Line.skipToFlag.eq_def]
              simp only [hafter.isBlank_nil, dite_true]
            · obtain ⟨hnext, rfl⟩ := hbegins _ hafter
              rw [line.skipToken.skipBlank_agrees.peekToken] at hflag
              exact Line.skipToFlag_self hnext hflag
          have hread : line.skipToken.readSince line ≠ "" := by
            have hreads := hline.reads hstands
            rw [line.skipBlank_agrees.skipToken] at hreads
            have hbefore : line.skipBlank.before <+: line.skipToken.before := by
              rw [hreads.before]
              exact List.prefix_append _ _
            rw [Line.readSince_skipBlank hbefore, hreads.readSince]
            exact Token.trim_zeros k
          simp only [hskip, if_neg hread]
          exact ⟨_, rfl, hc, hafter⟩
  | @integer min max least greatest =>
      have hinteger : interpretInteger min max line.peekToken = .ok (.plain (.integer 0)) := by
        rw [htoken, interpretInteger, Token.readInt_zeros]
        exact if_pos ⟨least, greatest⟩
      rw [read, Reader.ofToken, hleft]
      exact ⟨_, hinteger, hc, hafter⟩

end Parser.Simple

namespace Argument.Simple

theorem read_eq (ha : a.Simple) (ctx : Context) (line : Line) :
    a.read ctx line = a.parser.read ctx line := by
  have hpassed : (a.extras.checks.findSome? fun check => check ctx line) = none :=
    List.findSome?_eq_none_iff.mpr fun check hcheck => ha.checks check hcheck ctx line
  rw [Argument.read, hpassed]

/-- What can be filled in once can always be. -/
theorem fills (ha : a.Simple) {filled : Context} (h : a.fill c = .ok filled) : a.Fills ctx := by
  intro c' hc'
  rw [fill] at h ⊢
  split
  · exact ⟨_, rfl, hc'⟩
  · exact ⟨_, rfl, ⟨hc'.sender, hc'.flags⟩⟩
  · exact ⟨_, rfl, ⟨hc'.sender, hc'.flags⟩⟩
  · next text hdefault =>
      have hkeep := SameStanding.chains.trans hc' (ha.parser.keeps c' (.ofString text))
      rw [hdefault] at h
      simp only [ha.parser.result_eq c c', Except.map] at h ⊢
      cases hresult : (a.parser.read c' (.ofString text)).result with
      | ok value => exact ⟨_, rfl, ⟨hkeep.sender, hkeep.flags⟩⟩
      | error e => simp only [hresult] at h; cases h

/-- What is filled in changes no standing. -/
theorem standing_of_fill (ha : a.Simple) {filled : Context} (h : a.fill c = .ok filled) :
    SameStanding c filled := by
  obtain ⟨again, hagain, hstanding⟩ := ha.fills h c (SameStanding.chains.refl c)
  cases h.symm.trans hagain
  exact hstanding

/-- Neither does what is read. -/
theorem standing_of_read (ha : a.Simple) (c : Context) (line : Line) (value : Value) :
    SameStanding c (Position.argumentRead a line value (a.read c line)) := by
  have hkeeps := ha.parser.keeps c line
  rw [← ha.read_eq] at hkeeps
  exact ⟨hkeeps.sender, hkeeps.flags⟩

end Argument.Simple

/-- Flags with simple values leave the sender as it is. -/
theorem Component.Simple.keepsSender {g : FlagGroup} (hg : (Component.flags g).Simple) :
    Reader.Keeps SameSender (Parser.flags g.flags).read := by
  have hwithin : (Parser.flags g.flags).Within .keepingSender := by
    refine .flags (fun _ _ => trivial) fun flag hflag p hp => ?_
    exact (hg flag hflag p hp).within.of_library (fun _ => trivial) (fun _ => trivial)
  exact hwithin.keeps SameSender.chains Allowed.keepingSender_keeps

end CommandLine
