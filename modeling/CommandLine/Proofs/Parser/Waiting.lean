import CommandLine.Proofs.Parser.Frame
import CommandLine.Proofs.Parser.Interpret

/-! # Reading without waiting

    Parsers that try alternatives, read several values, or may refuse a value that was read are
    written for callers that can wait. To others they refuse to answer, and so does every parser
    that only passes on what such a parser reads. `Parser.waits` finds these parsers without looking
    at a line, and `Parser.readNow_agrees` says that all others read at once what they read for
    callers that wait. -/

namespace CommandLine

namespace Parser

/-- Whether a parser refuses to read for callers that cannot wait. -/
def waits : Parser → Bool
  | .host h => h.waits
  | .cached _ _ inner => inner.waits
  | .map _ inner => inner.waits
  | .flatMap .. => true
  | .firstOf _ => true
  | .either .. => true
  | .aggregate .. => true
  | .flags _ => true
  | .text _ => false
  | .integer .. => false
  | .real .. => false
  | .truth _ => false
  | .uuid => false
  | .enumeration _ => false

variable {p : Parser} {ctx : Context} {line : Line} {e : ArgumentError}

/-! ## The two ways to read at once -/

/-- A function of the value does not change a refusal. -/
theorem map_refuseNow (name : String) (f : Value → Value) (ctx : Context) (line : Line) :
    (refuseNow name ctx line).map f = refuseNow name ctx line := rfl

/-- A parser that waits refuses under its own name. -/
theorem readNow_of_waits (h : p.waits = true) : p.readNow = refuseNow p.name := by
  fun_induction waits p with
  | case1 host =>
      rw [readNow, if_pos h]
      rfl
  | case2 slot lifetime inner ih =>
      rw [readNow, ih h]
      rfl
  | case3 f inner ih =>
      funext ctx line
      show (inner.readNow ctx line).map f = refuseNow inner.name ctx line
      rw [ih h, map_refuseNow]
  | case4 f inner => rfl
  | case5 alternatives => rfl
  | case6 primary fallback => rfl
  | case7 parts build => rfl
  | case8 group => rfl
  | case9 | case10 | case11 | case12 | case13 | case14 => cases h

/-- A parser that does not wait reads at once what it reads for callers that wait. -/
theorem readNow_of_not_waits (h : p.waits = false) : p.readNow = p.read := by
  fun_induction waits p with
  | case1 host =>
      rw [readNow, h, read]
      rfl
  | case2 slot lifetime inner ih => rw [readNow, ih h, read]
  | case3 f inner ih => rw [readNow, ih h, read]
  | case4 | case5 | case6 | case7 | case8 => cases h
  | case9 mode => rfl
  | case10 min max => rfl
  | case11 min max => rfl
  | case12 liberal => rfl
  | case13 => rfl
  | case14 variants => rfl

/-! ## What is refused at once -/

/-- The reasons for which a parser refuses a text at once: there is none, or the token is to
    blame. -/
def RefusedAtOnce (reason : Reason) : Prop :=
  reason = .noInput ∨ reason.OfToken

theorem RefusedAtOnce.ne_needsWaiting {reason : Reason} (h : RefusedAtOnce reason) :
    reason ≠ .needsWaiting := by
  rintro rfl
  rcases h with hnone | htoken
  · cases hnone
  · cases htoken

/-- A reader of one token refuses it as the interpretation does, or finds none. -/
theorem refused_ofToken {name : String} {interpret : String → Except ArgumentError Value}
    (hrefuses : ∀ {token e}, interpret token = .error e → e.reason.OfToken)
    (h : (Reader.ofToken name interpret ctx line).result = .error e) :
    RefusedAtOnce e.reason := by
  rw [Reader.ofToken] at h
  split at h
  · cases h
    exact Or.inl rfl
  · exact Or.inr (hrefuses h)

/-- A text is refused only where there is none. -/
theorem refused_readText {mode : TextMode} (h : (readText mode ctx line).result = .error e) :
    RefusedAtOnce e.reason := by
  unfold readText at h
  split at h
  · cases h
    exact Or.inl rfl
  · cases mode with
    | word => cases h
    | rest => cases h
    | untilFlag =>
        dsimp only at h
        split at h
        · cases h
          exact Or.inl rfl
        · cases h

/-- A parser without parts of the surrounding program that does not wait never says that it would
    have to: it refuses only what a token is to blame for, and the lack of one. -/
theorem Within.refused_of_not_waits (hwithin : p.Within .closed) (hnow : p.waits = false)
    (h : (p.read ctx line).result = .error e) : RefusedAtOnce e.reason := by
  induction hwithin with
  | text mode => exact refused_readText h
  | integer min max => exact refused_ofToken reason_interpretInteger h
  | real min max => exact refused_ofToken reason_interpretReal h
  | truth liberal => exact refused_ofToken reason_interpretTruth h
  | uuid => exact refused_ofToken reason_interpretUuid h
  | enumeration variants => exact refused_ofToken reason_interpretVariant h
  | host ok => exact ok.elim
  | cached _ ih => exact ih hnow h
  | map _ ih => exact ih hnow (Reading.map_error h)
  | flatMap | firstOf | either | aggregate | flags => cases hnow

/-- The parser alone decides whether it reads at once. Either it says of every text that it would
    have to wait, and leaves context and line as they were, or it always gives the value or error
    that it gives to callers that wait, and leaves the same context and line. A parser of the second
    kind that is made of standard parsers never says that it would have to wait. -/
theorem readNow_agrees (p : Parser) :
    (p.waits = true ∧ ∀ ctx line, p.readNow ctx line =
      ⟨.error { parser := p.name, input := "", reason := .needsWaiting }, ctx, line⟩) ∨
    (p.waits = false ∧ ∀ ctx line, p.readNow ctx line = p.read ctx line ∧
      (p.Within .closed →
        ∀ e, (p.readNow ctx line).result = .error e → e.reason ≠ .needsWaiting)) := by
  cases hwaits : p.waits with
  | true =>
      refine Or.inl ⟨rfl, fun ctx line => ?_⟩
      rw [readNow_of_waits hwaits]
      rfl
  | false =>
      refine Or.inr ⟨rfl, fun ctx line => ?_⟩
      rw [readNow_of_not_waits hwaits]
      refine ⟨rfl, fun hwithin e he => ?_⟩
      exact (hwithin.refused_of_not_waits hwaits he).ne_needsWaiting

/-- The answer to a question, as the first of two values. -/
def reply : Parser :=
  .cached 0 5000 (.map fromLeft (.truth true))

/-- What is read of an answer that is neither yes nor no. -/
def maybe : Reading Value :=
  reply.readNow { sender := ⟨"Steve", "player", 0, []⟩ } (.ofString "maybe")

/-- An answer is read at once, and refused as for callers that wait. -/
theorem readNow_agrees_reply :
    reply.Within .closed ∧ maybe = reply.read { sender := ⟨"Steve", "player", 0, []⟩ }
      (.ofString "maybe") ∧ ∃ e, maybe.result = .error e ∧ e.reason ≠ .needsWaiting := by
  have hwithin : reply.Within .closed := .cached (.map (.truth true))
  have hrefused : maybe.result.isOk = false := by decide +kernel
  rcases readNow_agrees reply with ⟨hwaits, -⟩ | ⟨-, hagrees⟩
  · cases hwaits
  · obtain ⟨hsame, hreasons⟩ := hagrees { sender := ⟨"Steve", "player", 0, []⟩ } (.ofString "maybe")
    refine ⟨hwithin, hsame, ?_⟩
    cases hresult : maybe.result with
    | ok value =>
        rw [hresult] at hrefused
        cases hrefused
    | error e => exact ⟨e, rfl, hreasons hwithin e hresult⟩

end Parser

end CommandLine
