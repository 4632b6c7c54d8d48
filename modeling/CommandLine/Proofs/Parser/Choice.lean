import CommandLine.Parser.Read
import Mathlib.Data.List.Forall2
import Mathlib.Tactic.ByContra

/-! # Alternatives begin where the first of them began

    An attempt that fails leaves nothing behind: neither what it read of the line nor what it stored
    in the context reaches the next attempt or the caller. So alternatives read what the first of
    them that accepts reads on its own (`Alternatives.Picks`), and where none does, they leave
    context and line as they were and tell why each of them failed (`Alternatives.Chooses`).

    This is known of every list of readers, whatever they are, from one equation: the successful
    reading of alternatives is the first successful one among theirs
    (`Alternatives.success?_readAfter`). Alternatives among alternatives are replaced by their own,
    to any depth, by the same equation (`Parser.success?_leaves`). -/

namespace CommandLine

/-- A reader that succeeds on a context and a line. -/
def Reader.Accepts (reader : Reader) (ctx : Context) (line : Line) : Prop :=
  ∃ value, (reader ctx line).result = .ok value

namespace Reading

variable {r s : Reading Value}

/-- The reading, if it succeeded. -/
def success? (r : Reading Value) : Option (Reading Value) :=
  match r.result with
  | .ok _ => some r
  | .error _ => none

theorem success?_eq_some_iff : r.success? = some s ↔ (∃ value, r.result = .ok value) ∧ r = s := by
  rw [success?]
  cases h : r.result <;> simp

theorem success?_eq_none_iff : r.success? = none ↔ ¬ ∃ value, r.result = .ok value := by
  rw [success?]
  cases h : r.result <;> simp

end Reading

namespace Alternatives

variable {name : String} {readers : List Reader} {ctx : Context} {line : Line} {r : Reading Value}

/-- A reading that is the one of the first reader that accepts, and that succeeds if there is
    one. -/
structure Picks (readers : List Reader) (ctx : Context) (line : Line) (r : Reading Value) :
    Prop where
  accepts_iff : (∃ value, r.result = .ok value) ↔ ∃ reader ∈ readers, reader.Accepts ctx line
  first : ∀ value, r.result = .ok value → ∃ before reader after,
    readers = before ++ reader :: after ∧ (∀ other ∈ before, ¬ other.Accepts ctx line) ∧
      r = reader ctx line

/-- A reading that is the one of the first reader that accepts, and that tells of all failures in
    order, where it began, if there is none. -/
structure Chooses (name : String) (readers : List Reader) (ctx : Context) (line : Line)
    (r : Reading Value) : Prop extends Picks readers ctx line r where
  refused : (∀ reader ∈ readers, ¬ reader.Accepts ctx line) → ∃ failures,
    List.Forall₂ (fun (reader : Reader) e => (reader ctx line).result = .error e)
      readers failures ∧
      r.context = ctx ∧ r.line = line ∧
      r.result = .error
        { parser := name
          input := line.peekToken
          reason := .custom "no alternative accepted the input"
          facts := failures.map fun e => (e.parser, e.reason.message) }

/-! ## Attempts one after the other -/

/-- The successful reading of alternatives is the first successful one among theirs. -/
theorem success?_readAfter (name : String) (failures : List ArgumentError) (readers : List Reader)
    (ctx : Context) (line : Line) :
    (readAfter name failures readers ctx line).success? =
      readers.findSome? fun reader => (reader ctx line).success? := by
  induction readers generalizing failures with
  | nil => rfl
  | cons reader rest ih =>
      rw [List.findSome?_cons]
      cases hattempt : (reader ctx line).result with
      | ok value => simp only [readAfter, Reading.success?, hattempt]
      | error e =>
          have hfailed : (reader ctx line).success? = none := by
            simp only [Reading.success?, hattempt]
          simp only [readAfter, hattempt, hfailed, ih]

/-- Alternatives that all fail are tried one after the other, and their failures are collected. -/
theorem readAfter_of_refused {failures more : List ArgumentError}
    (h : List.Forall₂ (fun (reader : Reader) e => (reader ctx line).result = .error e)
      readers more) :
    readAfter name failures readers ctx line =
      ⟨.error (refusal name line (failures ++ more)), ctx, line⟩ := by
  induction h generalizing failures with
  | nil => rw [readAfter, List.append_nil]
  | @cons reader e readers more hattempt _ ih =>
      simp only [readAfter, hattempt]
      rw [ih, List.append_assoc, List.singleton_append]

theorem exists_failures (h : ∀ reader ∈ readers, ¬ reader.Accepts ctx line) :
    ∃ failures, List.Forall₂ (fun (reader : Reader) e => (reader ctx line).result = .error e)
      readers failures := by
  induction readers with
  | nil => exact ⟨[], .nil⟩
  | cons reader readers ih =>
      obtain ⟨hreader, hreaders⟩ := List.forall_mem_cons.mp h
      obtain ⟨failures, hfailures⟩ := ih hreaders
      cases hattempt : (reader ctx line).result with
      | ok value => exact absurd ⟨value, hattempt⟩ hreader
      | error e => exact ⟨e :: failures, .cons hattempt hfailures⟩

/-! ## The first that accepts -/

/-- The first successful reading of some readers is the one of the first reader that accepts. -/
theorem Picks.of_success
    (h : r.success? = readers.findSome? fun reader => (reader ctx line).success?) :
    Picks readers ctx line r := by
  have hfirst : ∀ value, r.result = .ok value → ∃ before reader after,
      readers = before ++ reader :: after ∧ (∀ other ∈ before, ¬ other.Accepts ctx line) ∧
        r = reader ctx line := by
    intro value hvalue
    have hsome : r.success? = some r := Reading.success?_eq_some_iff.mpr ⟨⟨value, hvalue⟩, rfl⟩
    rw [h] at hsome
    obtain ⟨before, reader, after, rfl, hreader, hbefore⟩ := List.findSome?_eq_some_iff.mp hsome
    refine ⟨before, reader, after, rfl, ?_, (Reading.success?_eq_some_iff.mp hreader).2.symm⟩
    exact fun other hother => Reading.success?_eq_none_iff.mp (hbefore other hother)
  refine ⟨⟨?_, ?_⟩, hfirst⟩
  · rintro ⟨value, hvalue⟩
    obtain ⟨before, reader, after, rfl, -, rfl⟩ := hfirst value hvalue
    exact ⟨reader, List.mem_append_right _ List.mem_cons_self, value, hvalue⟩
  · rintro ⟨reader, hreader, haccepts⟩
    by_contra hfailed
    rw [← Reading.success?_eq_none_iff, h, List.findSome?_eq_none_iff] at hfailed
    exact Reading.success?_eq_none_iff.mp (hfailed reader hreader) haccepts

/-- Whatever they read and store before they fail, alternatives choose the first that accepts. -/
theorem chooses_read (name : String) (readers : List Reader) (ctx : Context) (line : Line) :
    Chooses name readers ctx line (read name readers ctx line) where
  toPicks := .of_success (success?_readAfter name [] readers ctx line)
  refused hnone := by
    obtain ⟨failures, hfailures⟩ := exists_failures hnone
    refine ⟨failures, hfailures, ?_⟩
    rw [read, readAfter_of_refused hfailures]
    exact ⟨rfl, rfl, rfl⟩

end Alternatives

/-! ## Alternatives among alternatives -/

namespace Parser

theorem names_eq (ps : List Parser) : names ps = ps.map name := by
  induction ps with
  | nil => rfl
  | cons p ps ih => rw [names, ih, List.map_cons]

mutual

/-- The alternatives that a parser stands for: itself, or in place of alternatives those that they
    stand for. -/
def leaves : Parser → List Parser
  | .firstOf alternatives => leavesOfAll alternatives
  | p => [p]

/-- The alternatives that some parsers stand for. -/
def leavesOfAll : List Parser → List Parser
  | [] => []
  | p :: rest => p.leaves ++ leavesOfAll rest

end

mutual

/-- A parser succeeds as the first one does of those that it stands for. -/
theorem success?_leaves (ctx : Context) (line : Line) (p : Parser) :
    (p.read ctx line).success? = p.leaves.findSome? fun q => (q.read ctx line).success? := by
  cases p with
  | firstOf alternatives =>
      rw [leaves, ← success?_leavesOfAll, Parser.read, Alternatives.read,
        Alternatives.success?_readAfter, readers_eq, List.findSome?_map]
      rfl
  | text | integer | real | truth | uuid | enumeration | host | cached | map | flatMap | either
  | aggregate | flags =>
      exact List.findSome?_singleton.symm

theorem success?_leavesOfAll (ctx : Context) (line : Line) (ps : List Parser) :
    (ps.findSome? fun p => (p.read ctx line).success?) =
      (leavesOfAll ps).findSome? fun q => (q.read ctx line).success? := by
  cases ps with
  | nil => rfl
  | cons p ps =>
      rw [leavesOfAll, List.findSome?_append, ← success?_leaves, ← success?_leavesOfAll,
        List.findSome?_cons]
      cases (p.read ctx line).success? <;> rfl

end

/-- Alternatives, and either of two parsers, choose the first that accepts where they began,
    whatever parsers they are; where alternatives are among them, these count as if they stood there
    themselves. -/
theorem alternatives_choose (ctx : Context) (line : Line) :
    (∀ alternatives : List Parser,
      Alternatives.Chooses (Text.joined "|" (alternatives.map name)) (alternatives.map read)
        ctx line ((firstOf alternatives).read ctx line)) ∧
    (∀ primary fallback : Parser,
      Alternatives.Chooses (primary.name ++ "|" ++ fallback.name)
        [fun ctx line => (primary.read ctx line).map fromLeft,
         fun ctx line => (fallback.read ctx line).map fromRight]
        ctx line ((either primary fallback).read ctx line)) ∧
    ∀ p : Parser, Alternatives.Picks (p.leaves.map read) ctx line (p.read ctx line) := by
  refine ⟨fun alternatives => ?_, fun primary fallback => ?_, fun p => ?_⟩
  · rw [Parser.read, names_eq, readers_eq]
    exact Alternatives.chooses_read _ _ ctx line
  · rw [Parser.read]
    exact Alternatives.chooses_read _ _ ctx line
  · refine .of_success ?_
    rw [success?_leaves, List.findSome?_map]
    rfl

end Parser

end CommandLine
