import Mathlib.Logic.Basic

/-! # Two machines in step

    A machine follows another from two related states if, after any number of turns that the other
    one takes, it has taken as many and the states are related again. When the states of single
    turns stay related exactly under some condition on the state of the leading machine, then the
    one follows the other exactly when all states that the leading machine leaves meet the
    condition (`follows_iff`). -/

namespace CommandLine

variable {S : Type}

/-- The state after some turns, unless there is none to take before. -/
def turns (next : S → Option S) : Nat → S → Option S
  | 0, s => some s
  | n + 1, s => (turns next n s).bind next

/-- Whatever the leading machine does, the other one does too. -/
def Follows (R : S → S → Prop) (next lead : S → Option S) (s t : S) : Prop :=
  ∀ n t', turns lead n t = some t' → ∃ s', turns next n s = some s' ∧ R s' t'

variable {R : S → S → Prop} {I Fair : S → Prop} {next lead : S → Option S} {s t : S}

theorem turns_succ {n : Nat} {u : S} (h : turns next (n + 1) s = some u) :
    ∃ v, turns next n s = some v ∧ next v = some u :=
  Option.bind_eq_some_iff.mp h

/-- The first turn comes before the others. -/
theorem turns_head {n : Nat} {v u : S} (hv : next s = some v) (h : turns next n v = some u) :
    turns next (n + 1) s = some u := by
  induction n generalizing u with
  | zero =>
      cases h
      exact hv
  | succ n ih =>
      obtain ⟨w, hw, hu⟩ := turns_succ h
      exact Option.bind_eq_some_iff.mpr ⟨w, ih hw, hu⟩

/-- What a turn keeps is kept by all turns. -/
theorem turns_keep (hI : I s) (hkeep : ∀ {v u}, I v → next v = some u → I u) {n : Nat} {u : S}
    (h : turns next n s = some u) : I u := by
  induction n generalizing u with
  | zero =>
      cases h
      exact hI
  | succ n ih =>
      obtain ⟨v, hv, hnext⟩ := turns_succ h
      exact hkeep (ih hv) hnext

/-- A machine follows another exactly where single turns keep the states related. -/
theorem follows_iff (hR : R s t) (hI : I t) (hkeep : ∀ {v u}, I v → lead v = some u → I u)
    (hturn : ∀ {a b b'}, R a b → I b → lead b = some b' →
      ((∃ a', next a = some a' ∧ R a' b') ↔ Fair b)) :
    Follows R next lead s t ↔
      ∀ n b, turns lead n t = some b → ∀ b', lead b = some b' → Fair b := by
  constructor
  · -- the states after one turn more are reached by the turn that is asked about
    intro hfollows n b hb b' hlead
    obtain ⟨a, ha, hrelated⟩ := hfollows n b hb
    have hlonger : turns lead (n + 1) t = some b' := Option.bind_eq_some_iff.mpr ⟨b, hb, hlead⟩
    obtain ⟨a', ha', hrelated'⟩ := hfollows (n + 1) b' hlonger
    obtain ⟨c, hc, hnext⟩ := turns_succ ha'
    cases ha.symm.trans hc
    exact (hturn hrelated (turns_keep hI hkeep hb) hlead).mp ⟨a', hnext, hrelated'⟩
  · -- by induction on the number of turns, for all states at once
    intro hfair n
    induction n with
    | zero =>
        intro t' ht'
        cases ht'
        exact ⟨s, rfl, hR⟩
    | succ n ih =>
        intro t' ht'
        obtain ⟨b, hb, hlead⟩ := turns_succ ht'
        obtain ⟨a, ha, hrelated⟩ := ih b hb
        obtain ⟨a', hnext, hrelated'⟩ :=
          (hturn hrelated (turns_keep hI hkeep hb) hlead).mpr (hfair n b hb t' hlead)
        exact ⟨a', Option.bind_eq_some_iff.mpr ⟨a, ha, hnext⟩, hrelated'⟩

end CommandLine
