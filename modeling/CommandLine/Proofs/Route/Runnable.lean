import CommandLine.Proofs.Route.Open
import CommandLine.Proofs.Tree.Ordering

/-! # Commands that can be run

    Of the commands at one place of a tree, a line can only lead a sender to the first that serves
    it. To that one a line leads, where all arguments are simple: digits are read by each of them
    and select no literal. A flag group at the end is in the way, though, unless some flag of it can
    be given there or the line may end in front of it (`Tree.Built.runs_iff`).

    So a registered command need not be one that can be run: whatever anybody may run stands in
    front of what comes after it at the same place (`Tree.second_heal_never_runs`). -/

namespace CommandLine

variable {t : Tree} {ctx : Context}

/-- In a tree without edges that may read all that is left of a line nothing can be read away from
    what follows. -/
theorem Node.Leads.flows {n : Node} {path : List Component} {ending : List Entry}
    (h : n.Leads path ending) (hn : n.Everywhere (Carries fun x => x.isGreedy = false)) :
    path.IsChain Component.Flows := by
  induction h with
  | here => exact .nil
  | literal edge _ ih =>
      refine List.isChain_cons.mpr ⟨fun _ _ hgreedy => ?_, ih (hn.literal edge)⟩
      cases hgreedy
  | argument edge _ ih =>
      refine List.isChain_cons.mpr ⟨fun _ _ hgreedy => ?_, ih (hn.argument edge)⟩
      cases (hn.here.argument _ _ edge).symm.trans hgreedy
  | flags _ => exact .singleton _

namespace Tree

/-- No command is filed at the root. -/
theorem Reachable.path_ne_nil (ht : t.Reachable) {path : List Component} {ending : List Entry}
    {e : Entry} (h : t.root.Leads path ending) (he : e ∈ ending) : path ≠ [] := by
  rintro rfl
  have hvalid := ht.checked h e he
  have hadmits := ht.filed.admits h e he
  rw [Command.validate, List.forall₂_nil_left_iff.mp hadmits] at hvalid
  cases hvalid

/-- In a tree of commands with simple arguments a line leads to a command exactly if the command is
    the first at its place that serves the sender and, where it ends with a flag group, the way to
    it is open. This does not speak of commands on whose way something other than flags follows what
    may read all that is left of a line. -/
theorem Built.runs_iff (ht : t.Built Component.Simple) {e : Entry}
    (hflows : ∀ path ending, t.root.Leads path ending → e ∈ ending →
      path.IsChain Component.Flows) :
    (∃ text r, t.route ctx text = .ok r ∧ r.entry = e) ↔
      ∃ path ending, t.root.Leads path ending ∧ ending.find? (Entry.serves ctx) = some e ∧
        ((∃ g, .flags g ∈ path) →
          ∃ given, t.root.Open t.rules.ignoreCase ctx true given path ending) := by
  have hsimple := ht.carries fun _ _ _ _ => trivial
  constructor
  · rintro ⟨text, r, hroute, rfl⟩
    obtain ⟨path, ending, hleads, hfound, hopens⟩ :=
      Position.opens_of_run hroute (SameStanding.chains.refl ctx) hsimple
    refine ⟨path, ending, hleads, hfound, fun _ => ?_⟩
    have hchain := hflows path ending hleads (List.mem_of_find?_eq_some hfound)
    obtain ⟨given, hway, -⟩ := (hopens hchain).way
    exact ⟨given, hway⟩
  · rintro ⟨path, ending, hleads, hfound, hway⟩
    have he : e ∈ ending := List.mem_of_find?_eq_some hfound
    obtain ⟨given, hopen⟩ :
        ∃ given, t.root.Open t.rules.ignoreCase ctx true given path ending := by
      by_cases hflags : ∃ g, .flags g ∈ path
      · exact hway hflags
      · have hnone : ∀ x ∈ path, x.isFlags = false := by
          intro x hx
          cases x with
          | literal _ => rfl
          | argument _ => rfl
          | flags g => exact absurd ⟨g, hx⟩ hflags
        exact ⟨false, hleads.opens (hflows path ending hleads he) hnone
          fun _ => ht.reachable.path_ne_nil hleads he⟩
    obtain ⟨words, hyields, -⟩ := hopen.yields ht.reachable.orderly hsimple hfound
    obtain ⟨r, hroute, hentry⟩ := hyields.route
    exact ⟨_, r, hroute, hentry⟩

end Tree

theorem Tree.saying_simple :
    Tree.saying.Built Component.Simple ∧ Tree.saying.Built fun x => x.isGreedy = false := by
  constructor
  · refine .edit (.edit (.fresh rfl) _ ?_) _ ?_
    · rintro c ⟨⟩
      simp only [Command.sayText, List.forall_mem_cons]
      exact ⟨trivial, ⟨.text .word, by simp⟩, by simp⟩
    · rintro c ⟨⟩
      simp only [Command.sayFlags, List.forall_mem_cons]
      exact ⟨trivial, by simp [Component.Simple], by simp⟩
  · refine .edit (.edit (.fresh rfl) _ ?_) _ ?_
    · rintro c ⟨⟩
      simp [Command.sayText, Component.isGreedy, Parser.greedy]
    · rintro c ⟨⟩
      simp [Command.sayFlags, Component.isGreedy]

/-- The place behind the word, with a text that may be left out and flags beside it. -/
def Node.saying : Node :=
  { Node.empty with
    argument :=
      some ({ name := "text", parser := .text .word, need := .optional none },
        { Node.empty with ending := [⟨0, .sayText⟩] })
    flags := some ({ flags := [{ name := "silent" }, { name := "force" }] }, [⟨1, .sayFlags⟩]) }

/-- Beside a text that may be left out, flags can be given. -/
theorem Tree.saying_runs :
    Tree.saying.Built Component.Simple ∧
      (∀ path ending, Tree.saying.root.Leads path ending → ⟨1, .sayFlags⟩ ∈ ending →
        path.IsChain Component.Flows) ∧
      ∃ text r, Tree.saying.route (.ofRight "say") text = .ok r ∧ r.entry = ⟨1, .sayFlags⟩ := by
  obtain ⟨hsimple, hmodest⟩ := Tree.saying_simple
  have hflows : ∀ path ending, Tree.saying.root.Leads path ending → ⟨1, .sayFlags⟩ ∈ ending →
      path.IsChain Component.Flows :=
    fun path ending hleads _ => hleads.flows (hmodest.carries fun _ _ _ h => h)
  refine ⟨hsimple, hflows, (Tree.Built.runs_iff hsimple hflows).mpr ?_⟩
  have hword : ({ name := "say" }, Node.saying) ∈ Tree.saying.root.literals :=
    List.mem_singleton_self _
  have hgives : Node.saying.GivesFlags Tree.saying.rules.ignoreCase (.ofRight "say") "--silent"
      [.flags { flags := [{ name := "silent" }, { name := "force" }] }] [⟨1, .sayFlags⟩] := by
    refine .here rfl ⟨by decide +kernel, ?_⟩ ?_ ?_
    · refine ⟨[{ name := "silent" }], rfl, ?_, List.pairwise_singleton _ _⟩
      exact List.forall_mem_singleton.mpr ⟨rfl, Or.inr rfl⟩
    · intro l child hfound
      cases hfound
    · rintro a child ⟨⟩ -
      exact ⟨rfl, rfl⟩
  exact ⟨_, _, .literal hword (.flags rfl), rfl, fun _ => ⟨true, .literal hword (.flags hgives)⟩⟩

/-- `heal`, for anybody. -/
def Command.healAnybody : Command where
  components := [.literal { name := "heal" }]

/-- `heal`, for players. -/
def Command.healPlayer : Command where
  components := [.literal { name := "heal" }]
  senderType := some ⟨"player", fun sender => sender.kind == "player"⟩

/-- A tree in which anybody may run the first of two commands at one place. -/
def Tree.healers : Tree :=
  (({} : Tree).apply (.insert .healAnybody)).apply (.insert .healPlayer)

/-- A command for players is never run behind one for anybody. -/
theorem Tree.second_heal_never_runs :
    Tree.healers.Built Component.Simple ∧ ⟨1, .healPlayer⟩ ∈ Tree.healers.entries ∧
      ∀ ctx text r, Tree.healers.route ctx text = .ok r → r.entry ≠ ⟨1, .healPlayer⟩ := by
  have hbuilt : Tree.healers.Built Component.Simple := by
    refine .edit (.edit (.fresh rfl) _ ?_) _ ?_
    · rintro c ⟨⟩
      simp [Command.healAnybody, Component.Simple]
    · rintro c ⟨⟩
      simp [Command.healPlayer, Component.Simple]
  have hplace : Tree.healers.root.Leads [.literal { name := "heal" }]
      [⟨0, .healAnybody⟩, ⟨1, .healPlayer⟩] := .literal (List.mem_singleton_self _) .here
  refine ⟨hbuilt, hplace.mem_entries (by simp), fun ctx text r hroute hentry => ?_⟩
  obtain ⟨path, ending, hleads, hfound, -⟩ := Position.opens_of_run hroute
    (SameStanding.chains.refl ctx) (hbuilt.carries fun _ _ _ _ => trivial)
  rw [hentry] at hfound
  cases hleads with
  | here => cases hfound
  | literal edge below =>
      cases List.mem_singleton.mp edge
      cases below with
      | here =>
          have hfirst : Entry.serves ctx ⟨0, .healAnybody⟩ = true := by
            rw [Entry.serves, Command.isPermitted, Context.grants]
            cases ctx.checker <;> rfl
          cases (List.find?_cons_of_pos hfirst).symm.trans hfound
      | literal edge _ => cases edge
      | argument edge _ => cases edge
      | flags edge => cases edge
  | argument edge _ => cases edge
  | flags edge => cases edge

end CommandLine
