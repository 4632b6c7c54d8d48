import CommandLine.Proofs.Route.End
import CommandLine.Proofs.Tree.History

/-! # Lines under other roots

    Commands that start with a literal share one list of edges at the root. An insertion may add
    names to an edge of that list or put one at its end, a removal may take one out, and the places
    of the others change. None of this is seen by a line that does not select the literal: the root
    is one that only differs in edges of one key (`Node.Recast`), so every line that selects none of
    them makes the same first step, and from there on the two passes are one
    (`Tree.route_elsewhere`). What the root expects may differ, which a failure at the root tells. -/

namespace CommandLine

namespace Node

/-- Two nodes that differ in the literals of one key only. -/
structure Recast (ignoreCase : Bool) (l : Literal) (n n' : Node) : Prop where
  literals : ∃ before own own' after,
    n.literals = before ++ own ++ after ∧ n'.literals = before ++ own' ++ after ∧
      ∀ edge ∈ own ++ own', shares ignoreCase l edge = true
  argument : n'.argument = n.argument
  flags : n'.flags = n.flags

variable {ignoreCase : Bool} {l : Literal} {n n' : Node}

theorem Recast.refl (ignoreCase : Bool) (l : Literal) (n : Node) : Recast ignoreCase l n n where
  literals := ⟨n.literals, [], [], [], by simp⟩
  argument := rfl
  flags := rfl

/-- An insertion that starts with a literal changes the edges of its key. -/
theorem Inserted.recast {rules : Rules} {e : Entry} {rest : List Component}
    (h : Inserted rules e (.literal l :: rest) n n') : Recast rules.ignoreCase l n n' := by
  have shares_self {old : Literal} {child : Node} (hname : old.name = l.name) :
      shares rules.ignoreCase l (old, child) = true := by simp [shares, hname]
  cases h with
  | @newLiteral _ _ _ child apart vacant below =>
      refine ⟨⟨n.literals, [], [(l, child)], [], by simp, by simp, ?_⟩, rfl, rfl⟩
      exact List.forall_mem_singleton.mpr (shares_self rfl)
  | @sharedLiteral _ old _ _ child child' before after apart split first shared below =>
      refine ⟨⟨before, [(old, child)], [(old.merge rules.ignoreCase l, child')], after,
        by simp [split], by simp, ?_⟩, rfl, rfl⟩
      -- an edge keeps its name when it takes over aliases
      exact List.forall_mem_cons.mpr ⟨shared, List.forall_mem_singleton.mpr shared⟩

/-- A removal that starts with a literal changes the edge of its key. -/
theorem Removed.recast {serial : Nat} {rest : List Component}
    (h : Removed ignoreCase serial (.literal l :: rest) n n') : Recast ignoreCase l n n' := by
  cases h with
  | @literal _ old _ _ child child' before after split shared below =>
      refine ⟨⟨before, [(old, child)], (keep old child').toList, after, by simp [split], rfl, ?_⟩,
        rfl, rfl⟩
      refine List.forall_mem_cons.mpr ⟨shared, fun edge hedge => ?_⟩
      rcases keep_cases old child' with ⟨-, hkeep⟩ | ⟨-, hkeep⟩
      · rw [hkeep] at hedge
        cases hedge
      · rw [hkeep] at hedge
        obtain rfl := List.mem_singleton.mp hedge
        exact shared

/-- Taking away the literal that a name selects changes the edge of its key. -/
theorem recast_of_findLiteral {name : String} {child : Node}
    (h : n.findLiteral ignoreCase name = some (l, child)) :
    Recast ignoreCase l n
      { n with literals := n.literals.eraseP fun edge => edge.1.answers ignoreCase name } := by
  obtain ⟨hanswers, before, after, hsplit, hbefore⟩ := List.find?_eq_some_iff_append.mp h
  refine ⟨⟨before, [(l, child)], [], after, by simp [hsplit], ?_, by simp [shares]⟩, rfl, rfl⟩
  show n.literals.eraseP _ = _
  have hselected : l.answers ignoreCase name = true := hanswers
  have hothers : ∀ edge ∈ before, ¬edge.1.answers ignoreCase name = true :=
    fun edge hedge => by simpa using hbefore edge hedge
  rw [hsplit, List.eraseP_append_right _ hothers]
  simp [hselected]

/-- A token that selects no literal of the key selects the same on both nodes. -/
theorem Recast.findLiteral_eq (h : Recast ignoreCase l n n') {token : String}
    (hbefore : ∀ edge, n.findLiteral ignoreCase token = some edge →
      shares ignoreCase l edge = false)
    (hafter : ∀ edge, n'.findLiteral ignoreCase token = some edge →
      shares ignoreCase l edge = false) :
    n'.findLiteral ignoreCase token = n.findLiteral ignoreCase token := by
  obtain ⟨before, own, own', after, hn, hn', hown⟩ := h.literals
  simp only [findLiteral, hn, hn', List.find?_append] at hbefore hafter ⊢
  cases hfirst : before.find? fun edge => edge.1.answers ignoreCase token with
  | some edge => rfl
  | none =>
      -- what is found among the edges of the key would be selected
      have unfound {edges : List (Literal × Node)} (hedges : ∀ edge ∈ edges, edge ∈ own ++ own')
          (hnot : ∀ edge,
            (edges.find? fun edge => edge.1.answers ignoreCase token) = some edge →
              shares ignoreCase l edge = false) :
          (edges.find? fun edge => edge.1.answers ignoreCase token) = none := by
        refine Option.eq_none_iff_forall_ne_some.mpr fun edge hfound => ?_
        have hshares := hown edge (hedges edge (List.mem_of_find?_eq_some hfound))
        rw [hnot edge hfound] at hshares
        cases hshares
      rw [hfirst] at hbefore hafter
      rw [unfound (fun edge hedge => List.mem_append_left _ hedge)
          fun edge hfound => hbefore edge (by simp [hfound]),
        unfound (fun edge hedge => List.mem_append_right _ hedge)
          fun edge hfound => hafter edge (by simp [hfound])]

end Node

/-! ## One step from the root -/

/-- Two steps that are the same, up to what was expected where the line does not fit. -/
inductive Step.SameButExpected : Step → Step → Prop where
  | same (s : Step) : SameButExpected s s
  | unfit (input : String) (expected expected' : List String) :
      SameButExpected (.fail (.invalidSyntax input expected))
        (.fail (.invalidSyntax input expected'))

namespace Position

variable {p : Position} {n' : Node} {ignoreCase : Bool} {l : Literal}

/-- The errors of a flag group tell of the node only what it expects. -/
theorem flagsFailure_sameButExpected (denied : Option String) (e : ArgumentError) :
    Step.SameButExpected (.fail (preferDenied denied (p.flagsFailure e)))
      (.fail (preferDenied denied ({ p with node := n' }.flagsFailure e))) := by
  simp only [flagsFailure]
  split
  · cases denied with
    | some permission => exact .same _
    | none => exact .unfit _ _ _
  · exact .same _
  · exact .same _

theorem stepAtFlags_recast (hroot : p.atRoot = true) (hflags : n'.flags = p.node.flags)
    (denied : Option String) :
    Step.SameButExpected (p.stepAtFlags denied) ({ p with node := n' }.stepAtFlags denied) := by
  have hmatch (denied : Option String) : { p with node := n' }.noMatch denied = p.noMatch denied := by
    simp only [noMatch, hroot, if_true]
  simp only [stepAtFlags, hflags]
  cases p.node.flags with
  | none =>
      simp only [hmatch]
      exact .same _
  | some edge =>
      obtain ⟨g, ending⟩ := edge
      simp only [hmatch]
      split
      · simp only [readFlags]
        split
        · exact .same _
        · exact flagsFailure_sameButExpected denied _
      · exact .same _

theorem stepAtArgument_recast (hroot : p.atRoot = true) (hargument : n'.argument = p.node.argument)
    (hflags : n'.flags = p.node.flags) (denied : Option String) :
    Step.SameButExpected (p.stepAtArgument denied)
      ({ p with node := n' }.stepAtArgument denied) := by
  simp only [stepAtArgument, hargument, hflags]
  cases p.node.argument with
  | none => exact stepAtFlags_recast hroot hflags denied
  | some edge =>
      obtain ⟨a, child⟩ := edge
      simp only
      split
      · exact stepAtFlags_recast hroot hflags _
      · split
        · split
          · exact .same _
          · split
            · exact .same _
            · exact stepAtFlags_recast hroot hflags denied
        · exact .same _

theorem stepAtToken_recast (h : Node.Recast ignoreCase l p.node n') (hroot : p.atRoot = true)
    (hfound :
      n'.findLiteral ignoreCase p.line.peekToken = p.node.findLiteral ignoreCase p.line.peekToken) :
    Step.SameButExpected (p.stepAtToken ignoreCase)
      ({ p with node := n' }.stepAtToken ignoreCase) := by
  simp only [stepAtToken, hfound]
  split
  · exact stepAtArgument_recast hroot h.argument h.flags none
  · split
    · exact .same _
    · exact stepAtArgument_recast hroot h.argument h.flags _

/-- At the root, a line that selects no literal of the key makes the same step from both nodes. -/
theorem step_recast (h : Node.Recast ignoreCase l p.node n') (hroot : p.atRoot = true)
    (hfound : p.line.isBlank = false →
      n'.findLiteral ignoreCase p.line.peekToken = p.node.findLiteral ignoreCase p.line.peekToken) :
    Step.SameButExpected (p.step ignoreCase) ({ p with node := n' }.step ignoreCase) := by
  cases hblank : p.line.isBlank with
  | true =>
      -- an empty line selects nothing at the root
      have hend {q : Position} (hblank : q.line.isBlank = true) (hroot : q.atRoot = true) :
          q.step ignoreCase = .fail (.noSuchCommand "") := by
        rw [step_at_end hblank]
        exact if_pos hroot
      rw [hend hblank hroot, hend (q := { p with node := n' }) hblank hroot]
      exact .same _
  | false =>
      have htoken : p.line.skipBlank.peekToken = p.line.peekToken :=
        p.line.skipBlank_agrees.peekToken
      rw [step, step, hblank, if_neg (by simp), if_neg (by simp)]
      refine stepAtToken_recast (p := p.skipBlank) h hroot ?_
      show n'.findLiteral ignoreCase p.line.skipBlank.peekToken = _
      rw [htoken, hfound hblank, ← htoken]
      rfl

/-- Steps that are the same lead to the same end. -/
theorem run_of_step_eq {q : Position} (h : p.step ignoreCase = q.step ignoreCase) :
    p.run ignoreCase = q.run ignoreCase := by
  cases hstep : p.step ignoreCase with
  | descend next => rw [run_of_descend hstep, run_of_descend (h.symm.trans hstep)]
  | arrive found => rw [run_of_arrive hstep, run_of_arrive (h.symm.trans hstep)]
  | fail failure => rw [run_of_fail hstep, run_of_fail (h.symm.trans hstep)]

theorem run_of_sameButExpected {q : Position}
    (h : Step.SameButExpected (p.step ignoreCase) (q.step ignoreCase)) :
    p.run ignoreCase = q.run ignoreCase ∨
      ∃ input expected expected',
        p.step ignoreCase = .fail (.invalidSyntax input expected) ∧
        p.run ignoreCase = .error (.invalidSyntax input expected) ∧
        q.run ignoreCase = .error (.invalidSyntax input expected') := by
  generalize hp : p.step ignoreCase = s at h
  generalize hq : q.step ignoreCase = s' at h
  cases h with
  | same => exact Or.inl (run_of_step_eq (hp.trans hq.symm))
  | unfit input expected expected' =>
      exact Or.inr ⟨input, expected, expected', rfl, run_of_fail hp, run_of_fail hq⟩

end Position

/-! ## Edits under another root -/

namespace Tree

/-- The literal at the root that an edit is about. -/
inductive Edit.Concerns (t : Tree) : Edit → Literal → Prop where
  | insert {c : Command} {l : Literal} {rest : List Component}
      (starts : c.components = .literal l :: rest) : Concerns t (.insert c) l
  | remove {e : Entry} {l : Literal} {rest : List Component}
      (starts : e.command.components = .literal l :: rest) : Concerns t (.remove e) l
  | removeRoot {name : String} {l : Literal} {child : Node}
      (found : t.root.findLiteral t.rules.ignoreCase name = some (l, child)) :
      Concerns t (.removeRoot name) l

/-- The first token of a text selects the literal at the root that has the key of a literal. -/
def Selects (t : Tree) (l : Literal) (text : String) : Prop :=
  (Line.ofString text).isBlank = false ∧
    ∃ edge, t.root.findLiteral t.rules.ignoreCase (Line.ofString text).peekToken = some edge ∧
      Node.shares t.rules.ignoreCase l edge = true

/-- An edit changes the edges of the literal that it is about, and nothing else at the root. -/
theorem Edit.Concerns.recast {t : Tree} {edit : Edit} {l : Literal} (h : edit.Concerns t l) :
    Node.Recast t.rules.ignoreCase l t.root (t.apply edit).root := by
  cases h with
  | @insert c _ rest starts =>
      simp only [apply]
      split
      · next t' e hinsert =>
          obtain ⟨rfl, -, hinserted, -⟩ := insert_ok hinsert
          rw [starts] at hinserted
          exact hinserted.recast
      · exact .refl _ _ _
  | @remove e _ rest starts =>
      simp only [apply]
      split
      · next t' hremove =>
          obtain ⟨hremoved, -⟩ := remove_ok hremove
          rw [starts] at hremoved
          exact hremoved.recast
      · exact .refl _ _ _
  | @removeRoot name _ child found =>
      simp only [apply]
      split
      · next t' entries hremove =>
          rw [removeRoot_ok hremove]
          exact Node.recast_of_findLiteral found
      · exact .refl _ _ _

/-- An edit of a command that starts with a literal, or of all that is below one, is local: a line
    whose first token selects the literal neither before nor after the edit is routed to the same
    end, and only a failure at the root to fit the line may tell of other things expected. -/
theorem route_elsewhere {t : Tree} {edit : Edit} {l : Literal} (hconcerns : edit.Concerns t l)
    (ctx : Context) {text : String} (hbefore : ¬t.Selects l text)
    (hafter : ¬(t.apply edit).Selects l text) :
    t.route ctx text = (t.apply edit).route ctx text ∨
      ∃ input expected expected',
        (Position.start t ctx (.ofString text)).step t.rules.ignoreCase =
          .fail (.invalidSyntax input expected) ∧
        t.route ctx text = .error (.invalidSyntax input expected) ∧
        (t.apply edit).route ctx text = .error (.invalidSyntax input expected') := by
  have hcase := (apply_reshaped t edit).1
  rw [Selects, hcase] at hafter
  have hrecast := hconcerns.recast
  have hfound : (Line.ofString text).isBlank = false →
      (t.apply edit).root.findLiteral t.rules.ignoreCase (Line.ofString text).peekToken =
        t.root.findLiteral t.rules.ignoreCase (Line.ofString text).peekToken := by
    intro hblank
    refine hrecast.findLiteral_eq (fun edge hedge => ?_) fun edge hedge => ?_
    · exact Bool.eq_false_iff.mpr fun hshares => hbefore ⟨hblank, edge, hedge, hshares⟩
    · exact Bool.eq_false_iff.mpr fun hshares => hafter ⟨hblank, edge, hedge, hshares⟩
  have hstep := Position.step_recast (p := Position.start t ctx (.ofString text)) hrecast rfl hfound
  rw [route, route, hcase]
  exact Position.run_of_sameButExpected hstep

end Tree

/-- `warp <target>`, which may be called `go`. -/
def Command.warp : Command where
  components :=
    [.literal { name := "warp", aliases := ["go"] },
     .argument { name := "target", parser := .text .word }]

namespace Tree

/-- A line to heal is routed as before once a command to warp is added. -/
theorem route_elsewhere_healing :
    (Edit.insert .warp).Concerns healing { name := "warp", aliases := ["go"] } ∧
      ¬healing.Selects { name := "warp", aliases := ["go"] } "heal" ∧
      ¬(healing.apply (.insert .warp)).Selects { name := "warp", aliases := ["go"] } "heal" ∧
      (healing.apply (.insert .warp)).route (.ofRight "heal") "heal" =
        .ok ⟨⟨1, .heal 25 40 30⟩,
          (Context.ofRight "heal").store "amount" (.plain (.integer 20))⟩ := by
  have hconcerns : (Edit.insert .warp).Concerns healing { name := "warp", aliases := ["go"] } :=
    .insert rfl
  have hbefore : ¬healing.Selects { name := "warp", aliases := ["go"] } "heal" := by
    rintro ⟨-, edge, hfound, hshares⟩
    cases hfound
    revert hshares
    decide +kernel
  have hafter :
      ¬(healing.apply (.insert .warp)).Selects { name := "warp", aliases := ["go"] } "heal" := by
    rintro ⟨-, edge, hfound, hshares⟩
    cases hfound
    revert hshares
    decide +kernel
  refine ⟨hconcerns, hbefore, hafter, ?_⟩
  rcases route_elsewhere hconcerns (.ofRight "heal") hbefore hafter with
    hsame | ⟨_, _, _, -, hfails, -⟩
  · rw [← hsame, route_healing]
  · cases route_healing.symm.trans hfails

end Tree

end CommandLine
