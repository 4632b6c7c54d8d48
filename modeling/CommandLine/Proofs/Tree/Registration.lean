import CommandLine.Proofs.Tree.InPlace
import CommandLine.Proofs.Tree.Serials

/-! # Registration is all or nothing

    Adding a command to a tree either fails and changes nothing, or puts the command at the one
    place that its components name. There it replaces the command for the same senders, if the tree
    is set to replace commands and there is one; every other command stays where it is. -/

namespace CommandLine

/-- At most one of the commands that end at a place is for the senders of a command. -/
theorem Node.OnePerSender.length_filter_le {ending : List Entry} (h : OnePerSender ending)
    (c : Command) : (ending.filter (sameSenders c)).length ≤ 1 := by
  have hnodup := h.sublist ((List.filter_sublist (p := sameSenders c)).map _)
  have hall : (ending.filter (sameSenders c)).map (·.command.senderTypeName) =
      List.replicate (ending.filter (sameSenders c)).length c.senderTypeName := by
    rw [List.eq_replicate_iff, List.length_map]
    refine ⟨rfl, fun name hname => ?_⟩
    obtain ⟨e, he, rfl⟩ := List.mem_map.mp hname
    exact beq_iff_eq.mp (List.mem_filter.mp he).2
  rw [hall] at hnodup
  exact List.nodup_replicate.mp hnodup

namespace Tree

/-- The commands of a tree with the places where they end. -/
def filings (t : Tree) : List Filing :=
  t.root.filings

theorem map_entry_filings (t : Tree) : t.filings.map (·.entry) = t.entries :=
  t.root.map_entry_filings

/-- Whether a command is replaced by one that is added at a place: it ends there and is for the same
    senders, and the tree is set to replace commands. -/
def replaces (t : Tree) (c : Command) (place : Place) (f : Filing) : Bool :=
  t.rules.replaceCommands && decide (f.place = place) && Node.sameSenders c f.entry

/-- The tree `t'` has the commands of `t`, each at its place, and a new one at a place that is named
    by its components; only what the new one replaces is not there any more. -/
structure Registers (t : Tree) (c : Command) (t' : Tree) (e : Entry) (place : Place) : Prop where
  command : e.command = c
  fresh : ∀ x ∈ t.entries, x.serial ≠ e.serial
  leads : ∃ path ending, t'.root.Leads path ending ∧ e ∈ ending ∧
    place = path.map Component.label ∧
    List.Forall₂ (Component.Corresponds t.rules.ignoreCase) path c.components
  filed : ∃ front back, t'.filings = front ++ ⟨place, e⟩ :: back ∧
    front ++ back = t.filings.filter fun f => !t.replaces c place f
  replaced : (t.filings.filter (t.replaces c place)).length ≤ 1

theorem replaces_elsewhere {t : Tree} {c : Command} {place : Place} {f : Filing}
    (h : f.place ≠ place) : t.replaces c place f = false := by
  rw [replaces, decide_eq_false h, Bool.and_false, Bool.false_and]

theorem replaces_at (t : Tree) (c : Command) (place : Place) (e : Entry) :
    t.replaces c place ⟨place, e⟩ = (t.rules.replaceCommands && Node.sameSenders c e) := by
  rw [replaces, decide_eq_true rfl, Bool.and_true]

/-- A command replaces at most one of those that end at a place. -/
theorem length_replaced_le {t : Tree} {c : Command} {place : Place} {ending : List Entry}
    {front back : List Filing} (hother : ∀ f ∈ front ++ back, f.place ≠ place)
    (hone : Node.OnePerSender ending) :
    ((front ++ Filing.allAt place ending ++ back).filter (t.replaces c place)).length ≤ 1 := by
  have hnone : ∀ filings ⊆ front ++ back, filings.filter (t.replaces c place) = [] := by
    intro filings hsub
    refine List.filter_eq_nil_iff.mpr fun f hf => ?_
    rw [replaces_elsewhere (hother f (hsub hf))]
    exact Bool.false_ne_true
  rw [List.filter_append, List.filter_append, hnone front (List.subset_append_left _ _),
    hnone back (List.subset_append_right _ _), List.nil_append, List.append_nil, Filing.allAt,
    List.filter_map, List.length_map]
  refine Nat.le_trans (List.Sublist.length_le ?_) (hone.length_filter_le c)
  refine List.monotone_filter_right _ fun e he => ?_
  simp only [Function.comp_apply, replaces_at, Bool.and_eq_true] at he
  exact he.2

/-- Whatever a command does not replace stays. -/
theorem filter_not_replaced {t : Tree} {c : Command} {place : Place} {ending : List Entry}
    {front back : List Filing} (hother : ∀ f ∈ front ++ back, f.place ≠ place) :
    (front ++ Filing.allAt place ending ++ back).filter (fun f => !t.replaces c place f) =
      front ++ Filing.allAt place (ending.filter fun e =>
        !(t.rules.replaceCommands && Node.sameSenders c e)) ++ back := by
  have hall : ∀ filings ⊆ front ++ back,
      filings.filter (fun f => !t.replaces c place f) = filings := by
    intro filings hsub
    refine List.filter_eq_self.mpr fun f hf => ?_
    rw [replaces_elsewhere (hother f (hsub hf)), Bool.not_false]
  rw [List.filter_append, List.filter_append, hall front (List.subset_append_left _ _),
    hall back (List.subset_append_right _ _), Filing.allAt, Filing.allAt, List.filter_map]
  simp only [Function.comp_def, replaces_at]

/-- A command that is added is registered at the place of its components. -/
theorem registers_of_insert {t t' : Tree} (ht : t.Reachable) {c : Command} {e : Entry}
    (h : t.insert c = .ok (t', e)) : ∃ place, t.Registers c t' e place := by
  obtain ⟨past, hpast⟩ := ht
  have ht' : t'.Reachable := ⟨_, hpast.of_insert h⟩
  obtain ⟨hentry, -, hinserted, hshape⟩ := insert_ok h
  have hcase : t'.rules = t.rules := by rw [hshape]
  obtain ⟨place, old, ⟨front, back, hbefore, hafter, hother⟩, hone, -⟩ :=
    hinserted.changes (Reachable.orderly ⟨past, hpast⟩)
  have hcommand : e.command = c := by rw [hentry]
  have hafter : t'.filings = front ++ Filing.allAt place (old.filter fun x =>
      !(t.rules.replaceCommands && Node.sameSenders c x)) ++ ⟨place, e⟩ :: back := by
    rw [filings, hafter, Node.settle_eq, hcommand, Filing.allAt, List.map_append]
    simp [Filing.allAt]
  have hmem : ⟨place, e⟩ ∈ t'.filings := by
    rw [hafter]
    exact List.mem_append_right _ List.mem_cons_self
  obtain ⟨path, ending, hleads, hending, hplace⟩ := Node.mem_filings_iff.mp hmem
  have hpath := ht'.filed.corresponds hleads e hending
  rw [hcase, hcommand] at hpath
  refine ⟨place, hcommand, ?_, ⟨path, ending, hleads, hending, hplace, hpath⟩, ?_, ?_⟩
  · intro x hx hsame
    have hlt := hpast.numbered.below t List.mem_cons_self x hx
    rw [hsame, hentry] at hlt
    exact Nat.lt_irrefl _ hlt
  · refine ⟨_, back, hafter, ?_⟩
    rw [filings, hbefore, filter_not_replaced hother]
  · rw [filings, hbefore]
    exact length_replaced_le hother hone

/-- Adding a command to a reachable tree fails and leaves the tree as it is, or registers the
    command; after the check the walk along the components meets no conflict. -/
theorem Reachable.insert_all_or_nothing {t : Tree} (ht : t.Reachable) (c : Command) :
    (Node.check t.rules c c.components rootName t.root = .ok () →
      (Node.insertInPlace t.rules ⟨t.nextSerial, c⟩ c.components rootName t.root).2 = .ok ()) ∧
    (∀ err, (t.insertInPlace c).2 = .error err → (t.insertInPlace c).1 = t) ∧
    (∀ e, (t.insertInPlace c).2 = .ok e →
      (∃ place, t.Registers c (t.insertInPlace c).1 e place) ∧
      t.entries = t.filings.map (·.entry) ∧
      (t.insertInPlace c).1.entries = (t.insertInPlace c).1.filings.map (·.entry)) ∧
    t.insertInPlace c = match t.insert c with
      | .ok (t', e) => (t', .ok e)
      | .error err => (t, .error err) := by
  refine ⟨?_, ?_, ?_, t.insertInPlace_eq c⟩
  · intro hcheck
    obtain ⟨root, -, hwalk⟩ := Node.insertInPlace_of_check (e := ⟨t.nextSerial, c⟩) hcheck
    rw [hwalk]
  · intro err herr
    rw [t.insertInPlace_eq] at herr ⊢
    split at herr
    · cases herr
    · rfl
  · intro e he
    rw [t.insertInPlace_eq] at he ⊢
    split at he
    · next t' e' h =>
        cases he
        exact ⟨registers_of_insert ht h, t.map_entry_filings.symm, t'.map_entry_filings.symm⟩
    · cases he

/-- A tree that replaces commands, with `give` and `take`. -/
def replacing : Tree :=
  (apply { rules := { replaceCommands := true } } (.addWord "give")).apply (.addWord "take")

theorem replacing_reachable : replacing.Reachable :=
  ⟨_, ((History.fresh (t := { rules := { replaceCommands := true } }) rfl).edit
    (.addWord "give")).edit (.addWord "take")⟩

/-- A second `give` stands for the first, and `take` stays. -/
theorem insert_all_or_nothing_give :
    ∃ c t' e place, replacing.Registers c t' e place ∧
      replacing.entries.map (·.serial) = [0, 1] ∧ t'.entries.map (·.serial) = [2, 1] := by
  let c : Command := { components := [.literal { name := "give", aliases := ["gift"] }] }
  have hadded : (replacing.insertInPlace c).2 = .ok ⟨2, c⟩ := by rfl
  obtain ⟨-, -, hregisters, -⟩ := Reachable.insert_all_or_nothing replacing_reachable c
  obtain ⟨⟨place, h⟩, -, -⟩ := hregisters _ hadded
  refine ⟨c, _, _, place, h, ?_, ?_⟩ <;> decide +kernel

end Tree

end CommandLine
