import CommandLine.Proofs.Tree.Registration

/-! # Removal is exact

    A removal looks for the place of a command in the way an insertion looks for a free one, and
    takes a conflict for the answer that the command is not there. In an orderly tree it meets no
    conflict on the way to a command that is filed there: the edges to it have all names of its
    components, and so no other edge has one of them (`Node.literalSlot_of_admits`). -/

namespace CommandLine

namespace Node

/-- A literal goes to the edge that admits it. -/
theorem literalSlot_of_admits {ignoreCase : Bool} {n : Node} {l old : Literal} {child : Node}
    (hn : n.Orderly ignoreCase) (hedge : (old, child) ∈ n.literals)
    (hadmits : (Component.literal old).Admits ignoreCase (.literal l)) (name : String) :
    ∃ before after, n.literalSlot ignoreCase name l = .ok (some ⟨before, (old, child), after⟩) := by
  obtain ⟨before, after, hsplit⟩ := List.append_of_mem hedge
  have hshared : shares ignoreCase l (old, child) = true := shares_iff.mpr hadmits.1
  -- no other edge has a key of the one that admits the literal
  have hapart := hn.apart_others hsplit
  have hother := hn.shared_once hsplit hshared
  have hclash : n.clash? ignoreCase l = none := by
    rw [clash?, List.findSome?_eq_none_iff]
    intro edge hmem
    obtain ⟨hedge, hshares⟩ := List.mem_filter.mp hmem
    rw [hsplit] at hedge
    refine List.find?_eq_none.mpr fun key hkey hcontains => ?_
    rcases List.mem_append.mp hedge with hedge | hedge
    · exact hapart edge (List.mem_append_left _ hedge) (hadmits.2 hkey)
        (List.contains_iff_mem.mp hcontains)
    · rcases List.mem_cons.mp hedge with rfl | hedge
      · rw [hshared] at hshares
        cases hshares
      · exact hapart edge (List.mem_append_right _ hedge) (hadmits.2 hkey)
          (List.contains_iff_mem.mp hcontains)
  exact ⟨before, after, literalSlot_of_split hclash hsplit
    (fun edge hedge => hother edge (List.mem_append_left _ hedge)) hshared name⟩

theorem argumentSlot_of_admits {n : Node} {a old : Argument} {child : Node}
    (hedge : n.argument = some (old, child)) (hname : old.name = a.name) (name : String) :
    n.argumentSlot name a = .ok (some (old, child)) := by
  rw [argumentSlot, hedge]
  exact if_pos hname

theorem flagsSlot_of_admits {n : Node} {g old : FlagGroup} {ending : List Entry}
    (hedge : n.flags = some (old, ending))
    (hsigned : Flag.signature old.flags = Flag.signature g.flags) (name : String) :
    n.flagsSlot name g = .ok (some (old, ending)) := by
  rw [flagsSlot, hedge]
  exact if_pos hsigned

theorem withoutEntry_of_mem {e : Entry} {ending : List Entry} (he : e ∈ ending) :
    withoutEntry e.serial ending = some (ending.filter (·.serial != e.serial)) :=
  if_pos (List.any_eq_true.mpr ⟨e, he, beq_self_eq_true e.serial⟩)

/-- Where numbers differ, taking one away takes one command away. -/
theorem filter_serial {front back : List Entry} {e : Entry}
    (hnodup : ((front ++ e :: back).map (·.serial)).Nodup) :
    (front ++ e :: back).filter (·.serial != e.serial) = front ++ back := by
  rw [List.map_append, List.map_cons, List.nodup_middle, List.nodup_cons, ← List.map_append]
    at hnodup
  have hother : ∀ x ∈ front ++ back, (x.serial != e.serial) = true := by
    intro x hx
    rw [bne_iff_ne]
    exact fun hsame => hnodup.1 (List.mem_map.mpr ⟨x, hx, hsame⟩)
  rw [List.filter_append, List.filter_cons_of_neg (by simp), ← List.filter_append,
    List.filter_eq_self.mpr hother]

/-- Where a number is that of one command, what is left are the commands before and after it. -/
theorem withoutEntry_split {e : Entry} {ending left : List Entry}
    (h : withoutEntry e.serial ending = some left)
    (hhandle : ∀ x ∈ ending, x.serial = e.serial → x = e)
    (hnodup : (ending.map (·.serial)).Nodup) :
    ∃ front back, ending = front ++ e :: back ∧ left = front ++ back := by
  obtain ⟨front, back, rfl⟩ : ∃ front back, ending = front ++ e :: back := by
    rw [withoutEntry] at h
    split at h
    · next hany =>
        obtain ⟨x, hx, hserial⟩ := List.any_eq_true.mp hany
        rw [hhandle x hx (beq_iff_eq.mp hserial)] at hx
        exact List.append_of_mem hx
    · cases h
  refine ⟨front, back, rfl, ?_⟩
  rw [withoutEntry_of_mem (by simp), filter_serial hnodup] at h
  exact (Option.some.inj h).symm

/-- A removal finds a command that is filed under its components. -/
theorem exists_remove {ignoreCase : Bool} {n : Node} {name : String}
    {path components : List Component} {ending : List Entry} {e : Entry}
    (hn : n.Everywhere (Orderly ignoreCase)) (hleads : n.Leads path ending) (he : e ∈ ending)
    (hadmits : List.Forall₂ (Component.Admits ignoreCase) path components) :
    ∃ n', remove ignoreCase e.serial components name n = some n' := by
  induction hleads generalizing components name with
  | here =>
      cases hadmits
      rw [remove, withoutEntry_of_mem he]
      exact ⟨_, rfl⟩
  | @literal n child old path ending edge below ih =>
      obtain ⟨c, rest, hhead, htail, rfl⟩ := List.forall₂_cons_left_iff.mp hadmits
      cases c with
      | literal l =>
          obtain ⟨before, after, hslot⟩ := literalSlot_of_admits hn.here edge hhead name
          obtain ⟨child', hchild⟩ : ∃ child', remove ignoreCase e.serial rest old.name child =
            some child' := ih (hn.literal edge) he htail
          simp only [remove, hslot, hchild]
          exact ⟨_, rfl⟩
      | argument a => exact hhead.1.elim
      | flags g => exact hhead.1.elim
  | @argument n child old path ending edge below ih =>
      obtain ⟨c, rest, hhead, htail, rfl⟩ := List.forall₂_cons_left_iff.mp hadmits
      cases c with
      | literal l => exact hhead.1.elim
      | argument a =>
          obtain ⟨child', hchild⟩ : ∃ child', remove ignoreCase e.serial rest old.name child =
            some child' := ih (hn.argument edge) he htail
          simp only [remove, argumentSlot_of_admits edge hhead.1, hchild]
          exact ⟨_, rfl⟩
      | flags g => exact hhead.1.elim
  | @flags n old ending edge =>
      obtain ⟨c, rest, hhead, htail, rfl⟩ := List.forall₂_cons_left_iff.mp hadmits
      cases c with
      | literal l => exact hhead.1.elim
      | argument a => exact hhead.1.elim
      | flags g =>
          cases htail
          simp only [remove, flagsSlot_of_admits edge hhead.1, withoutEntry_of_mem he]
          exact ⟨_, rfl⟩

/-- Every edge below a node leads to a command. -/
structure Fruitful (n : Node) : Prop where
  literals : ∀ edge ∈ n.literals, edge.2.entries ≠ []
  argument : ∀ edge, n.argument = some edge → edge.2.entries ≠ []
  flags : ∀ g ending, n.flags = some (g, ending) → ending ≠ []

end Node

namespace Tree

/-- A command that has been in a tree, now or before, or one that the tree does not know. -/
def Handles (states : List Tree) (t : Tree) (e : Entry) : Prop :=
  (∃ s ∈ states, e ∈ s.entries) ∨ ∀ x ∈ t.entries, x.serial ≠ e.serial

/-- The tree `t'` has the commands of `t` but one, in the same order and each at its place, and no
    edge without a command below it. -/
structure Loses (t : Tree) (e : Entry) (t' : Tree) : Prop where
  filed : ∃ front place back, t.filings = front ++ ⟨place, e⟩ :: back ∧ t'.filings = front ++ back
  entries : ∃ front back, t.entries = front ++ e :: back ∧ t'.entries = front ++ back
  gone : e ∉ t'.entries
  fruitful : t'.root.Everywhere Node.Fruitful

/-- A removal takes away the one command that has the number. -/
theorem History.loses_of_remove {t t' : Tree} {past : List Tree} (h : History t past) {e : Entry}
    (hhandle : ∀ x ∈ t.entries, x.serial = e.serial → x = e) (hremove : t.remove e = .ok t') :
    t.Loses e t' := by
  obtain ⟨hremoved, -⟩ := remove_ok hremove
  obtain ⟨place, old, new, hchange, hfound⟩ := hremoved.changes (Reachable.orderly ⟨past, h⟩)
  have hold : old.Sublist t.entries := hchange.old_sublist
  have hnodup := h.numbered.nodup
  -- the command that is found has the number, and so it is the one that was asked for
  obtain ⟨left, right, rfl, rfl⟩ := Node.withoutEntry_split hfound
    (fun x hx => hhandle x (hold.subset hx)) (hnodup.sublist (hold.map _))
  obtain ⟨front, back, hbefore, hafter, -⟩ := hchange
  have hfiled : ∃ front place back, t.filings = front ++ ⟨place, e⟩ :: back ∧
      t'.filings = front ++ back := by
    refine ⟨front ++ Filing.allAt place left, place, Filing.allAt place right ++ back, ?_, ?_⟩
    · rw [filings, hbefore, Filing.allAt, Filing.allAt, Filing.allAt]
      simp
    · rw [filings, hafter, Filing.allAt, Filing.allAt, Filing.allAt]
      simp
  obtain ⟨ahead, spot, behind, hwith, hwithout⟩ := hfiled
  have hwith' : t.entries = ahead.map (·.entry) ++ e :: behind.map (·.entry) := by
    rw [← t.map_entry_filings, hwith, List.map_append, List.map_cons]
  have hwithout' : t'.entries = ahead.map (·.entry) ++ behind.map (·.entry) := by
    rw [← t'.map_entry_filings, hwithout, List.map_append]
  refine ⟨⟨ahead, spot, behind, hwith, hwithout⟩, ⟨_, _, hwith', hwithout'⟩, ?_, ?_⟩
  · intro hmem
    rw [hwith', List.map_append, List.map_cons, List.nodup_middle, List.nodup_cons,
      ← List.map_append, ← hwithout'] at hnodup
    exact hnodup.1 (List.mem_map_of_mem hmem)
  · have ht' : t'.Reachable := ⟨_, h.of_remove hremove⟩
    exact ht'.orderly.mono fun n hn => ⟨hn.belowLiteral, hn.belowArgument, hn.belowFlags⟩

/-- A command of a tree that is not locked is found and removed. -/
theorem Reachable.exists_remove {t : Tree} (ht : t.Reachable)
    (hunlocked : t.checkUnlocked = .ok ()) {e : Entry} (he : e ∈ t.entries) :
    ∃ t', t.remove e = .ok t' := by
  rw [← t.map_entry_filings] at he
  obtain ⟨f, hf, rfl⟩ := List.mem_map.mp he
  obtain ⟨path, ending, hleads, hending, -⟩ := Node.mem_filings_iff.mp hf
  obtain ⟨root, hroot⟩ : ∃ root, Node.remove t.rules.ignoreCase f.entry.serial
      f.entry.command.components rootName t.root = some root :=
    Node.exists_remove ht.orderly hleads hending (ht.filed.admits hleads _ hending)
  refine ⟨{ t with root }, ?_⟩
  rw [remove, hunlocked, hroot]
  rfl

/-- A removal that fails on a tree that is not locked has not found the command. -/
theorem remove_eq_error {t : Tree} {e : Entry} {err : RegistrationError}
    (hunlocked : t.checkUnlocked = .ok ()) (h : t.remove e = .error err) :
    err = .unknownCommand e.command.usage := by
  rw [remove, hunlocked] at h
  simp only [bind, Except.bind] at h
  split at h
  · cases h
  · cases h
    rfl

/-- Removing from a tree that is not locked succeeds exactly for the commands of the tree, and takes
    away the one it is asked for; otherwise the tree stays as it is. -/
theorem History.remove_exact {t : Tree} {past : List Tree} (h : History t past)
    (hunlocked : t.checkUnlocked = .ok ()) {e : Entry} (he : Handles (t :: past) t e) :
    ((∃ t', t.remove e = .ok t') ↔ e ∈ t.entries) ∧
    (∀ t', t.remove e = .ok t' → t.Loses e t') ∧
    (e ∉ t.entries → t.remove e = .error (.unknownCommand e.command.usage)) ∧
    t.removeInPlace e = match t.remove e with
      | .ok t' => (t', .ok ())
      | .error err => (t, .error err) := by
  have hhandle : ∀ x ∈ t.entries, x.serial = e.serial → x = e := by
    intro x hx hsame
    rcases he with ⟨s, hs, he⟩ | hnone
    · exact h.numbered.known s hs e he x hx hsame
    · exact absurd hsame (hnone x hx)
  have hloses : ∀ t', t.remove e = .ok t' → t.Loses e t' := fun t' => h.loses_of_remove hhandle
  have hiff : (∃ t', t.remove e = .ok t') ↔ e ∈ t.entries := by
    constructor
    · rintro ⟨t', hremove⟩
      obtain ⟨front, back, hentries, -⟩ := (hloses t' hremove).entries
      rw [hentries]
      exact List.mem_append_right _ List.mem_cons_self
    · exact Reachable.exists_remove ⟨past, h⟩ hunlocked
  refine ⟨hiff, hloses, ?_, t.removeInPlace_eq e⟩
  intro hunknown
  cases hremove : t.remove e with
  | ok t' => exact absurd (hiff.mp ⟨t', hremove⟩) hunknown
  | error err => rw [remove_eq_error hunlocked hremove]

/-- A tree with three words. -/
def market : Tree :=
  ((apply {} (.addWord "give")).apply (.addWord "take")).apply (.addWord "grab")

theorem market_history : ∃ past, History market past :=
  ⟨_, (((History.fresh (t := {}) rfl).edit (.addWord "give")).edit (.addWord "take")).edit
    (.addWord "grab")⟩

/-- Taking `take` away leaves the words around it. -/
theorem History.remove_exact_take :
    ∃ e t', market.remove e = .ok t' ∧ market.Loses e t' ∧
      market.entries.map (·.serial) = [0, 1, 2] ∧ t'.entries.map (·.serial) = [0, 2] := by
  obtain ⟨past, hpast⟩ := market_history
  let e : Entry := ⟨1, { components := [.literal { name := "take" }] }⟩
  have hmem : e ∈ market.entries := List.mem_of_getElem? (show market.entries[1]? = some e from rfl)
  obtain ⟨t', hremove, hleft⟩ :
      ∃ t', market.remove e = .ok t' ∧ t'.entries.map (·.serial) = [0, 2] :=
    ⟨_, rfl, by decide +kernel⟩
  obtain ⟨-, hloses, -, -⟩ := hpast.remove_exact rfl (Or.inl ⟨market, List.mem_cons_self, hmem⟩)
  exact ⟨e, t', hremove, hloses t' hremove, by decide +kernel, hleft⟩

end Tree

end CommandLine
