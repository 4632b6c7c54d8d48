import CommandLine.Proofs.Tree.Filings
import Mathlib.Data.List.Flatten

/-! # The numbers of commands

    A tree numbers the commands that are added to it, and never gives a number twice: whatever has
    the number of one of its commands, now or in an earlier state, is that command
    (`Tree.History.numbered`). So a number stands for a command as a handle of it does. -/

namespace CommandLine

namespace Node

/-- What an insertion does to the commands at a place: some are replaced, and one comes last. -/
theorem settle_eq (rules : Rules) (e : Entry) (ending : List Entry) :
    settle rules e ending = ending.filter (fun old =>
      !(rules.replaceCommands && sameSenders e.command old)) ++ [e] := by
  rw [settle]
  cases rules.replaceCommands with
  | true => rfl
  | false =>
      rw [if_neg Bool.false_ne_true]
      simp only [Bool.false_and, Bool.not_false, List.filter_true]

/-- With some of its literals a node has some of its commands. -/
theorem entries_sublist {n : Node} {literals : List (Literal × Node)}
    (hsub : literals.Sublist n.literals) :
    (entries { n with literals }).Sublist n.entries := by
  obtain ⟨ending, all, argument, flags⟩ := n
  simp only [entries, literalEntries_eq]
  have hbelow := hsub.flatMap fun edge => edge.2.entries
  exact ((hbelow.append_left _).append_right _).append_right _

end Node

/-- A change at one place, by the commands alone. -/
theorem Filing.ChangesAt.map_entry {place : Place} {old new : List Entry} {n n' : Node}
    (h : Filing.ChangesAt place old new n.filings n'.filings) :
    ∃ front back, n.entries = front ++ old ++ back ∧ n'.entries = front ++ new ++ back := by
  obtain ⟨front, back, hbefore, hafter, -⟩ := h
  refine ⟨front.map (·.entry), back.map (·.entry), ?_, ?_⟩
  · rw [← n.map_entry_filings, hbefore, List.map_append, List.map_append, map_entry_allAt]
  · rw [← n'.map_entry_filings, hafter, List.map_append, List.map_append, map_entry_allAt]

/-- The commands at the place of a change are among those of the node. -/
theorem Filing.ChangesAt.old_sublist {place : Place} {old new : List Entry} {n n' : Node}
    (h : Filing.ChangesAt place old new n.filings n'.filings) : old.Sublist n.entries := by
  obtain ⟨front, back, hbefore, -⟩ := h.map_entry
  rw [hbefore]
  exact (List.sublist_append_right front old).trans (List.sublist_append_left _ back)

namespace Tree

/-- What one edit does to the commands of a tree and to the next number: some commands may fall
    out, and one that gets the number may come in. -/
inductive Renumbers (t t' : Tree) : Prop where
  | kept (sublist : t'.entries.Sublist t.entries) (next : t'.nextSerial = t.nextSerial)
  | added {front back : List Entry} {e : Entry} (entries : t'.entries = front ++ e :: back)
      (sublist : (front ++ back).Sublist t.entries) (serial : e.serial = t.nextSerial)
      (next : t'.nextSerial = t.nextSerial + 1)

theorem apply_renumbers {t : Tree} (ht : t.Reachable) (edit : Edit) :
    t.Renumbers (t.apply edit) := by
  have hkept : t.Renumbers t := .kept (List.Sublist.refl _) rfl
  cases edit with
  | insert c =>
      simp only [apply]
      split
      · next t' e h =>
          obtain ⟨rfl, -, hinserted, hshape⟩ := insert_ok h
          obtain ⟨place, old, hchange, -⟩ := hinserted.changes ht.orderly
          obtain ⟨front, back, hbefore, hafter⟩ := hchange.map_entry
          rw [Node.settle_eq, ← List.append_assoc, List.append_assoc, List.singleton_append]
            at hafter
          refine .added hafter ?_ rfl (by rw [hshape])
          show List.Sublist _ t.root.entries
          rw [hbefore]
          exact (List.filter_sublist.append_left front).append_right back
      · exact hkept
  | remove e =>
      simp only [apply]
      split
      · next t' h =>
          obtain ⟨hremoved, hshape⟩ := remove_ok h
          obtain ⟨place, old, new, hchange, hfound⟩ := hremoved.changes ht.orderly
          obtain ⟨front, back, hbefore, hafter⟩ := hchange.map_entry
          refine .kept ?_ (by rw [hshape])
          show List.Sublist t'.root.entries t.root.entries
          rw [hbefore, hafter]
          exact ((Node.withoutEntry_sublist hfound).append_left front).append_right back
      · exact hkept
  | removeRoot name =>
      simp only [apply]
      split
      · next t' entries h =>
          rw [removeRoot_ok h]
          refine .kept ?_ rfl
          exact Node.entries_sublist List.eraseP_sublist
      · exact hkept
  | lock => exact .kept (List.Sublist.refl _) rfl
  | replaceCommands b => exact .kept (List.Sublist.refl _) rfl
  | ignoreLock b => exact .kept (List.Sublist.refl _) rfl

/-- The numbers of the commands of a tree are those of no other commands that it has had. -/
structure Numbered (t : Tree) (states : List Tree) : Prop where
  nodup : (t.entries.map (·.serial)).Nodup
  below : ∀ s ∈ states, ∀ x ∈ s.entries, x.serial < t.nextSerial
  known : ∀ s ∈ states, ∀ x ∈ s.entries, ∀ y ∈ t.entries, y.serial = x.serial → y = x

theorem Renumbers.numbered {t t' : Tree} {states : List Tree} (h : t.Renumbers t')
    (ht : t.Numbered states) (hnow : t ∈ states) : t'.Numbered (t' :: states) := by
  cases h with
  | kept sublist next =>
      refine ⟨ht.nodup.sublist (sublist.map _), ?_, ?_⟩
      · rw [next]
        refine List.forall_mem_cons.mpr ⟨?_, ht.below⟩
        exact fun x hx => ht.below t hnow x (sublist.subset hx)
      · refine List.forall_mem_cons.mpr ⟨?_, ?_⟩
        · exact fun x hx y hy => ht.known t hnow x (sublist.subset hx) y (sublist.subset hy)
        · exact fun s hs x hx y hy => ht.known s hs x hx y (sublist.subset hy)
  | @added front back e entries sublist serial next =>
      -- the number of the new command is one that none has had
      have hfresh : ∀ s ∈ states, ∀ x ∈ s.entries, x.serial ≠ e.serial := by
        intro s hs x hx hsame
        have hlt := ht.below s hs x hx
        rw [hsame, serial] at hlt
        exact Nat.lt_irrefl _ hlt
      have hmem : ∀ x, x ∈ t'.entries → x = e ∨ x ∈ t.entries := by
        intro x hx
        rw [entries] at hx
        rcases List.mem_append.mp hx with hx | hx
        · exact Or.inr (sublist.subset (List.mem_append_left _ hx))
        · rcases List.mem_cons.mp hx with rfl | hx
          · exact Or.inl rfl
          · exact Or.inr (sublist.subset (List.mem_append_right _ hx))
      refine ⟨?_, ?_, ?_⟩
      · have hold := ht.nodup.sublist (sublist.map (·.serial))
        rw [entries, List.map_append, List.map_cons, List.nodup_middle, List.nodup_cons,
          ← List.map_append]
        refine ⟨fun hin => ?_, hold⟩
        obtain ⟨x, hx, hsame⟩ := List.mem_map.mp hin
        exact hfresh t hnow x (sublist.subset hx) hsame
      · rw [next]
        refine List.forall_mem_cons.mpr ⟨fun x hx => ?_, fun s hs x hx => ?_⟩
        · rcases hmem x hx with rfl | hx
          · omega
          · exact Nat.lt_succ_of_lt (ht.below t hnow x hx)
        · exact Nat.lt_succ_of_lt (ht.below s hs x hx)
      · refine List.forall_mem_cons.mpr ⟨fun x hx y hy hsame => ?_, fun s hs x hx y hy hsame => ?_⟩
        · rcases hmem x hx with rfl | hx <;> rcases hmem y hy with rfl | hy
          · rfl
          · exact absurd hsame (hfresh t hnow y hy)
          · exact absurd hsame.symm (hfresh t hnow x hx)
          · exact ht.known t hnow x hx y hy hsame
        · rcases hmem y hy with rfl | hy
          · exact absurd hsame.symm (hfresh s hs x hx)
          · exact ht.known s hs x hx y hy hsame

/-- No number is given twice. -/
theorem History.numbered {t : Tree} {past : List Tree} (h : History t past) :
    t.Numbered (t :: past) := by
  induction h with
  | @fresh t bare =>
      have hnone : t.entries = [] := by
        rw [Tree.entries, bare]
        rfl
      constructor <;> simp [hnone]
  | edit before edit ih =>
      exact (apply_renumbers ⟨_, before⟩ edit).numbered ih List.mem_cons_self

end Tree

end CommandLine
