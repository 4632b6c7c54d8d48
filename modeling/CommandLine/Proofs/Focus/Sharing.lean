import CommandLine.Proofs.Focus.Bounds

/-! # What suggestions share

    What is filled in where several suggestions are found is what all of them start with, and the
    longest such text (`Completion.Shared`). It is found by comparing characters, never bytes, so it
    ends between two characters of every suggestion. It is filled in if it has more bytes than what
    it replaces (`Completion.respond_filled_iff`). -/

namespace CommandLine

open Text

namespace Completion

/-! ## Common starts -/

theorem commonStart_prefix (a b : List Char) :
    commonStart a b <+: a ∧ commonStart a b <+: b := by
  fun_induction commonStart a b with
  | case1 a as bs ih =>
    obtain ⟨h1, h2⟩ := ih
    exact ⟨List.cons_prefix_cons.mpr ⟨rfl, h1⟩, List.cons_prefix_cons.mpr ⟨rfl, h2⟩⟩
  | case2 => exact ⟨List.nil_prefix, List.nil_prefix⟩
  | case3 => exact ⟨List.nil_prefix, List.nil_prefix⟩

/-- What two texts start with is a start of their common start. -/
theorem prefix_commonStart {start a b : List Char} (ha : start <+: a) (hb : start <+: b) :
    start <+: commonStart a b := by
  induction start generalizing a b with
  | nil => exact List.nil_prefix
  | cons c start ih =>
      obtain ⟨as, rfl⟩ := ha
      obtain ⟨bs, rfl⟩ := hb
      rw [List.cons_append, List.cons_append, commonStart, if_pos rfl]
      exact List.cons_prefix_cons.mpr
        ⟨rfl, ih (List.prefix_append start as) (List.prefix_append start bs)⟩

/-- What is left of a start after some texts is a start of it and of each of them. -/
theorem foldl_commonStart_prefix (start : List Char) (list : List Suggestion) :
    list.foldl (fun start s => commonStart start s.value.toList) start <+: start ∧
      ∀ s ∈ list, list.foldl (fun start s => commonStart start s.value.toList) start <+:
        s.value.toList := by
  induction list generalizing start with
  | nil => exact ⟨List.prefix_rfl, by simp⟩
  | cons s list ih =>
      obtain ⟨hstart, hothers⟩ := ih (commonStart start s.value.toList)
      obtain ⟨hleft, hright⟩ := commonStart_prefix start s.value.toList
      refine ⟨hstart.trans hleft, List.forall_mem_cons.mpr ⟨hstart.trans hright, hothers⟩⟩

/-- What a start and some texts start with is not lost from it. -/
theorem prefix_foldl_commonStart {common start : List Char} {list : List Suggestion}
    (hstart : common <+: start) (hlist : ∀ s ∈ list, common <+: s.value.toList) :
    common <+: list.foldl (fun start s => commonStart start s.value.toList) start := by
  induction list generalizing start with
  | nil => exact hstart
  | cons s list ih =>
      obtain ⟨hs, hothers⟩ := List.forall_mem_cons.mp hlist
      exact ih (prefix_commonStart hstart hs) hothers

/-- The longest common start of some suggestions. -/
def sharedBy : List Suggestion → List Char
  | [] => []
  | first :: others =>
    others.foldl (fun start s => commonStart start s.value.toList) first.value.toList

theorem sharedBy_prefix {list : List Suggestion} {s : Suggestion} (hs : s ∈ list) :
    sharedBy list <+: s.value.toList := by
  cases list with
  | nil => cases hs
  | cons first others =>
      obtain ⟨hfirst, hothers⟩ := foldl_commonStart_prefix first.value.toList others
      rcases List.mem_cons.mp hs with rfl | hs
      · exact hfirst
      · exact hothers s hs

theorem prefix_sharedBy {list : List Suggestion} {common : List Char} (hsome : list ≠ [])
    (h : ∀ s ∈ list, common <+: s.value.toList) : common <+: sharedBy list := by
  cases list with
  | nil => exact absurd rfl hsome
  | cons first others =>
      obtain ⟨hfirst, hothers⟩ := List.forall_mem_cons.mp h
      exact prefix_foldl_commonStart hfirst hothers

/-- A text that all suggestions start with, and no longer text is. -/
structure Shared (shared : List Char) (list : List Suggestion) : Prop where
  common : ∀ s ∈ list, shared <+: s.value.toList
  longest : ∀ common, (∀ s ∈ list, common <+: s.value.toList) → common.length ≤ shared.length

variable {list : List Suggestion} {shared : List Char}

theorem shared_sharedBy (hsome : list ≠ []) : Shared (sharedBy list) list where
  common := fun _ hs => sharedBy_prefix hs
  longest := fun _ h => (prefix_sharedBy hsome h).length_le

/-- Only one text is the longest that all suggestions start with. -/
theorem Shared.eq_sharedBy (h : Shared shared list) (hsome : list ≠ []) :
    shared = sharedBy list :=
  (prefix_sharedBy hsome h.common).eq_of_length_le (h.longest _ fun _ hs => sharedBy_prefix hs)

/-! ## What is filled in -/

theorem sharedStart_eq (c : Completion) :
    c.sharedStart =
      if byteLength c.typed < byteLength (sharedBy c.list) then some (sharedBy c.list)
      else none := by
  rw [sharedStart]
  cases c.list with
  | nil => exact (if_neg (Nat.not_lt_zero _)).symm
  | cons first others => rfl

/-- What is filled in is the longest common start of several suggestions, and is longer than what
    was typed. -/
theorem respond_eq_filled {c : Completion} {line : String} {list : List Suggestion}
    (h : c.respond = .filled line list) :
    list = c.list ∧ 1 < c.list.length ∧ byteLength c.typed < byteLength (sharedBy c.list) ∧
      line = c.splice (sharedBy c.list) := by
  rw [respond, sharedStart_eq] at h
  split at h
  · cases h
  · next hseveral =>
      split at h
      · next shared hshared =>
          obtain ⟨hlonger, hshared⟩ := Option.ite_none_right_eq_some.mp hshared
          cases hshared
          cases h
          exact ⟨rfl, by omega, hlonger, rfl⟩
      · cases h

theorem respond_eq_choices {c : Completion}
    (h : byteLength (sharedBy c.list) ≤ byteLength c.typed) : c.respond = .choices c.list := by
  rw [respond, sharedStart_eq, if_neg (Nat.not_lt.mpr h)]
  split <;> rfl

/-- There is a shared start exactly if there are suggestions and the longest text that all of them
    start with has more bytes than what it replaces, and it is that text. -/
theorem sharedStart_eq_some_iff {c : Completion} :
    c.sharedStart = some shared ↔
      c.list ≠ [] ∧ Shared shared c.list ∧ byteLength c.typed < byteLength shared := by
  rw [sharedStart_eq, Option.ite_none_right_eq_some]
  constructor
  · rintro ⟨hlonger, hshared⟩
    cases hshared
    have hsome : c.list ≠ [] := by
      intro hnil
      rw [hnil] at hlonger
      exact absurd hlonger (Nat.not_lt_zero _)
    exact ⟨hsome, shared_sharedBy hsome, hlonger⟩
  · rintro ⟨hsome, hshared, hlonger⟩
    obtain rfl := hshared.eq_sharedBy hsome
    exact ⟨hlonger, rfl⟩

/-- The shared start of several suggestions is filled in. -/
theorem respond_of_sharedStart {c : Completion} (hseveral : 2 ≤ c.list.length)
    (hshared : c.sharedStart = some shared) : c.respond = .filled (c.splice shared) c.list := by
  rw [respond, if_neg (by omega), hshared]

theorem respond_of_not_shared {c : Completion}
    (h : ¬(2 ≤ c.list.length ∧ ∃ shared, c.sharedStart = some shared)) :
    c.respond = .choices c.list := by
  rw [respond]
  split
  · rfl
  · next hseveral =>
      cases hshared : c.sharedStart with
      | none => rfl
      | some shared => exact absurd ⟨by omega, shared, hshared⟩ h

/-- Every suggestion in place of the range goes on with the shared start. -/
theorem prefix_of_mem_fullLines {c : Completion} (hshared : c.sharedStart = some shared)
    {full : String} (hfull : full ∈ c.fullLines) : c.front ++ shared <+: full.toList := by
  obtain ⟨-, hlongest, -⟩ := sharedStart_eq_some_iff.mp hshared
  obtain ⟨s, hs, rfl⟩ := List.mem_map.mp hfull
  rw [fullLine, splice, String.toList_ofList, List.append_assoc, List.prefix_append_right_inj]
  exact (hlongest.common s hs).trans (List.prefix_append _ _)

/-- Let the range of a completion cut its text into `front`, `middle` and `back`. There is a longest
    text that all suggestions start with, if there are any; exactly if it has more bytes than
    `middle`, there is a shared start, and it is that text. Exactly if it is shared by at least two
    suggestions, a line is filled in: the shared start stands in it in place of `middle`, and the
    suggestions are the same. Otherwise they are only shown. All lines that are completed with a
    suggestion start with `front` and the shared start. -/
theorem respond_filled_iff {c : Completion} {front middle back : List Char}
    (htext : c.input.toList = front ++ (middle ++ back)) (hstart : c.start = byteLength front)
    (hstop : c.stop = byteLength front + byteLength middle) :
    (c.list ≠ [] → ∃ shared, Shared shared c.list) ∧
      (∀ shared, c.sharedStart = some shared ↔
        c.list ≠ [] ∧ Shared shared c.list ∧ byteLength middle < byteLength shared) ∧
      (∀ line list, c.respond = .filled line list ↔
        2 ≤ c.list.length ∧ list = c.list ∧
          ∃ shared, c.sharedStart = some shared ∧
            line = String.ofList (front ++ (shared ++ back))) ∧
      (¬(2 ≤ c.list.length ∧ ∃ shared, c.sharedStart = some shared) →
        c.respond = .choices c.list) ∧
      ∀ shared, c.sharedStart = some shared →
        ∀ full ∈ c.fullLines, front ++ shared <+: full.toList := by
  obtain ⟨hfront, hmiddle, hback⟩ := parts_eq htext hstart hstop
  have hsplice (shared : List Char) :
      c.splice shared = String.ofList (front ++ (shared ++ back)) := by
    rw [splice, hfront, hback, List.append_assoc]
  refine ⟨fun hsome => ⟨_, shared_sharedBy hsome⟩, fun shared => ?_, fun line list => ?_,
    respond_of_not_shared, fun shared hshared full hfull => ?_⟩
  · rw [← hmiddle]
    exact sharedStart_eq_some_iff
  · constructor
    · intro h
      by_cases hshared : 2 ≤ c.list.length ∧ ∃ shared, c.sharedStart = some shared
      · obtain ⟨hseveral, shared, hshared⟩ := hshared
        rw [respond_of_sharedStart hseveral hshared, hsplice] at h
        cases h
        exact ⟨hseveral, rfl, shared, hshared, rfl⟩
      · rw [respond_of_not_shared hshared] at h
        cases h
    · rintro ⟨hseveral, rfl, shared, hshared, rfl⟩
      rw [respond_of_sharedStart hseveral hshared, hsplice]
  · rw [← hfront]
    exact prefix_of_mem_fullLines hshared hfull

/-- Two names that differ in the second byte of one letter share what is in front of the letter. In
    the middle of a line it is filled in, and what is behind stays. -/
theorem respond_filled_iff_wear :
    let c : Completion := ⟨"wear c now", 5, 6, [.ofText "cafés", .ofText "cafèd"]⟩
    c.input.toList = "wear ".toList ++ (['c'] ++ " now".toList) ∧
      c.start = byteLength "wear ".toList ∧
      c.stop = byteLength "wear ".toList + byteLength ['c'] ∧
      c.respond = .filled "wear caf now" c.list ∧
      ∀ full ∈ c.fullLines, "wear caf".toList <+: full.toList := by
  intro c
  have htext : c.input.toList = "wear ".toList ++ (['c'] ++ " now".toList) := by decide +kernel
  have hstart : c.start = byteLength "wear ".toList := by decide +kernel
  have hstop : c.stop = byteLength "wear ".toList + byteLength ['c'] := by decide +kernel
  have hshared : c.sharedStart = some "caf".toList := by decide +kernel
  obtain ⟨-, -, hfilled, -, hlines⟩ := respond_filled_iff htext hstart hstop
  refine ⟨htext, hstart, hstop, ?_, hlines _ hshared⟩
  exact (hfilled _ _).mpr ⟨by decide, rfl, _, hshared, by decide +kernel⟩

end Completion

end CommandLine
