import CommandLine.Proofs.Tree.Creation
import CommandLine.Proofs.Tree.Ordering

/-! # The names that literals answer to

    A literal below a node is shared by all commands that go along it, and takes over the aliases
    that each of them has for it. No edit takes a name from it again: a removed or replaced command
    leaves its names behind for as long as some other command keeps the literal there
    (`Tree.alias_outlives_command`). So the names of a literal are not those of the commands that go
    along it now, but of all that have done so since it was created, which is read off the history
    (`Tree.History.findLiteral_iff`).

    Names are the same at registration when their lowercase forms are, whereas a token is compared
    up to the case of ASCII letters. Where a token differs from a name in the case of another letter
    only, the literal may know the name under a form that the token does not match. -/

namespace CommandLine

/-- A token that one of the names of a literal selects has the key of one of them. -/
theorem Literal.answers_iff_of_folds {ignoreCase : Bool} {token : String} {l : Literal}
    (hfolds : ignoreCase = true → ∀ name ∈ l.names,
      Text.lowercase name = Text.lowercase token → Text.sameUpToCase name token = true) :
    l.answers ignoreCase token = true ↔ key ignoreCase token ∈ l.keys ignoreCase := by
  refine ⟨Node.key_mem_keys_of_answers, fun hkey => ?_⟩
  obtain ⟨name, hname, hsame⟩ := List.mem_map.mp hkey
  refine List.any_eq_true.mpr ⟨name, hname, ?_⟩
  cases ignoreCase with
  | false => exact beq_iff_eq.mpr hsame
  | true => exact hfolds rfl name hname hsame

namespace Node

variable {n n' : Node}

/-! ## Places of a node -/

/-- What holds of all nodes holds where turns lead to, if it holds of the node without commands. -/
theorem Everywhere.follow {P : Node → Prop} (hempty : P .empty) (h : n.Everywhere P)
    (path : List Turn) : P (n.follow path) := by
  induction path generalizing n with
  | nil => exact h.here
  | cons turn path ih =>
      have hbare : P (Node.follow .empty path) := by rwa [follow_empty]
      show P ((n.enter turn).follow path)
      cases turn with
      | literal name =>
          simp only [enter]
          cases hfound : n.literals.find? (·.1.name == name) with
          | none => exact hbare
          | some edge => exact ih (h.literal (List.mem_of_find?_eq_some hfound))
      | argument =>
          simp only [enter]
          cases hargument : n.argument with
          | none => exact hbare
          | some edge => exact ih (h.argument hargument)

theorem follow_append (n : Node) (path more : List Turn) :
    n.follow (path ++ more) = (n.follow path).follow more :=
  List.foldl_append ..

/-- Where names differ, a turn to the name of a literal leads below it. -/
theorem enter_of_mem (hnodup : n.names.Nodup) {l : Literal} {child : Node}
    (hedge : (l, child) ∈ n.literals) : n.enter (.literal l.name) = child := by
  rw [enter, find_name_of_mem hnodup hedge rfl]
  rfl

/-- The commands where turns lead to are filed along as many edges. -/
theorem leads_of_follow {path : List Turn} {back : List Component} {ending : List Entry}
    {e : Entry} (h : (n.follow path).Leads back ending) (he : e ∈ ending) :
    ∃ front, front.length = path.length ∧ n.Leads (front ++ back) ending := by
  induction path generalizing n with
  | nil => exact ⟨[], rfl, h⟩
  | cons turn path ih =>
      obtain ⟨front, hlength, hleads⟩ := ih (n := n.enter turn) h
      -- no command is where an edge is missing
      have hbare : n.enter turn ≠ .empty := by
        intro hnone
        rw [hnone] at hleads
        rw [(leads_empty hleads).2] at he
        cases he
      cases turn with
      | literal name =>
          simp only [enter] at hleads hbare
          cases hfound : n.literals.find? (·.1.name == name) with
          | none => simp [hfound] at hbare
          | some edge =>
              rw [hfound] at hleads
              exact ⟨.literal edge.1 :: front, congrArg (· + 1) hlength,
                .literal (List.mem_of_find?_eq_some hfound) hleads⟩
      | argument =>
          simp only [enter] at hleads hbare
          cases hargument : n.argument with
          | none => simp [hargument] at hbare
          | some edge =>
              rw [hargument] at hleads
              exact ⟨.argument edge.1 :: front, congrArg (· + 1) hlength,
                .argument hargument hleads⟩

/-! ## Where literals come from -/

/-- Where a literal at a place comes from when an entry has been added along components: it was
    there before, or has taken over the aliases of one of the components, or is one of them. -/
inductive Stems (rules : Rules) (e : Entry) (components : List Component) (n : Node)
    (path : List Turn) : Literal × Node → Prop where
  | old {l : Literal} {child child' : Node} (edge : (l, child) ∈ (n.follow path).literals) :
      Stems rules e components n path (l, child')
  | merged {l own : Literal} {child child' : Node} (edge : (l, child) ∈ (n.follow path).literals)
      (taken : components[path.length]? = some (.literal own)) (below : e ∈ child'.entries) :
      Stems rules e components n path (l.merge rules.ignoreCase own, child')
  | new {own : Literal} {child' : Node} (fresh : own.name ∉ (n.follow path).names)
      (taken : components[path.length]? = some (.literal own)) (below : e ∈ child'.entries) :
      Stems rules e components n path (own, child')

section Stems

variable {rules : Rules} {e : Entry} {components : List Component} {path : List Turn}
  {edge : Literal × Node}

theorem Stems.unchanged (hedge : edge ∈ (n.follow path).literals) :
    Stems rules e components n path edge :=
  .old hedge

/-- What stems from below an edge that the first of the components takes. -/
theorem Stems.below {c : Component} {turn : Turn}
    (h : Stems rules e components (n.enter turn) path edge) :
    Stems rules e (c :: components) n (turn :: path) edge := by
  cases h with
  | old hedge => exact .old hedge
  | merged hedge taken below => exact .merged hedge taken below
  | new fresh taken below => exact .new fresh taken below

/-- Where no literal changes, literals stem from below the argument. -/
theorem Stems.of_argument {c : Component} (hedge : edge ∈ (n'.follow path).literals)
    (hliterals : n'.literals = n.literals)
    (hargument : ∀ path, edge ∈ ((n'.enter .argument).follow path).literals →
      Stems rules e components (n.enter .argument) path edge) :
    Stems rules e (c :: components) n path edge := by
  cases path with
  | nil => exact .unchanged (hliterals ▸ hedge)
  | cons turn path =>
      cases turn with
      | argument => exact (hargument path hedge).below
      | literal name =>
          have hsame : n'.enter (.literal name) = n.enter (.literal name) := by
            rw [enter, enter, hliterals]
          refine .unchanged (?_ : edge ∈ ((n.enter (.literal name)).follow path).literals)
          rw [← hsame]
          exact hedge

/-- Where no child changes, no literal does. -/
theorem Stems.of_children (hedge : edge ∈ (n'.follow path).literals)
    (hliterals : n'.literals = n.literals) (hargument : n'.argument = n.argument) :
    Stems rules e components n path edge := by
  cases path with
  | nil => exact .unchanged (hliterals ▸ hedge)
  | cons turn path =>
      have hsame : n'.enter turn = n.enter turn := by
        cases turn <;> simp only [enter, hliterals, hargument]
      refine .unchanged (?_ : edge ∈ ((n.enter turn).follow path).literals)
      rw [← hsame]
      exact hedge

/-- The literals at all places after an insertion. -/
theorem Inserted.stems (h : Inserted rules e components n n')
    (hedge : edge ∈ (n'.follow path).literals) : Stems rules e components n path edge := by
  induction h generalizing path with
  | here _ => exact .of_children hedge rfl rfl
  | @newLiteral l rest n child _ vacant below ih =>
      cases path with
      | nil =>
          rcases List.mem_append.mp hedge with hedge | hedge
          · exact .unchanged hedge
          · obtain rfl := List.mem_singleton.mp hedge
            refine .new ?_ rfl below.mem_entries
            -- an edge of the same name would have been shared
            intro hmem
            obtain ⟨other, hother, hname⟩ := List.mem_map.mp hmem
            have hshares : shares rules.ignoreCase l other = true := shares_iff.mpr (by rw [hname])
            rw [vacant other hother] at hshares
            cases hshares
      | cons turn path =>
          cases turn with
          | argument => exact .unchanged hedge
          | literal name =>
              have hedge : edge ∈ (Node.follow (enter { n with literals := n.literals ++ [(l, child)] }
                (.literal name)) path).literals := hedge
              rcases enter_append n l child name with hsame | ⟨hnone, hchild⟩
              · rw [hsame] at hedge
                exact .unchanged hedge
              · rw [hchild] at hedge
                refine .below ?_
                rw [hnone]
                exact ih hedge
  | @sharedLiteral l old rest n child child' before after _ split _ _ below ih =>
      cases path with
      | nil =>
          rcases List.mem_append.mp hedge with hedge | hedge
          · exact .unchanged (show edge ∈ n.literals by simp [split, hedge])
          · rcases List.mem_cons.mp hedge with rfl | hedge
            · exact .merged (show (old, child) ∈ n.literals by simp [split]) rfl below.mem_entries
            · exact .unchanged (show edge ∈ n.literals by simp [split, hedge])
      | cons turn path =>
          cases turn with
          | argument => exact .unchanged hedge
          | literal name =>
              have hedge : edge ∈ (Node.follow (enter { n with
                literals := before ++ (old.merge rules.ignoreCase l, child') :: after }
                (.literal name)) path).literals := hedge
              have hname : (old.merge rules.ignoreCase l).name = old.name := rfl
              rcases enter_replace split hname child' name with hsame | ⟨hchild, hchild'⟩
              · rw [hsame] at hedge
                exact .unchanged hedge
              · rw [hchild'] at hedge
                refine .below ?_
                rw [hchild]
                exact ih hedge
  | newArgument vacant _ ih =>
      refine .of_argument hedge rfl fun path hbelow => ?_
      simp only [enter, vacant]
      exact ih hbelow
  | sharedArgument taken _ _ ih =>
      refine .of_argument hedge rfl fun path hbelow => ?_
      simp only [enter, taken]
      exact ih hbelow
  | newFlags _ => exact .of_children hedge rfl rfl
  | sharedFlags _ _ _ => exact .of_children hedge rfl rfl

end Stems

/-! ## Literals that stay -/

/-- The literals at all places were there before, with the same names. -/
def Keeps (n n' : Node) : Prop :=
  ∀ path l child', (l, child') ∈ (n'.follow path).literals →
    ∃ child, (l, child) ∈ (n.follow path).literals

theorem Keeps.refl (n : Node) : n.Keeps n :=
  fun _ _ _ hedge => ⟨_, hedge⟩

theorem keeps_empty (n : Node) : n.Keeps empty := by
  intro path l child' hedge
  rw [follow_empty] at hedge
  cases hedge

/-- Literals stay everywhere when they do at a node and below each of its edges. -/
theorem Keeps.intro (here : ∀ l child', (l, child') ∈ n'.literals → ∃ child, (l, child) ∈ n.literals)
    (turns : ∀ turn, (n.enter turn).Keeps (n'.enter turn)) : n.Keeps n' := by
  intro path
  cases path with
  | nil => exact here
  | cons turn path => exact turns turn path

/-- Where no literal changes, only those below the argument can. -/
theorem Keeps.of_argument (hliterals : n'.literals = n.literals)
    (hargument : (n.enter .argument).Keeps (n'.enter .argument)) : n.Keeps n' := by
  refine .intro (fun l child' hedge => ⟨child', hliterals ▸ hedge⟩) fun turn => ?_
  cases turn with
  | argument => exact hargument
  | literal name =>
      rw [enter, enter, hliterals]
      exact Keeps.refl _

/-- Where no child changes, no literal does. -/
theorem Keeps.of_children (hliterals : n'.literals = n.literals)
    (hargument : n'.argument = n.argument) : n.Keeps n' := by
  refine .of_argument hliterals ?_
  rw [enter, enter, hargument]
  exact Keeps.refl _

/-- Some of the literals of a node, and what is below them. -/
theorem keeps_sublist (hnodup : n.names.Nodup) {literals : List (Literal × Node)}
    (hsub : literals.Sublist n.literals) : n.Keeps { n with literals } := by
  refine .intro (fun l child' hedge => ⟨child', hsub.subset hedge⟩) fun turn => ?_
  cases turn with
  | argument => exact Keeps.refl _
  | literal name =>
      rcases enter_sublist hnodup hsub name with hsame | hnone
      · rw [hsame]
        exact Keeps.refl _
      · rw [hnone]
        exact keeps_empty _

theorem Removed.keeps {ignoreCase : Bool} {serial : Nat} {components : List Component}
    (h : Removed ignoreCase serial components n n') (hn : n.Everywhere (Orderly ignoreCase)) :
    n.Keeps n' := by
  induction h with
  | here _ => exact .of_children rfl rfl
  | @literal l old rest n child child' before after split _ _ ih =>
      have hchild := ih (hn.literal (show (old, child) ∈ n.literals by simp [split]))
      rcases keep_cases old child' with ⟨-, hkeep⟩ | ⟨-, hkeep⟩
      · apply keeps_sublist hn.here.names_nodup
        rw [hkeep, split, Option.toList_none, List.append_nil]
        exact (List.Sublist.refl before).append (List.sublist_cons_self _ after)
      · rw [hkeep, Option.toList_some, List.append_assoc, List.singleton_append]
        refine .intro (fun l below hedge => ?_) fun turn => ?_
        · rw [split]
          rcases List.mem_append.mp hedge with hedge | hedge
          · exact ⟨below, List.mem_append_left _ hedge⟩
          · rcases List.mem_cons.mp hedge with hedge | hedge
            · cases hedge
              exact ⟨child, List.mem_append_right _ List.mem_cons_self⟩
            · exact ⟨below, List.mem_append_right _ (List.mem_cons_of_mem _ hedge)⟩
        · cases turn with
          | argument => exact Keeps.refl _
          | literal name =>
              rcases enter_replace split rfl child' name with hsame | ⟨hold, hnew⟩
              · rw [hsame]
                exact Keeps.refl _
              · rw [hold, hnew]
                exact hchild
  | @argument a old rest n child child' taken _ _ ih =>
      have hchild := ih (hn.argument taken)
      refine .of_argument rfl ?_
      rcases keep_cases old child' with ⟨-, hkeep⟩ | ⟨-, hkeep⟩
      · simp only [enter, hkeep]
        exact keeps_empty _
      · simp only [enter, hkeep, taken]
        exact hchild
  | flags _ _ _ => exact .of_children rfl rfl

end Node

namespace Tree

/-- The literals after an edit were there before, or they stem from the components of a command that
    was added. -/
theorem Reshaped.keeps_or_stems {rules : Rules} {n n' : Node} (h : Reshaped rules n n')
    (hn : n.Everywhere (Node.Orderly rules.ignoreCase)) :
    n.Keeps n' ∨ ∃ e : Entry, ∀ path, ∀ edge ∈ (n'.follow path).literals,
      Node.Stems rules e e.command.components n path edge := by
  cases h with
  | unchanged => exact Or.inl (Node.Keeps.refl _)
  | @inserted e _ _ _ hinserted => exact Or.inr ⟨e, fun path edge hedge => hinserted.stems hedge⟩
  | removed hremoved => exact Or.inl (hremoved.keeps hn)
  | uprooted name => exact Or.inl (Node.keeps_sublist hn.here.names_nodup List.eraseP_sublist)

/-- Of some states, those from the first on in which the node after some turns has a literal of a
    name; their number is its `age`. -/
def lifetime (states : List Tree) (path : List Turn) (name : String) : List Tree :=
  states.takeWhile fun t => (t.root.follow path).names.contains name

theorem lifetime_cons_of_mem {t : Tree} {path : List Turn} {name : String}
    (h : name ∈ (t.root.follow path).names) (past : List Tree) :
    lifetime (t :: past) path name = t :: lifetime past path name := by
  have hhead : (t.root.follow path).names.contains name = true := List.contains_iff_mem.mpr h
  rw [lifetime, List.takeWhile_cons, if_pos hhead]
  rfl

theorem lifetime_cons_of_not_mem {t : Tree} {path : List Turn} {name : String}
    (h : name ∉ (t.root.follow path).names) (past : List Tree) :
    lifetime (t :: past) path name = [] := by
  have hhead : ¬ (t.root.follow path).names.contains name = true :=
    fun hmem => h (List.contains_iff_mem.mp hmem)
  rw [lifetime, List.takeWhile_cons, if_neg hhead]

/-- A command that goes along the literal of a name at a place has a literal of its own there. -/
def Calls (t : Tree) (path : List Turn) (name : String) (own : Literal) : Prop :=
  ∃ e ∈ (t.root.follow (path ++ [.literal name])).entries,
    e.command.components[path.length]? = some (.literal own)

/-- A literal has the keys of all commands that go along it. -/
theorem Reachable.keys_subset {t : Tree} (ht : t.Reachable) {path : List Turn} {l own : Literal}
    {child : Node} (hedge : (l, child) ∈ (t.root.follow path).literals)
    (hcalls : t.Calls path l.name own) :
    own.keys t.rules.ignoreCase ⊆ l.keys t.rules.ignoreCase := by
  obtain ⟨e, he, htaken⟩ := hcalls
  have hnodup := (ht.orderly.follow (Node.everywhere_orderly_empty _).here path).names_nodup
  rw [Node.follow_append] at he
  replace he : e ∈ ((t.root.follow path).enter (.literal l.name)).entries := he
  rw [Node.enter_of_mem hnodup hedge] at he
  -- the command is filed along the edge, which admits its own literal
  rw [← child.map_entry_filings] at he
  obtain ⟨f, hf, rfl⟩ := List.mem_map.mp he
  obtain ⟨back, ending, hback, hending, -⟩ := Node.mem_filings_iff.mp hf
  obtain ⟨front, hlength, hleads⟩ := Node.leads_of_follow (.literal hedge hback) hending
  obtain ⟨hlength', hadmits⟩ := List.forall₂_iff_get.mp (ht.filed.admits hleads _ hending)
  rw [← hlength] at htaken
  obtain ⟨hlt, hown⟩ := List.getElem?_eq_some_iff.mp htaken
  have hadmit := hadmits front.length (hlength'.symm ▸ hlt) hlt
  simp only [List.get_eq_getElem, hown, List.getElem_append_right (Nat.le_refl _), Nat.sub_self,
    List.getElem_cons_zero] at hadmit
  exact hadmit.2

/-- A literal has the names of the commands that have gone along it since it was created, each
    under its key, and no other. -/
structure Remembers (ignoreCase : Bool) (states : List Tree) (path : List Turn) (l : Literal) :
    Prop where
  names : ∀ name ∈ l.names,
    ∃ s ∈ lifetime states path l.name, ∃ own, s.Calls path l.name own ∧ name ∈ own.names
  keys : ∀ s ∈ lifetime states path l.name, ∀ own, s.Calls path l.name own →
    own.keys ignoreCase ⊆ l.keys ignoreCase

section Remembers

variable {ignoreCase : Bool} {t : Tree} {past : List Tree} {path : List Turn} {l own : Literal}

/-- What a literal remembers and the commands that go along it in one state more. -/
theorem Remembers.grow (h : Remembers ignoreCase past path l)
    (hmem : l.name ∈ (t.root.follow path).names)
    (hnow : ∀ own, t.Calls path l.name own → own.keys ignoreCase ⊆ l.keys ignoreCase) :
    Remembers ignoreCase (t :: past) path l := by
  constructor
  · intro name hname
    obtain ⟨s, hs, hcalls⟩ := h.names name hname
    rw [lifetime_cons_of_mem hmem]
    exact ⟨s, List.mem_cons_of_mem _ hs, hcalls⟩
  · rw [lifetime_cons_of_mem hmem, List.forall_mem_cons]
    exact ⟨hnow, h.keys⟩

/-- What a literal remembers that takes over the names of a command. -/
theorem Remembers.merge (h : Remembers ignoreCase past path l)
    (hmem : l.name ∈ (t.root.follow path).names) (hcalls : t.Calls path l.name own)
    (hnow : ∀ own', t.Calls path l.name own' →
      own'.keys ignoreCase ⊆ (l.merge ignoreCase own).keys ignoreCase) :
    Remembers ignoreCase (t :: past) path (l.merge ignoreCase own) := by
  have hlifetime := lifetime_cons_of_mem hmem past
  constructor
  · intro name hname
    show ∃ s ∈ lifetime (t :: past) path l.name, _
    rw [hlifetime]
    have hfrom : name ∈ l.names ∨ name ∈ own.names := by
      rcases List.mem_cons.mp hname with rfl | hname
      · exact Or.inl List.mem_cons_self
      · rcases List.mem_append.mp hname with hname | hname
        · exact Or.inl (List.mem_cons_of_mem _ hname)
        · exact Or.inr (List.mem_cons_of_mem _ (List.mem_filter.mp hname).1)
    rcases hfrom with hname | hname
    · obtain ⟨s, hs, hold⟩ := h.names name hname
      exact ⟨s, List.mem_cons_of_mem _ hs, hold⟩
    · exact ⟨t, List.mem_cons_self, own, hcalls, hname⟩
  · show ∀ s ∈ lifetime (t :: past) path l.name, _
    rw [hlifetime, List.forall_mem_cons]
    exact ⟨hnow, fun s hs own' hold =>
      List.Subset.trans (h.keys s hs own' hold) Node.keys_subset_merge⟩

/-- What a literal remembers that a command has put there. -/
theorem Remembers.new (hmem : l.name ∈ (t.root.follow path).names)
    (hfresh : ∀ s ∈ past.head?, l.name ∉ (s.root.follow path).names)
    (hcalls : t.Calls path l.name l)
    (hnow : ∀ own, t.Calls path l.name own → own.keys ignoreCase ⊆ l.keys ignoreCase) :
    Remembers ignoreCase (t :: past) path l := by
  have hlifetime : lifetime (t :: past) path l.name = [t] := by
    rw [lifetime_cons_of_mem hmem]
    cases past with
    | nil => rfl
    | cons s past => rw [lifetime_cons_of_not_mem (hfresh s rfl)]
  constructor
  · rw [hlifetime]
    exact fun name hname => ⟨t, List.mem_singleton_self t, l, hcalls, hname⟩
  · rw [hlifetime, List.forall_mem_singleton]
    exact hnow

end Remembers

/-- The commands below an edge whose command has a literal of its own there call the edge by it. -/
theorem Reachable.calls {t : Tree} (ht : t.Reachable) {path : List Turn} {l own : Literal}
    {child : Node} (hedge : (l, child) ∈ (t.root.follow path).literals) {e : Entry}
    (hbelow : e ∈ child.entries) (htaken : e.command.components[path.length]? = some (.literal own)) :
    t.Calls path l.name own := by
  have hnodup := (ht.orderly.follow (Node.everywhere_orderly_empty _).here path).names_nodup
  refine ⟨e, ?_, htaken⟩
  rw [Node.follow_append]
  show e ∈ ((t.root.follow path).enter (.literal l.name)).entries
  rwa [Node.enter_of_mem hnodup hedge]

theorem History.remembers {t : Tree} {past : List Tree} (h : History t past) {path : List Turn}
    {l : Literal} {child : Node} (hedge : (l, child) ∈ (t.root.follow path).literals) :
    Remembers t.rules.ignoreCase (t :: past) path l := by
  induction h generalizing l child with
  | fresh bare =>
      rw [bare, Node.follow_empty] at hedge
      cases hedge
  | @edit t past before edit ih =>
      obtain ⟨hcase, hreshaped⟩ := apply_reshaped t edit
      have horderly := Reachable.orderly ⟨past, before⟩
      have hreachable : (t.apply edit).Reachable := ⟨t :: past, before.edit edit⟩
      have hmem : l.name ∈ ((t.apply edit).root.follow path).names :=
        List.mem_map.mpr ⟨_, hedge, rfl⟩
      have hnow : ∀ own, (t.apply edit).Calls path l.name own →
          own.keys (t.apply edit).rules.ignoreCase ⊆ l.keys (t.apply edit).rules.ignoreCase :=
        fun own hcalls => hreachable.keys_subset hedge hcalls
      rw [hcase] at hnow ⊢
      rcases hreshaped.keeps_or_stems horderly with hkeeps | ⟨e, hstems⟩
      · obtain ⟨child₀, hold⟩ := hkeeps path l child hedge
        exact (ih hold).grow hmem hnow
      · cases hstems path _ hedge with
        | old hold => exact (ih hold).grow hmem hnow
        | merged hold taken below =>
            have hcalls := hreachable.calls hedge below taken
            exact (ih hold).merge hmem hcalls hnow
        | new fresh taken below =>
            refine .new hmem ?_ (hreachable.calls hedge below taken) hnow
            rintro _ ⟨⟩
            exact fresh

/-- In every state of every history, a token selects a literal of a node exactly if a command that
    goes along the literal, or has gone along it since it was created, calls it by that token. This
    is so for every token that differs from such a name, if at all, in the case of ASCII letters. -/
theorem History.findLiteral_iff {t : Tree} {past : List Tree} (h : History t past)
    {path : List Turn} {l : Literal} {child : Node}
    (hedge : (l, child) ∈ (t.root.follow path).literals) {token : String}
    (hfolds : t.rules.ignoreCase = true →
      ∀ s ∈ lifetime (t :: past) path l.name, ∀ own, s.Calls path l.name own →
        ∀ name ∈ own.names, Text.lowercase name = Text.lowercase token →
          Text.sameUpToCase name token = true) :
    (t.root.follow path).findLiteral t.rules.ignoreCase token = some (l, child) ↔
      ∃ s ∈ lifetime (t :: past) path l.name, ∃ own, s.Calls path l.name own ∧
        Literal.key t.rules.ignoreCase token ∈ own.keys t.rules.ignoreCase := by
  have hremembers := h.remembers hedge
  have horderly := (Reachable.orderly ⟨past, h⟩).follow (Node.everywhere_orderly_empty _).here path
  constructor
  · intro hfound
    rw [Node.findLiteral] at hfound
    have hanswers : l.answers t.rules.ignoreCase token = true := by
      simpa using List.find?_some hfound
    obtain ⟨name, hname, hsame⟩ := List.mem_map.mp (Node.key_mem_keys_of_answers hanswers)
    obtain ⟨s, hs, own, hcalls, hown⟩ := hremembers.names name hname
    exact ⟨s, hs, own, hcalls, hsame ▸ List.mem_map_of_mem hown⟩
  · rintro ⟨s, hs, own, hcalls, hkey⟩
    refine horderly.findLiteral_of_answers hedge ?_
    refine (Literal.answers_iff_of_folds ?_).mpr (hremembers.keys s hs own hcalls hkey)
    intro hcase name hname hsame
    obtain ⟨s', hs', own', hcalls', hown'⟩ := hremembers.names name hname
    exact hfolds hcase s' hs' own' hcalls' name hown' hsame

end Tree

/-- `teleport`, for which `tp` may be typed. -/
def Command.teleport : Command :=
  { components := [.literal { name := "teleport", aliases := ["tp"] }] }

/-- `teleport home`. -/
def Command.teleportHome : Command :=
  { components := [.literal { name := "teleport" }, .literal { name := "home" }] }

namespace Tree

/-- `teleport`, where case is ignored. -/
def teleporting : Tree :=
  apply { rules := { ignoreCase := true } } (.insert .teleport)

/-- `teleport home` is left, of both commands. -/
def goingHome : Tree :=
  (teleporting.apply (.insert .teleportHome)).apply (.remove ⟨0, .teleport⟩)

theorem goingHome_history :
    History goingHome [teleporting.apply (.insert .teleportHome), teleporting,
      { rules := { ignoreCase := true } }] :=
  (((History.fresh rfl).edit _).edit _).edit _

/-- The literal still answers to `TP`, for the command that is not there any more. -/
theorem History.findLiteral_iff_teleport :
    ∃ l child past, History goingHome past ∧
      goingHome.root.findLiteral true "TP" = some (l, child) ∧
      ∃ s ∈ lifetime (goingHome :: past) [] l.name, ∃ own, s.Calls [] l.name own ∧
        Literal.key true "TP" ∈ own.keys true := by
  have hedge : ({ name := "teleport", aliases := ["tp"] }, _) ∈
      (goingHome.root.follow []).literals := List.mem_of_getElem? (i := 0) rfl
  have hfound : goingHome.root.findLiteral true "TP" = some _ := rfl
  refine ⟨_, _, _, goingHome_history, hfound,
    (goingHome_history.findLiteral_iff hedge ?_).mp hfound⟩
  -- in none of these states another command goes along the literal
  have hentries : ∀ s ∈ [goingHome, teleporting.apply (.insert .teleportHome), teleporting,
      { rules := { ignoreCase := true } }],
      ∀ e ∈ (s.root.follow [.literal "teleport"]).entries,
        e.command = .teleport ∨ e.command = .teleportHome := by
    simp only [List.forall_mem_cons]
    refine ⟨?_, ?_, ?_, ?_, by simp⟩
    · exact List.forall_mem_singleton.mpr (Or.inr rfl)
    · exact List.forall_mem_cons.mpr ⟨Or.inl rfl, List.forall_mem_singleton.mpr (Or.inr rfl)⟩
    · exact List.forall_mem_singleton.mpr (Or.inl rfl)
    · exact List.forall_mem_nil _
  rintro - s hs own ⟨e, he, htaken⟩
  rcases hentries s ((List.takeWhile_sublist _).subset hs) e he with hown | hown <;>
  · rw [hown] at htaken
    cases htaken
    decide +kernel

/-- A token selects a literal for an alias that no command of the tree has. -/
theorem alias_outlives_command :
    ∃ l child, goingHome.Reachable ∧
      goingHome.root.findLiteral goingHome.rules.ignoreCase "tp" = some (l, child) ∧
      ¬ ∃ own, goingHome.Calls [] l.name own ∧
        own.answers goingHome.rules.ignoreCase "tp" = true := by
  refine ⟨_, _, ⟨_, goingHome_history⟩, rfl, ?_⟩
  rintro ⟨own, ⟨e, he, htaken⟩, hanswers⟩
  have hentries : (goingHome.root.follow [.literal "teleport"]).entries = [⟨1, .teleportHome⟩] := rfl
  obtain rfl := List.mem_singleton.mp (hentries ▸ he)
  cases htaken
  revert hanswers
  decide +kernel

end Tree

end CommandLine
